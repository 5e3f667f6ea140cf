import LuaScope.Files.Walk

/-!
# LuaScope.Workspace.Catalog

Which file a `require` names. The catalog maps bare module names, `util` for `lib/util.lua` and
`net` for `net/init.lua`, to the files of that name. A rescan builds it anew, single files are
added and removed as they come and go.
-/

namespace LuaScope

structure ModuleEntry where
  name : String
  path : String
  /-- The search root the file was found under. -/
  root : String
deriving Repr, DecidableEq, Inhabited

/-- The name a file is required by: its stem, or that of its directory for `init.lua`. -/
def moduleKey? (path : String) : Option String :=
  if !Path.isLuaFile path then none
  else
    match (Path.fileName? path).map (fun n => (Path.splitExtension n).1) with
    | some "init" => (Path.parent? path).bind Path.fileName?
    | stem => stem

/-- Files under their names, for each name in the order of their paths. -/
abbrev ModuleMap := List (String × List ModuleEntry)

namespace ModuleMap

def get (m : ModuleMap) (name : String) : List ModuleEntry :=
  match m.lookup name with
  | some entries => entries
  | none => []

/-- Put the entries under a name; a name without entries is dropped. -/
def set (m : ModuleMap) (name : String) (entries : List ModuleEntry) : ModuleMap :=
  let others := m.filter (fun (n, _) => n != name)
  if entries.isEmpty then others else (name, entries) :: others

def sortByPath (entries : List ModuleEntry) : List ModuleEntry :=
  entries.mergeSort (fun a b => Path.le a.path b.path)

/-- Add an entry behind those that are not after it. -/
def insert (m : ModuleMap) (e : ModuleEntry) : ModuleMap :=
  m.set e.name (sortByPath (m.get e.name ++ [e]))

end ModuleMap

structure Catalog where
  roots : List String := []
  walker : FileWalker := {}
  map : ModuleMap := []
  scanned : Bool := false
deriving Inhabited

/-- Drop paths equal to the one in front of them. -/
def dropRepeats : List String → List String
  | [] => []
  | a :: rest =>
    match dropRepeats rest with
    | [] => [a]
    | b :: others => if Path.same a b then a :: others else a :: b :: others

namespace Catalog

/-- Set roots and filters for later scans; what is known so far stays. -/
def configure (c : Catalog) (t : FileTree) (roots filters : List String) (followLinks : Bool) :
    Catalog :=
  { c with
    roots := dropRepeats (roots.map (fun r => (t.canonicalize? r).getD r))
    walker := ⟨filters, followLinks⟩ }

def scanRoot (c : Catalog) (t : FileTree) (root : String) : List ModuleEntry :=
  if t.isDirectory root then
    (c.walker.walk t root).filterMap (fun path =>
      (moduleKey? path).map (fun name => { name := name, path := path, root := root }))
  else []

/-- Replace the map by what a walk of every root finds now; answers the number of files. -/
def rescan (c : Catalog) (t : FileTree) : Nat × Catalog :=
  let found := c.roots.flatMap (c.scanRoot t)
  let names := (found.map (·.name)).eraseDups
  let map := names.map (fun name =>
    (name, ModuleMap.sortByPath (found.filter (fun e => e.name == name))))
  (found.length, { c with map := map, scanned := true })

/-- The last of the elements with the greatest key. -/
def lastMax {α : Type} (key : α → Nat) : List α → Option α
  | [] => none
  | a :: rest =>
    match lastMax key rest with
    | none => some a
    | some b => if key b < key a then some a else some b

/-- The deepest root that a path lies under. -/
def rootFor (c : Catalog) (path : String) : Option String :=
  lastMax (fun r => (Path.parts r).length) (c.roots.filter (Path.startsWith path))

/-- Add a file that was created; `false` if it lies outside every root, is filtered or known. -/
def addFile (c : Catalog) (t : FileTree) (path : String) : Bool × Catalog :=
  let path := (t.canonicalize? path).getD path
  match moduleKey? path, c.rootFor path with
  | some name, some root =>
    if c.walker.accepts root path && (c.map.get name).all (fun e => !Path.same e.path path) then
      (true, { c with map := c.map.insert { name := name, path := path, root := root } })
    else (false, c)
  | _, _ => (false, c)

/-- The spelling of a deleted file's path with its directory's own path. -/
def deletedSpelling? (t : FileTree) (path : String) : Option String :=
  match (Path.parent? path).bind t.canonicalize?, Path.fileName? path with
  | some parent, some name => some (Path.join parent name)
  | _, _ => none

/-- Is the entry the file that was deleted? Its path may be spelled in either way. -/
def isDeleted (t : FileTree) (path : String) (e : ModuleEntry) : Bool :=
  Path.same e.path path ||
    (match deletedSpelling? t path with
      | some spelled => Path.same e.path spelled
      | none => false)

/-- Remove a file that was deleted; `false` if it was not known. -/
def removeFile (c : Catalog) (t : FileTree) (path : String) : Bool × Catalog :=
  match moduleKey? path with
  | none => (false, c)
  | some name =>
    let entries := c.map.get name
    let left := entries.filter (fun e => !isDeleted t path e)
    if left.length = entries.length then (false, c)
    else (true, { c with map := c.map.set name left })

/-! ## Lookup -/

def nameSegments (name : String) : List String :=
  ((splitWhere (fun ch => ch == '.' || ch == '/') name.toList).filter (!·.isEmpty)).map
    String.ofList

/-- Does the path end with the segments, as a file or as a directory with an `init.lua`? -/
def endsWithSegments (segments : List String) (path : String) : Bool :=
  match segments.getLast? with
  | none => false
  | some last =>
    Path.endsWithParts path ((segments.dropLast ++ [last ++ ".lua"]).map .name) ||
      Path.endsWithParts path ((segments ++ ["init.lua"]).map .name)

/-- The file that provides a module: one whose path ends with the dotted name, or else the first
of those that have its last segment as their name. -/
def resolve (c : Catalog) (name : String) : Option String :=
  let segments := nameSegments name
  match segments.getLast? with
  | none => none
  | some key =>
    let candidates := c.map.get key
    match candidates.find? (fun e => endsWithSegments segments e.path) with
    | some e => some e.path
    | none => candidates.head?.map (·.path)

def entries (c : Catalog) (name : String) : List ModuleEntry := c.map.get name

def names (c : Catalog) : List String := (c.map.map Prod.fst).mergeSort (fun a b => a ≤ b)

def size (c : Catalog) : Nat := c.map.foldl (fun n (_, entries) => n + entries.length) 0

end Catalog

end LuaScope

import LuaScope.Files.Path

/-!
# LuaScope.Files.Tree

A file system as a value: what stands at each absolute path. Symbolic links are followed as a path
is resolved, a parent step leaves the directory that was really reached.
-/

namespace LuaScope

/-- Names from the root down to a place. -/
abbrev Place := List String

inductive FileEntry where
  | directory
  /-- A regular file; `none` for bytes that are no UTF-8 text. -/
  | file (text : Option String)
  | link (target : String)
deriving Repr, DecidableEq, Inhabited

inductive FileError where
  | notFound
  | notDirectory
  | isDirectory
  | alreadyThere
  | tooManyLinks
  | notText
deriving Repr, DecidableEq

def FileError.message : FileError → String
  | .notFound => "No such file or directory (os error 2)"
  | .notDirectory => "Not a directory (os error 20)"
  | .isDirectory => "Is a directory (os error 21)"
  | .alreadyThere => "File exists (os error 17)"
  | .tooManyLinks => "Too many levels of symbolic links (os error 40)"
  | .notText => "stream did not contain valid UTF-8"

/-- Entries below the root, and the directory that relative paths start from. -/
structure FileTree where
  entries : List (Place × FileEntry)
  current : Place := []
deriving Inhabited

def maxLinks : Nat := 40

namespace Place

def text (p : Place) : String := "/" ++ "/".intercalate p

end Place

/-- What is made of the end of a path. -/
structure PathEnding where
  /-- Nothing stands at a place, and these names are left. -/
  missing : Place → List String → Except FileError Place
  /-- A file stands in front of these names. -/
  blocked : List String → FileError

namespace PathEnding

/-- A path to something that stands there. -/
def found : PathEnding := ⟨fun _ _ => .error .notFound, fun _ => .notDirectory⟩

/-- A path to a file that is written and may be a new one; with a slash behind its name it would be
a directory. -/
def written : PathEnding where
  missing p rest :=
    if rest.isEmpty then .ok p
    else .error (if rest.all (· == "") then .isDirectory else .notFound)
  blocked rest := if rest.all (· == "") then .isDirectory else .notDirectory

end PathEnding

namespace FileTree

/-- What stands at a place, links not followed; the root is a directory. -/
def entryAt (t : FileTree) : Place → Option FileEntry
  | [] => some .directory
  | p => t.entries.lookup p

def namesOf (path : String) : List String := (Path.pieces path).map String.ofList

/-- Go through names, from the directory `at`, where `onLink` goes on behind a link. -/
def stepThrough (t : FileTree) (ending : PathEnding)
    (onLink : Place → List String → Except FileError Place) (at' : Place) :
    List String → Except FileError Place
  | [] => .ok at'
  | name :: rest =>
    if name == "" || name == "." then t.stepThrough ending onLink at' rest
    else if name == ".." then t.stepThrough ending onLink at'.dropLast rest
    else
      match t.entryAt (at' ++ [name]) with
      | none => ending.missing (at' ++ [name]) rest
      | some .directory => t.stepThrough ending onLink (at' ++ [name]) rest
      | some (.file _) =>
        if rest.isEmpty then .ok (at' ++ [name]) else .error (ending.blocked rest)
      | some (.link target) =>
        onLink (if Path.isAbsolute target then [] else at') (namesOf target ++ rest)

def resolveWithin (t : FileTree) (ending : PathEnding) :
    Nat → Place → List String → Except FileError Place
  | 0, at', names => t.stepThrough ending (fun _ _ => .error .tooManyLinks) at' names
  | links + 1, at', names => t.stepThrough ending (t.resolveWithin ending links) at' names

def resolveTo (t : FileTree) (ending : PathEnding) (path : String) : Except FileError Place :=
  if path.isEmpty then .error .notFound
  else
    t.resolveWithin ending maxLinks (if Path.isAbsolute path then [] else t.current) (namesOf path)

/-- The place that a path leads to, all links followed. -/
def resolve (t : FileTree) (path : String) : Except FileError Place := t.resolveTo .found path

def canonicalize? (t : FileTree) (path : String) : Option String :=
  match t.resolve path with
  | .ok place => some place.text
  | .error _ => none

def find? (t : FileTree) (path : String) : Option FileEntry :=
  match t.resolve path with
  | .ok place => t.entryAt place
  | .error _ => none

def isDirectory (t : FileTree) (path : String) : Bool := t.find? path == some .directory

/-- The directory that relative paths start from, and those above it, the innermost first. -/
def currentAndAbove (t : FileTree) : List Place :=
  (List.range (t.current.length + 1)).map (fun n => t.current.take (t.current.length - n))

def isFile (t : FileTree) (path : String) : Bool :=
  match t.find? path with
  | some (.file _) => true
  | _ => false

def readText (t : FileTree) (path : String) : Except FileError String :=
  match t.resolve path with
  | .error e => .error e
  | .ok place =>
    match t.entryAt place with
    | some (.file (some text)) => .ok text
    | some (.file none) => .error .notText
    | some .directory => .error .isDirectory
    | _ => .error .notFound

def children (t : FileTree) (dir : Place) : List String :=
  t.entries.filterMap (fun (p, _) =>
    match p.getLast? with
    | some name => if p.dropLast = dir then some name else none
    | none => none)

/-! ## Changes -/

def put (t : FileTree) (p : Place) (e : FileEntry) : FileTree :=
  { t with entries := (p, e) :: t.entries.filter (fun entry => entry.1 ≠ p) }

def erase (t : FileTree) (p : Place) : FileTree :=
  { t with entries := t.entries.filter (fun entry => !p.isPrefixOf entry.1) }

/-- Make the directories that lead to a place, as far as nothing stands there. -/
def makeDirectories (t : FileTree) : Place → List String → FileTree
  | _, [] => t
  | at', name :: rest =>
    let p := at' ++ [name]
    let t := if (t.entryAt p).isSome then t else t.put p .directory
    t.makeDirectories p rest

/-- The place to which a path leads when only its directories are followed. -/
def placeOf (t : FileTree) (path : String) : Place :=
  let fallback := (namesOf path).filter (fun n => n != "" && n != ".")
  match Path.parent? path, Path.fileName? path with
  | some parent, some name =>
    match t.resolve parent with
    | .ok dir => dir ++ [name]
    | .error _ => fallback
  | _, _ => fallback

def create (t : FileTree) (path : String) (e : FileEntry) : FileTree :=
  let p := t.placeOf path
  (t.makeDirectories [] p.dropLast).put p e

/-- Write a file; a link is written through. -/
def write (t : FileTree) (path : String) (text : String) : FileTree :=
  match t.resolve path with
  | .ok place => t.put place (.file (some text))
  | .error _ => t.create path (.file (some text))

/-- Write a file as programs do: through links, into a directory that is there. -/
def writeFile (t : FileTree) (path : String) (text : String) : Except FileError FileTree :=
  match t.resolveTo .written path with
  | .error e => .error e
  | .ok place =>
    match t.entryAt place with
    | none | some (.file _) =>
      if t.entryAt place.dropLast = some .directory then .ok (t.put place (.file (some text)))
      else .error .notFound
    | some _ => .error .isDirectory

/-- Make one directory in another; what stands there already stays, also a link to nothing. -/
def makeDirectory (t : FileTree) (path : String) : Except FileError FileTree :=
  match Path.parent? path, Path.fileName? path with
  | some parent, some name =>
    match if parent.isEmpty then .ok t.current else t.resolve parent with
    | .error e => .error e
    | .ok dir =>
      match t.entryAt dir, t.entryAt (dir ++ [name]) with
      | some .directory, none => .ok (t.put (dir ++ [name]) .directory)
      | some .directory, some _ => .error .alreadyThere
      | some _, _ => .error .notDirectory
      | none, _ => .error .notFound
  | _, _ =>
    match t.resolve path with
    | .ok _ => .error .alreadyThere
    | .error e => .error e

/-- Make a directory and those it stands in, unless it is there; the fuel bounds their number. -/
def ensureDirectory (t : FileTree) : Nat → String → Except FileError FileTree
  | 0, _ => .error .notFound
  | fuel + 1, path =>
    if path.isEmpty || t.isDirectory path then .ok t
    else
      match t.makeDirectory path with
      | .error .notFound =>
        match (Path.parent? path).map (t.ensureDirectory fuel) with
        | some (.ok t) => if t.isDirectory path then .ok t else t.makeDirectory path
        | some (.error e) => .error e
        | none => .error .notFound
      | answer => answer

def ensureParent (t : FileTree) (path : String) : Except FileError FileTree :=
  t.ensureDirectory ((Path.parts path).length + 1) ((Path.parent? path).getD "")

def unlink (t : FileTree) (path : String) : FileTree := t.erase (t.placeOf path)

end FileTree

end LuaScope

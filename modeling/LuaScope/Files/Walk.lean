import LuaScope.Files.Ignore

/-!
# LuaScope.Files.Walk

Finding the Lua files below a root. Search filters stand above ignore files and above the rule that
leaves out hidden names; a directory that is left out is not entered.
-/

namespace LuaScope

structure FileWalker where
  filters : List String := []
  followLinks : Bool := false
deriving Repr, DecidableEq, Inhabited

structure WalkFrame where
  path : String
  place : Place
  /-- Places of the directories around it, which a link must not lead back to. -/
  ancestors : List Place
  /-- Ignore files from here up to the root of the walk, the nearest first. -/
  levels : List IgnoreLevel

structure WalkSetting where
  tree : FileTree
  followLinks : Bool
  filters : SearchFilters
  root : String
  /-- The root's own place, and the ignore files above it. -/
  rootPlace : Place
  above : List IgnoreLevel

namespace WalkSetting

/-- A path of the walk as the directories above the root see it. -/
def absolutePath (s : WalkSetting) (path : String) : String :=
  let tail := (path.toList.drop s.root.length).dropWhile (· == '/')
  Path.join s.rootPlace.text (String.ofList tail)

/-- Of one kind of ignore file the deepest that says something decides; `.ignore` stands above the
other kinds, and filters above all. -/
def verdict (s : WalkSetting) (levels : List IgnoreLevel) (path : String) (isDirectory : Bool) :
    Verdict :=
  let ask (rules : IgnoreLevel → IgnoreRules) : Verdict :=
    (IgnoreLevel.ask levels rules path isDirectory).orElse
      (IgnoreLevel.ask s.above rules (s.absolutePath path) isDirectory)
  .first [s.filters.verdict path isDirectory, ask IgnoreLevel.ignore, ask IgnoreLevel.gitIgnore,
    ask IgnoreLevel.gitExclude]

/-- Is an entry below the root left out? Hidden names are, where nothing else decides. -/
def skips (s : WalkSetting) (levels : List IgnoreLevel) (path name : String)
    (isDirectory : Bool) : Bool :=
  match s.verdict levels path isDirectory with
  | .ignored => true
  | .kept => false
  | .none => name.toList.head? == some '.'

end WalkSetting

/-- What an entry counts as, with its real place; `none` for what the walk passes over. -/
inductive WalkEntry where
  | file
  | directory (place : Place)

namespace WalkSetting

def entryOf (s : WalkSetting) (frame : WalkFrame) (path name : String) : Option WalkEntry :=
  let place := frame.place ++ [name]
  match s.tree.entryAt place with
  | some .directory => some (.directory place)
  | some (.file _) => some .file
  | some (.link _) =>
    if s.followLinks then
      match s.tree.resolve path with
      | .error _ => none
      | .ok target =>
        match s.tree.entryAt target with
        | some .directory =>
          if (frame.place :: frame.ancestors).contains target then none
          else some (.directory target)
        | some (.file _) => some .file
        | _ => none
    else none
  | none => none

def filesBelow (s : WalkSetting) : Nat → WalkFrame → List String
  | 0, _ => []
  | fuel + 1, frame =>
    (s.tree.children frame.place).flatMap (fun name =>
      let path := Path.join frame.path name
      match s.entryOf frame path name with
      | none => []
      | some .file =>
        if s.skips frame.levels path name false then []
        else if Path.isLuaFile path then [path]
        else []
      | some (.directory place) =>
        if s.skips frame.levels path name true then []
        else
          filesBelow s fuel
            { path := path, place := place, ancestors := frame.place :: frame.ancestors,
              levels := .of s.tree path :: frame.levels })

end WalkSetting

namespace FileWalker

/-- Ignore files of the directories around a place, the nearest first. -/
def levelsAbove (t : FileTree) (place : Place) : List IgnoreLevel :=
  (List.range place.length).reverse.map (fun n => IgnoreLevel.of t (Place.text (place.take n)))

/-- Is the root a link that the walk takes for what it is? -/
def isPlainLink (t : FileTree) (root : String) : Bool :=
  match t.entryAt (t.placeOf root) with
  | some (.link _) => true
  | _ => false

/-- All Lua files below a root; a root that is itself a file is its own walk. -/
def walk (w : FileWalker) (t : FileTree) (root : String) : List String :=
  match t.resolve root with
  | .error _ => []
  | .ok place =>
    match t.entryAt place with
    | some (.file _) =>
      if Path.isLuaFile root && (w.followLinks || !isPlainLink t root) then [root] else []
    | some .directory =>
      let s : WalkSetting :=
        { tree := t, followLinks := w.followLinks, filters := .of root w.filters, root := root,
          rootPlace := place, above := levelsAbove t place }
      s.filesBelow ((t.entries.length + 1) * (t.entries.length + 1))
        { path := root, place := place, ancestors := [], levels := [.of t root] }
    | _ => []

/-- Would a walk take this one file, as far as its path alone can tell? -/
def accepts (w : FileWalker) (root path : String) : Bool :=
  if !Path.isLuaFile path then false
  else
    match Path.relativeParts? root path with
    | none => false
    | some below =>
      if below.any (fun part => part.text.toList.head? == some '.') then false
      else (SearchFilters.of root w.filters).verdict path false != .ignored

end FileWalker

end LuaScope

import LuaScope.Text.Blank

/-!
# LuaScope.Files.Path

Paths as texts, compared by their parts: repeated slashes, a trailing slash and inner dots make no
difference.
-/

namespace LuaScope

inductive PathPart where
  | root
  /-- A dot at the front of a relative path. -/
  | here
  | up
  | name (text : String)
deriving Repr, DecidableEq

namespace PathPart

/-- Parts of the text behind a root or a leading dot. -/
def ofPiece? (piece : List Char) : Option PathPart :=
  if piece.isEmpty || piece == ['.'] then none
  else if piece == ['.', '.'] then some .up
  else some (.name (String.ofList piece))

def text : PathPart → String
  | .root => "/"
  | .here => "."
  | .up => ".."
  | .name text => text

/-- Roots come first, names last and in the order of their characters. -/
def rank : PathPart → Nat
  | .root => 0
  | .here => 1
  | .up => 2
  | .name _ => 3

def le (a b : PathPart) : Bool :=
  match a, b with
  | .name s, .name t => s ≤ t
  | a, b => a.rank ≤ b.rank

end PathPart

namespace Path

/-- Pieces between slashes, empty ones included. -/
def pieces (path : String) : List (List Char) := splitWhere (· == '/') path.toList

def isAbsolute (path : String) : Bool := path.toList.head? == some '/'

def parts (path : String) : List PathPart :=
  let ps := pieces path
  let lead :=
    if isAbsolute path then [PathPart.root]
    else if ps.head? == some ['.'] then [.here]
    else []
  lead ++ ps.filterMap PathPart.ofPiece?

/-- The text of parts, with single slashes. -/
def ofParts : List PathPart → String
  | .root :: rest => "/" ++ "/".intercalate (rest.map PathPart.text)
  | ps => "/".intercalate (ps.map PathPart.text)

def join (base path : String) : String :=
  if isAbsolute path || base.isEmpty then path
  else if base.toList.getLast? == some '/' then base ++ path
  else base ++ "/" ++ path

/-- The name at the end, if the path ends in one. -/
def fileName? (path : String) : Option String :=
  match (parts path).getLast? with
  | some (.name text) => some text
  | _ => none

/-- Parts of the directory that holds the path; a root has none. -/
def parentParts? (path : String) : Option (List PathPart) :=
  match (parts path).getLast? with
  | none | some .root => none
  | some _ => some (parts path).dropLast

def parent? (path : String) : Option String := (parentParts? path).map ofParts

/-- A name without its extension, and the extension; a leading dot starts none. -/
def splitExtension (name : String) : String × Option String :=
  let reversed := name.toList.reverse
  let tail := reversed.takeWhile (· != '.')
  match reversed.drop tail.length with
  | [] | [_] => (name, none)
  | _ :: stem => (String.ofList stem.reverse, some (String.ofList tail.reverse))

def extension? (path : String) : Option String := (fileName? path).bind (splitExtension · |>.2)

def startsWith (path base : String) : Bool := (parts base).isPrefixOf (parts path)

/-- Does the path lie below `base` at these parts? -/
def relativeParts? (base path : String) : Option (List PathPart) :=
  if startsWith path base then some ((parts path).drop (parts base).length) else none

def endsWithParts (path : String) (tail : List PathPart) : Bool := tail.isSuffixOf (parts path)

def partsLe : List PathPart → List PathPart → Bool
  | [], _ => true
  | _ :: _, [] => false
  | a :: as, b :: bs => if a = b then partsLe as bs else a.le b

def same (a b : String) : Bool := parts a == parts b

/-- Parts that lead from a directory to a path, up first where the two part ways. -/
def relativeParts : List PathPart → List PathPart → List PathPart
  | path, [] => path
  | [], base => base.map (fun _ => .up)
  | a :: path, b :: base =>
    if a = b then relativeParts path base else (b :: base).map (fun _ => .up) ++ a :: path

/-- The path as seen from an absolute directory, if it has fewer parts than the path itself. -/
def shortened (path base : String) : String :=
  let relative := relativeParts (parts path) (parts base)
  if relative.length < (parts path).length then ofParts relative else path

def le (a b : String) : Bool := partsLe (parts a) (parts b)

def isLuaFile (path : String) : Bool := extension? path == some "lua"

end Path

end LuaScope

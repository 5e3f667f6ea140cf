/-!
# LuaScope.Document.Id

How documents are addressed: a file by a `file` address of its path, anything else by the text the
editor chose. A revision counts the edits of one document.
-/

namespace LuaScope

structure DocumentId where
  uri : String
deriving Repr, DecidableEq, Inhabited

namespace DocumentId

/-- Backslashes become slashes; a path that is not absolute gets a slash in front. -/
def ofPath (path : String) : DocumentId :=
  let shown := path.toList.map (fun c => if c = '\\' then '/' else c)
  match shown with
  | '/' :: _ => ⟨"file://" ++ String.ofList shown⟩
  | _ => ⟨"file:///" ++ String.ofList shown⟩

/-- Is there a drive letter behind the first slash, and something behind its colon? -/
def namesDrive : List Char → Bool
  | '/' :: letter :: ':' :: _ :: _ => letter.utf8Size == 1
  | _ => false

/-- Path of a `file` address; a drive letter stands without the slash in front of it. -/
def toPath? (d : DocumentId) : Option String :=
  match d.uri.toList with
  | 'f' :: 'i' :: 'l' :: 'e' :: ':' :: '/' :: '/' :: rest =>
    some (String.ofList (if namesDrive rest then rest.drop 1 else rest))
  | _ => none

end DocumentId

abbrev Revision := Nat

def Revision.label (r : Revision) : String := "r" ++ toString r

end LuaScope

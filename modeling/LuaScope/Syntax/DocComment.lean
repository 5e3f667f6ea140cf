import LuaScope.Syntax.Token

/-!
# LuaScope.Syntax.DocComment

The documentation of a statement: the run of line comments directly above it, or a single block
comment there.
-/

namespace LuaScope

/-- Strip a text from the front as often as it stands there. -/
def stripRepeated (lead : List Char) : Nat → List Char → List Char
  | 0, cs => cs
  | fuel + 1, cs =>
    if lead.isPrefixOf cs then stripRepeated lead fuel (cs.drop lead.length) else cs

namespace Comment

def opensBlock (c : Comment) : Bool :=
  "--[[".toList.isPrefixOf c.text || "--[=".toList.isPrefixOf c.text

def blockContent (c : Comment) : List Char :=
  let cs := stripRepeated "--[".toList c.text.length c.text
  let cs := trimLeft (· == '[') (trimLeft (· == '=') cs)
  let cs := trimRight (· == ']') (trimRight (· == '=') (trimRight (· == ']') cs))
  trimBlanks cs

def lineContent (c : Comment) : List Char := trimBlanks (trimLeft (· == '-') c.text)

/-- Contents of the comments that belong to what starts in `row`, the nearest comment first. -/
def run (lines : LineTable) (row : Nat) : List Comment → List (List Char)
  | [] => []
  | c :: above =>
    if (lines.position c.span.stop).line + 1 < row then []
    else if c.opensBlock then [c.blockContent]
    else c.lineContent :: run lines (lines.position c.span.start).line above

/-- Documentation of what starts at `offset` with these comments in front of it. -/
def doc? (lines : LineTable) (offset : Nat) (comments : List Comment) : Option String :=
  let contents := (run lines (lines.position offset).line comments.reverse).reverse
  let contents := contents.filter (fun cs => !cs.isEmpty)
  if contents.isEmpty then none
  else some ("\n".intercalate (contents.map String.ofList))

end Comment

end LuaScope

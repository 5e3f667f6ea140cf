import LuaScope.Text.Blank
import LuaScope.Text.Source

/-!
# LuaScope.Text.Cursor

What stands around a cursor, read off the text alone so that it works while a document does not
parse. A cursor splits the text: the characters before it, nearest first, and those behind it.
-/

namespace LuaScope

structure CursorSplit where
  /-- Characters in front of the cursor, the nearest one first. -/
  before : List Char
  after : List Char
deriving Repr, DecidableEq

namespace CursorSplit

/-- Move on while the next character ends at or before `room` further bytes. -/
def advance (before : List Char) : List Char → Nat → CursorSplit
  | [], _ => ⟨before, []⟩
  | c :: cs, room =>
    if c.utf8Size ≤ room then advance (c :: before) cs (room - c.utf8Size) else ⟨before, c :: cs⟩

/-- Split at an offset, moved back to the start of its character and into the text. -/
def of (text : List Char) (offset : Nat) : CursorSplit := advance [] text offset

def offset (c : CursorSplit) : Nat := byteLength c.before

end CursorSplit

/-- A character of a name that the scanners understand: a letter, digit or underscore of ASCII. -/
def isWordChar (c : Char) : Bool := c.isAlphanum || c == '_'

def isSeparator (c : Char) : Bool := c == '.' || c == ':'

def isPathChar (c : Char) : Bool := isWordChar c || isSeparator c

structure Excerpt where
  text : List Char
  span : Span
deriving Repr, DecidableEq

/-- The text that starts at `start` without separators at its ends; it has to start a name. -/
def trimSeparators (text : List Char) (start : Nat) : Option Excerpt :=
  let inner := trimBoth isSeparator text
  match inner with
  | [] => none
  | c :: _ =>
    if c.isDigit then none
    else
      let start := start + (text.takeWhile isSeparator).length
      some ⟨inner, ⟨start, start + byteLength inner⟩⟩

/-- The dotted expression under a cursor: all of the path in front of it and the rest of the name
it stands in. With the cursor inside `b`, `a.b.c` gives `a.b`. -/
def expressionAt (text : List Char) (offset : Nat) : Option Excerpt :=
  let c := CursorSplit.of text offset
  let head := c.before.takeWhile isPathChar
  let tail := c.after.takeWhile isWordChar
  let path := head.reverse ++ tail
  if path.isEmpty then none else trimSeparators path (c.offset - byteLength head)

/-- What a completion completes. -/
structure CompletionPrefix where
  container : Option (List Char)
  typed : List Char
deriving Repr, DecidableEq

def completionPrefix (text : List Char) (offset : Nat) : CompletionPrefix :=
  let typed := (CursorSplit.of text offset).before.takeWhile isPathChar
  let name := typed.takeWhile (fun c => !isSeparator c)
  match typed.drop name.length with
  | [] => ⟨none, name.reverse⟩
  | _ :: container =>
    let container := trimBoth isSeparator container.reverse
    ⟨if container.isEmpty then none else some container, name.reverse⟩

structure CallContext where
  callee : Excerpt
  activeParameter : Nat
deriving Repr, DecidableEq

def CallContext.isMethodCall (c : CallContext) : Bool := c.callee.text.contains ':'

/-- The blanks that may stand between a callee and its opening parenthesis. -/
def isCalleeBlank (c : Char) : Bool :=
  c == ' ' || c == '\t' || c == '\n' || c == '\r' || c == '\x0c'

/-- The path that ends in front of an opening parenthesis. -/
def calleeBefore (before : List Char) : Option Excerpt :=
  let rest := before.dropWhile isCalleeBlank
  let path := rest.takeWhile isPathChar
  trimSeparators path.reverse (byteLength rest - byteLength path)

/-- Walk back to the parenthesis that is still open, past `depth` closed brackets, counting the
commas outside them. A brace or bracket still open ends the search, and so does a blank line. -/
def callBefore (depth commas : Nat) : List Char → Option CallContext
  | [] => none
  | c :: before =>
    if c = ')' ∨ c = '}' ∨ c = ']' then callBefore (depth + 1) commas before
    else if c = '{' ∨ c = '[' then
      if depth = 0 then none else callBefore (depth - 1) commas before
    else if c = '(' then
      if depth = 0 then (calleeBefore before).map (⟨·, commas⟩)
      else callBefore (depth - 1) commas before
    else if c = ',' ∧ depth = 0 then callBefore depth (commas + 1) before
    else if c = '\n' ∧ depth = 0 ∧ before.head? = some '\n' then none
    else callBefore depth commas before

def callContext (text : List Char) (offset : Nat) : Option CallContext :=
  callBefore 0 0 (CursorSplit.of text offset).before

/-- Leading spaces and tabs of the line that holds the offset. -/
def lineIndent (text : List Char) (offset : Nat) : List Char :=
  let c := CursorSplit.of text offset
  let line := (c.before.takeWhile (· != '\n')).reverse ++ c.after
  line.takeWhile (fun c => c == ' ' || c == '\t')

end LuaScope

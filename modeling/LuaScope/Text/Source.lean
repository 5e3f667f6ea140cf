import LuaScope.Text.Position

/-!
# LuaScope.Text.Source

A text together with its table of line starts. Offsets become positions and positions become
offsets here; an offset past the text or past the end of a line is moved back to that end.
-/

namespace LuaScope

/-- Number of bytes the characters take in UTF-8. -/
def byteLength : List Char → Nat
  | [] => 0
  | c :: cs => c.utf8Size + byteLength cs

@[simp] theorem byteLength_nil : byteLength [] = 0 := rfl

@[simp] theorem byteLength_cons (c : Char) (cs : List Char) :
    byteLength (c :: cs) = c.utf8Size + byteLength cs := rfl

@[simp] theorem byteLength_append (xs ys : List Char) :
    byteLength (xs ++ ys) = byteLength xs + byteLength ys := by
  induction xs with
  | nil => simp
  | cons c cs ih => simp [ih]; omega

/-- What is left behind the first `n` bytes; a character cut in two is dropped. -/
def dropBytes : List Char → Nat → List Char
  | cs, 0 => cs
  | [], _ => []
  | c :: cs, n + 1 => dropBytes cs (n + 1 - c.utf8Size)

/-- The characters that start within the first `n` bytes. -/
def takeBytes : List Char → Nat → List Char
  | _, 0 => []
  | [], _ => []
  | c :: cs, n + 1 => c :: takeBytes cs (n + 1 - c.utf8Size)

/-- Offsets at which a line starts, the first one excepted, when the text stands at `offset`. -/
def lineStartsFrom (offset : Nat) : List Char → List Nat
  | [] => []
  | c :: cs =>
    let next := offset + c.utf8Size
    if c = '\n' then next :: lineStartsFrom next cs else lineStartsFrom next cs

/-- Where each line starts, in ascending order, and the length of the text in bytes. -/
structure LineTable where
  starts : List Nat
  size : Nat
deriving Repr, DecidableEq, Inhabited

namespace LineTable

def ofChars (cs : List Char) : LineTable := ⟨0 :: lineStartsFrom 0 cs, byteLength cs⟩

def lineCount (t : LineTable) : Nat := t.starts.length

/-- Byte offset of a position, clamped to its line and to the text. -/
def offset (t : LineTable) (p : Position) : Nat :=
  match t.starts[p.line]? with
  | none => t.size
  | some start =>
    let lineEnd := match t.starts[p.line + 1]? with
      | some next => next - 1
      | none => t.size
    min (start + p.column) lineEnd

/-- Line and start of the last line that starts at or before `offset`. -/
def lastStart (offset line start : Nat) : List Nat → Nat × Nat
  | [] => (line, start)
  | next :: rest =>
    if next ≤ offset then lastStart offset (line + 1) next rest else (line, start)

def position (t : LineTable) (offset : Nat) : Position :=
  let offset := min offset t.size
  let (line, start) := lastStart offset 0 0 t.starts.tail
  ⟨line, offset - start⟩

def range (t : LineTable) (s : Span) : Range := ⟨t.position s.start, t.position s.stop⟩

end LineTable

/-- A text, decoded once. -/
structure Source where
  text : String
  chars : List Char
  lines : LineTable
deriving Inhabited

namespace Source

def ofString (text : String) : Source :=
  let chars := text.toList
  ⟨text, chars, LineTable.ofChars chars⟩

def size (s : Source) : Nat := s.lines.size

def slice (s : Source) (span : Span) : List Char :=
  takeBytes (dropBytes s.chars span.start) (span.stop - span.start)

def range (s : Source) (span : Span) : Range := s.lines.range span

end Source

end LuaScope

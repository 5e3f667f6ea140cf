import LuaScope.Data.Value

/-!
# LuaScope.Toml.Printer

Tables written as a TOML document: every table under its own header with a blank line in front,
values in their order, and lists of two and more items one item a line.
-/

namespace LuaScope

/-- A number that TOML has no place for. -/
inductive TomlUnprintable where
  | tooLarge (n : Nat)
deriving Repr, DecidableEq

def TomlUnprintable.message : TomlUnprintable → String
  | .tooLarge _ => "out-of-range value for u64 type"

namespace Toml

/-- Length of the longest run of a character. -/
def longestRun (c : Char) (cs : List Char) : Nat :=
  (cs.foldl (fun (best, run) d => if d = c then (max best (run + 1), run + 1) else (best, 0))
    (0, 0)).1

/-- A control character that only an escape can write. -/
def needsEscape (c : Char) : Bool :=
  (c.val < 0x20 && c != '\t' && c != '\n') || c.val == 0x7f

def hexPadded (n : Nat) : List Char :=
  let ds := (Nat.toDigits 16 n).map Char.toUpper
  List.replicate (4 - ds.length) '0' ++ ds

/-- A character inside double quotes; a line break stays as it is in a long string. -/
def basicChar (long : Bool) (c : Char) : List Char :=
  match c with
  | '\x08' => ['\\', 'b']
  | '\t' => ['\\', 't']
  | '\x0c' => ['\\', 'f']
  | '\r' => ['\\', 'r']
  | '\\' => ['\\', '\\']
  | '\n' => if long then ['\n'] else ['\\', 'n']
  | c => if needsEscape c then '\\' :: 'u' :: hexPadded c.toNat else [c]

/-- Text inside double quotes, where more than `run` quotes in a row need an escape. -/
def basicText (long : Bool) (run : Nat) : Nat → List Char → List Char
  | _, [] => []
  | seen, '"' :: cs =>
    if seen < run then '"' :: basicText long run (seen + 1) cs
    else '\\' :: '"' :: basicText long run 0 cs
  | _, c :: cs => basicChar long c ++ basicText long run 0 cs

/-- A string, in the plainest quotes that can hold it. -/
def stringText (s : String) : List Char :=
  let cs := s.toList
  let escapes := cs.any needsEscape
  let quotes := longestRun '"' cs
  let apostrophes := longestRun '\'' cs
  let isLong := cs.contains '\n'
  let hasBackslash := cs.contains '\\'
  let long (quote body : List Char) : List Char :=
    quote ++ (if isLong then ['\n'] else []) ++ body ++ quote
  if isLong then
    if !escapes && apostrophes ≤ 2 then long ['\'', '\'', '\''] cs
    else long ['"', '"', '"'] (basicText true 2 0 cs)
  else if !escapes && !hasBackslash && quotes == 0 then '"' :: basicText false 0 0 cs ++ ['"']
  else if !escapes && apostrophes == 0 then '\'' :: cs ++ ['\'']
  else if !escapes && !hasBackslash && quotes ≤ 2 then
    long ['"', '"', '"'] (basicText true 2 0 cs)
  else if !escapes && apostrophes ≤ 2 then long ['\'', '\'', '\''] cs
  else '"' :: basicText false 0 0 cs ++ ['"']

def isBareKey (s : String) : Bool :=
  !s.isEmpty && s.toList.all (fun c => c.isAlphanum || c == '_' || c == '-')

/-- A key without quotes where that is possible. -/
def keyText (s : String) : List Char :=
  let cs := s.toList
  if isBareKey s then cs
  else if !cs.any needsEscape && !cs.contains '\n' && (cs.contains '"' || cs.contains '\\')
      && !cs.contains '\'' then '\'' :: cs ++ ['\'']
  else '"' :: basicText false 0 0 cs ++ ['"']

mutual

/-- A value behind its key; `pretty` puts items of a list on lines of their own. -/
def valueText (pretty : Bool) : DataValue → List Char
  | .unit => []
  | .boolean b => if b then "true".toList else "false".toList
  | .unsigned n => Nat.toDigits 10 n
  | .signed i => Decimal.signText (i < 0) ++ Nat.toDigits 10 i.natAbs
  | .float x => (Decimal.floatTextWithPoint x).toList
  | .text s => stringText s
  | .list items =>
    if pretty && 2 ≤ items.length then '[' :: '\n' :: itemLines items ++ [']']
    else '[' :: itemsText items ++ [']']
  | .table fields => Char.ofNat 0x7b :: fieldsText fields ++ [' ', Char.ofNat 0x7d]

def itemsText : List DataValue → List Char
  | [] => []
  | [v] => valueText false v
  | v :: rest => valueText false v ++ ',' :: ' ' :: itemsText rest

def itemLines : List DataValue → List Char
  | [] => []
  | v :: rest => "    ".toList ++ valueText false v ++ ',' :: '\n' :: itemLines rest

def fieldsText : List (String × DataValue) → List Char
  | [] => []
  | [(key, v)] => ' ' :: keyText key ++ " = ".toList ++ valueText false v
  | (key, v) :: rest =>
    ' ' :: keyText key ++ " = ".toList ++ valueText false v ++ ',' :: fieldsText rest

end

def header (path : List String) : List Char :=
  '[' :: ['.'].intercalate (path.map keyText) ++ [']', '\n']

/-- The lines of fields that are no tables. -/
def plainLines : List (String × DataValue) → List Char
  | [] => []
  | (_, .table _) :: rest => plainLines rest
  | (key, v) :: rest => keyText key ++ " = ".toList ++ valueText true v ++ '\n' :: plainLines rest

mutual

/-- A table under its header and then the tables in it, each as a block of lines. -/
def blocks (path : List String) : DataValue → List (List Char)
  | .table fields => (header path ++ plainLines fields) :: fieldBlocks path fields
  | _ => []

def fieldBlocks (path : List String) : List (String × DataValue) → List (List Char)
  | [] => []
  | (key, v) :: rest => blocks (path ++ [key]) v ++ fieldBlocks path rest

end

mutual

/-- The first number that is too large for a signed one of 64 bits. -/
def tooLarge? : DataValue → Option Nat
  | .unsigned n => if n < Nat.pow 2 63 then none else some n
  | .list items => itemTooLarge? items
  | .table fields => fieldTooLarge? fields
  | _ => none

def itemTooLarge? : List DataValue → Option Nat
  | [] => none
  | v :: rest => (tooLarge? v).orElse (fun _ => itemTooLarge? rest)

def fieldTooLarge? : List (String × DataValue) → Option Nat
  | [] => none
  | (_, v) :: rest => (tooLarge? v).orElse (fun _ => fieldTooLarge? rest)

end

/-- A document with these fields. -/
def print (fields : List (String × DataValue)) : Except TomlUnprintable String :=
  match fieldTooLarge? fields with
  | some n => .error (.tooLarge n)
  | none =>
    let root := plainLines fields
    let parts := (if root.isEmpty then [] else [root]) ++ fieldBlocks [] fields
    .ok (String.ofList (['\n'].intercalate parts))

end Toml

end LuaScope

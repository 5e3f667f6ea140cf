import LuaScope.Editor.Navigate

/-!
# LuaScope.CommandLine.Json

Locations as JSON with two blanks for each level.
-/

namespace LuaScope

/-- JSON without numbers that have a fraction; fields keep their order. -/
inductive JsonValue where
  | number (n : Nat)
  | text (s : String)
  | list (items : List JsonValue)
  | object (fields : List (String × JsonValue))

namespace JsonValue

/-- A control character as `u` and four digits. -/
def controlText (n : Nat) : List Char :=
  let ds := Nat.toDigits 16 n
  '\\' :: 'u' :: (List.replicate (4 - ds.length) '0' ++ ds)

def charText (c : Char) : List Char :=
  match c with
  | '"' => ['\\', '"']
  | '\\' => ['\\', '\\']
  | '\n' => ['\\', 'n']
  | '\r' => ['\\', 'r']
  | '\t' => ['\\', 't']
  | '\x08' => ['\\', 'b']
  | '\x0c' => ['\\', 'f']
  | c => if c.val < 0x20 then controlText c.toNat else [c]

def stringText (s : String) : String :=
  "\"" ++ String.ofList (s.toList.flatMap charText) ++ "\""

def indent (level : Nat) : String := String.ofList (List.replicate (2 * level) ' ')

mutual

/-- The text of a value that stands at a level of nesting. -/
def textAt (level : Nat) : JsonValue → String
  | .number n => toString n
  | .text s => stringText s
  | .list [] => "[]"
  | .list (item :: items) =>
    "[\n" ++ indent (level + 1) ++ textAt (level + 1) item ++ itemsAt (level + 1) items ++
      "\n" ++ indent level ++ "]"
  | .object [] => String.ofList [Char.ofNat 0x7b, Char.ofNat 0x7d]
  | .object ((key, v) :: fields) =>
    String.singleton (Char.ofNat 0x7b) ++ "\n" ++ indent (level + 1) ++ stringText key ++ ": " ++
      textAt (level + 1) v ++ fieldsAt (level + 1) fields ++
      "\n" ++ indent level ++ String.singleton (Char.ofNat 0x7d)

def itemsAt (level : Nat) : List JsonValue → String
  | [] => ""
  | item :: items => ",\n" ++ indent level ++ textAt level item ++ itemsAt level items

def fieldsAt (level : Nat) : List (String × JsonValue) → String
  | [] => ""
  | (key, v) :: fields =>
    ",\n" ++ indent level ++ stringText key ++ ": " ++ textAt level v ++ fieldsAt level fields

end

def pretty (j : JsonValue) : String := textAt 0 j

def ofPosition (p : Position) : JsonValue :=
  .object [("line", .number p.line), ("character", .number p.column)]

def ofRange (r : Range) : JsonValue :=
  .object [("start", ofPosition r.start), ("end", ofPosition r.stop)]

def ofLocation (l : Location) : JsonValue :=
  .object [("document", .text l.document.uri), ("range", ofRange l.range)]

end JsonValue

end LuaScope

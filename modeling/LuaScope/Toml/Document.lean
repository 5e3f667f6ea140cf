import LuaScope.Text.Source
import LuaScope.Toml.Scalar

/-!
# LuaScope.Toml.Document

Tables of TOML. A document is a sequence of headers and of keys with their values; no table is
opened twice by a header, and no value is set twice.
-/

namespace LuaScope

inductive TomlOrigin where
  /-- Passed on the way to another table. -/
  | implied
  | header
  | dotted
deriving Repr, DecidableEq

inductive TomlNode where
  | value (v : DataValue)
  | table (origin : TomlOrigin) (fields : List (String × TomlNode))
  /-- Tables of one name that were opened one after the other. -/
  | tables (elements : List (List (String × TomlNode)))

abbrev TomlFields := List (String × TomlNode)

namespace TomlFields

def set (key : String) (n : TomlNode) : TomlFields → TomlFields
  | [] => [(key, n)]
  | (k, old) :: rest => if k = key then (k, n) :: rest else (k, old) :: set key n rest

def whereIs (place : List String) : String :=
  if place.isEmpty then "document root" else "table `" ++ ".".intercalate place ++ "`"

def duplicate {α : Type} (key : String) (place : List String) : Except String α :=
  .error ("duplicate key `" ++ key ++ "` in " ++ whereIs place)

/-- Change the last of several tables; a first one is made if there is none. -/
def changeLast (f : TomlFields → Except String TomlFields) :
    List TomlFields → Except String (List TomlFields)
  | [] => (f []).map (fun fields => [fields])
  | [last] => (f last).map (fun fields => [fields])
  | first :: rest => (changeLast f rest).map (first :: ·)

/-- Change the table at the end of a header's path. -/
def within (f : TomlFields → Except String TomlFields) :
    List String → TomlFields → Except String TomlFields
  | [], fields => f fields
  | key :: path, fields =>
    match fields.lookup key with
    | none => (within f path []).map (fun inner => fields.set key (.table .implied inner))
    | some (.table origin inner) =>
      (within f path inner).map (fun inner => fields.set key (.table origin inner))
    | some (.tables elements) =>
      (changeLast (within f path) elements).map (fun es => fields.set key (.tables es))
    | some (.value _) => duplicate key []

/-- Set a value below a table along a dotted key. -/
def putValue (v : DataValue) (place : List String) :
    List String → TomlFields → Except String TomlFields
  | [], fields => .ok fields
  | [key], fields =>
    if (fields.lookup key).isSome then duplicate key place else .ok (fields ++ [(key, .value v)])
  | key :: path, fields =>
    match fields.lookup key with
    | none =>
      (putValue v (place ++ [key]) path []).map (fun inner =>
        fields.set key (.table .dotted inner))
    | some (.table .header _) => .error ("duplicate key `" ++ key ++ "`")
    | some (.table origin inner) =>
      (putValue v (place ++ [key]) path inner).map (fun inner =>
        fields.set key (.table origin inner))
    | some (.tables elements) =>
      (changeLast (putValue v (place ++ [key]) path) elements).map (fun es =>
        fields.set key (.tables es))
    | some (.value _) =>
      .error ("dotted key `" ++ ".".intercalate (place ++ [key]) ++
        "` attempted to extend non-table type")

/-- Open a table by its header. -/
def openTable (place : List String) (key : String) (fields : TomlFields) :
    Except String TomlFields :=
  match fields.lookup key with
  | none => .ok (fields.set key (.table .header []))
  | some (.table .implied inner) => .ok (fields.set key (.table .header inner))
  | some _ => duplicate key place

/-- Open one more table of a name. -/
def openElement (place : List String) (key : String) (fields : TomlFields) :
    Except String TomlFields :=
  match fields.lookup key with
  | none => .ok (fields.set key (.tables [[]]))
  | some (.tables elements) => .ok (fields.set key (.tables (elements ++ [[]])))
  | some _ => duplicate key place

end TomlFields

mutual

def TomlNode.toData : TomlNode → DataValue
  | .value v => v
  | .table _ fields => .table (TomlNode.fieldsToData fields)
  | .tables elements => .list (TomlNode.elementsToData elements)

def TomlNode.fieldsToData : List (String × TomlNode) → List (String × DataValue)
  | [] => []
  | (key, n) :: rest => (key, n.toData) :: TomlNode.fieldsToData rest

def TomlNode.elementsToData : List (List (String × TomlNode)) → List DataValue
  | [] => []
  | fields :: rest => .table (TomlNode.fieldsToData fields) :: TomlNode.elementsToData rest

end

namespace TomlReader

/-- Blanks, line breaks and comments; `n` bounds their number. -/
def trivia : Nat → TomlReader Unit
  | 0 => pure ()
  | n + 1 => do
    blanks
    comment
    if ← newline then trivia n

def anyTrivia : TomlReader Unit := do trivia ((← rest).length + 1)

/-- Items up to a closing mark, with commas between them. -/
def items {α : Type} (item : TomlReader α) (gap : TomlReader Unit) (close : Char)
    (trailing : Bool) (problem : String) : Nat → TomlReader (List α)
  | 0 => fault problem
  | n + 1 => do
    let a ← item
    gap
    if ← accept [close] then pure [a]
    else
      expect [','] problem
      gap
      let closes ← looksAt [close]
      if trailing && closes then
        drop 1
        pure [a]
      else return a :: (← items item gap close trailing problem n)

def itemsOrNone {α : Type} (item : TomlReader α) (gap : TomlReader Unit) (close : Char)
    (trailing : Bool) (problem : String) : TomlReader (List α) := do
  gap
  if ← accept [close] then pure []
  else items item gap close trailing problem ((← rest).length + 1)

/-- Fields of a table that is written on one line. -/
def inlineFields (entries : List (List String × DataValue)) : Except String DataValue :=
  (entries.foldlM (fun (fields : TomlFields) (path, v) => fields.putValue v [] path) []).map
    (fun fields => .table (TomlNode.fieldsToData fields))

/-- A value; the fuel bounds how deep values stand in each other. -/
def value : Nat → TomlReader DataValue
  | 0 => fault "recursion limit exceeded"
  | fuel + 1 => do
    match ← peek with
    | some '"' | some '\'' => return .text (String.ofList (← string))
    | some '[' =>
      drop 1
      let problem := "invalid array\nexpected `]`"
      return .list (← itemsOrNone (value fuel) anyTrivia ']' true problem)
    | some c =>
      if c = Char.ofNat 0x7b then
        let start ← rest
        drop 1
        let entry : TomlReader (List String × DataValue) := do
          let path ← key
          expect ['='] "expected `.`, `=`"
          blanks
          return (path, ← value fuel)
        let entries ← itemsOrNone entry blanks (Char.ofNat 0x7d) false
          ("invalid inline table\nexpected `" ++ String.singleton (Char.ofNat 0x7d) ++ "`")
        match inlineFields entries with
        | .ok v => pure v
        | .error problem => faultAt start problem
      else
        let token := TomlNumber.tokenOf (← rest)
        match TomlNumber.longest? token token.length with
        | some (v, n) =>
          drop n
          pure v
        | none => fault "invalid string\nexpected `\"`, `'`"
    | none => fault "invalid string\nexpected `\"`, `'`"

/-- A document while it is read: its tables, and the one that keys go into. -/
structure Draft where
  fields : TomlFields := []
  place : List String := []

def orFault {α : Type} (start : List Char) : Except String α → TomlReader α
  | .ok a => pure a
  | .error problem => faultAt start problem

def header (d : Draft) : TomlReader Draft := do
  let start ← rest
  drop 1
  let isElement ← accept ['[']
  blanks
  let path ← key
  if isElement then expect [']', ']'] "invalid table header\nexpected `.`, `]]`"
  else expect [']'] "invalid table header\nexpected `.`, `]`"
  let name := path.getLast?.getD ""
  let place := path.dropLast
  let put := if isElement then TomlFields.openElement place name
    else TomlFields.openTable place name
  let fields ← orFault start (TomlFields.within put place d.fields)
  return ⟨fields, path⟩

def entry (d : Draft) : TomlReader Draft := do
  let start ← rest
  let path ← key
  expect ['='] "expected `.`, `=`"
  blanks
  let v ← value ((← rest).length + 1)
  let fields ← orFault start
    (TomlFields.within (TomlFields.putValue v d.place path) d.place d.fields)
  return { d with fields := fields }

/-- Lines of a document; `n` bounds their number. -/
def lines : Nat → Draft → TomlReader Draft
  | 0, d => pure d
  | n + 1, d => do
    blanks
    let d ← match ← peek with
      | none | some '#' | some '\n' | some '\r' => pure d
      | some '[' => header d
      | some _ => entry d
    blanks
    comment
    if ← newline then lines n d
    else
      match ← peek with
      | none => pure d
      | some _ => fault "expected newline, `#`"

def document : TomlReader Draft := do
  let _ ← accept [Char.ofNat 0xFEFF]
  lines ((← rest).length + 1) {}

end TomlReader

namespace Toml

/-- The message about a fault, with its line and a mark below the place. -/
def explain (text : List Char) (f : TomlFault) : String :=
  let before := text.take (text.length - f.rest.length)
  let number := toString (before.count '\n' + 1)
  let column := (before.reverse.takeWhile (· != '\n')).length
  let lineStart := before.drop (before.length - column)
  let content := lineStart ++ f.rest.takeWhile (· != '\n')
  let gutter := List.replicate (number.length + 1) ' '
  "TOML parse error at line " ++ number ++ ", column " ++ toString (column + 1) ++ "\n" ++
    String.ofList (gutter ++ "|\n".toList) ++
    number ++ " | " ++ String.ofList content ++ "\n" ++
    String.ofList (gutter ++ '|' :: List.replicate (column + 1) ' ' ++ "^\n".toList) ++
    f.problem ++ "\n"

def read (text : String) : Except String (List (String × DataValue)) :=
  match TomlReader.document text.toList with
  | .ok (draft, _) => .ok (TomlNode.fieldsToData draft.fields)
  | .error f => .error (explain text.toList f)

end Toml

end LuaScope

import LuaScope.Settings.Basic
import LuaScope.Text.Glyph

/-!
# LuaScope.Settings.Decode

Settings read from a value. Fields that are not named keep their defaults and names that mean
nothing are passed over. Of several values that do not fit the one with the least key is reported,
with the path that leads to it.
-/

namespace LuaScope

inductive Misfit where
  | wrongType (found : String) (expected : String)
  | outOfRange (found : String) (expected : String)
  | unknownVariant (found : String)
  /-- The source of the values can not be read at all. -/
  | unreadable (problem : String)
deriving Repr, DecidableEq

namespace Misfit

def message : Misfit → String
  | .wrongType found expected => "invalid type: found " ++ found ++ ", expected " ++ expected
  | .outOfRange found expected => "invalid value " ++ found ++ ", expected " ++ expected
  | .unknownVariant found =>
    "unknown variant: found `" ++ found ++ "`, expected ``single` or `double``"
  | .unreadable problem => problem

end Misfit

structure SettingProblem where
  path : List String := []
  misfit : Misfit
deriving Repr, DecidableEq

abbrev Decoded (α : Type) := Except SettingProblem α

namespace DataValue

/-- A character inside double quotes, escaped where it has to be. -/
def quotedChar (c : Char) : List Char :=
  match c with
  | '"' => ['\\', '"']
  | '\\' => ['\\', '\\']
  | '\n' => ['\\', 'n']
  | '\r' => ['\\', 'r']
  | '\t' => ['\\', 't']
  | c =>
    if c.val = 0 then ['\\', '0']
    else if isGlyphless c then
      ['\\', 'u', Char.ofNat 0x7b] ++ Nat.toDigits 16 c.toNat ++ [Char.ofNat 0x7d]
    else [c]

def quoted (s : String) : String := "\"" ++ String.ofList (s.toList.flatMap quotedChar) ++ "\""

/-- How a value is named where it does not fit. -/
def shown : DataValue → String
  | .unit => "unit"
  | .boolean b => "bool " ++ (if b then "true" else "false")
  | .unsigned n => "unsigned int `" ++ toString n ++ "`"
  | .signed i => "signed int `" ++ toString i ++ "`"
  | .float x => "float `" ++ Decimal.floatText x ++ "`"
  | .text s => "string " ++ quoted s
  | .list _ => "sequence"
  | .table _ => "map"

def misfit {α : Type} (v : DataValue) (expected : String) : Decoded α :=
  .error { misfit := .wrongType v.shown expected }

def toBoolean (v : DataValue) : Decoded Bool :=
  match v with
  | .boolean b => .ok b
  | v => v.misfit "a boolean"

def toText (expected : String) (v : DataValue) : Decoded String :=
  match v with
  | .text s => .ok s
  | v => v.misfit expected

/-- A whole number below a bound, for a type of numbers with this name. -/
def toNatural (bound : Nat) (name : String) (v : DataValue) : Decoded Nat :=
  let outOfRange : Decoded Nat := .error { misfit := .outOfRange v.shown name }
  match v with
  | .unsigned n => if n < bound then .ok n else outOfRange
  | .signed i => if 0 ≤ i ∧ i < bound then .ok i.toNat else outOfRange
  | v => v.misfit name

def toFloat (v : DataValue) : Decoded Float :=
  match v with
  | .unsigned n => .ok (Float.ofNat n)
  | .signed i => .ok (Float.ofInt i)
  | .float x => .ok x
  | v => v.misfit "f64"

/-- Put a step in front of the path of a problem. -/
def under {α : Type} (step : String) : Decoded α → Decoded α
  | .ok a => .ok a
  | .error p => .error { p with path := step :: p.path }

def readItems {α : Type} (read : DataValue → Decoded α) : Nat → List DataValue → Decoded (List α)
  | _, [] => .ok []
  | i, v :: rest =>
    match under (toString i) (read v) with
    | .error p => .error p
    | .ok a =>
      match readItems read (i + 1) rest with
      | .error p => .error p
      | .ok as => .ok (a :: as)

def toList {α : Type} (read : DataValue → Decoded α) (v : DataValue) : Decoded (List α) :=
  match v with
  | .list items => readItems read 0 items
  | v => v.misfit "a sequence"

def toTexts (v : DataValue) : Decoded (List String) := v.toList (toText "a string")

def readFields {α : Type} (read : DataValue → Decoded α) :
    List (String × DataValue) → Decoded (List (String × α))
  | [] => .ok []
  | (key, v) :: rest =>
    match under key (read v) with
    | .error p => .error p
    | .ok a =>
      match readFields read rest with
      | .error p => .error p
      | .ok as => .ok ((key, a) :: as)

/-- A table of texts in the order of its keys. -/
def toTextTable (v : DataValue) : Decoded (List (String × String)) :=
  match v with
  | .table fields => readFields (toText "a string") (sortFields fields)
  | v => v.misfit "a map"

def styleOf (name : String) : Decoded QuoteStyle :=
  match name with
  | "single" => .ok .single
  | "double" => .ok .double
  | other => .error { misfit := .unknownVariant other }

/-- A quote style by its name. A table would name it by its least key, whose value could only be
nothing at all. -/
def toQuoteStyle (v : DataValue) : Decoded QuoteStyle :=
  match v with
  | .text name => styleOf name
  | .table fields =>
    match sortFields fields with
    | [] => (DataValue.table []).misfit "enum"
    | (name, content) :: _ =>
      match styleOf name with
      | .error p => .error p
      | .ok style =>
        match content with
        | .unit => .ok style
        | v => under name (v.misfit "unit")
  | v => v.misfit "enum QuoteStyle"

end DataValue

/-! ## Groups -/

/-- A field of a group: its key and how a value is put into the group. -/
structure GroupField (γ : Type) where
  key : String
  put : γ → DataValue → Decoded γ

namespace GroupField

/-- A field that is read on its own and then set. -/
def of {γ α : Type} (key : String) (read : DataValue → Decoded α) (set : γ → α → γ) :
    GroupField γ :=
  ⟨key, fun g v => (read v).map (set g)⟩

/-- Put the fields of a table into a group. -/
def putFields {γ : Type} (known : List (GroupField γ)) : γ → List (String × DataValue) → Decoded γ
  | g, [] => .ok g
  | g, (key, v) :: rest =>
    match known.find? (fun f => f.key == key) with
    | none => putFields known g rest
    | some f =>
      match DataValue.under key (f.put g v) with
      | .error p => .error p
      | .ok g => putFields known g rest

/-- Put items into the fields of a group in their order; items without a field are passed over. -/
def putItems {γ : Type} : Nat → List (GroupField γ) → γ → List DataValue → Decoded γ
  | i, f :: known, g, v :: rest =>
    match DataValue.under (toString i) (f.put g v) with
    | .error p => .error p
    | .ok g => putItems (i + 1) known g rest
  | _, _, g, _ => .ok g

/-- Read a group over its defaults, from a table or from a list in the order of the fields. -/
def readGroup {γ : Type} (name : String) (known : List (GroupField γ)) (defaults : γ)
    (v : DataValue) : Decoded γ :=
  match v with
  | .table fields => putFields known defaults (DataValue.sortFields fields)
  | .list items => putItems 0 known defaults items
  | v => v.misfit ("struct " ++ name)

end GroupField

namespace Settings

open DataValue GroupField

def toSmall (v : DataValue) : Decoded Nat := v.toNatural (Nat.pow 2 32) "u32"

def toOptionalText (v : DataValue) : Decoded (Option String) :=
  match v with
  | .unit => .ok none
  | v => (v.toText "a string").map some

def checkerGroup : List (GroupField CheckerSettings) :=
  [of "enable" toBoolean fun g b => { g with enable := b },
    of "onSave" toBoolean fun g b => { g with onSave := b },
    of "onTyping" toBoolean fun g b => { g with onTyping := b },
    of "execPath" toOptionalText fun g path => { g with execPath := path },
    of "std" toTexts fun g ts => { g with std := ts },
    of "ignore" toTexts fun g ts => { g with ignore := ts },
    of "jobs" toSmall fun g n => { g with jobs := n },
    of "fileSizeLimit" (toNatural (Nat.pow 2 64) "u64") fun g n => { g with fileSizeLimit := n },
    of "maxProblems" (toNatural (Nat.pow 2 64) "usize") fun g n => { g with maxProblems := n },
    of "configFilePath" (toText "a string") fun g s => { g with configFilePath := s },
    of "keepAfterClosed" toBoolean fun g b => { g with keepAfterClosed := b }]

def searchGroup : List (GroupField SearchSettings) :=
  [of "filters" toTexts fun g ts => { g with filters := ts },
    of "externalPaths" (toList (toText "path string")) fun g ts => { g with externalPaths := ts },
    of "followLinks" toBoolean fun g b => { g with followLinks := b }]

def parserGroup : List (GroupField ParserSettings) :=
  [of "languageVersion" (toText "a string") fun g s => { g with languageVersion := s },
    of "allowDefined" toBoolean fun g b => { g with allowDefined := b }]

def displayGroup : List (GroupField DisplaySettings) :=
  [of "showFunctionGlobalOnly" toBoolean fun g b => { g with showFunctionGlobalOnly := b }]

def formattingGroup : List (GroupField FormattingSettings) :=
  [of "lineWidth" toSmall fun g n => { g with lineWidth := n },
    of "indentCount" toSmall fun g n => { g with indentCount := n },
    of "quoteStyle" toQuoteStyle fun g q => { g with quoteStyle := q }]

def docsGroup : List (GroupField DocSettings) :=
  [of "authorInFunctionLevel" toBoolean fun g b => { g with authorInFunctionLevel := b },
    of "authorName" (toText "a string") fun g s => { g with authorName := s }]

def metricsGroup : List (GroupField MetricsSettings) :=
  [of "enable" toBoolean fun g b => { g with enable := b },
    of "logicalLineMax" toSmall fun g n => { g with logicalLineMax := n },
    of "physicalLineMax" toSmall fun g n => { g with physicalLineMax := n },
    of "cyclomaticMax" toSmall fun g n => { g with cyclomaticMax := n },
    of "maintainabilityMin" toFloat fun g x => { g with maintainabilityMin := x }]

def loggingGroup : List (GroupField LoggingSettings) :=
  [of "default" (toText "a string") fun g s => { g with level := s },
    of "modules" toTextTable fun g ms => { g with modules := ms }]

def groups : List (GroupField Settings) :=
  [of "staticCheck" (readGroup "StaticCheckConfig" checkerGroup {})
      fun s g => { s with staticCheck := g },
    of "search" (readGroup "SearchConfig" searchGroup {}) fun s g => { s with search := g },
    of "parserOptions" (readGroup "ParserConfig" parserGroup {}) fun s g => { s with parser := g },
    of "symbolDisplay" (readGroup "SymbolDisplayConfig" displayGroup {})
      fun s g => { s with display := g },
    of "formatting" (readGroup "FormattingConfig" formattingGroup {})
      fun s g => { s with formatting := g },
    of "docGen" (readGroup "DocGenConfig" docsGroup {}) fun s g => { s with docs := g },
    of "metrics" (readGroup "MetricsConfig" metricsGroup {}) fun s g => { s with metrics := g },
    of "logging" (readGroup "LoggingConfig" loggingGroup {}) fun s g => { s with logging := g }]

/-- Settings from the fields of a table. -/
def ofFields (fields : List (String × DataValue)) : Decoded Settings :=
  readGroup "Settings" groups {} (.table fields)

end Settings

end LuaScope

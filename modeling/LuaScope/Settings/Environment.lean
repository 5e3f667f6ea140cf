import LuaScope.Data.Value
import LuaScope.Text.Blank
import LuaScope.Text.Lowercase

/-!
# LuaScope.Settings.Environment

Settings from environment variables. The name of a variable gives the path of a key, two
underscores standing between its parts; its value is read as a number, a list or whatever it looks
like. Paths are in lower case, so a key with a capital letter can not be reached from here.
-/

namespace LuaScope

/-- Variables that hold settings start with this, in letters of either case. -/
def environmentPrefix : String := "LUASENSE_"

/-- Keys with a capital letter, which names of variables are compared with. -/
def mixedCaseKeys : List String :=
  ["staticCheck", "onSave", "onTyping", "execPath", "configFilePath", "keepAfterClosed",
    "fileSizeLimit", "maxProblems", "externalPaths", "followLinks", "parserOptions",
    "languageVersion", "allowDefined", "symbolDisplay", "showFunctionGlobalOnly", "lineWidth",
    "indentCount", "quoteStyle", "docGen", "authorInFunctionLevel", "authorName",
    "logicalLineMax", "physicalLineMax", "cyclomaticMax", "maintainabilityMin"]

namespace Environment

def toLowerAscii (s : String) : String := String.ofList (s.toList.map Char.toLower)

/-- The pieces between pairs of underscores. -/
def splitPairs : List Char → List (List Char)
  | [] => [[]]
  | '_' :: '_' :: cs => [] :: splitPairs cs
  | c :: cs =>
    match splitPairs cs with
    | [] => [[c]]
    | piece :: rest => (c :: piece) :: rest

/-- The key that a piece of a name means: a known one if it is the same but for case and
underscores, else the piece itself. -/
def keyOf (piece : List Char) : String :=
  let folded := String.ofList (piece.filter (· != '_'))
  match mixedCaseKeys.find? (fun key => toLowerAscii key == folded) with
  | some key => key
  | none => String.ofList piece

/-- `STATIC_CHECK__ON_SAVE` names `staticCheck.onSave`. -/
def keyPath (name : String) : String :=
  ".".intercalate ((splitPairs (lowercase name.toList)).map keyOf)

/-- What stands behind the prefix of a variable's name. -/
def withoutPrefix? (name : String) : Option String :=
  let start := environmentPrefix.toList
  let cs := name.toList
  if (cs.take start.length).map Char.toUpper = start then
    some (String.ofList (cs.drop start.length))
  else none

/-- The keys that a variable leads through, if it is one that holds settings. -/
def pathOf? (name : String) : Option (List String) :=
  (withoutPrefix? name).bind (fun rest =>
    let path := trimBlanks (toLowerAscii (keyPath rest)).toList
    let keys := splitWhere (· == '.') path
    if keys.any List.isEmpty then none else some (keys.map String.ofList))

/-! ## Values -/

def isAsciiBlank (c : Char) : Bool :=
  c == ' ' || c == '\t' || c == '\n' || c == '\x0c' || c == '\r'

/-- Characters that end a bare text. -/
def isSeparator (c : Char) : Bool :=
  c == ',' || c == '[' || c == ']' || c == Char.ofNat 0x7b || c == Char.ofNat 0x7d

def isKeyChar (c : Char) : Bool := c.isAlphanum || c == '_' || c == '-'

/-- A number in an optional sign and digits, smaller than `2 ^ bits` on its side of zero. -/
def wholeNumber? (cs : List Char) : Option DataValue :=
  let (negative, ds) := Decimal.splitSign cs
  if ds.isEmpty || !ds.all Char.isDigit then none
  else
    let n := Decimal.ofDigits ds
    match cs with
    | '-' :: _ => if negative && n ≤ Nat.pow 2 63 then some (.signed (-(n : Int))) else none
    | _ => if n < Nat.pow 2 64 then some (.unsigned n) else none

/-- What a text without quotes means. -/
def bareValue (cs : List Char) : DataValue :=
  let number := if cs.contains '.' then (Decimal.read? cs).map Decimal.toFloat else none
  match number with
  | some x => .float x
  | none => (wholeNumber? cs).getD (.text (String.ofList cs))

/-- The inside of a quoted text, escapes not read yet, and what follows the closing quote. -/
def quotedSpan : List Char → Option (List Char × List Char)
  | [] => none
  | '"' :: rest => some ([], rest)
  | '\\' :: c :: rest => (quotedSpan rest).map (fun (inner, rest) => ('\\' :: c :: inner, rest))
  | c :: rest => (quotedSpan rest).map (fun (inner, rest) => (c :: inner, rest))

def hexOf? (cs : List Char) : Option Nat :=
  cs.foldlM (fun n c =>
    if c.isDigit then some (16 * n + (c.toNat - '0'.toNat))
    else if 'a' ≤ c ∧ c ≤ 'f' then some (16 * n + (c.toNat - 'a'.toNat + 10))
    else if 'A' ≤ c ∧ c ≤ 'F' then some (16 * n + (c.toNat - 'A'.toNat + 10))
    else none) 0

def charOf? (n : Nat) : Option Char := if n.isValidChar then some (Char.ofNat n) else none

/-- Read the escapes of a quoted text; a control character is refused. -/
def unescape? : List Char → Option (List Char)
  | [] => some []
  | '\\' :: 'u' :: a :: b :: c :: d :: rest =>
    match (hexOf? [a, b, c, d]).bind charOf? with
    | some ch => (unescape? rest).map (ch :: ·)
    | none => none
  | '\\' :: c :: rest =>
    match c with
    | '"' => (unescape? rest).map ('"' :: ·)
    | '\\' => (unescape? rest).map ('\\' :: ·)
    | 'b' => (unescape? rest).map ('\x08' :: ·)
    | 'f' => (unescape? rest).map ('\x0c' :: ·)
    | 'n' => (unescape? rest).map ('\n' :: ·)
    | 'r' => (unescape? rest).map ('\r' :: ·)
    | 't' => (unescape? rest).map ('\t' :: ·)
    | _ => none
  | c :: rest => if c.val < 0x20 ∧ c ≠ '\t' then none else (unescape? rest).map (c :: ·)

def quotedText? (cs : List Char) : Option (String × List Char) :=
  match cs with
  | '"' :: cs =>
    (quotedSpan cs).bind (fun (inner, rest) =>
      (unescape? inner).map (fun text => (String.ofList text, rest)))
  | _ => none

def dropBlanks (cs : List Char) : List Char := cs.dropWhile isAsciiBlank

def key? (cs : List Char) : Option (String × List Char) :=
  match cs with
  | '"' :: _ => quotedText? cs
  | cs =>
    let name := cs.takeWhile isKeyChar
    if name.isEmpty then none else some (String.ofList name, cs.drop name.length)

/-- Items up to a closing mark, each followed by a comma or the mark; `n` bounds their number. -/
def items? {α : Type} (item : List Char → Option (α × List Char)) (close : Char) :
    Nat → List Char → Option (List α × List Char)
  | 0, _ => none
  | n + 1, cs =>
    if cs.head? = some close then some ([], cs.tail)
    else
      match item cs with
      | none => none
      | some (a, rest) =>
        if rest.head? = some ',' then
          (items? item close n rest.tail).map (fun (as, rest) => (a :: as, rest))
        else if rest.head? = some close then some ([a], rest.tail)
        else none

/-- Read a value from the front of a text, with blanks around it. -/
def value? : Nat → List Char → Option (DataValue × List Char)
  | 0, _ => none
  | fuel + 1, cs =>
    let cs := dropBlanks cs
    let read : Option (DataValue × List Char) :=
      if "true".toList.isPrefixOf cs then some (.boolean true, cs.drop 4)
      else if "false".toList.isPrefixOf cs then some (.boolean false, cs.drop 5)
      else if cs.head? = some '[' then
        (items? (value? fuel) ']' cs.length cs.tail).map (fun (vs, rest) => (.list vs, rest))
      else if cs.head? = some (Char.ofNat 0x7b) then
        let entry (cs : List Char) : Option ((String × DataValue) × List Char) :=
          match key? (dropBlanks cs) with
          | none => none
          | some (key, rest) =>
            match dropBlanks rest with
            | '=' :: rest => (value? fuel rest).map (fun (v, rest) => ((key, v), rest))
            | _ => none
        (items? entry (Char.ofNat 0x7d) cs.length cs.tail).map (fun (entries, rest) =>
          (.table (entries.foldl (fun fields (key, v) => DataValue.setField key v fields) []), rest))
      else if cs.head? = some '"' then
        (quotedText? cs).map (fun (s, rest) => (.text s, rest))
      else if cs.head? = some '\'' then
        match cs with
        | _ :: c :: '\'' :: rest => some (.text (String.singleton c), rest)
        | _ => none
      else
        let bare := cs.takeWhile (fun c => !isSeparator c)
        some (bareValue (trimBlanks bare), cs.drop bare.length)
    read.map (fun (v, rest) => (v, dropBlanks rest))

/-- What a variable's text means; a text that can not be read to its end stands for itself. -/
def valueOf (text : String) : DataValue :=
  let cs := trimBlanks text.toList
  match value? (cs.length + 1) cs with
  | some (v, []) => v
  | _ => .text (String.ofList cs)

/-- The fields that variables set, in the order of their names. -/
def fields (given : List (String × String)) : List (String × DataValue) :=
  (DataValue.sortFields given).foldl (fun fields (name, text) =>
    match pathOf? name with
    | none => fields
    | some path =>
      match DataValue.nest path (valueOf text) with
      | .table layer => DataValue.mergeFields fields layer
      | _ => fields) []

end Environment

end LuaScope

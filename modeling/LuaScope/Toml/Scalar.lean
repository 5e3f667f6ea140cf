import LuaScope.Data.Value
import LuaScope.Text.Blank

/-!
# LuaScope.Toml.Scalar

Keys, strings, numbers and dates of TOML. A reader takes characters from the front of the text; a
fault keeps what was left of the text where reading stopped.
-/

namespace LuaScope

/-- Why a TOML text can not be read, and what is left from there on. -/
structure TomlFault where
  problem : String
  rest : List Char
deriving Repr, DecidableEq

abbrev TomlReader := StateT (List Char) (Except TomlFault)

namespace TomlReader

def fault {α : Type} (problem : String) : TomlReader α :=
  fun cs => .error ⟨problem, cs⟩

def faultAt {α : Type} (cs : List Char) (problem : String) : TomlReader α :=
  fun _ => .error ⟨problem, cs⟩

def peek : TomlReader (Option Char) := fun cs => .ok (cs.head?, cs)

def rest : TomlReader (List Char) := fun cs => .ok (cs, cs)

def drop (n : Nat) : TomlReader Unit := fun cs => .ok ((), cs.drop n)

def takeWhile (p : Char → Bool) : TomlReader (List Char) :=
  fun cs => .ok (cs.takeWhile p, cs.dropWhile p)

/-- Does the text go on with this? -/
def looksAt (start : List Char) : TomlReader Bool := fun cs => .ok (start.isPrefixOf cs, cs)

def accept (start : List Char) : TomlReader Bool := do
  if ← looksAt start then
    drop start.length
    pure true
  else pure false

def expect (start : List Char) (problem : String) : TomlReader Unit := do
  if ← accept start then pure () else fault problem

def isTomlBlank (c : Char) : Bool := c == ' ' || c == '\t'

def blanks : TomlReader Unit := do
  let _ ← takeWhile isTomlBlank

/-- A control character other than a tab; none may stand in a comment or a string. -/
def isControl (c : Char) : Bool := (c.val < 0x20 && c != '\t') || c.val == 0x7f

def comment : TomlReader Unit := do
  if ← accept ['#'] then
    let _ ← takeWhile (fun c => !isControl c)

def newline : TomlReader Bool := do
  if ← accept ['\n'] then pure true else accept ['\r', '\n']

/-! ## Strings -/

def hexValue? (c : Char) : Option Nat :=
  if c.isDigit then some (c.toNat - '0'.toNat)
  else if 'a' ≤ c ∧ c ≤ 'f' then some (c.toNat - 'a'.toNat + 10)
  else if 'A' ≤ c ∧ c ≤ 'F' then some (c.toNat - 'A'.toNat + 10)
  else none

/-- The number that exactly `n` hexadecimal digits write. -/
def hexNumber (n : Nat) : TomlReader Nat := do
  let ds := ((← rest).take n).filterMap hexValue?
  if ds.length = n then
    drop n
    pure (ds.foldl (fun value d => 16 * value + d) 0)
  else fault "invalid unicode escape sequence"

def unicodeChar (n : Nat) : TomlReader Char := do
  let cs ← rest
  let value ← hexNumber n
  if h : value.isValidChar then pure (Char.ofNatAux value h)
  else faultAt cs "invalid unicode escape sequence"

def escape : TomlReader Char := do
  match ← peek with
  | some 'b' => drop 1; pure '\x08'
  | some 't' => drop 1; pure '\t'
  | some 'n' => drop 1; pure '\n'
  | some 'f' => drop 1; pure '\x0c'
  | some 'r' => drop 1; pure '\r'
  | some '"' => drop 1; pure '"'
  | some '\\' => drop 1; pure '\\'
  | some 'u' => drop 1; unicodeChar 4
  | some 'U' => drop 1; unicodeChar 8
  | _ => fault "invalid escape sequence\nexpected `b`, `f`, `n`, `r`, `t`, `u`, `U`, `\\`, `\"`"

/-- The rest of a string in double quotes on one line; `n` bounds its characters. -/
def basicBody : Nat → TomlReader (List Char)
  | 0 => fault "invalid basic string"
  | n + 1 => do
    match ← peek with
    | some '"' => drop 1; pure []
    | some '\\' =>
      drop 1
      let c ← escape
      return c :: (← basicBody n)
    | some c => if isControl c then fault "invalid basic string" else
      drop 1
      return c :: (← basicBody n)
    | none => fault "invalid basic string"

/-- Quotes that end a long string: the closing three, and up to two that belong to it. -/
def closingQuotes (quote : Char) : TomlReader (Option (List Char)) := do
  let run := (← rest).takeWhile (· == quote)
  if 3 ≤ run.length then
    let inner := min 2 (run.length - 3)
    drop (inner + 3)
    pure (some (List.replicate inner quote))
  else pure none

/-- Blanks and line breaks behind a backslash at the end of a line. -/
def isFolded (c : Char) : Bool := isTomlBlank c || c == '\n' || c == '\r'

def longBasicBody : Nat → TomlReader (List Char)
  | 0 => fault "invalid multiline basic string"
  | n + 1 => do
    match ← closingQuotes '"' with
    | some inner => pure inner
    | none =>
      match ← peek with
      | some '\\' =>
        drop 1
        let gap := (← rest).takeWhile isFolded
        if gap.contains '\n' then
          drop gap.length
          longBasicBody n
        else
          let c ← escape
          return c :: (← longBasicBody n)
      | some c =>
        if ← newline then return '\n' :: (← longBasicBody n)
        else if isControl c then fault "invalid multiline basic string"
        else
          drop 1
          return c :: (← longBasicBody n)
      | none => fault "invalid multiline basic string"

def literalBody : TomlReader (List Char) := do
  let cs ← takeWhile (fun c => c != '\'' && !isControl c)
  expect ['\''] "invalid literal string"
  pure cs

def longLiteralBody : Nat → TomlReader (List Char)
  | 0 => fault "invalid multiline literal string"
  | n + 1 => do
    match ← closingQuotes '\'' with
    | some inner => pure inner
    | none =>
      match ← peek with
      | some c =>
        if ← newline then return '\n' :: (← longLiteralBody n)
        else if isControl c then fault "invalid multiline literal string"
        else
          drop 1
          return c :: (← longLiteralBody n)
      | none => fault "invalid multiline literal string"

/-- A string on one line, the next character being its quote. -/
def shortString : TomlReader (List Char) := do
  if ← accept ['"'] then basicBody ((← rest).length + 1)
  else
    expect ['\''] "invalid string"
    literalBody

/-- Any string; a line break right behind three opening quotes does not count. -/
def string : TomlReader (List Char) := do
  if ← accept ['"', '"', '"'] then
    let _ ← newline
    longBasicBody ((← rest).length + 1)
  else if ← accept ['\'', '\'', '\''] then
    let _ ← newline
    longLiteralBody ((← rest).length + 1)
  else shortString

/-! ## Keys -/

def isBareKeyChar (c : Char) : Bool := c.isAlphanum || c == '_' || c == '-'

def simpleKey : TomlReader String := do
  match ← peek with
  | some '"' | some '\'' => return String.ofList (← shortString)
  | _ =>
    let cs ← takeWhile isBareKeyChar
    if cs.isEmpty then fault "invalid key" else pure (String.ofList cs)

/-- Further parts of a dotted key; `n` bounds their number. -/
def moreKeys : Nat → TomlReader (List String)
  | 0 => pure []
  | n + 1 => do
    blanks
    if ← accept ['.'] then
      blanks
      let key ← simpleKey
      return key :: (← moreKeys n)
    else pure []

def key : TomlReader (List String) := do
  let first ← simpleKey
  return first :: (← moreKeys (← rest).length)

end TomlReader

/-! ## Numbers and dates -/

namespace TomlNumber

/-- Digits of a base, with single underscores between them. -/
def digits? (isDigit : Char → Bool) (cs : List Char) : Option (List Char) :=
  let groups := splitWhere (· == '_') cs
  if groups.all (fun g => !g.isEmpty && g.all isDigit) then some groups.flatten else none

/-- Whole digits without a needless zero in front. -/
def whole? (cs : List Char) : Option (List Char) :=
  match digits? Char.isDigit cs with
  | some ('0' :: _ :: _) => none
  | ds => ds

def inBase (base : Nat) (ds : List Char) : Nat :=
  ds.foldl (fun n c => base * n + (TomlReader.hexValue? c).getD 0) 0

/-- A whole number that 64 bits hold. -/
def inRange (i : Int) : Option DataValue :=
  if -(Nat.pow 2 63 : Int) ≤ i ∧ i < Nat.pow 2 63 then some (.signed i) else none

def isHexDigit (c : Char) : Bool := (TomlReader.hexValue? c).isSome

def isOctalDigit (c : Char) : Bool := '0' ≤ c && c ≤ '7'

def isBinaryDigit (c : Char) : Bool := c == '0' || c == '1'

def integer? (cs : List Char) : Option DataValue :=
  match cs with
  | '0' :: 'x' :: ds => (digits? isHexDigit ds).bind (fun ds => inRange (inBase 16 ds))
  | '0' :: 'o' :: ds => (digits? isOctalDigit ds).bind (fun ds => inRange (inBase 8 ds))
  | '0' :: 'b' :: ds => (digits? isBinaryDigit ds).bind (fun ds => inRange (inBase 2 ds))
  | cs =>
    let (negative, ds) := Decimal.splitSign cs
    (whole? ds).bind (fun ds =>
      let n : Int := Decimal.ofDigits ds
      inRange (if negative then -n else n))

/-- A number with a fraction, an exponent or both. -/
def decimal? (cs : List Char) : Option Float :=
  let (sign, body) := match cs with
    | '-' :: cs => (['-'], cs)
    | '+' :: cs => ([], cs)
    | cs => ([], cs)
  let isMark (c : Char) : Bool := c == 'e' || c == 'E'
  let mantissa := body.takeWhile (fun c => !isMark c)
  let power := body.drop mantissa.length
  let powerDigits := (Decimal.splitSign (power.drop 1)).2
  let whole := mantissa.takeWhile (· != '.')
  let fraction := mantissa.drop whole.length
  if fraction.isEmpty && power.isEmpty then none
  else if (whole? whole).isNone then none
  else if !fraction.isEmpty && (digits? Char.isDigit (fraction.drop 1)).isNone then none
  else if !power.isEmpty && (digits? Char.isDigit powerDigits).isNone then none
  else (Decimal.read? (sign ++ body.filter (· != '_'))).map Decimal.toFloat

def float? (cs : List Char) : Option DataValue :=
  let (negative, magnitude) := Decimal.splitSign cs
  let signed (x : Float) : DataValue := .float (if negative then -x else x)
  if magnitude == "inf".toList then some (signed (1 / 0))
  else if magnitude == "nan".toList then some (signed (0 / 0))
  else (decimal? cs).map .float

/-- Two digits up to a greatest number. -/
def upTo (greatest : Nat) (a b : Char) : Bool :=
  a.isDigit && b.isDigit && Decimal.ofDigits [a, b] ≤ greatest

def isLeapYear (year : Nat) : Bool := year % 4 == 0 && (year % 100 != 0 || year % 400 == 0)

def daysIn (year month : Nat) : Nat :=
  if month = 2 then (if isLeapYear year then 29 else 28)
  else if month = 4 ∨ month = 6 ∨ month = 9 ∨ month = 11 then 30
  else 31

/-- What is left behind a date. -/
def afterDate? : List Char → Option (List Char)
  | a :: b :: c :: d :: '-' :: e :: f :: '-' :: g :: h :: rest =>
    if [a, b, c, d].all Char.isDigit && upTo 12 e f && g.isDigit && h.isDigit then
      let month := Decimal.ofDigits [e, f]
      let day := Decimal.ofDigits [g, h]
      if 1 ≤ month ∧ 1 ≤ day ∧ day ≤ daysIn (Decimal.ofDigits [a, b, c, d]) month then some rest
      else none
    else none
  | _ => none

/-- What is left behind a time of day with seconds, and a fraction of them. -/
def afterTime? : List Char → Option (List Char)
  | a :: b :: ':' :: c :: d :: ':' :: e :: f :: rest =>
    if upTo 23 a b && upTo 59 c d && upTo 60 e f then
      match rest with
      | '.' :: fraction =>
        let left := fraction.dropWhile Char.isDigit
        if left.length < fraction.length then some left else none
      | rest => some rest
    else none
  | _ => none

/-- Is this the offset of a time zone, or nothing? -/
def isOffset : List Char → Bool
  | [] => true
  | ['Z'] | ['z'] => true
  | [sign, a, b, ':', c, d] => (sign == '+' || sign == '-') && upTo 23 a b && upTo 59 c d
  | _ => false

def isDateTime (cs : List Char) : Bool :=
  match afterDate? cs with
  | some [] => true
  | some (mark :: time) =>
    (mark == 'T' || mark == 't' || mark == ' ') &&
      (match afterTime? time with
        | some offset => isOffset offset
        | none => false)
  | none => afterTime? cs == some []

/-- A date is a table with one field of a name that no file uses. -/
def dateTime? (cs : List Char) : Option DataValue :=
  if isDateTime cs then
    some (.table [("$__toml_private_datetime", .text (String.ofList cs))])
  else none

/-- The value that exactly these characters write. -/
def ofToken? (cs : List Char) : Option DataValue :=
  match cs with
  | ['t', 'r', 'u', 'e'] => some (.boolean true)
  | ['f', 'a', 'l', 's', 'e'] => some (.boolean false)
  | cs => (dateTime? cs).orElse (fun _ => (float? cs).orElse (fun _ => integer? cs))

def isTokenChar (c : Char) : Bool :=
  c.isAlphanum || c == '+' || c == '-' || c == '.' || c == '_' || c == ':'

/-- Characters that may write a number or a date; a space may part a date from its time. -/
def tokenOf (cs : List Char) : List Char :=
  let token := cs.takeWhile isTokenChar
  match afterDate? token, cs.drop token.length with
  | some [], ' ' :: a :: b :: ':' :: _ =>
    if a.isDigit && b.isDigit then
      token ++ ' ' :: (cs.drop (token.length + 1)).takeWhile isTokenChar
    else token
  | _, _ => token

/-- The longest beginning of a token that is a value, with its length. -/
def longest? (token : List Char) : Nat → Option (DataValue × Nat)
  | 0 => none
  | n + 1 =>
    match ofToken? (token.take (n + 1)) with
    | some v => some (v, n + 1)
    | none => longest? token n

end TomlNumber

end LuaScope

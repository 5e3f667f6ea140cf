import LuaScope.Text.Blank
import LuaScope.Text.Source

/-!
# LuaScope.Syntax.Token

Tokens of a Lua text. `Token.scan` reads one token or comment at the front of the remaining
characters and says how many of them it took, always the longest match; `Lexeme.ofChars` cuts a
whole text, and hangs each comment on the token behind it.
-/

namespace LuaScope

inductive Keyword where
  | and | break | do | else | elseif | end | false | for | function | goto | if | in | local
  | nil | not | or | repeat | return | then | true | until | while
deriving Repr, DecidableEq

def Keyword.ofString? : String → Option Keyword
  | "and" => some .and
  | "break" => some .break
  | "do" => some .do
  | "else" => some .else
  | "elseif" => some .elseif
  | "end" => some .end
  | "false" => some .false
  | "for" => some .for
  | "function" => some .function
  | "goto" => some .goto
  | "if" => some .if
  | "in" => some .in
  | "local" => some .local
  | "nil" => some .nil
  | "not" => some .not
  | "or" => some .or
  | "repeat" => some .repeat
  | "return" => some .return
  | "then" => some .then
  | "true" => some .true
  | "until" => some .until
  | "while" => some .while
  | _ => none

inductive Mark where
  | plus | minus | star | slash | doubleSlash | percent | caret | hash | ampersand | tilde | pipe
  | less | greater | lessEqual | greaterEqual | equal | notEqual | shiftLeft | shiftRight
  | assign | leftParen | rightParen | leftBrace | rightBrace | leftBracket | rightBracket
  | semicolon | colon | doubleColon | comma | dot | concat | ellipsis
deriving Repr, DecidableEq

/-- The longest operator or punctuation mark at the front, with its length. -/
def Mark.scan : List Char → Option (Mark × Nat)
  | '.' :: '.' :: '.' :: _ => some (.ellipsis, 3)
  | '.' :: '.' :: _ => some (.concat, 2)
  | '.' :: _ => some (.dot, 1)
  | '/' :: '/' :: _ => some (.doubleSlash, 2)
  | '/' :: _ => some (.slash, 1)
  | '<' :: '<' :: _ => some (.shiftLeft, 2)
  | '<' :: '=' :: _ => some (.lessEqual, 2)
  | '<' :: _ => some (.less, 1)
  | '>' :: '>' :: _ => some (.shiftRight, 2)
  | '>' :: '=' :: _ => some (.greaterEqual, 2)
  | '>' :: _ => some (.greater, 1)
  | '=' :: '=' :: _ => some (.equal, 2)
  | '=' :: _ => some (.assign, 1)
  | '~' :: '=' :: _ => some (.notEqual, 2)
  | '~' :: _ => some (.tilde, 1)
  | ':' :: ':' :: _ => some (.doubleColon, 2)
  | ':' :: _ => some (.colon, 1)
  | '+' :: _ => some (.plus, 1)
  | '-' :: _ => some (.minus, 1)
  | '*' :: _ => some (.star, 1)
  | '%' :: _ => some (.percent, 1)
  | '^' :: _ => some (.caret, 1)
  | '#' :: _ => some (.hash, 1)
  | '&' :: _ => some (.ampersand, 1)
  | '|' :: _ => some (.pipe, 1)
  | '(' :: _ => some (.leftParen, 1)
  | ')' :: _ => some (.rightParen, 1)
  | '{' :: _ => some (.leftBrace, 1)
  | '}' :: _ => some (.rightBrace, 1)
  | '[' :: _ => some (.leftBracket, 1)
  | ']' :: _ => some (.rightBracket, 1)
  | ';' :: _ => some (.semicolon, 1)
  | ',' :: _ => some (.comma, 1)
  | _ => none

inductive Token where
  | name (text : String)
  | keyword (k : Keyword)
  | mark (m : Mark)
  | number
  /-- A string literal; `none` stands for an empty one. -/
  | literal (content : Option String)
  /-- A first line that starts with `#`. -/
  | shebang
deriving Repr, DecidableEq

/-! ## Character classes -/

/-- Control characters of the Latin range, blanks and the characters Lua gives a meaning. -/
def isDelimiter (c : Char) : Bool :=
  c.val < 0x20 || (0x7F ≤ c.val && c.val ≤ 0x9F) ||
  " +-*/%^#&~|<>=()\x7b\x7d[];:,.\\\x27\x22".toList.contains c

/-- A character that can stand inside a name; letters of every script can. -/
def isNameChar (c : Char) : Bool := !isDelimiter c

/-- A digit cannot stand first. -/
def isNameStart (c : Char) : Bool := isNameChar c && !c.isDigit

def isHexDigit (c : Char) : Bool :=
  c.isDigit || ('a' ≤ c && c ≤ 'f') || ('A' ≤ c && c ≤ 'F')

/-! ## Numerals -/

/-- Length of the front part whose characters satisfy `p`. -/
def runLength (p : Char → Bool) (cs : List Char) : Nat := (cs.takeWhile p).length

/-- Length of the suffix of a 64-bit integer, in either case. -/
def wideSuffix : List Char → Nat
  | a :: b :: c :: _ =>
    if a.toLower = 'l' ∧ b.toLower = 'l' then 2
    else if a.toLower = 'u' ∧ b.toLower = 'l' ∧ c.toLower = 'l' then 3 else 0
  | [a, b] => if a.toLower = 'l' ∧ b.toLower = 'l' then 2 else 0
  | _ => 0

/-- Length of the suffix of an imaginary number. -/
def imaginarySuffix : List Char → Nat
  | c :: _ => if c = 'i' ∨ c = 'I' then 1 else 0
  | [] => 0

/-- Length of an exponent introduced by `mark`, zero if it is incomplete. -/
def exponentLength (mark : Char) : List Char → Nat
  | c :: cs =>
    if c.toLower = mark then
      match cs with
      | s :: ds =>
        if s = '+' ∨ s = '-' then
          let n := runLength Char.isDigit ds
          if n = 0 then 0 else n + 2
        else
          let n := runLength Char.isDigit cs
          if n = 0 then 0 else n + 1
      | [] => 0
    else 0
  | [] => 0

/-- Length of digits with an optional point; at least one digit. -/
def mantissaLength (digit : Char → Bool) (cs : List Char) : Nat :=
  let whole := runLength digit cs
  match cs.drop whole with
  | '.' :: rest =>
    let fraction := runLength digit rest
    if whole = 0 ∧ fraction = 0 then 0 else whole + 1 + fraction
  | _ => whole

/-- Length of a numeral in one base, without its base mark. -/
def basedLength (digit : Char → Bool) (exponentMark : Char) (cs : List Char) : Nat :=
  let whole := runLength digit cs
  let wide := wideSuffix (cs.drop whole)
  if whole ≠ 0 ∧ wide ≠ 0 then whole + wide
  else
    let n := mantissaLength digit cs
    if n = 0 then 0
    else
      let n := n + exponentLength exponentMark (cs.drop n)
      n + imaginarySuffix (cs.drop n)

def binaryLength (cs : List Char) : Nat :=
  let n := runLength (fun c => c = '0' ∨ c = '1') cs
  if n = 0 then 0
  else
    let wide := wideSuffix (cs.drop n)
    if wide ≠ 0 then n + wide else n + imaginarySuffix (cs.drop n)

/-- Length of the longest numeral at the front, zero if there is none. -/
def numberLength (cs : List Char) : Nat :=
  let decimal := basedLength Char.isDigit 'e' cs
  match cs with
  | '0' :: b :: rest =>
    let based :=
      if b = 'x' ∨ b = 'X' then basedLength isHexDigit 'p' rest
      else if b = 'b' ∨ b = 'B' then binaryLength rest
      else 0
    if based = 0 then decimal else based + 2
  | _ => decimal

/-! ## Strings and comments -/

/-- Where the reader of a quoted string stands. -/
inductive QuoteState where
  | plain
  | escape
  /-- Two, then one, hexadecimal digits have to follow. -/
  | hex2 | hex1
  /-- A brace, a first hexadecimal digit, further digits or the closing brace have to follow. -/
  | codeOpen | codeFirst | codeRest

/-- State behind a backslash and the character `c`, `none` for an unknown escape. -/
def QuoteState.ofEscape (c : Char) : Option QuoteState :=
  if "\nabfnrtvz\\\x27\x22".toList.contains c || c.isDigit then some .plain
  else if c = 'x' then some .hex2
  else if c = 'u' then some .codeOpen
  else none

/-- Length up to and including the closing quote, `none` if the string does not end well. -/
def quotedLength (quote : Char) : QuoteState → List Char → Option Nat
  | _, [] => none
  | .plain, c :: cs =>
    if c = quote then some 1
    else (quotedLength quote (if c = '\\' then .escape else .plain) cs).map (· + 1)
  | .escape, c :: cs =>
    match QuoteState.ofEscape c with
    | some state => (quotedLength quote state cs).map (· + 1)
    | none => none
  | .hex2, c :: cs => if isHexDigit c then (quotedLength quote .hex1 cs).map (· + 1) else none
  | .hex1, c :: cs => if isHexDigit c then (quotedLength quote .plain cs).map (· + 1) else none
  | .codeOpen, c :: cs =>
    if c = '{' then (quotedLength quote .codeFirst cs).map (· + 1) else none
  | .codeFirst, c :: cs =>
    if isHexDigit c then (quotedLength quote .codeRest cs).map (· + 1) else none
  | .codeRest, c :: cs =>
    if isHexDigit c then (quotedLength quote .codeRest cs).map (· + 1)
    else if c = '}' then (quotedLength quote .plain cs).map (· + 1)
    else none

/-- Number of equals signs of an opening long bracket at the front. -/
def longBracketLevel : List Char → Option Nat
  | '[' :: cs =>
    let level := runLength (· = '=') cs
    match cs.drop level with
    | '[' :: _ => some level
    | _ => none
  | _ => none

/-- Does a closing long bracket without its first `]` stand at the front? -/
def closesLevel (level : Nat) (cs : List Char) : Bool :=
  runLength (· = '=') cs == level && (cs.drop level).head? == some ']'

/-- Length of the content in front of the closing bracket of this level. -/
def longContentLength (level : Nat) : List Char → Option Nat
  | [] => none
  | c :: cs =>
    if c = ']' ∧ closesLevel level cs then some 0
    else (longContentLength level cs).map (· + 1)

/-- Start of the content, its length and the length of a long bracket at the front. -/
def longBracket (level : Nat) (cs : List Char) : Option (Nat × Nat × Nat) :=
  match longContentLength level (cs.drop (level + 2)) with
  | some n => some (level + 2, n, n + 2 * (level + 2))
  | none => none

def contentOf (cs : List Char) : Option String :=
  if cs.isEmpty then none else some (String.ofList cs)

/-- Length of a comment; the characters start behind its two dashes. -/
def commentLength (cs : List Char) : Option Nat :=
  match longBracketLevel cs with
  | some level => (longBracket level cs).map (fun (_, _, n) => n)
  | none => some (runLength (fun c => c != '\r' && c != '\n') cs)

/-! ## Scanning -/

inductive Scanned where
  | comment
  | token (t : Token)

/-- What stands at the front, a blank excepted, and its length. -/
def Token.scan (cs : List Char) : Option (Scanned × Nat) :=
  match cs with
  | [] => none
  | c :: rest =>
    if isNameStart c then
      let n := runLength isNameChar cs
      let word := String.ofList (cs.take n)
      match Keyword.ofString? word with
      | some k => some (.token (.keyword k), n)
      | none => some (.token (.name word), n)
    else if numberLength cs ≠ 0 then some (.token .number, numberLength cs)
    else if c = '\x22' ∨ c = '\x27' then
      match quotedLength c .plain rest with
      | some n => some (.token (.literal (contentOf (rest.take (n - 1)))), n + 1)
      | none => none
    else
      match cs with
      | '-' :: '-' :: body => (commentLength body).map (fun n => (.comment, n + 2))
      | _ =>
        match longBracketLevel cs with
        | some level =>
          match longBracket level cs with
          | some (start, length, n) =>
            some (.token (.literal (contentOf ((cs.drop start).take length))), n)
          | none => none
        | none => (Mark.scan cs).map (fun (m, n) => (.token (.mark m), n))

structure Comment where
  text : List Char
  span : Span
deriving Repr, DecidableEq

/-- A token in its place, with the comments between it and the token before. -/
structure Lexeme where
  token : Token
  span : Span
  comments : List Comment
deriving Repr, DecidableEq

namespace Lexeme

/--
Cut the characters that stand at `offset`. `opening` holds until the first token is read, `skip`
counts the characters of the token just read that are still to pass.
-/
def scanFrom (offset : Nat) (opening : Bool) (comments : List Comment) :
    Nat → List Char → Option (List Lexeme)
  | _, [] => some []
  | skip + 1, c :: cs => scanFrom (offset + c.utf8Size) opening comments skip cs
  | 0, c :: cs =>
    if isLuaBlank c then scanFrom (offset + c.utf8Size) opening comments 0 cs
    else
      let found :=
        if opening && c = '#' then
          some (.token .shebang, runLength (· != '\n') (c :: cs))
        else Token.scan (c :: cs)
      match found with
      | none => none
      | some (.comment, n) =>
        let text := (c :: cs).take n
        let comment := ⟨text, ⟨offset, offset + byteLength text⟩⟩
        scanFrom (offset + c.utf8Size) opening (comments ++ [comment]) (n - 1) cs
      | some (.token t, n) =>
        match scanFrom (offset + c.utf8Size) false [] (n - 1) cs with
        | none => none
        | some rest =>
          some (⟨t, ⟨offset, offset + byteLength ((c :: cs).take n)⟩, comments⟩ :: rest)

/-- All tokens of a text in order; a byte order mark at the front is skipped. -/
def ofChars : List Char → Option (List Lexeme)
  | '\uFEFF' :: cs => scanFrom 3 true [] 0 cs
  | cs => scanFrom 0 true [] 0 cs

end Lexeme

end LuaScope

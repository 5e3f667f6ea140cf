import LuaScope.Text.Blank

/-!
# LuaScope.Files.Glob

Patterns for paths. `*` and `?` stop at slashes, `**` crosses them, `[...]` is a class of
characters and `{a,b}` a choice. A pattern is read into tokens and matched byte by byte.
-/

namespace LuaScope

abbrev Bytes := List UInt8

inductive GlobToken where
  | literal (bytes : Bytes)
  /-- `?` -/
  | any
  /-- `*` -/
  | star
  /-- `**` at the front: nothing, or directories. -/
  | anyDirectories
  /-- `/**/` -/
  | innerDirectories
  /-- `/**` at the end -/
  | anyBelow
  /-- `[...]`, as ranges of single bytes. -/
  | class (negated : Bool) (ranges : List (UInt8 × UInt8))
  | choice (branches : List (List GlobToken))

abbrev Glob := List GlobToken

namespace Glob

def slash : UInt8 := 47

def isSlash (c : Option Char) : Bool := c == some '/'

/-! ## Reading -/

inductive GlobError where
  | unclosedClass | invalidRange | danglingEscape | unopenedChoice | unclosedChoice
deriving Repr, DecidableEq

/-- A class read so far: its ranges, the last one first, and whether a dash waits for an end. -/
structure ClassState where
  ranges : List (Char × Char) := []
  first : Bool := true
  inRange : Bool := false

/-- Let the last range end in `c`. -/
def ClassState.extend (s : ClassState) (c : Char) : Except GlobError ClassState :=
  match s.ranges with
  | (low, _) :: rest =>
    if c < low then .error .invalidRange else .ok ⟨(low, c) :: rest, false, false⟩
  | [] => .ok ⟨[(c, c)], false, false⟩

/-- Read a class up to its `]`; a class may also hold `]` as its first character. -/
def readClass (s : ClassState) : List Char → Except GlobError (List (Char × Char) × List Char)
  | [] => .error .unclosedClass
  | c :: cs =>
    if c = ']' ∧ !s.first then
      .ok ((if s.inRange then ('-', '-') :: s.ranges else s.ranges).reverse, cs)
    else if c = '-' ∧ !s.first ∧ !s.inRange then readClass { s with inRange := true } cs
    else if s.inRange ∧ c ≠ ']' then
      match s.extend c with
      | .ok s => readClass s cs
      | .error e => .error e
    else readClass ⟨(c, c) :: s.ranges, false, if c = ']' then s.inRange else false⟩ cs

/-- An open choice: the finished branches, the last one first, and the tokens of the branch in
front of it. -/
structure Pending where
  branches : List Glob
  outer : Glob

def bytesOf (c : Char) : Bytes := (String.singleton c).toUTF8.toList

/-- A range of characters as ranges of bytes. A class stands for one byte, so the bytes of a longer
character count one by one; the range itself lies between the two bytes that meet at its dash. -/
def byteRanges (low high : Char) : List (UInt8 × UInt8) :=
  let single (b : UInt8) : UInt8 × UInt8 := (b, b)
  if low = high then (bytesOf low).map single
  else
    match (bytesOf low).reverse, bytesOf high with
    | last :: lead, first :: rest =>
      lead.reverse.map single ++ (last, first) :: rest.map single
    | _, _ => []

/-- State of reading: the tokens of the current branch, the last one first. -/
structure ReadState where
  tokens : Glob := []
  open' : List Pending := []
  previous : Option Char := none
  /-- A `[` without end was met; from there on it is an ordinary character. -/
  classesOff : Bool := false

namespace ReadState

def push (s : ReadState) (t : GlobToken) : ReadState := { s with tokens := t :: s.tokens }

/-- What `**` means here, when `next` is the character behind it. The answer says whether that
character is part of it. -/
def doubleStar (s : ReadState) (next : Option Char) : ReadState × Bool :=
  let plain := ((s.push .star).push .star, false)
  if s.tokens.isEmpty then
    if next.isNone ∨ isSlash next then (s.push .anyDirectories, next.isSome)
    else plain
  else if !isSlash s.previous then plain
  else
    let atEnd := next.isNone || (!s.open'.isEmpty && (next == some ',' || next == some '}'))
    if !atEnd ∧ !isSlash next then plain
    else
      match s.tokens with
      | .anyDirectories :: _ => (s, !atEnd)
      | .anyBelow :: _ => (s, !atEnd)
      | _ :: rest =>
        ({ s with tokens := (if atEnd then .anyBelow else .innerDirectories) :: rest }, !atEnd)
      | [] => (s, !atEnd)

def close (s : ReadState) : Except GlobError ReadState :=
  match s.open' with
  | [] => .error .unopenedChoice
  | p :: rest =>
    .ok { s with
      tokens := .choice (s.tokens.reverse :: p.branches).reverse :: p.outer
      open' := rest }

def comma (s : ReadState) : ReadState :=
  match s.open' with
  | [] => s.push (.literal [44])
  | p :: rest =>
    { s with tokens := [], open' := { p with branches := s.tokens.reverse :: p.branches } :: rest }

end ReadState

def literal (c : Char) : GlobToken := .literal (bytesOf c)

/-- Read a pattern. With `lenient`, a `[` without end is an ordinary character. -/
def readFrom (lenient : Bool) : Nat → ReadState → List Char → Except GlobError ReadState
  | 0, s, _ => .ok s
  | _, s, [] => .ok s
  | fuel + 1, s, c :: cs =>
    let next (s : ReadState) (last : Char) (rest : List Char) : Except GlobError ReadState :=
      readFrom lenient fuel { s with previous := some last } rest
    if c = '?' then next (s.push .any) c cs
    else if c = '*' then
      match cs with
      | '*' :: rest =>
        match s.doubleStar rest.head? with
        | (s, true) => next s '/' (rest.drop 1)
        | (s, false) => next s '*' rest
      | _ => next (s.push .star) c cs
    else if c = '[' ∧ !s.classesOff then
      let (negated, body) := match cs with
        | '!' :: rest => (true, rest)
        | '^' :: rest => (true, rest)
        | _ => (false, cs)
      match readClass {} body with
      | .ok (ranges, rest) =>
        next (s.push (.class negated (ranges.flatMap (fun (low, high) => byteRanges low high))))
          ']' rest
      | .error .unclosedClass =>
        if lenient then next { s.push (literal '[') with classesOff := true } c cs
        else .error .unclosedClass
      | .error e => .error e
    else if c = '{' then
      next { s with tokens := [], open' := ⟨[], s.tokens⟩ :: s.open' } c cs
    else if c = '}' then
      match s.close with
      | .ok s => next s c cs
      | .error e => .error e
    else if c = ',' then next s.comma c cs
    else if c = '\\' then
      match cs with
      | [] => .error .danglingEscape
      | d :: rest => next (s.push (literal d)) d rest
    else next (s.push (literal c)) c cs

def read (lenient : Bool) (pattern : List Char) : Except GlobError Glob :=
  match readFrom lenient (pattern.length + 1) {} pattern with
  | .error e => .error e
  | .ok s => if s.open'.isEmpty then .ok s.tokens.reverse else .error .unclosedChoice

/-! ## Matching -/

def afterLiteral : Bytes → Bytes → Option Bytes
  | [], input => some input
  | _ :: _, [] => none
  | b :: bs, x :: input => if b = x then afterLiteral bs input else none

/-- Pass any number of bytes that satisfy `p`. -/
def passing (p : UInt8 → Bool) (k : Bytes → Bool) : Bytes → Bool
  | [] => k []
  | b :: rest => k (b :: rest) || (p b && passing p k rest)

/-- Pass everything up to and including some slash. -/
def behindSlash (k : Bytes → Bool) : Bytes → Bool
  | [] => false
  | b :: rest => (b == slash && k rest) || behindSlash k rest

def inRanges (ranges : List (UInt8 × UInt8)) (b : UInt8) : Bool :=
  ranges.any (fun (low, high) => low ≤ b && b ≤ high)

mutual

/-- Match one token at the front, then go on with what follows. -/
def matchToken : GlobToken → (Bytes → Bool) → Bytes → Bool
  | .literal bytes, k, input =>
    match afterLiteral bytes input with
    | some rest => k rest
    | none => false
  | .any, k, input =>
    match input with
    | b :: rest => b != slash && k rest
    | [] => false
  | .star, k, input => passing (· != slash) k input
  | .anyDirectories, k, input => k input || behindSlash k input
  | .innerDirectories, k, input =>
    match input with
    | b :: rest => b == slash && (k rest || behindSlash k rest)
    | [] => false
  | .anyBelow, k, input =>
    match input with
    | b :: rest => b == slash && passing (fun _ => true) k rest
    | [] => false
  | .class negated ranges, k, input =>
    match input with
    | b :: rest => (inRanges ranges b != negated) && k rest
    | [] => false
  | .choice branches, k, input => matchChoice branches k input

def matchTokens : List GlobToken → (Bytes → Bool) → Bytes → Bool
  | [], k, input => k input
  | t :: rest, k, input => matchToken t (matchTokens rest k) input

/-- Match one of the branches that are not empty. -/
def matchBranches : List (List GlobToken) → (Bytes → Bool) → Bytes → Bool
  | [], _, _ => false
  | [] :: rest, k, input => matchBranches rest k input
  | (t :: ts) :: rest, k, input => matchTokens (t :: ts) k input || matchBranches rest k input

/-- A choice between empty branches alone is no condition. -/
def matchChoice : List (List GlobToken) → (Bytes → Bool) → Bytes → Bool
  | [], k, input => k input
  | [] :: rest, k, input => matchChoice rest k input
  | (t :: ts) :: rest, k, input => matchTokens (t :: ts) k input || matchBranches rest k input

end

/-- Does the whole path match? A pattern of directories alone matches everything. -/
def isMatch (g : Glob) (path : Bytes) : Bool :=
  match g with
  | [.anyDirectories] => true
  | g => matchTokens g List.isEmpty path

end Glob

end LuaScope

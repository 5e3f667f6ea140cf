/-!
# LuaScope.Decimal.Basic

Decimal numbers: their positional text, how a text is read and the float nearest to one.
-/

namespace LuaScope

/-- The number `digits · 10 ^ exponent`, or its negation. -/
structure Decimal where
  negative : Bool
  digits : Nat
  exponent : Int
deriving Repr, DecidableEq, Inhabited

namespace Decimal

def digitChars (n : Nat) : List Char := Nat.toDigits 10 n

def digitValue (c : Char) : Nat := c.toNat - '0'.toNat

def ofDigits (cs : List Char) : Nat := cs.foldl (fun n c => 10 * n + digitValue c) 0

def signText (negative : Bool) : List Char := if negative then ['-'] else []

/-- All digits of the number without an exponent, `2` for two. -/
def positional (d : Decimal) : List Char :=
  let ds := digitChars d.digits
  let magnitude :=
    match d.exponent with
    | .ofNat e => ds ++ List.replicate e '0'
    | .negSucc k =>
      let places := k + 1
      if places < ds.length then
        ds.take (ds.length - places) ++ '.' :: ds.drop (ds.length - places)
      else '0' :: '.' :: (List.replicate (places - ds.length) '0' ++ ds)
  signText d.negative ++ magnitude

def isIntegral (d : Decimal) : Bool := 0 ≤ d.exponent

/-- Powers of ten beyond these round to infinity or to zero, whatever the digits. -/
def greatestPower : Int := 310

def leastPower : Int := -330

def toFloat (d : Decimal) : Float :=
  let power := (digitChars d.digits).length + d.exponent
  let magnitude : Float :=
    if d.digits = 0 ∨ power < leastPower then 0
    else if greatestPower < power then 1 / 0
    else Float.ofScientific d.digits (d.exponent < 0) d.exponent.natAbs
  if d.negative then -magnitude else magnitude

def splitSign : List Char → Bool × List Char
  | '-' :: cs => (true, cs)
  | '+' :: cs => (false, cs)
  | cs => (false, cs)

/-- The exponent behind the mark `e`; zero for no text at all. -/
def readExponent? : List Char → Option Int
  | [] => some 0
  | mark :: cs =>
    let (negative, ds) := splitSign cs
    if (mark == 'e' || mark == 'E') && !ds.isEmpty && ds.all Char.isDigit then
      some (if negative then -(ofDigits ds : Int) else ofDigits ds)
    else none

/-- Read digits with at most one point between or beside them, and an exponent. -/
def read? (cs : List Char) : Option Decimal :=
  let (negative, cs) := splitSign cs
  let whole := cs.takeWhile Char.isDigit
  let rest := cs.drop whole.length
  let fraction := match rest with
    | '.' :: cs => cs.takeWhile Char.isDigit
    | _ => []
  let rest := match rest with
    | '.' :: cs => cs.drop fraction.length
    | cs => cs
  if whole.isEmpty && fraction.isEmpty then none
  else
    (readExponent? rest).map (fun e =>
      { negative := negative, digits := ofDigits (whole ++ fraction),
        exponent := e - fraction.length })

end Decimal

end LuaScope

import LuaScope.Decimal.Basic

/-!
# LuaScope.Decimal.Shortest

The decimal with the fewest digits that reads back as a given float. A finite float is
`mantissa · 2 ^ exponent`; what reads back as it is an interval around it. The grids of multiples
of `10 ^ p` are tried from coarse to fine, and on the first grid that meets the interval the point
nearest to the float is taken, of two equally near ones the greater.
-/

namespace LuaScope

structure Binary where
  mantissa : Nat
  exponent : Int
  /-- The float below is half as far away as the one above. -/
  narrowBelow : Bool
deriving Repr, DecidableEq

namespace Binary

def ofFields (e f : Nat) : Binary :=
  if e = 0 then ⟨f, -1074, false⟩ else ⟨f + Nat.pow 2 52, e - 1075, f == 0 && 1 < e⟩

/-- Quarters of a unit, written as a quotient: numerators per quarter and the denominator. -/
def quarter (b : Binary) : Nat × Nat :=
  match b.exponent - 2 with
  | .ofNat e => (Nat.pow 2 e, 1)
  | .negSucc k => (1, Nat.pow 2 (k + 1))

/-- Lower end, value and upper end of the interval in quarters of a unit. -/
def quarters (b : Binary) : Nat × Nat × Nat :=
  (4 * b.mantissa - (if b.narrowBelow then 1 else 2), 4 * b.mantissa, 4 * b.mantissa + 2)

/-- The point of the grid `10 ^ p` that lies in the interval, nearest to the value. -/
def pointOn (b : Binary) (p : Int) : Option Nat :=
  let (unit, den) := b.quarter
  let up := match p with
    | .ofNat _ => 1
    | .negSucc k => Nat.pow 10 (k + 1)
  let den := match p with
    | .ofNat e => den * Nat.pow 10 e
    | .negSucc _ => den
  let (low, value, high) := b.quarters
  let low := low * unit * up
  let value := value * unit * up
  let high := high * unit * up
  let inside (c : Nat) : Bool :=
    if b.mantissa % 2 = 0 then low ≤ c * den && c * den ≤ high
    else low < c * den && c * den < high
  let below := value / den
  match inside below, inside (below + 1) with
  | true, true => some (if 2 * value < (2 * below + 1) * den then below else below + 1)
  | true, false => some below
  | false, true => some (below + 1)
  | false, false => none

/-- A power of ten above the value. -/
def topPower (b : Binary) : Int := (b.exponent + b.mantissa.log2) * 30103 / 100000 + 2

/-- Try this many grids from `10 ^ p` on. -/
def search (b : Binary) : Nat → Int → Option (Nat × Int)
  | 0, _ => none
  | fuel + 1, p =>
    match b.pointOn p with
    | some c => some (c, p)
    | none => b.search fuel (p - 1)

/-- More grids than there are between the coarsest and that of seventeen digits. -/
def gridCount : Nat := 24

end Binary

namespace Decimal

/-- The shortest decimal that reads back; infinities and what is no number have none. -/
def ofFloat? (x : Float) : Option Decimal :=
  let bits := x.toBits.toNat
  let negative := bits / Nat.pow 2 63 == 1
  let e := bits / Nat.pow 2 52 % Nat.pow 2 11
  let b := Binary.ofFields e (bits % Nat.pow 2 52)
  if e = 2047 then none
  else if b.mantissa = 0 then some ⟨negative, 0, 0⟩
  else (b.search Binary.gridCount b.topPower).map (fun (c, p) => ⟨negative, c, p⟩)

/-- Positional text of a float, `2` for two. -/
def floatText (x : Float) : String :=
  match ofFloat? x with
  | some d => String.ofList d.positional
  | none => if x.isNaN then "NaN" else if x < 0 then "-inf" else "inf"

/-- The text with a fraction in every case, `2.0` for two. -/
def floatTextWithPoint (x : Float) : String :=
  match ofFloat? x with
  | some d => if d.isIntegral then floatText x ++ ".0" else floatText x
  | none => if x.isNaN then "nan" else floatText x

end Decimal

end LuaScope

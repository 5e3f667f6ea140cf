/-!
# LuaScope.Text.Position

Places in a text: a byte offset, a zero-based line and column, a half-open span of bytes and a
range of positions. Columns count UTF-8 bytes.
-/

namespace LuaScope

structure Position where
  line : Nat
  column : Nat
deriving Repr, DecidableEq, Inhabited

namespace Position

/-- Line first, then column. -/
def le (p q : Position) : Bool :=
  p.line < q.line || (p.line == q.line && p.column ≤ q.column)

instance : LE Position := ⟨fun p q => p.le q = true⟩

instance (p q : Position) : Decidable (p ≤ q) := inferInstanceAs (Decidable (_ = true))

theorem le_iff {p q : Position} :
    p ≤ q ↔ p.line < q.line ∨ (p.line = q.line ∧ p.column ≤ q.column) := by
  show p.le q = true ↔ _
  simp [le]

theorem le_trans {p q r : Position} (hpq : p ≤ q) (hqr : q ≤ r) : p ≤ r := by
  rw [le_iff] at *; omega

theorem le_antisymm {p q : Position} (hpq : p ≤ q) (hqp : q ≤ p) : p = q := by
  cases p; cases q
  simp only [le_iff] at hpq hqp
  simp only [Position.mk.injEq]
  omega

end Position

structure Range where
  start : Position
  stop : Position
deriving Repr, DecidableEq, Inhabited

/-- Inclusive at both ends. -/
def Range.contains (r : Range) (p : Position) : Bool := r.start ≤ p && p ≤ r.stop

/-- The bytes from `start` up to, but not including, `stop`. -/
structure Span where
  start : Nat
  stop : Nat
deriving Repr, DecidableEq, Inhabited

namespace Span

/-- Inclusive at both ends, so that a cursor right behind a name still hits it. -/
def contains (s : Span) (offset : Nat) : Bool := s.start ≤ offset && offset ≤ s.stop

def length (s : Span) : Nat := s.stop - s.start

def isEmpty (s : Span) : Bool := s.start == s.stop

theorem contains_iff {s : Span} {o : Nat} : s.contains o = true ↔ s.start ≤ o ∧ o ≤ s.stop := by
  simp [contains]

end Span

end LuaScope

import LuaScope.Proofs.Text.Segments
import LuaScope.Toml.Printer
import LuaScope.Toml.Scalar
import Mathlib.Data.List.Basic
import Mathlib.Data.List.TakeWhile

/-!
# LuaScope.Proofs.Toml.Number

Numbers that are written are read back.

* `TomlNumber.ofToken?_digits` — a whole number, as a signed one.
* `TomlNumber.IsPointed`       — how a float is written: digits, a point and digits.
* `TomlNumber.ReadsBack`       — a float whose text is read as the float itself.
-/

namespace LuaScope

open Toml

/-! ## Digits -/

/-- Digits and nothing else. -/
def AllDigits (ds : List Char) : Prop := ds ≠ [] ∧ ∀ c ∈ ds, c.isDigit = true

namespace AllDigits

variable {ds : List Char} {c : Char}

theorem notMem (h : AllDigits ds) (hc : c.isDigit = false) : c ∉ ds := by
  intro hmem
  rw [h.2 c hmem] at hc
  cases hc

theorem isTokenChar (h : AllDigits ds) : ∀ c ∈ ds, TomlNumber.isTokenChar c = true := by
  intro c hc
  have hdigit := h.2 c hc
  simp [TomlNumber.isTokenChar, Char.isAlphanum, hdigit]

theorem digits? (h : AllDigits ds) : TomlNumber.digits? Char.isDigit ds = some ds := by
  have hall : ds.all Char.isDigit = true := List.all_eq_true.mpr h.2
  have hne : ds.isEmpty = false := List.isEmpty_eq_false_iff.mpr h.1
  have hone : splitWhere (· == '_') ds = [ds] :=
    splitWhere_eq_singleton fun c hc => beq_eq_false_iff_ne.mpr fun heq =>
      h.notMem (by decide) (heq ▸ hc)
  rw [TomlNumber.digits?, hone]
  simp [hall, hne]

theorem append {ds' : List Char} (h : AllDigits ds) (h' : ∀ c ∈ ds', c.isDigit = true) :
    AllDigits (ds ++ ds') :=
  ⟨List.append_ne_nil_of_left_ne_nil h.1 _,
    fun c hc => (List.mem_append.mp hc).elim (h.2 c) (h' c)⟩

theorem head_ne (h : AllDigits ds) (hc : c.isDigit = false) (cs : List Char) : ds ≠ c :: cs := by
  rintro rfl
  exact h.notMem hc (.head _)

end AllDigits

theorem allDigits_toDigits (n : Nat) : AllDigits (Nat.toDigits 10 n) := by
  refine ⟨List.ne_nil_of_length_pos Nat.length_toDigits_pos, fun c hc => ?_⟩
  exact Nat.isDigit_of_mem_toDigits (Nat.zero_lt_succ 9) (Nat.le_refl 10) hc

/-- A number begins with a zero only if it is zero. -/
theorem allDigits_zero : AllDigits ['0'] := allDigits_toDigits 0

theorem head?_toDigits {n : Nat} (hn : 0 < n) : (Nat.toDigits 10 n).head? ≠ some '0' := by
  induction n using Nat.strongRecOn with
  | ind n ih =>
    by_cases hsmall : n < 10
    · rw [Nat.toDigits_of_lt_base hsmall]
      have hdigits : ∀ d < 10, 0 < d → [Nat.digitChar d].head? ≠ some '0' := by decide
      exact hdigits n hsmall hn
    · rw [Nat.toDigits_of_base_le (Nat.one_lt_succ_succ 8) (Nat.le_of_not_lt hsmall),
        List.head?_append_of_ne_nil _ (allDigits_toDigits _).1]
      exact ih (n / 10) (by omega) (by omega)

namespace TomlNumber

variable {cs ds : List Char} {x : Float}

theorem ne_of_isTokenChar {c : Char} (h : isTokenChar c = true) (mark : Char)
    (hmark : isTokenChar mark = false) : c ≠ mark := by
  rintro rfl
  rw [h] at hmark
  cases hmark

theorem afterDate?_eq_none (h : '-' ∉ cs.drop 1) : afterDate? cs = none := by
  unfold afterDate?
  split
  · simp at h
  · rfl

theorem dateTime?_eq_none (h : '-' ∉ cs.drop 1) (hcolon : ':' ∉ cs) : dateTime? cs = none := by
  have htime : afterTime? cs = none := by
    unfold afterTime?
    split
    · simp at hcolon
    · rfl
  rw [dateTime?, isDateTime, afterDate?_eq_none h, htime]
  rfl

theorem whole?_toDigits (n : Nat) : whole? (Nat.toDigits 10 n) = some (Nat.toDigits 10 n) := by
  unfold whole?
  rw [(allDigits_toDigits n).digits?]
  split
  · rename_i heq
    have hdigits := Option.some.inj heq
    by_cases hn : n = 0
    · subst hn
      cases hdigits
    · refine absurd ?_ (head?_toDigits (Nat.pos_of_ne_zero hn))
      rw [hdigits]
      rfl
  · rfl

theorem ofDigits_toDigits (n : Nat) : Decimal.ofDigits (Nat.toDigits 10 n) = n :=
  Nat.ofDigitChars_toDigits (Nat.one_lt_succ_succ 8) (Nat.le_refl 10)

theorem splitSign_digits (h : AllDigits ds) : Decimal.splitSign ds = (false, ds) := by
  unfold Decimal.splitSign
  split
  · exact absurd rfl (h.head_ne (by decide) _)
  · exact absurd rfl (h.head_ne (by decide) _)
  · rfl

theorem decimal?_digits (h : AllDigits ds) : decimal? ds = none := by
  have htake : ∀ p : Char → Bool, (∀ c, c.isDigit = true → p c = true) → ds.takeWhile p = ds :=
    fun p hp => List.takeWhile_eq_self_iff.mpr fun c hc => hp c (h.2 c hc)
  have hmark : ∀ c : Char, c.isDigit = true → (!(c == 'e' || c == 'E')) = true := by
    intro c hc
    rw [Bool.not_eq_true', Bool.or_eq_false_iff, beq_eq_false_iff_ne, beq_eq_false_iff_ne]
    constructor <;> rintro rfl <;> exact absurd hc (by decide)
  have hpoint : ∀ c : Char, c.isDigit = true → (c != '.') = true := by
    intro c hc
    rw [bne_iff_ne]
    rintro rfl
    exact absurd hc (by decide)
  unfold decimal?
  split
  rename_i sign body heq
  split at heq
  · exact absurd rfl (h.head_ne (by decide) _)
  · exact absurd rfl (h.head_ne (by decide) _)
  · obtain ⟨rfl, rfl⟩ := Prod.mk.inj heq
    simp only [htake _ hmark, htake _ hpoint, List.drop_length]
    rfl

theorem float?_digits (h : AllDigits ds) : float? ds = none := by
  have hinf : (ds == "inf".toList) = false :=
    beq_eq_false_iff_ne.mpr (h.head_ne (by decide) _)
  have hnan : (ds == "nan".toList) = false :=
    beq_eq_false_iff_ne.mpr (h.head_ne (by decide) _)
  rw [float?, splitSign_digits h]
  simp only [hinf, hnan, decimal?_digits h, Bool.false_eq_true, if_false]
  rfl

theorem inRange_natCast {n : Nat} (hn : n < Nat.pow 2 63) : inRange n = some (.signed n) := by
  unfold inRange
  rw [if_pos]
  constructor
  · exact Int.le_trans (Int.neg_nonpos_of_nonneg (Int.natCast_nonneg _)) (Int.natCast_nonneg _)
  · exact Int.ofNat_lt.mpr hn

/-- Without a mark of another base behind a zero the digits are decimal. -/
theorem integer?_decimal (hx : ∀ cs, ds ≠ '0' :: 'x' :: cs) (ho : ∀ cs, ds ≠ '0' :: 'o' :: cs)
    (hb : ∀ cs, ds ≠ '0' :: 'b' :: cs) :
    integer? ds = (whole? (Decimal.splitSign ds).2).bind fun ds' =>
      inRange (if (Decimal.splitSign ds).1 then -(Decimal.ofDigits ds' : Int)
        else Decimal.ofDigits ds') := by
  unfold integer?
  split
  · exact absurd rfl (hx _)
  · exact absurd rfl (ho _)
  · exact absurd rfl (hb _)
  · rfl

theorem integer?_digits {n : Nat} (hn : n < Nat.pow 2 63) :
    integer? (Nat.toDigits 10 n) = some (.signed n) := by
  have hdigits := allDigits_toDigits n
  have hbase : ∀ mark cs, mark.isDigit = false → Nat.toDigits 10 n ≠ '0' :: mark :: cs := by
    intro mark cs hmark heq
    exact hdigits.notMem hmark (heq ▸ .tail _ (.head _))
  rw [integer?_decimal (fun cs => hbase 'x' cs rfl) (fun cs => hbase 'o' cs rfl)
      (fun cs => hbase 'b' cs rfl),
    splitSign_digits hdigits, whole?_toDigits, Option.bind_some, ofDigits_toDigits]
  exact inRange_natCast hn

/-- A text that begins like a number is no truth value. -/
theorem ofToken?_number (hnumber : ∀ c, cs.head? = some c → c ≠ 't' ∧ c ≠ 'f')
    (hdate : '-' ∉ cs.drop 1) (hcolon : ':' ∉ cs) :
    ofToken? cs = (float? cs).orElse fun _ => integer? cs := by
  unfold ofToken?
  split
  · exact absurd rfl (hnumber 't' rfl).1
  · exact absurd rfl (hnumber 'f' rfl).2
  · rw [dateTime?_eq_none hdate hcolon]
    rfl

theorem ofToken?_digits {n : Nat} (hn : n < Nat.pow 2 63) :
    ofToken? (Nat.toDigits 10 n) = some (.signed n) := by
  have hdigits := allDigits_toDigits n
  rw [ofToken?_number, float?_digits hdigits, integer?_digits hn]
  · rfl
  · intro c hc
    have hdigit := hdigits.2 c (List.mem_of_head? hc)
    constructor <;> rintro rfl <;> exact absurd hdigit (by decide)
  · exact fun hmem => hdigits.notMem (by decide) (List.mem_of_mem_drop hmem)
  · exact hdigits.notMem (by decide)

/-- The text of a number with a fraction. -/
def IsPointed (cs : List Char) : Prop := ∃ negative whole fraction,
  cs = Decimal.signText negative ++ (whole ++ '.' :: fraction) ∧ AllDigits whole ∧ AllDigits fraction

namespace IsPointed

theorem mem (h : IsPointed cs) {c : Char} (hc : c ∈ cs.drop 1) : c = '.' ∨ c.isDigit = true := by
  obtain ⟨negative, whole, fraction, rfl, hwhole, hfraction⟩ := h
  have hmem : c ∈ whole ++ '.' :: fraction := by
    cases negative with
    | false => exact List.mem_of_mem_drop hc
    | true => exact hc
  rcases List.mem_append.mp hmem with hc | hc
  · exact .inr (hwhole.2 c hc)
  rcases List.mem_cons.mp hc with rfl | hc
  · exact .inl rfl
  · exact .inr (hfraction.2 c hc)

theorem head (h : IsPointed cs) : ∃ c rest, cs = c :: rest ∧ (c = '-' ∨ c.isDigit = true) := by
  obtain ⟨negative, whole, fraction, rfl, hwhole, -⟩ := h
  cases negative with
  | true => exact ⟨'-', _, rfl, .inl rfl⟩
  | false =>
    obtain ⟨c, whole, rfl⟩ := List.exists_cons_of_ne_nil hwhole.1
    exact ⟨c, _, rfl, .inr (hwhole.2 c (.head _))⟩

theorem isTokenChar (h : IsPointed cs) : ∀ c ∈ cs, TomlNumber.isTokenChar c = true := by
  have hdigit : ∀ c : Char, c.isDigit = true → TomlNumber.isTokenChar c = true := by
    intro c hc
    simp [TomlNumber.isTokenChar, Char.isAlphanum, hc]
  obtain ⟨c, rest, rfl, hc⟩ := h.head
  intro d hd
  rcases List.mem_cons.mp hd with rfl | hd
  · rcases hc with rfl | hc
    · decide
    · exact hdigit _ hc
  · rcases h.mem hd with rfl | hd
    · decide
    · exact hdigit _ hd

theorem hyphen (h : IsPointed cs) : '-' ∉ cs.drop 1 := by
  intro hc
  rcases h.mem hc with heq | hc
  · exact absurd heq (by decide)
  · exact absurd hc (by decide)

/-- Behind the sign stands a digit. -/
theorem splitSign (h : IsPointed cs) : ∃ d magnitude,
    (Decimal.splitSign cs).2 = d :: magnitude ∧ d.isDigit = true := by
  obtain ⟨negative, whole, fraction, rfl, hwhole, -⟩ := h
  obtain ⟨d, whole, rfl⟩ := List.exists_cons_of_ne_nil hwhole.1
  have hd := hwhole.2 d (.head _)
  cases negative with
  | true => exact ⟨d, _, rfl, hd⟩
  | false =>
    refine ⟨d, whole ++ '.' :: fraction, ?_, hd⟩
    show (Decimal.splitSign (d :: (whole ++ '.' :: fraction))).2 = _
    unfold Decimal.splitSign
    split
    · rename_i heq
      obtain ⟨rfl, -⟩ := List.cons.inj heq
      exact absurd hd (by decide)
    · rename_i heq
      obtain ⟨rfl, -⟩ := List.cons.inj heq
      exact absurd hd (by decide)
    · rfl

theorem float? (h : IsPointed cs) (hread : decimal? cs = some x) :
    TomlNumber.float? cs = some (.float x) := by
  obtain ⟨d, magnitude, hsign, hd⟩ := h.splitSign
  -- A word begins with no digit, so the text names no infinity.
  have hword : ∀ c word, c.isDigit = false → ((Decimal.splitSign cs).2 == c :: word) = false := by
    intro c word hc
    rw [hsign, beq_eq_false_iff_ne]
    intro heq
    obtain ⟨rfl, -⟩ := List.cons.inj heq
    rw [hd] at hc
    cases hc
  have hinf : ((Decimal.splitSign cs).2 == "inf".toList) = false := hword 'i' _ (by decide)
  have hnan : ((Decimal.splitSign cs).2 == "nan".toList) = false := hword 'n' _ (by decide)
  unfold TomlNumber.float?
  simp only [hinf, hnan, hread, Bool.false_eq_true, if_false]
  rfl

theorem notMem (h : IsPointed cs) {c : Char} (hsign : c ≠ '-') (hpoint : c ≠ '.')
    (hc : c.isDigit = false) : c ∉ cs := by
  have hdigit : c.isDigit ≠ true := Bool.eq_false_iff.mp hc
  obtain ⟨first, rest, rfl, hfirst⟩ := h.head
  intro hmem
  rcases List.mem_cons.mp hmem with rfl | hmem
  · exact hfirst.elim hsign hdigit
  · exact (h.mem hmem).elim hpoint hdigit

theorem ofToken? (h : IsPointed cs) (hread : decimal? cs = some x) :
    ofToken? cs = some (.float x) := by
  have hcolon : ':' ∉ cs := h.notMem (by decide) (by decide) (by decide)
  have hword : ∀ c, cs.head? = some c → c ≠ 't' ∧ c ≠ 'f' := by
    intro c hc
    have hmem : c ∈ cs := List.mem_of_mem_head? hc
    constructor
    · rintro rfl
      exact h.notMem (by decide) (by decide) (by decide) hmem
    · rintro rfl
      exact h.notMem (by decide) (by decide) (by decide) hmem
  rw [ofToken?_number hword h.hyphen hcolon, h.float? hread]
  rfl

end IsPointed

/-- The decimals of floats are written with a fraction. -/
theorem isPointed_of_ofFloat? {d : Decimal} (h : Decimal.ofFloat? x = some d) :
    IsPointed (Decimal.floatTextWithPoint x).toList := by
  have hdigits : AllDigits (Decimal.digitChars d.digits) := allDigits_toDigits d.digits
  have hzeros : ∀ k, ∀ c ∈ List.replicate k '0', c.isDigit = true := by
    intro k c hc
    rw [List.eq_of_mem_replicate hc]
    decide
  have htext : Decimal.floatText x = String.ofList d.positional := by
    rw [Decimal.floatText, h]
  have hpoint : (Decimal.floatTextWithPoint x).toList =
      if d.isIntegral then d.positional ++ ['.', '0'] else d.positional := by
    rw [Decimal.floatTextWithPoint, h]
    simp only [htext]
    split
    · rw [String.toList_append, String.toList_ofList]
      rfl
    · exact String.toList_ofList
  rw [hpoint]
  cases hexponent : d.exponent with
  | ofNat e =>
    have hintegral : d.isIntegral = true := by
      rw [Decimal.isIntegral, hexponent, decide_eq_true_eq]
      exact Int.natCast_nonneg e
    rw [if_pos hintegral, Decimal.positional, hexponent]
    refine ⟨d.negative, Decimal.digitChars d.digits ++ List.replicate e '0', ['0'], ?_,
      hdigits.append (hzeros e), allDigits_zero⟩
    exact List.append_assoc _ _ _
  | negSucc k =>
    have hintegral : ¬d.isIntegral = true := by
      rw [Decimal.isIntegral, hexponent, decide_eq_true_eq, Int.not_le]
      exact Int.negSucc_lt_zero k
    rw [if_neg hintegral, Decimal.positional, hexponent]
    simp only
    split
    · rename_i hplaces
      refine ⟨d.negative, _, _, rfl, ⟨?_, ?_⟩, ⟨?_, ?_⟩⟩
      · refine List.ne_nil_of_length_pos ?_
        rw [List.length_take]
        omega
      · exact fun c hc => hdigits.2 c (List.mem_of_mem_take hc)
      · refine List.ne_nil_of_length_pos ?_
        rw [List.length_drop]
        omega
      · exact fun c hc => hdigits.2 c (List.mem_of_mem_drop hc)
    · refine ⟨d.negative, ['0'], _, rfl, allDigits_zero, ?_, ?_⟩
      · exact List.append_ne_nil_of_right_ne_nil _ hdigits.1
      · exact fun c hc => (List.mem_append.mp hc).elim (hzeros _ c) (hdigits.2 c)

/-- A float whose text is read as the float itself; an infinity is none, nor is what is no number. -/
def ReadsBack (x : Float) : Prop := decimal? (Decimal.floatTextWithPoint x).toList = some x

theorem ReadsBack.isPointed (h : ReadsBack x) : IsPointed (Decimal.floatTextWithPoint x).toList := by
  cases hfloat : Decimal.ofFloat? x with
  | some d => exact isPointed_of_ofFloat? hfloat
  | none =>
    -- What has no decimal is written as a word, which is no number.
    have hwords : ∀ word ∈ ["nan", "NaN", "-inf", "inf"], decimal? word.toList = none := by
      decide +kernel
    have hword : Decimal.floatTextWithPoint x ∈ ["nan", "NaN", "-inf", "inf"] := by
      simp only [Decimal.floatTextWithPoint, Decimal.floatText, hfloat]
      split
      · exact .head _
      split
      · exact .tail _ (.tail _ (.head _))
      · exact .tail _ (.tail _ (.tail _ (.head _)))
    rw [ReadsBack, hwords _ hword] at h
    cases h

end TomlNumber

end LuaScope

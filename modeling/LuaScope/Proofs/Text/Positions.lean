import LuaScope.Proofs.Text.Lines
import LuaScope.Proofs.Text.Segments
import Mathlib.Order.Bounds.Defs

/-!
# LuaScope.Proofs.Text.Positions

The positions that a text has: its lines are what stands between line breaks, and the columns of a
line reach up to its end.

* `LineTable.offset_eq`   — an offset is the start of the line and the column, cut at its end.
* `LineTable.position_at` — every place of a line is found from its offset.
* `LineTable.conversions` — how offsets and positions are turned into each other.
-/

namespace LuaScope

/-- The lines of a text, without the breaks between them. -/
def textLines (cs : List Char) : List (List Char) := splitWhere (· == '\n') cs

/-- Bytes in front of a line: those of the lines above it, each with its break. -/
def lineStart : List (List Char) → Nat → Nat
  | line :: lines, k + 1 => byteLength line + 1 + lineStart lines k
  | _, _ => 0

/-- The position stands in the text, at most right behind the last character of its line. -/
def Position.In (cs : List Char) (p : Position) : Prop :=
  ∃ line, (textLines cs)[p.line]? = some line ∧ p.column ≤ byteLength line

/-! ## Where lines start -/

section LineStart

variable {lines : List (List Char)} {line : List Char} {k k' : Nat}

@[simp] theorem lineStart_zero (lines : List (List Char)) : lineStart lines 0 = 0 := by
  cases lines <;> rfl

theorem lineStart_cons (line : List Char) (lines : List (List Char)) (k : Nat) :
    lineStart (line :: lines) (k + 1) = byteLength line + 1 + lineStart lines k := rfl

theorem lineStart_succ (h : lines[k]? = some line) :
    lineStart lines (k + 1) = lineStart lines k + (byteLength line + 1) := by
  induction lines generalizing k with
  | nil => cases h
  | cons first lines ih =>
    cases k with
    | zero =>
      cases h
      simp [lineStart_cons]
    | succ k =>
      have hrest := ih (k := k) h
      rw [lineStart_cons, hrest, lineStart_cons, Nat.add_assoc (byteLength first + 1)]

theorem lineStart_mono (lines : List (List Char)) (hk : k ≤ k') :
    lineStart lines k ≤ lineStart lines k' := by
  induction lines generalizing k k' with
  | nil => cases k <;> exact Nat.zero_le _
  | cons line lines ih =>
    cases k with
    | zero => exact Nat.zero_le _
    | succ k =>
      obtain ⟨k', rfl⟩ : ∃ n, k' = n + 1 := Nat.exists_eq_add_one.mpr (Nat.zero_lt_of_lt hk)
      exact Nat.add_le_add_left (ih (Nat.le_of_succ_le_succ hk)) _

/-- Every line above takes a byte at least, its break. -/
theorem le_lineStart (hk : k ≤ lines.length) : k ≤ lineStart lines k := by
  induction k with
  | zero => exact Nat.zero_le _
  | succ k ih =>
    rw [lineStart_succ (List.getElem?_eq_getElem hk)]
    have hfront := ih (Nat.le_of_lt hk)
    omega

end LineStart

theorem textLines_ne_nil (cs : List Char) : textLines cs ≠ [] := splitWhere_ne_nil _ _

/-- A text has the bytes of its lines and a break between each two. -/
theorem lineStart_length (cs : List Char) :
    lineStart (textLines cs) (textLines cs).length = byteLength cs + 1 := by
  induction cs with
  | nil => rfl
  | cons c cs ih =>
    unfold textLines splitWhere
    cases hrest : splitWhere (· == '\n') cs with
    | nil => exact absurd hrest (splitWhere_ne_nil _ _)
    | cons line lines =>
      rw [textLines, hrest, List.length_cons, lineStart_cons] at ih
      dsimp only
      split
      · rename_i hbreak
        obtain rfl : c = '\n' := beq_iff_eq.mp hbreak
        have hsize : Char.utf8Size '\n' = 1 := by decide
        rw [List.length_cons, lineStart_cons, List.length_cons, lineStart_cons, ih,
          byteLength_cons, byteLength_nil, hsize]
        omega
      · rw [List.length_cons, lineStart_cons, byteLength_cons, byteLength_cons]
        omega

namespace LineTable

/-- The table behind `offset`, with `line` in front of the next break. -/
theorem lineStartsFrom_eq (cs : List Char) :
    ∀ {offset : Nat} {line : List Char} {lines : List (List Char)},
      textLines cs = line :: lines → ∀ k : Nat,
        (lineStartsFrom offset cs)[k]? =
          lines[k]?.map fun _ => offset + lineStart (line :: lines) (k + 1) := by
  induction cs with
  | nil =>
    intro offset line lines h k
    cases h
    rfl
  | cons c cs ih =>
    intro offset line lines h k
    unfold textLines splitWhere at h
    cases hrest : splitWhere (· == '\n') cs with
    | nil => exact absurd hrest (splitWhere_ne_nil _ _)
    | cons line' lines' =>
      rw [hrest] at h
      dsimp only at h
      unfold lineStartsFrom
      by_cases hbreak : c = '\n'
      · subst hbreak
        have hsize : Char.utf8Size '\n' = 1 := by decide
        rw [if_pos (by rfl)] at h
        cases h
        rw [if_pos rfl, hsize]
        cases k with
        | zero => simp [lineStart_cons]
        | succ k =>
          rw [List.getElem?_cons_succ, List.getElem?_cons_succ, ih hrest, lineStart_cons [],
            byteLength_nil]
          simp only [Nat.zero_add, Nat.add_assoc]
      · rw [if_neg (by simpa using hbreak)] at h
        cases h
        rw [if_neg hbreak, ih hrest, lineStart_cons, lineStart_cons, byteLength_cons]
        simp only [Nat.add_assoc]

/-- The table holds the start of each line. -/
theorem getElem?_starts (cs : List Char) (k : Nat) :
    (ofChars cs).starts[k]? =
      (textLines cs)[k]?.map fun _ => lineStart (textLines cs) k := by
  cases hlines : textLines cs with
  | nil => exact absurd hlines (textLines_ne_nil cs)
  | cons line lines =>
    cases k with
    | zero => rfl
    | succ k =>
      have hfrom := @lineStartsFrom_eq cs 0 _ _ hlines k
      simpa [ofChars] using hfrom

variable {cs : List Char} {line : List Char} {p q : Position} {k c o : Nat}

/-- The last line ends where the text does. -/
theorem lineStart_last (h : (textLines cs)[k]? = some line)
    (hlast : (textLines cs)[k + 1]? = none) :
    lineStart (textLines cs) k + byteLength line = byteLength cs := by
  have hk : k < (textLines cs).length := (List.getElem?_eq_some_iff.mp h).1
  have hlength : (textLines cs).length = k + 1 :=
    Nat.le_antisymm (List.getElem?_eq_none_iff.mp hlast) hk
  have hsize := lineStart_length cs
  rw [hlength, lineStart_succ h] at hsize
  omega

/-- Each line lies in the text. -/
theorem lineStart_add_le (h : (textLines cs)[k]? = some line) :
    lineStart (textLines cs) k + byteLength line ≤ byteLength cs := by
  have hk : k < (textLines cs).length := (List.getElem?_eq_some_iff.mp h).1
  have hle := lineStart_mono (textLines cs) (Nat.succ_le_of_lt hk)
  rw [lineStart_length, lineStart_succ h] at hle
  omega

/-! ## Offsets -/

theorem offset_eq (h : (textLines cs)[p.line]? = some line) :
    (ofChars cs).offset p =
      lineStart (textLines cs) p.line + min p.column (byteLength line) := by
  unfold offset
  rw [getElem?_starts, getElem?_starts, h]
  cases hnext : (textLines cs)[p.line + 1]? with
  | some next =>
    simp only [Option.map_some, lineStart_succ h, ← Nat.add_assoc, Nat.add_sub_cancel,
      Nat.add_min_add_left]
  | none =>
    have hsize : (ofChars cs).size = lineStart (textLines cs) p.line + byteLength line :=
      (lineStart_last h hnext).symm
    simp only [Option.map_some, Option.map_none, hsize, Nat.add_min_add_left]

/-- A line that the text does not have stands for its end. -/
theorem offset_eq_size (h : (textLines cs)[p.line]? = none) :
    (ofChars cs).offset p = byteLength cs := by
  unfold offset
  rw [getElem?_starts, h]
  rfl

theorem offset_le_size (cs : List Char) (p : Position) :
    (ofChars cs).offset p ≤ byteLength cs := by
  cases h : (textLines cs)[p.line]? with
  | none => exact Nat.le_of_eq (offset_eq_size h)
  | some line =>
    have hline := lineStart_add_le h
    rw [offset_eq h]
    omega

theorem offset_mono (h : p ≤ q) : (ofChars cs).offset p ≤ (ofChars cs).offset q := by
  cases hq : (textLines cs)[q.line]? with
  | none =>
    rw [offset_eq_size hq]
    exact offset_le_size cs p
  | some line =>
    rw [offset_eq hq]
    rcases Position.le_iff.mp h with hlt | ⟨hsame, hcolumn⟩
    · have hline : q.line < (textLines cs).length := (List.getElem?_eq_some_iff.mp hq).1
      have hp := List.getElem?_eq_getElem (Nat.lt_trans hlt hline)
      have hle := lineStart_mono (textLines cs) (Nat.succ_le_of_lt hlt)
      rw [lineStart_succ hp] at hle
      rw [offset_eq hp]
      omega
    · rw [← hsame] at hq ⊢
      rw [offset_eq hq]
      omega

/-! ## Positions -/

/-- An offset is found on the line it lies in. -/
theorem position_spec (cs : List Char) (h : o ≤ byteLength cs) :
    ∃ line, (textLines cs)[((ofChars cs).position o).line]? = some line ∧
      ((ofChars cs).position o).column ≤ byteLength line ∧
      lineStart (textLines cs) ((ofChars cs).position o).line +
        ((ofChars cs).position o).column = o := by
  have hclamp : min o (byteLength cs) = o := Nat.min_eq_left h
  obtain ⟨k, hfound, hstart, hle, hbehind⟩ :=
    lastStart_spec o (lineStartsFrom 0 cs) 0 0 (Nat.zero_le o)
  have hposition : (ofChars cs).position o =
      ⟨k, o - (lastStart o 0 0 (lineStartsFrom 0 cs)).2⟩ := by
    simp only [position, ofChars, List.tail_cons, hclamp, hfound, Nat.zero_add]
  have hstart : (ofChars cs).starts[k]? = some (lastStart o 0 0 (lineStartsFrom 0 cs)).2 := hstart
  have hbehind : ∀ next, (ofChars cs).starts[k + 1]? = some next → o < next := hbehind
  rw [getElem?_starts] at hstart
  obtain ⟨line, hline, hstart⟩ := Option.map_eq_some_iff.mp hstart
  rw [← hstart] at hle hposition
  refine ⟨line, by rw [hposition, hline], ?_, ?_⟩
  · rw [hposition]
    cases hnext : (textLines cs)[k + 1]? with
    | none =>
      have hlast := lineStart_last hline hnext
      show o - lineStart (textLines cs) k ≤ byteLength line
      omega
    | some next =>
      have hlt := hbehind (lineStart (textLines cs) (k + 1)) (by rw [getElem?_starts, hnext]; rfl)
      rw [lineStart_succ hline] at hlt
      show o - lineStart (textLines cs) k ≤ byteLength line
      omega
  · rw [hposition]
    exact Nat.add_sub_cancel' hle

/-- The places of the lines have different offsets: a line ends in front of those below it. -/
theorem place_unique {line' : List Char} {k' c' : Nat} (h : (textLines cs)[k]? = some line)
    (hc : c ≤ byteLength line) (h' : (textLines cs)[k']? = some line')
    (hc' : c' ≤ byteLength line')
    (heq : lineStart (textLines cs) k + c = lineStart (textLines cs) k' + c') :
    k = k' ∧ c = c' := by
  have hapart : ∀ {i j : Nat} {l : List Char}, (textLines cs)[i]? = some l → i < j →
      lineStart (textLines cs) i + byteLength l < lineStart (textLines cs) j := by
    intro i j l hi hlt
    have hle := lineStart_mono (textLines cs) (Nat.succ_le_of_lt hlt)
    rw [lineStart_succ hi] at hle
    omega
  rcases Nat.lt_trichotomy k k' with hlt | rfl | hlt
  · have hlt := hapart h hlt
    omega
  · exact ⟨rfl, Nat.add_left_cancel heq⟩
  · have hlt := hapart h' hlt
    omega

theorem position_at (h : (textLines cs)[k]? = some line) (hc : c ≤ byteLength line) :
    (ofChars cs).position (lineStart (textLines cs) k + c) = ⟨k, c⟩ := by
  have hle := lineStart_add_le h
  obtain ⟨line', hline', hc', heq⟩ :=
    position_spec cs (o := lineStart (textLines cs) k + c) (by omega)
  obtain ⟨hk, hcolumn⟩ := place_unique hline' hc' h hc heq
  show (⟨((ofChars cs).position _).line, ((ofChars cs).position _).column⟩ : Position) = ⟨k, c⟩
  rw [hk, hcolumn]

theorem position_offset (h : (textLines cs)[p.line]? = some line) :
    (ofChars cs).position ((ofChars cs).offset p) = ⟨p.line, min p.column (byteLength line)⟩ := by
  rw [offset_eq h, position_at h (Nat.min_le_right _ _)]

/-- The positions of a text are those of its offsets. -/
theorem in_iff_exists_position : p.In cs ↔ ∃ o ≤ byteLength cs, (ofChars cs).position o = p := by
  constructor
  · rintro ⟨line, hline, hcolumn⟩
    have hle := lineStart_add_le hline
    exact ⟨_, by omega, position_at hline hcolumn⟩
  · rintro ⟨o, ho, rfl⟩
    obtain ⟨line, hline, hcolumn, -⟩ := position_spec cs ho
    exact ⟨line, hline, hcolumn⟩

/-- A position is cut down to the last one of its line that is not behind it. -/
theorem position_offset_isGreatest (h : p.line < (textLines cs).length) :
    IsGreatest {q | q.In cs ∧ q.line = p.line ∧ q ≤ p}
      ((ofChars cs).position ((ofChars cs).offset p)) := by
  have hline := List.getElem?_eq_getElem h
  rw [position_offset hline]
  refine ⟨⟨⟨_, hline, Nat.min_le_right _ _⟩, rfl, ?_⟩, ?_⟩
  · exact Position.le_iff.mpr (.inr ⟨rfl, Nat.min_le_left _ _⟩)
  · rintro q ⟨⟨line, hq, hcolumn⟩, hsame, hle⟩
    rw [hsame, hline] at hq
    cases hq
    refine Position.le_iff.mpr (.inr ⟨hsame, ?_⟩)
    rcases Position.le_iff.mp hle with hlt | ⟨-, hle⟩
    · exact absurd hsame (Nat.ne_of_lt hlt)
    · exact Nat.le_min.mpr ⟨hle, hcolumn⟩

/-- The end of the text is its last position. -/
theorem position_size_isGreatest (cs : List Char) :
    IsGreatest {q : Position | q.In cs} ((ofChars cs).position (byteLength cs)) := by
  refine ⟨in_iff_exists_position.mpr ⟨_, Nat.le_refl _, rfl⟩, ?_⟩
  intro q hq
  obtain ⟨o, ho, rfl⟩ := in_iff_exists_position.mp hq
  exact position_mono cs ho

/-- Line and column are not above the offset, so they fit wherever the offset does. -/
theorem position_le (cs : List Char) (o : Nat) :
    ((ofChars cs).position o).line ≤ byteLength cs ∧
      ((ofChars cs).position o).column ≤ byteLength cs := by
  have hclamp : (ofChars cs).position o = (ofChars cs).position (min o (byteLength cs)) := by
    simp only [position, ofChars, Nat.min_assoc, Nat.min_self]
  rw [hclamp]
  have hle := Nat.min_le_right o (byteLength cs)
  obtain ⟨line, hline, -, heq⟩ := position_spec cs hle
  have hlines := le_lineStart (Nat.le_of_lt (List.getElem?_eq_some_iff.mp hline).1)
  omega

/--
An offset of the text has a position that leads back to it. In the other direction an offset grows
with its position and stays in the text and on the line; and what comes back is the last position
of that line that is not behind the one given, or the end of the text if there is no such line. In
a text of less than 2³² bytes all positions fit in 32 bits.
-/
theorem conversions (cs : List Char) :
    (∀ o ≤ byteLength cs, (ofChars cs).offset ((ofChars cs).position o) = o) ∧
    (∀ p q : Position, p ≤ q → (ofChars cs).offset p ≤ (ofChars cs).offset q) ∧
    (∀ p, (ofChars cs).offset p ≤ byteLength cs) ∧
    (∀ p line, (textLines cs)[p.line]? = some line →
      lineStart (textLines cs) p.line ≤ (ofChars cs).offset p ∧
        (ofChars cs).offset p ≤ lineStart (textLines cs) p.line + byteLength line) ∧
    (∀ p, p.line < (textLines cs).length →
      IsGreatest {q | q.In cs ∧ q.line = p.line ∧ q ≤ p}
        ((ofChars cs).position ((ofChars cs).offset p))) ∧
    (∀ p, (textLines cs).length ≤ p.line → (ofChars cs).offset p = byteLength cs ∧
      IsGreatest {q : Position | q.In cs} ((ofChars cs).position ((ofChars cs).offset p))) ∧
    (byteLength cs < UInt32.size → ∀ o, ((ofChars cs).position o).line < UInt32.size ∧
      ((ofChars cs).position o).column < UInt32.size) := by
  refine ⟨fun o => offset_position cs, fun p q => offset_mono, offset_le_size cs, ?_, ?_, ?_, ?_⟩
  · intro p line hline
    rw [offset_eq hline]
    exact ⟨Nat.le_add_right _ _, Nat.add_le_add_left (Nat.min_le_right _ _) _⟩
  · exact fun p => position_offset_isGreatest
  · intro p hline
    have hoffset := offset_eq_size (List.getElem?_eq_none hline)
    rw [hoffset]
    exact ⟨rfl, position_size_isGreatest cs⟩
  · intro hsize o
    obtain ⟨hline, hcolumn⟩ := position_le cs o
    exact ⟨Nat.lt_of_le_of_lt hline hsize, Nat.lt_of_le_of_lt hcolumn hsize⟩

end LineTable

end LuaScope

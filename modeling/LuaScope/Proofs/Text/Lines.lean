import LuaScope.Text.Source

/-!
# LuaScope.Proofs.Text.Lines

A position of a text leads back to the offset it was made from (`LineTable.offset_position`), so two
offsets of a text never have one position.
-/

namespace LuaScope

namespace LineTable

/-- The line that is found starts at or before the offset, and the next one behind it. -/
theorem lastStart_spec (offset : Nat) :
    ∀ (starts : List Nat) (line start : Nat), start ≤ offset →
      ∃ k, (lastStart offset line start starts).1 = line + k ∧
        (start :: starts)[k]? = some (lastStart offset line start starts).2 ∧
        (lastStart offset line start starts).2 ≤ offset ∧
        ∀ next, (start :: starts)[k + 1]? = some next → offset < next
  | [], line, start, hstart => ⟨0, rfl, rfl, hstart, nofun⟩
  | next :: rest, line, start, hstart => by
    unfold lastStart
    split
    · rename_i hnext
      obtain ⟨k, hline, hfound, hle, hbehind⟩ := lastStart_spec offset rest (line + 1) next hnext
      exact ⟨k + 1, by omega, hfound, hle, hbehind⟩
    · rename_i hnext
      refine ⟨0, rfl, rfl, hstart, fun next' h => ?_⟩
      cases h
      omega

theorem offset_position (cs : List Char) {o : Nat} (h : o ≤ byteLength cs) :
    (ofChars cs).offset ((ofChars cs).position o) = o := by
  have hclamp : min o (byteLength cs) = o := Nat.min_eq_left h
  obtain ⟨k, hline, hfound, hle, hbehind⟩ :=
    lastStart_spec o (lineStartsFrom 0 cs) 0 0 (Nat.zero_le o)
  have hposition : (ofChars cs).position o = ⟨k, o - (lastStart o 0 0 (lineStartsFrom 0 cs)).2⟩ := by
    simp only [position, ofChars, List.tail_cons, hclamp, hline, Nat.zero_add]
  have hstart : (ofChars cs).starts[k]? = some (lastStart o 0 0 (lineStartsFrom 0 cs)).2 := hfound
  rw [hposition]
  simp only [offset, hstart]
  rw [Nat.add_sub_cancel' hle]
  refine Nat.min_eq_left ?_
  cases hnext : (ofChars cs).starts[k + 1]? with
  | none => exact h
  | some next => exact Nat.le_sub_one_of_lt (hbehind next hnext)

/-- Behind the end of the text, positions lead back to the end. -/
theorem offset_position_eq_min (cs : List Char) (o : Nat) :
    (ofChars cs).offset ((ofChars cs).position o) = min o (byteLength cs) := by
  have hclamp : (ofChars cs).position o = (ofChars cs).position (min o (byteLength cs)) := by
    simp only [position, ofChars, Nat.min_assoc, Nat.min_self]
  rw [hclamp, offset_position cs (Nat.min_le_right o _)]

theorem position_inj {cs : List Char} {o o' : Nat} (h : o ≤ byteLength cs)
    (h' : o' ≤ byteLength cs) (heq : (ofChars cs).position o = (ofChars cs).position o') :
    o = o' := by
  rw [← offset_position cs h, heq, offset_position cs h']

/-- A later offset is not found on an earlier line. -/
theorem lastStart_mono {o o' : Nat} (h : o ≤ o') :
    ∀ (starts : List Nat) (line start : Nat),
      (lastStart o line start starts).1 < (lastStart o' line start starts).1 ∨
        lastStart o line start starts = lastStart o' line start starts
  | [], _, _ => .inr rfl
  | next :: rest, line, start => by
    unfold lastStart
    by_cases hnext : next ≤ o
    · rw [if_pos hnext, if_pos (Nat.le_trans hnext h)]
      exact lastStart_mono h rest (line + 1) next
    · rw [if_neg hnext]
      by_cases hnext' : next ≤ o'
      · rw [if_pos hnext']
        obtain ⟨k, hline, -⟩ := lastStart_spec o' rest (line + 1) next hnext'
        exact .inl (by omega)
      · rw [if_neg hnext']
        exact .inr rfl

theorem position_mono (cs : List Char) {o o' : Nat} (h : o ≤ o') :
    (ofChars cs).position o ≤ (ofChars cs).position o' := by
  have hmin : min o (ofChars cs).size ≤ min o' (ofChars cs).size := by omega
  unfold position
  dsimp only
  rw [Position.le_iff]
  rcases lastStart_mono hmin (ofChars cs).starts.tail 0 0 with hline | hsame
  · exact .inl hline
  · rw [hsame]
    exact .inr ⟨rfl, Nat.sub_le_sub_right hmin _⟩

end LineTable

end LuaScope

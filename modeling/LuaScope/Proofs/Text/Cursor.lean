import LuaScope.Proofs.Text.Bytes
import LuaScope.Text.Cursor

/-!
# LuaScope.Proofs.Text.Cursor

What is read around a cursor: the cursor splits the text between two characters, and the paths that
are read there stand in it.

* `CursorSplit.of_spec` — the split that is not behind the offset and closest to it.
* `expressionAt_spec`   — an expression stands at its span, and can be looked up.
* `callContext_spec`    — so does the callee of a call.
-/

namespace LuaScope

variable {text before after front path back cs : List Char} {offset start : Nat} {e : Excerpt}

/-! ## Characters of paths -/

@[simp] theorem byteLength_reverse (cs : List Char) : byteLength cs.reverse = byteLength cs := by
  induction cs with
  | nil => rfl
  | cons c cs ih =>
    rw [List.reverse_cons, byteLength_append, ih, byteLength_cons, byteLength_cons, byteLength_nil]
    omega

theorem byteLength_runs (p : Char → Bool) (cs : List Char) :
    byteLength (cs.takeWhile p) + byteLength (cs.dropWhile p) = byteLength cs := by
  rw [← byteLength_append, List.takeWhile_append_dropWhile]

theorem byteLength_of_isAscii (h : ∀ c ∈ cs, isAscii c = true) : byteLength cs = cs.length := by
  induction cs with
  | nil => rfl
  | cons c cs ih =>
    rw [byteLength_cons, isAscii_iff.mp (h c (.head _)), ih fun c hc => h c (.tail _ hc),
      List.length_cons, Nat.add_comm]

theorem isAscii_of_isAlphanum {c : Char} (h : c.isAlphanum = true) : isAscii c = true := by
  have h : (decide (c.val ≥ 'A'.val ∧ c.val ≤ 'Z'.val) || (c.val ≥ 'a'.val && c.val ≤ 'z'.val) ||
      (c.val ≥ '0'.val && c.val ≤ '9'.val)) = true := h
  rw [isAscii_iff, Char.utf8Size_eq_one_iff, UInt32.le_iff_toNat_le]
  simp only [Bool.or_eq_true, Bool.and_eq_true, decide_eq_true_eq, ge_iff_le,
    UInt32.le_iff_toNat_le] at h
  simp at h ⊢
  omega

theorem isAscii_of_isSeparator {c : Char} (h : isSeparator c = true) : isAscii c = true := by
  rw [isSeparator, Bool.or_eq_true, beq_iff_eq, beq_iff_eq] at h
  rcases h with rfl | rfl <;> decide

theorem isAscii_of_isWordChar {c : Char} (h : isWordChar c = true) : isAscii c = true := by
  rw [isWordChar, Bool.or_eq_true, beq_iff_eq] at h
  rcases h with h | rfl
  · exact isAscii_of_isAlphanum h
  · decide

/-- All characters of paths are ASCII. -/
theorem isAscii_of_isPathChar {c : Char} (h : isPathChar c = true) : isAscii c = true := by
  rw [isPathChar, Bool.or_eq_true] at h
  exact h.elim isAscii_of_isWordChar isAscii_of_isSeparator

theorem isPathChar_of_isWordChar {c : Char} (h : isWordChar c = true) : isPathChar c = true := by
  rw [isPathChar, h, Bool.true_or]

/-! ## The split -/

theorem CursorSplit.advance_spec (before rest : List Char) (room : Nat) :
    let c := advance before rest room
    c.before.reverse ++ c.after = before.reverse ++ rest ∧
      byteLength c.before ≤ byteLength before + room ∧
      ∀ next ∈ c.after.head?, byteLength before + room < byteLength c.before + next.utf8Size := by
  induction rest generalizing before room with
  | nil => exact ⟨rfl, Nat.le_add_right _ _, nofun⟩
  | cons c cs ih =>
    unfold advance
    split
    · rename_i hroom
      obtain ⟨hsplit, hle, hnext⟩ := ih (c :: before) (room - c.utf8Size)
      rw [byteLength_cons] at hle hnext
      refine ⟨by rw [hsplit]; simp, by omega, fun next hc => ?_⟩
      have hlt := hnext next hc
      omega
    · rename_i hroom
      refine ⟨rfl, Nat.le_add_right _ _, fun next hc => ?_⟩
      cases hc
      exact Nat.add_lt_add_left (Nat.lt_of_not_le hroom) _

/-- The cursor stands in front of the character that the offset lies in. -/
theorem CursorSplit.of_spec (text : List Char) (offset : Nat) :
    (of text offset).before.reverse ++ (of text offset).after = text ∧
      byteLength (of text offset).before ≤ offset ∧
      ∀ next ∈ (of text offset).after.head?,
        offset < byteLength (of text offset).before + next.utf8Size := by
  have h := advance_spec [] text offset
  rwa [byteLength_nil, Nat.zero_add] at h

/-- The runs of characters around a cursor, between what stands in front of and behind them. -/
theorem eq_runs_around (p q : Char → Bool) (before after : List Char) :
    before.reverse ++ after =
      (before.dropWhile p).reverse ++ ((before.takeWhile p).reverse ++ after.takeWhile q) ++
        after.dropWhile q := by
  rw [List.append_assoc, List.append_assoc, List.takeWhile_append_dropWhile, ← List.append_assoc,
    ← List.reverse_append, List.takeWhile_append_dropWhile]

/-! ## Paths in a text -/

namespace Excerpt

/-- The excerpt is the part of the text at its span. -/
def StandsIn (e : Excerpt) (text : List Char) : Prop :=
  ∃ front back, text = front ++ e.text ++ back ∧
    e.span = ⟨byteLength front, byteLength front + byteLength e.text⟩

/-- Names with separators between them, the first of which does not start with a digit. -/
structure IsPath (e : Excerpt) : Prop where
  nonempty : e.text ≠ []
  chars : ∀ c ∈ e.text, isPathChar c = true
  first : ∀ c ∈ e.text.head?, isSeparator c = false ∧ c.isDigit = false
  last : ∀ c ∈ e.text.getLast?, isSeparator c = false

theorem StandsIn.slice? (h : e.StandsIn text) : slice? text e.span = some e.text :=
  slice?_eq_some_iff.mpr h

theorem StandsIn.start_le (h : e.StandsIn text) : e.span.start ≤ byteLength text := by
  obtain ⟨front, back, rfl, hspan⟩ := h
  simp only [hspan, byteLength_append]
  omega

end Excerpt

/-- What is trimmed stands at the two ends, and neither end is left to trim. -/
theorem trimBoth_spec (p : Char → Bool) (cs : List Char) :
    (∃ trail, cs = cs.takeWhile p ++ trimBoth p cs ++ trail) ∧
      (∀ c ∈ (trimBoth p cs).head?, p c = false) ∧
      ∀ c ∈ (trimBoth p cs).getLast?, p c = false := by
  have hnot : ∀ (ds : List Char), ∀ c ∈ (ds.dropWhile p).head?, p c = false := by
    intro ds c hc
    have h := List.head?_dropWhile_not p ds
    rw [Option.mem_def.mp hc] at h
    simpa using h
  have hback : cs.dropWhile p = trimBoth p cs ++ ((cs.dropWhile p).reverse.takeWhile p).reverse := by
    rw [trimBoth, trimRight, trimLeft, ← List.reverse_append, List.takeWhile_append_dropWhile,
      List.reverse_reverse]
  refine ⟨⟨((cs.dropWhile p).reverse.takeWhile p).reverse, ?_⟩, fun c hc => ?_, fun c hc => ?_⟩
  · rw [List.append_assoc, ← hback, List.takeWhile_append_dropWhile]
  · refine hnot cs c ?_
    rw [hback, List.head?_append, Option.mem_def.mp hc]
    rfl
  · rw [trimBoth, trimRight, List.getLast?_reverse] at hc
    exact hnot _ c hc

/-- A run of path characters gives a path that stands in it. -/
theorem trimSeparators_spec (hpath : ∀ c ∈ path, isPathChar c = true) (back : List Char)
    (h : trimSeparators path (byteLength front) = some e) :
    e.StandsIn (front ++ path ++ back) ∧ e.IsPath := by
  obtain ⟨⟨trail, hsplit⟩, hfirst, hlast⟩ := trimBoth_spec isSeparator path
  have hlead : byteLength (path.takeWhile isSeparator) = (path.takeWhile isSeparator).length :=
    byteLength_of_isAscii fun c hc => isAscii_of_isSeparator (List.all_eq_true.mp
      List.all_takeWhile c hc)
  unfold trimSeparators at h
  generalize trimBoth isSeparator path = inner at h hsplit hfirst hlast
  generalize path.takeWhile isSeparator = lead at h hsplit hlead
  cases inner with
  | nil => cases h
  | cons c rest =>
    cases hdigit : c.isDigit with
    | true => simp [hdigit] at h
    | false =>
      simp only [hdigit, Bool.false_eq_true, if_false] at h
      cases h
      refine ⟨⟨front ++ lead, trail ++ back, ?_, ?_⟩, List.cons_ne_nil _ _, fun x hx => hpath x ?_,
        fun x hx => ?_, hlast⟩
      · simp only [hsplit, List.append_assoc]
      · rw [byteLength_append, hlead]
      · rw [hsplit]
        exact List.mem_append_left _ (List.mem_append_right _ hx)
      · have hsame : c = x := Option.some.inj hx
        exact ⟨hfirst x hx, hsame ▸ hdigit⟩

/-! ## Expressions -/

/-- The expression at an offset stands in the text. -/
theorem expressionAt_spec (h : expressionAt text offset = some e) : e.StandsIn text ∧ e.IsPath := by
  obtain ⟨hsplit, -, -⟩ := CursorSplit.of_spec text offset
  unfold expressionAt at h
  generalize CursorSplit.of text offset = c at h hsplit
  have hstart : c.offset - byteLength (c.before.takeWhile isPathChar) =
      byteLength (c.before.dropWhile isPathChar).reverse := by
    rw [byteLength_reverse, CursorSplit.offset, ← byteLength_runs isPathChar c.before,
      Nat.add_sub_cancel_left]
  have hchars : ∀ x ∈ (c.before.takeWhile isPathChar).reverse ++ c.after.takeWhile isWordChar,
      isPathChar x = true := by
    intro x hx
    rcases List.mem_append.mp hx with hx | hx
    · exact List.all_eq_true.mp List.all_takeWhile x (List.mem_reverse.mp hx)
    · exact isPathChar_of_isWordChar (List.all_eq_true.mp List.all_takeWhile x hx)
  simp only [hstart] at h
  split at h
  · cases h
  · rw [← hsplit, eq_runs_around isPathChar isWordChar c.before c.after]
    exact trimSeparators_spec hchars _ h

/-! ## Calls -/

/-- The callee is read in front of a parenthesis. -/
theorem exists_of_callBefore {depth commas : Nat} {call : CallContext}
    (h : callBefore depth commas before = some call) :
    ∃ inside outside, before = inside ++ '(' :: outside ∧
      calleeBefore outside = some call.callee := by
  induction before generalizing depth commas with
  | nil => cases h
  | cons c cs ih =>
    have hfurther : ∀ {depth commas}, callBefore depth commas cs = some call →
        ∃ inside outside, c :: cs = inside ++ '(' :: outside ∧
          calleeBefore outside = some call.callee := by
      intro depth commas h
      obtain ⟨inside, outside, rfl, hcallee⟩ := ih h
      exact ⟨c :: inside, outside, rfl, hcallee⟩
    unfold callBefore at h
    split at h
    · exact hfurther h
    split at h
    · split at h
      · cases h
      · exact hfurther h
    split at h
    · rename_i hopen
      subst hopen
      split at h
      · obtain ⟨callee, hcallee, rfl⟩ := Option.map_eq_some_iff.mp h
        exact ⟨[], cs, rfl, hcallee⟩
      · exact hfurther h
    split at h
    · exact hfurther h
    split at h
    · cases h
    · exact hfurther h

theorem calleeBefore_spec (h : calleeBefore before = some e) (after : List Char) :
    e.StandsIn (before.reverse ++ after) ∧ e.IsPath := by
  unfold calleeBefore at h
  generalize hrest : before.dropWhile isCalleeBlank = rest at h
  have hstart : byteLength rest - byteLength (rest.takeWhile isPathChar) =
      byteLength (rest.dropWhile isPathChar).reverse := by
    rw [byteLength_reverse, ← byteLength_runs isPathChar rest, Nat.add_sub_cancel_left]
  have hchars : ∀ x ∈ (rest.takeWhile isPathChar).reverse, isPathChar x = true := fun x hx =>
    List.all_eq_true.mp List.all_takeWhile x (List.mem_reverse.mp hx)
  have htext : before.reverse ++ after = (rest.dropWhile isPathChar).reverse ++
      (rest.takeWhile isPathChar).reverse ++ ((before.takeWhile isCalleeBlank).reverse ++ after) := by
    rw [← List.reverse_append, List.takeWhile_append_dropWhile, ← hrest, ← List.append_assoc,
      ← List.reverse_append, List.takeWhile_append_dropWhile]
  simp only [hstart] at h
  rw [htext]
  exact trimSeparators_spec hchars _ h

/-- The callee of the call around an offset stands in the text. -/
theorem callContext_spec {call : CallContext} (h : callContext text offset = some call) :
    call.callee.StandsIn text ∧ call.callee.IsPath := by
  obtain ⟨hsplit, -, -⟩ := CursorSplit.of_spec text offset
  obtain ⟨inside, outside, hbefore, hcallee⟩ := exists_of_callBefore h
  rw [← hsplit, hbefore, List.reverse_append, List.reverse_cons, List.append_assoc,
    List.append_assoc]
  exact calleeBefore_spec hcallee _

end LuaScope

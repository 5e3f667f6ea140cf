import LuaScope.Syntax.Token
import LuaScope.Text.Blank

/-!
# LuaScope.Proofs.Text.Segments

The segments of a dotted path: the pieces between its separators, one behind another.
-/

namespace LuaScope

theorem splitWhere_eq_singleton {p : Char → Bool} :
    ∀ {cs : List Char}, (∀ c ∈ cs, p c = false) → splitWhere p cs = [cs]
  | [], _ => rfl
  | c :: cs, h => by
    have hrest := splitWhere_eq_singleton fun c hc => h c (.tail _ hc)
    rw [splitWhere, hrest]
    simp only [h c (.head _), Bool.false_eq_true, if_false]

theorem trimBlanks_eq {cs : List Char} (h : ∀ c ∈ cs, isBlank c = false) : trimBlanks cs = cs := by
  have hdrop : ∀ cs : List Char, (∀ c ∈ cs, isBlank c = false) → cs.dropWhile isBlank = cs := by
    intro cs h
    cases cs with
    | nil => rfl
    | cons c cs => exact List.dropWhile_cons_of_neg (by simp [h c (.head _)])
  have hback : cs.reverse.dropWhile isBlank = cs.reverse :=
    hdrop _ fun c hc => h c (List.mem_reverse.mp hc)
  rw [trimBlanks, trimBoth, trimLeft, hdrop cs h, trimRight, hback, List.reverse_reverse]

theorem splitWhere_ne_nil (p : Char → Bool) (cs : List Char) : splitWhere p cs ≠ [] := by
  cases cs with
  | nil => simp [splitWhere]
  | cons c cs =>
    unfold splitWhere
    split
    · simp
    · split <;> simp

/-- The pieces hold all that separates nothing. -/
theorem flatten_splitWhere (p : Char → Bool) (cs : List Char) :
    (splitWhere p cs).flatten = cs.filter fun c => !p c := by
  induction cs with
  | nil => rfl
  | cons c cs ih =>
    unfold splitWhere
    cases hrest : splitWhere p cs with
    | nil => exact absurd hrest (splitWhere_ne_nil p cs)
    | cons piece rest =>
      rw [hrest] at ih
      cases hc : p c <;> simp [hc, ← ih]

theorem splitWhere_append {p : Char → Bool} {mark : Char} (hmark : p mark = true)
    (xs ys : List Char) :
    splitWhere p (xs ++ mark :: ys) = splitWhere p xs ++ splitWhere p ys := by
  induction xs with
  | nil =>
    rw [List.nil_append, splitWhere]
    cases hrest : splitWhere p ys with
    | nil => exact absurd hrest (splitWhere_ne_nil p ys)
    | cons piece rest => simp [hmark, hrest, splitWhere]
  | cons c xs ih =>
    rw [List.cons_append, splitWhere, ih, splitWhere]
    cases hrest : splitWhere p xs with
    | nil => exact absurd hrest (splitWhere_ne_nil p xs)
    | cons piece rest => cases hc : p c <;> simp

/-- No piece holds a character that separates. -/
theorem not_of_mem_splitWhere {p : Char → Bool} {cs piece : List Char}
    (h : piece ∈ splitWhere p cs) {c : Char} (hc : c ∈ piece) : p c = false := by
  have hmem : c ∈ (splitWhere p cs).flatten := List.mem_flatten_of_mem h hc
  rw [flatten_splitWhere] at hmem
  simpa using (List.mem_filter.mp hmem).2

/-- Pieces that hold nothing that separates are found again between the marks. -/
theorem splitWhere_intercalate {p : Char → Bool} {mark : Char} (hmark : p mark = true) :
    ∀ {pieces : List (List Char)}, pieces ≠ [] → (∀ piece ∈ pieces, ∀ c ∈ piece, p c = false) →
      splitWhere p ([mark].intercalate pieces) = pieces
  | [piece], _, h => by simpa using splitWhere_eq_singleton (h piece (.head _))
  | piece :: next :: rest, _, h => by
    have hrest : ∀ piece ∈ next :: rest, ∀ c ∈ piece, p c = false := fun _ hmem =>
      h _ (.tail _ hmem)
    rw [List.intercalate_cons_of_ne_nil (by simp), List.append_assoc, List.singleton_append,
      splitWhere_append hmark, splitWhere_eq_singleton (h piece (.head _)),
      splitWhere_intercalate hmark (by simp) hrest]
    rfl

theorem pathSegments_append {mark : Char} (hmark : mark = '.' ∨ mark = ':') (xs ys : List Char) :
    pathSegments (xs ++ mark :: ys) = pathSegments xs ++ pathSegments ys := by
  have hsplits : (mark == '.' || mark == ':') = true := by
    rcases hmark with rfl | rfl <;> decide
  rw [pathSegments, splitWhere_append hsplits, List.map_append, List.filter_append]
  rfl

/-- What is left of a name without the blanks at its ends is the only segment of its own path. -/
theorem pathSegments_spelled {name : List Char} (hname : ∀ c ∈ name, isNameChar c = true) :
    pathSegments name = if trimBlanks name = [] then [] else [trimBlanks name] := by
  have hplain : ∀ c ∈ name, (c == '.' || c == ':') = false := by
    intro c hc
    cases hmark : c == '.' || c == ':' with
    | false => rfl
    | true =>
      rw [Bool.or_eq_true, beq_iff_eq, beq_iff_eq] at hmark
      rcases hmark with rfl | rfl <;> exact absurd (hname _ hc) (by decide)
  rw [pathSegments, splitWhere_eq_singleton hplain, List.map_singleton]
  cases trimBlanks name <;> rfl

/-- A name is the only segment of its own path. -/
theorem pathSegments_name {name : List Char} (hne : name ≠ [])
    (hname : ∀ c ∈ name, isNameChar c = true) (hblank : ∀ c ∈ name, isBlank c = false) :
    pathSegments name = [name] := by
  rw [pathSegments_spelled hname, trimBlanks_eq hblank, if_neg hne]

end LuaScope

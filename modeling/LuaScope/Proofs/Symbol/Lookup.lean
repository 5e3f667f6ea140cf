import LuaScope.Proofs.Symbol.History
import Mathlib.Data.List.Find

/-!
# LuaScope.Proofs.Symbol.Lookup

What a name means, said by the history of declarations alone: no list is kept in order, and nothing
is searched but all declarations of the name in one scope after the other.

* `TableHistory.meaning`                — the rule.
* `TableHistory.Reaches.lookup_meaning` — a lookup in a table that is reached follows it, and never
  finds a member.
-/

namespace LuaScope

/-! ## First and last of some symbols -/

namespace SymbolOver

variable {ρ : Type}

/-- The symbol that starts first; of those with one start the one declared first. -/
def earliest (xs : List (SymbolOver ρ)) : Option (SymbolOver ρ) := xs.argmin start

/-- Of the symbols that start by the offset the one that starts last; of those with one start the
one declared last. -/
def latest (offset : Nat) (xs : List (SymbolOver ρ)) : Option (SymbolOver ρ) :=
  (xs.filter (·.start ≤ offset)).reverse.argmax start

/-- By induction on the declarations: the new one comes first if it starts before those that
satisfy `p`, and these are the ones it was put in front of. -/
theorem earliest_filter (p : SymbolOver ρ → Bool) (xs : List (SymbolOver ρ)) :
    earliest (xs.filter p) = (byStart xs).find? p := by
  induction xs using List.reverseRecOn with
  | nil => rfl
  | append_singleton xs x ih =>
    have hsplit : (byStart xs).find? p =
        (((byStart xs).takeWhile (·.start ≤ x.start)).find? p).or
          (((byStart xs).dropWhile (·.start ≤ x.start)).find? p) := by
      rw [← List.find?_append, List.takeWhile_append_dropWhile]
    rw [byStart_concat, insertLate, List.find?_append, List.find?_cons, List.filter_append]
    unfold earliest at ih ⊢
    cases hp : p x with
    | false => simp [hp, ih, hsplit]
    | true =>
      rw [List.filter_singleton, hp, cond_true, List.argmin_concat, ih, hsplit]
      cases hfront : ((byStart xs).takeWhile (·.start ≤ x.start)).find? p with
      | some c =>
        have hle : c.start ≤ x.start := by
          simpa using List.mem_takeWhile_imp (List.mem_of_find?_eq_some hfront)
        simp [Nat.not_lt.mpr hle]
      | none =>
        cases hback : ((byStart xs).dropWhile (·.start ≤ x.start)).find? p with
        | none => rfl
        | some d =>
          have hlt := (byStart_sorted xs).lt_of_mem_dropWhile (List.mem_of_find?_eq_some hback)
          simp [hlt]

theorem earliest_eq (xs : List (SymbolOver ρ)) : earliest xs = (byStart xs).head? := by
  have hall := earliest_filter (fun _ => true) xs
  rw [List.filter_true] at hall
  rw [hall]
  cases byStart xs <;> rfl

theorem Sorted.takeWhile_eq_filter {xs : List (SymbolOver ρ)} (h : Sorted xs) (offset : Nat) :
    xs.takeWhile (·.start ≤ offset) = xs.filter (·.start ≤ offset) := by
  have hfront : ∀ x ∈ xs.takeWhile (·.start ≤ offset), decide (x.start ≤ offset) = true :=
    fun x hx => by simpa using List.mem_takeWhile_imp hx
  have hback : ∀ x ∈ xs.dropWhile (·.start ≤ offset), ¬decide (x.start ≤ offset) = true := by
    intro x hx
    simpa using h.lt_of_mem_dropWhile hx
  conv_rhs => rw [← xs.takeWhile_append_dropWhile (p := fun x => x.start ≤ offset)]
  rw [List.filter_append, List.filter_eq_self.mpr hfront, List.filter_eq_nil_iff.mpr hback,
    List.append_nil]

/-- By induction on the declarations: behind the new one stand only those that start later. -/
theorem latest_eq (offset : Nat) (xs : List (SymbolOver ρ)) :
    latest offset xs = ((byStart xs).takeWhile (·.start ≤ offset)).getLast? := by
  rw [(byStart_sorted xs).takeWhile_eq_filter]
  unfold latest
  induction xs using List.reverseRecOn with
  | nil => rfl
  | append_singleton xs x ih =>
    have hsplit : (byStart xs).filter (·.start ≤ offset) =
        ((byStart xs).takeWhile (·.start ≤ x.start)).filter (·.start ≤ offset) ++
          ((byStart xs).dropWhile (·.start ≤ x.start)).filter (·.start ≤ offset) := by
      rw [← List.filter_append, List.takeWhile_append_dropWhile]
    rw [byStart_concat, insertLate, List.filter_append, List.filter_append, List.filter_singleton,
      List.filter_cons]
    by_cases hx : x.start ≤ offset
    · rw [decide_eq_true hx, cond_true, List.reverse_append, List.reverse_singleton,
        List.singleton_append, List.argmax_cons, ih, hsplit, if_pos rfl, List.getLast?_append,
        List.getLast?_append, List.getLast?_cons]
      cases hback : (((byStart xs).dropWhile (·.start ≤ x.start)).filter
          (·.start ≤ offset)).getLast? with
      | some d =>
        have hmem := (List.mem_filter.mp (List.mem_of_getLast? hback)).1
        have hlt := (byStart_sorted xs).lt_of_mem_dropWhile hmem
        simp [hlt]
      | none =>
        cases hfront : (((byStart xs).takeWhile (·.start ≤ x.start)).filter
            (·.start ≤ offset)).getLast? with
        | none => rfl
        | some c =>
          have hmem := (List.mem_filter.mp (List.mem_of_getLast? hfront)).1
          have hle : c.start ≤ x.start := by simpa using List.mem_takeWhile_imp hmem
          simp [Nat.not_lt.mpr hle]
    · rw [decide_eq_false hx, cond_false, List.append_nil, ih, hsplit]
      simp

end SymbolOver

/-! ## The rule -/

namespace TableHistory

variable {ρ : Type}

/-- What one scope says of a name: its latest declaration up to the offset, or else, in a nested
scope, its earliest one. -/
def meaningIn (history : TableHistory ρ) (name : String) (offset : Nat) (scope : ScopeId) :
    Option (SymbolOver ρ) :=
  (SymbolOver.latest offset (history.declarations scope name)).or
    (if scope = SymbolTableOver.rootId then none
      else SymbolOver.earliest (history.declarations scope name))

/-- What a name means, seen from a scope: what the innermost scope says that says something, or else
the earliest declaration in the root scope that is no local one. -/
def meaning (history : TableHistory ρ) (scope : ScopeId) (name : String) (offset : Nat) :
    Option (SymbolOver ρ) :=
  ((history.around scope).findSome? (history.meaningIn name offset)).or
    (SymbolOver.earliest
      ((history.declarations SymbolTableOver.rootId name).filter (fun x => !x.isLocal)))

theorem declared_of_meaning {history : TableHistory ρ} {scope : ScopeId} {name : String}
    {offset : Nat} {x : SymbolOver ρ} (h : history.meaning scope name offset = some x) :
    .declared x ∈ history := by
  have hlatest : ∀ i, SymbolOver.latest offset (history.declarations i name) = some x →
      .declared x ∈ history := by
    intro i hx
    have hmem := List.argmax_mem hx
    exact (mem_declarations.mp (List.mem_filter.mp (List.mem_reverse.mp hmem)).1).1
  rcases Option.or_eq_some_iff.mp h with hchain | ⟨-, hglobal⟩
  · obtain ⟨i, -, hi⟩ := List.exists_of_findSome?_eq_some hchain
    rcases Option.or_eq_some_iff.mp hi with hx | ⟨-, hx⟩
    · exact hlatest i hx
    · split at hx
      · cases hx
      · exact (mem_declarations.mp (List.argmin_mem hx)).1
  · exact (mem_declarations.mp (List.mem_filter.mp (List.argmin_mem hglobal)).1).1

namespace Recorded

variable {history : TableHistory ρ} {t : SymbolTableOver ρ}

theorem symbol?_of_mem_byStart (h : Recorded history t) {i : ScopeId} {name : String} :
    ∀ x ∈ SymbolOver.byStart (history.declarations i name), t.symbol? x.id = some x :=
  fun _ hx => h.symbol?_declared (mem_declarations.mp (SymbolOver.mem_byStart.mp hx)).1

/-- Only the root scope has no parent. -/
theorem parent_isSome (h : Recorded history t) {i : Nat} {s : Scope} (hs : t.scopes[i]? = some s) :
    s.parent.isSome = true ↔ i ≠ SymbolTableOver.rootId := by
  have hchain := (h.scope hs).chain
  cases hp : s.parent with
  | none =>
    rw [hp] at hchain
    simp [hchain.1]
  | some p =>
    rw [hp] at hchain
    have hne : i ≠ 0 := Nat.ne_of_gt (Nat.lt_of_le_of_lt (Nat.zero_le p) hchain.1)
    exact iff_of_true rfl hne

theorem root (h : Recorded history t) :
    ∃ root, t.scopes[SymbolTableOver.rootId]? = some root := by
  have hpos := history.length_chains_pos
  rw [h.size] at hpos
  exact ⟨_, Array.getElem?_eq_getElem hpos⟩

theorem lookupIn_eq (h : Recorded history t) {i : Nat} {s : Scope} (hs : t.scopes[i]? = some s)
    (name : String) (offset : Nat) :
    t.lookupIn name offset s = (history.meaningIn name offset i).map (·.id) := by
  have hlist : ∀ x ∈ SymbolOver.byStart (history.declarations i name), t.symbol? x.id = some x :=
    h.symbol?_of_mem_byStart
  unfold SymbolTableOver.lookupIn meaningIn
  simp only [(h.scope hs).declarations, SymbolTableOver.takeWhile_startsBy hlist,
    List.getLast?_map, SymbolOver.latest_eq, SymbolOver.earliest_eq, List.head?_map]
  cases ((SymbolOver.byStart (history.declarations i name)).takeWhile
      (·.start ≤ offset)).getLast? with
  | some x => rfl
  | none =>
    by_cases hi : i = SymbolTableOver.rootId
    · have hroot : s.parent.isSome = false := by
        rw [Bool.eq_false_iff, ne_eq, h.parent_isSome hs]
        exact fun hne => hne hi
      simp [hroot, hi]
    · simp [(h.parent_isSome hs).mpr hi, hi]

theorem laterGlobal_eq (h : Recorded history t) (name : String) :
    t.laterGlobal name = (SymbolOver.earliest ((history.declarations SymbolTableOver.rootId
      name).filter (fun x => !x.isLocal))).map (·.id) := by
  obtain ⟨root, hroot⟩ := h.root
  have hglobal : ∀ x ∈ SymbolOver.byStart (history.declarations SymbolTableOver.rootId name),
      t.isGlobal x.id = !x.isLocal := by
    intro x hx
    rw [SymbolTableOver.isGlobal, h.symbol?_of_mem_byStart x hx]
  unfold SymbolTableOver.laterGlobal SymbolTableOver.scope?
  rw [hroot, SymbolOver.earliest_filter]
  simp only
  rw [(h.scope hroot).declarations, List.find?_map]
  congr 1
  exact List.find?_congr fun x hx => hglobal x hx

/-- By induction on the scope, as a parent has a smaller number. -/
theorem chain_eq (h : Recorded history t) {c : List ScopeId} :
    ∀ (fuel : Nat) {i : Nat}, i < fuel → history.chains[i]? = some c →
      (t.chain fuel (some i)).map some = c.map t.scope? := by
  intro fuel
  induction fuel generalizing c with
  | zero => exact fun hi => absurd hi (Nat.not_lt_zero _)
  | succ fuel ih =>
    intro i hi hc
    obtain ⟨s, hs⟩ : ∃ s, t.scopes[i]? = some s := by
      have hlt := (List.getElem?_eq_some_iff.mp hc).1
      rw [h.size] at hlt
      exact ⟨_, Array.getElem?_eq_getElem hlt⟩
    have hchain := (h.scope hs).chain
    have hscope : t.scope? i = some s := hs
    unfold SymbolTableOver.chain
    rw [hscope]
    simp only [List.map_cons]
    cases hp : s.parent with
    | none =>
      rw [hp] at hchain
      obtain rfl := Option.some.inj (hc.symm.trans hchain.2)
      rw [show t.chain fuel none = [] by cases fuel <;> rfl]
      simp [hscope]
    | some p =>
      rw [hp] at hchain
      obtain ⟨hlt, outer, houter, hi'⟩ := hchain
      obtain rfl := Option.some.inj (hc.symm.trans hi')
      rw [ih (Nat.lt_of_lt_of_le hlt (Nat.le_of_lt_succ hi)) houter, List.map_cons, hscope]

theorem ancestors_eq (h : Recorded history t) (scope : ScopeId) :
    (t.ancestors scope).map some = (history.around scope).map t.scope? := by
  unfold SymbolTableOver.ancestors around
  rw [List.getD_eq_getElem?_getD]
  cases hc : history.chains[scope]? with
  | some c =>
    have hlt := (List.getElem?_eq_some_iff.mp hc).1
    exact h.chain_eq _ (h.size ▸ hlt) hc
  | none =>
    have hnone : t.scope? scope = none :=
      Array.getElem?_eq_none (h.size ▸ List.getElem?_eq_none_iff.mp hc)
    cases t.scopes.size <;> simp [SymbolTableOver.chain, hnone]

theorem lookup_eq (h : Recorded history t) (scope : ScopeId) (name : String) (offset : Nat) :
    t.lookup scope name offset = (history.meaning scope name offset).map (·.id) := by
  have hone : ∀ i, (t.scope? i).bind (t.lookupIn name offset) =
      (history.meaningIn name offset i).map (·.id) := by
    intro i
    cases hs : t.scope? i with
    | some s => exact h.lookupIn_eq hs name offset
    | none =>
      have hnone := h.declaredIn_eq_nil (Array.getElem?_eq_none_iff.mp hs)
      simp [meaningIn, declarations, hnone, SymbolOver.latest, SymbolOver.earliest]
  have hchain : (t.ancestors scope).findSome? (t.lookupIn name offset) =
      ((history.around scope).findSome? (history.meaningIn name offset)).map (·.id) := by
    calc (t.ancestors scope).findSome? (t.lookupIn name offset)
        = ((t.ancestors scope).map some).findSome? (·.bind (t.lookupIn name offset)) := by
          rw [List.findSome?_map]
          rfl
      _ = (history.around scope).findSome?
            (fun i => (t.scope? i).bind (t.lookupIn name offset)) := by
          rw [h.ancestors_eq, List.findSome?_map]
          rfl
      _ = ((history.around scope).findSome? (history.meaningIn name offset)).map (·.id) := by
          rw [funext hone, List.map_findSome?]
          rfl
  rw [SymbolTableOver.lookup, meaning, hchain, h.laterGlobal_eq, Option.map_or]
  cases (history.around scope).findSome? (history.meaningIn name offset) <;> rfl

end Recorded

/-- Whatever the changes of a table were, a lookup follows the rule, and finds no member. -/
theorem Reaches.lookup_meaning {length : Nat} {history : TableHistory ρ} {t : SymbolTableOver ρ}
    (h : Reaches length history t) (scope : ScopeId) (name : String) (offset : Nat) :
    t.lookup scope name offset = (history.meaning scope name offset).map (·.id) ∧
      ∀ x, .member x ∈ history → t.lookup scope name offset ≠ some x.id := by
  refine ⟨h.recorded.lookup_eq scope name offset, fun x hx hfound => ?_⟩
  rw [h.recorded.lookup_eq] at hfound
  obtain ⟨y, hy, hid⟩ := Option.map_eq_some_iff.mp hfound
  exact h.recorded.apart (declared_of_meaning hy) hx hid

/-- The later of the two declarations in the nested scope stands in front of the other. -/
theorem lookup_meaning_out_of_order :
    (outOfOrder.table 50).lookup 1 "x" 15 = some 3 ∧
      (outOfOrder.table 50).lookup 1 "x" 15 ≠ some 2 := by
  have hreaches : Reaches 50 outOfOrder (outOfOrder.table 50) := reaches_table (by decide +kernel)
  obtain ⟨hmeaning, hmember⟩ := Reaches.lookup_meaning hreaches 1 "x" 15
  exact ⟨hmeaning.trans (by decide +kernel), hmember (.plain 2 "x" 1 20 true) (by simp [outOfOrder])⟩

end TableHistory

end LuaScope

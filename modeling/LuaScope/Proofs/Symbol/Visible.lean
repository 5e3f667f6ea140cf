import LuaScope.Proofs.Symbol.Lookup

/-!
# LuaScope.Proofs.Symbol.Visible

The names visible at an offset beside the lookups of these names.

* `SymbolTableOver.Hides`                  — a nested scope declares the name, but only local and later.
* `TableHistory.listing`                   — what is listed: a name by the innermost scope that shows it.
* `TableHistory.Reaches.visible_agrees`    — each name is listed once, and a lookup answers with the
  symbol that is listed but where a scope further in hides it.
-/

namespace LuaScope

namespace SymbolTableOver

variable {ρ : Type}

/-- The scope is a nested one that declares the name, but nowhere else than behind the offset and
as a local. -/
def Hides (t : SymbolTableOver ρ) (offset : Nat) (name : String) (s : Scope) : Prop :=
  s.parent.isSome = true ∧ s.declarations name ≠ [] ∧ ∀ id ∈ s.declarations name,
    ∃ x, t.symbol? id = some x ∧ x.isLocal = true ∧ offset < x.start

theorem lookup_eq_or (t : SymbolTableOver ρ) (scope : ScopeId) (name : String) (offset : Nat) :
    t.lookup scope name offset =
      ((t.ancestors scope).findSome? (t.lookupIn name offset)).or (t.laterGlobal name) := by
  unfold lookup
  cases (t.ancestors scope).findSome? (t.lookupIn name offset) <;> rfl

end SymbolTableOver

/-- Has the name been given by the offset, or is it a global? -/
def SymbolOver.inReach {ρ : Type} (offset : Nat) (x : SymbolOver ρ) : Bool :=
  x.start ≤ offset || !x.isLocal

namespace TableHistory

variable {ρ : Type} {history : TableHistory ρ} {t : SymbolTableOver ρ}

/-! ## Scopes on the way outwards -/

namespace Recorded

theorem ancestors_cons (h : Recorded history t) {i : Nat} {s : Scope}
    (hs : t.scopes[i]? = some s) : t.ancestors i = s :: match s.parent with
      | none => []
      | some p => t.ancestors p := by
  have hi := (Array.getElem?_eq_some_iff.mp hs).1
  have hscope : t.scope? i = some s := hs
  have hchain := (h.scope hs).chain
  refine List.map_injective_iff.mpr (Option.some_injective _) ?_
  rw [h.ancestors_eq, around, List.getD_eq_getElem?_getD]
  cases hp : s.parent with
  | none =>
    rw [hp] at hchain
    simp [hchain.2, hscope]
  | some p =>
    rw [hp] at hchain
    obtain ⟨-, outer, houter, hi⟩ := hchain
    rw [hi, Option.getD_some, List.map_cons, List.map_cons, hscope, h.ancestors_eq, around,
      List.getD_eq_getElem?_getD, houter, Option.getD_some]

theorem ancestors_eq_nil (h : Recorded history t) {i : Nat} (hi : t.scopes[i]? = none) :
    t.ancestors i = [] := by
  have hchain : history.chains[i]? = none := by
    rw [List.getElem?_eq_none_iff, h.size]
    exact Array.getElem?_eq_none_iff.mp hi
  have hnil := h.ancestors_eq i
  rwa [around, List.getD_eq_getElem?_getD, hchain, Option.getD_none, List.map_nil,
    List.map_eq_nil_iff] at hnil

theorem parent_eq_none (h : Recorded history t) {i : Nat} {s : Scope} (hs : t.scopes[i]? = some s)
    (hroot : i = SymbolTableOver.rootId) : s.parent = none := by
  rw [← Option.isNone_iff_eq_none, ← Option.not_isSome, Bool.not_eq_true', ← Bool.not_eq_true,
    h.parent_isSome hs]
  exact fun hne => hne hroot

/-- The way outwards ends at the root scope. By induction on the scope, as a parent has a smaller
number. -/
theorem ancestors_root (h : Recorded history t) (i : Nat) (hi : i < t.scopes.size) :
    ∃ front root, t.ancestors i = front ++ [root] ∧ root.id = SymbolTableOver.rootId := by
  induction i using Nat.strong_induction_on with
  | _ i ih =>
    have hs : t.scopes[i]? = some t.scopes[i] := Array.getElem?_eq_getElem hi
    have hchain := (h.scope hs).chain
    rw [h.ancestors_cons hs]
    cases hp : t.scopes[i].parent with
    | none =>
      rw [hp] at hchain
      exact ⟨[], _, rfl, (h.scope hs).id.trans hchain.1⟩
    | some p =>
      rw [hp] at hchain
      obtain ⟨front, root, hsplit, hroot⟩ := ih p hchain.1 (Nat.lt_trans hchain.1 hi)
      exact ⟨t.scopes[i] :: front, root, congrArg (t.scopes[i] :: ·) hsplit, hroot⟩

/-- A scope on the way outwards stands in front of those around it, and only the last one is the
root scope. -/
theorem ancestors_split (h : Recorded history t) {a : Scope} {back : List Scope} :
    ∀ (front : List Scope) {i : ScopeId}, t.ancestors i = front ++ a :: back →
      t.scopes[a.id]? = some a ∧ t.ancestors a.id = a :: back ∧
        ∀ c ∈ front, t.scopes[c.id]? = some c ∧ c.parent.isSome = true := by
  intro front
  induction front with
  | nil =>
    intro i hsplit
    cases hs : t.scopes[i]? with
    | none =>
      rw [h.ancestors_eq_nil hs] at hsplit
      cases hsplit
    | some s =>
      have hcons := h.ancestors_cons hs
      rw [hsplit] at hcons
      obtain rfl : a = s := (List.cons.inj hcons).1
      rw [(h.scope hs).id]
      exact ⟨hs, hsplit, nofun⟩
  | cons c front ih =>
    intro i hsplit
    cases hs : t.scopes[i]? with
    | none =>
      rw [h.ancestors_eq_nil hs] at hsplit
      cases hsplit
    | some s =>
      rw [h.ancestors_cons hs, List.cons_append] at hsplit
      obtain ⟨rfl, hrest⟩ := List.cons.inj hsplit
      cases hp : s.parent with
      | none =>
        rw [hp] at hrest
        cases front <;> cases hrest
      | some p =>
        rw [hp] at hrest
        obtain ⟨hat, hback, hfront⟩ := ih hrest
        refine ⟨hat, hback, List.forall_mem_cons.mpr ⟨⟨?_, by simp [hp]⟩, hfront⟩⟩
        rw [(h.scope hs).id]
        exact hs

/-! ## What a lookup finds in one scope -/

section Lookup

variable {i : Nat} {s : Scope} {name : String} {offset : Nat} {id : SymbolId}

theorem declarations_eq_nil (h : Recorded history t) (hs : t.scopes[i]? = some s) :
    s.declarations name = [] ↔ history.declarations i name = [] := by
  rw [(h.scope hs).declarations, List.map_eq_nil_iff, ← List.length_eq_zero_iff,
    (SymbolOver.byStart_perm _).length_eq, List.length_eq_zero_iff]

theorem mem_of_lookupIn (h : Recorded history t) (hs : t.scopes[i]? = some s)
    (hfound : t.lookupIn name offset s = some id) : ∃ x ∈ history.declarations i name,
      x.id = id ∧ (i = SymbolTableOver.rootId → x.start ≤ offset) := by
  rw [h.lookupIn_eq hs] at hfound
  obtain ⟨x, hx, hid⟩ := Option.map_eq_some_iff.mp hfound
  rcases Option.or_eq_some_iff.mp hx with hlatest | ⟨-, hearliest⟩
  · obtain ⟨hmem, hstart⟩ := List.mem_filter.mp (List.mem_reverse.mp (List.argmax_mem hlatest))
    exact ⟨x, hmem, hid, fun _ => by simpa using hstart⟩
  · split at hearliest
    · cases hearliest
    · rename_i hne
      exact ⟨x, List.argmin_mem hearliest, hid, fun hroot => absurd hroot hne⟩

/-- Where a scope does not answer, the name comes later in it. -/
theorem lt_of_lookupIn_none (h : Recorded history t) (hs : t.scopes[i]? = some s)
    (hnone : t.lookupIn name offset s = none) :
    ∀ x ∈ history.declarations i name, offset < x.start := by
  intro x hx
  rw [h.lookupIn_eq hs, Option.map_eq_none_iff, meaningIn, Option.or_eq_none_iff] at hnone
  have hempty := List.argmax_eq_none.mp hnone.1
  rw [List.reverse_eq_nil_iff, List.filter_eq_nil_iff] at hempty
  simpa using hempty x hx

/-- A nested scope answers for every name that it declares. -/
theorem lookupIn_eq_none_iff (h : Recorded history t) (hs : t.scopes[i]? = some s)
    (hnested : s.parent.isSome = true) :
    t.lookupIn name offset s = none ↔ history.declarations i name = [] := by
  rw [h.lookupIn_eq hs, Option.map_eq_none_iff, meaningIn,
    if_neg ((h.parent_isSome hs).mp hnested), Option.or_eq_none_iff]
  constructor
  · exact fun hnone => List.argmin_eq_none.mp hnone.2
  · intro hempty
    rw [hempty]
    exact ⟨rfl, rfl⟩

theorem laterGlobal_eq_none_iff (h : Recorded history t) : t.laterGlobal name = none ↔
    ∀ x ∈ history.declarations SymbolTableOver.rootId name, x.isLocal = true := by
  rw [h.laterGlobal_eq, Option.map_eq_none_iff, SymbolOver.earliest, List.argmin_eq_none,
    List.filter_eq_nil_iff]
  simp

theorem mem_of_laterGlobal (h : Recorded history t) (hfound : t.laterGlobal name = some id) :
    ∃ x ∈ history.declarations SymbolTableOver.rootId name, x.isLocal = false ∧ x.id = id := by
  rw [h.laterGlobal_eq] at hfound
  obtain ⟨x, hx, hid⟩ := Option.map_eq_some_iff.mp hfound
  obtain ⟨hmem, hglobal⟩ := List.mem_filter.mp (List.argmin_mem hx)
  exact ⟨x, hmem, by simpa using hglobal, hid⟩

end Lookup

end Recorded

/-! ## What is listed -/

/-- The scope declares the name in reach of the offset. -/
def Shows (history : TableHistory ρ) (offset : Nat) (name : String) (s : Scope) : Prop :=
  ∃ x ∈ history.declarations s.id name, x.inReach offset = true

/-- Names in reach that were not seen before, each once. -/
def newNames (offset : Nat) : List String → List (SymbolOver ρ) → List String
  | _, [] => []
  | seen, x :: xs =>
    if x.inReach offset && !seen.contains x.name then x.name :: newNames offset (x.name :: seen) xs
    else newNames offset seen xs

/-- For each scope, from the inside out, the names that it shows and none before it did. -/
def listing (history : TableHistory ρ) (offset : Nat) :
    List String → List Scope → List (ScopeId × String)
  | _, [] => []
  | seen, s :: rest =>
    let names := newNames offset seen (history.declaredIn s.id).reverse
    names.map (s.id, ·) ++ history.listing offset (names.reverse ++ seen) rest

section Names

variable {offset : Nat} {seen : List String} {name : String}

theorem mem_newNames {xs : List (SymbolOver ρ)} : name ∈ newNames offset seen xs ↔
    name ∉ seen ∧ ∃ x ∈ xs, x.name = name ∧ x.inReach offset = true := by
  induction xs generalizing seen with
  | nil => simp [newNames]
  | cons x xs ih =>
    unfold newNames
    split
    · rename_i hnew
      rw [Bool.and_eq_true, Bool.not_eq_true', ← Bool.not_eq_true, List.contains_iff_mem] at hnew
      rw [List.mem_cons, ih, List.mem_cons, not_or]
      by_cases hname : name = x.name
      · subst hname
        simp [hnew]
      · simp [hname, Ne.symm hname]
    · rename_i hnew
      rw [Bool.and_eq_true, Bool.not_eq_true', ← Bool.not_eq_true, List.contains_iff_mem,
        not_and_not_right] at hnew
      rw [ih]
      refine and_congr_right fun hseen => ?_
      have hskip : ¬(x.name = name ∧ x.inReach offset = true) := by
        rintro ⟨rfl, hreach⟩
        exact hseen (hnew hreach)
      simp [hskip]

theorem nodup_newNames (xs : List (SymbolOver ρ)) : (newNames offset seen xs).Nodup := by
  induction xs generalizing seen with
  | nil => exact .nil
  | cons x xs ih =>
    unfold newNames
    split
    · exact List.nodup_cons.mpr ⟨fun hmem => (mem_newNames.mp hmem).1 (.head _), ih⟩
    · exact ih

theorem mem_newNames_declaredIn {s : Scope} :
    name ∈ newNames offset seen (history.declaredIn s.id).reverse ↔
      name ∉ seen ∧ history.Shows offset name s := by
  rw [mem_newNames]
  refine and_congr_right fun _ => ?_
  simp only [Shows, declarations, List.mem_reverse, List.mem_filter, beq_iff_eq, and_assoc]

/-- A name is listed by the first scope that shows it. -/
theorem mem_listing {i : ScopeId} {chain : List Scope} :
    (i, name) ∈ history.listing offset seen chain ↔ name ∉ seen ∧ ∃ front s back,
      chain = front ++ s :: back ∧ s.id = i ∧ history.Shows offset name s ∧
        ∀ c ∈ front, ¬history.Shows offset name c := by
  induction chain generalizing seen with
  | nil => simp [listing]
  | cons c rest ih =>
    have hnames : name ∈ newNames offset seen (history.declaredIn c.id).reverse ↔
        name ∉ seen ∧ history.Shows offset name c := mem_newNames_declaredIn
    unfold listing
    rw [List.mem_append, List.mem_map, ih, List.mem_append, List.mem_reverse, not_or]
    constructor
    · rintro (⟨n, hn, heq⟩ | ⟨⟨hnew, hseen⟩, front, s, back, hrest, hi, hshows, hfront⟩)
      · obtain ⟨rfl, rfl⟩ := Prod.mk.inj heq
        obtain ⟨hseen, hshows⟩ := mem_newNames_declaredIn.mp hn
        exact ⟨hseen, [], c, rest, rfl, rfl, hshows, nofun⟩
      · have hskip : ¬history.Shows offset name c := fun hc => hnew (hnames.mpr ⟨hseen, hc⟩)
        exact ⟨hseen, c :: front, s, back, by rw [hrest, List.cons_append], hi, hshows,
          List.forall_mem_cons.mpr ⟨hskip, hfront⟩⟩
    · rintro ⟨hseen, front, s, back, hchain, hi, hshows, hfront⟩
      cases front with
      | nil =>
        obtain ⟨rfl, -⟩ := List.cons.inj hchain
        exact .inl ⟨name, hnames.mpr ⟨hseen, hshows⟩, by rw [hi]⟩
      | cons d front =>
        obtain ⟨rfl, hrest⟩ := List.cons.inj hchain
        obtain ⟨hskip, hfront⟩ := List.forall_mem_cons.mp hfront
        exact .inr ⟨⟨fun hnew => hskip (hnames.mp hnew).2, hseen⟩,
          front, s, back, hrest, hi, hshows, hfront⟩

theorem nodup_listing (chain : List Scope) :
    ((history.listing offset seen chain).map Prod.snd).Nodup := by
  induction chain generalizing seen with
  | nil => exact .nil
  | cons c rest ih =>
    unfold listing
    rw [List.map_append, List.map_map]
    refine List.Nodup.append ?_ ih ?_
    · simpa using nodup_newNames (history.declaredIn c.id).reverse
    · intro n hn hrest
      have hnew : n ∈ newNames offset seen (history.declaredIn c.id).reverse := by simpa using hn
      obtain ⟨⟨i, m⟩, hmem, rfl⟩ := List.mem_map.mp hrest
      exact (mem_listing.mp hmem).1 (List.mem_append_left _ (List.mem_reverse.mpr hnew))

end Names

/-! ## The list of visible symbols -/

namespace Recorded

variable {offset : Nat}

theorem visibleIn_eq {xs : List (SymbolOver ρ)} (hsymbols : ∀ x ∈ xs, t.symbol? x.id = some x)
    (i : ScopeId) (seen : List String) (found : List SymbolId) :
    t.visibleIn offset i (xs.map (·.id)) (seen, found) =
      ((newNames offset seen xs).reverse ++ seen,
        found ++ (newNames offset seen xs).flatMap (fun n => (t.lookup i n offset).toList)) := by
  induction xs generalizing seen found with
  | nil => simp [SymbolTableOver.visibleIn, newNames]
  | cons x xs ih =>
    obtain ⟨hx, hxs⟩ := List.forall_mem_cons.mp hsymbols
    rw [List.map_cons, SymbolTableOver.visibleIn, newNames, hx]
    simp only
    have hreach : ((decide (x.span.start ≤ offset) || !x.isLocal) && !seen.contains x.name) =
        (x.inReach offset && !seen.contains x.name) := rfl
    rw [hreach]
    split
    · rw [ih hxs]
      simp
    · exact ih hxs seen found

/-- What is visible is what lookups find of the names that are listed, each from its scope. -/
theorem visible_eq (h : Recorded history t) (scope : ScopeId) :
    t.visible scope offset = (history.listing offset [] (t.ancestors scope)).flatMap
      (fun p => (t.lookup p.1 p.2 offset).toList) := by
  have hfold : ∀ (chain : List Scope), (∀ s ∈ chain, t.scopes[s.id]? = some s) →
      ∀ seen found, (chain.foldl (fun acc s => t.visibleIn offset s.id s.symbols.reverse acc)
        (seen, found)).2 = found ++ (history.listing offset seen chain).flatMap
          (fun p => (t.lookup p.1 p.2 offset).toList) := by
    intro chain
    induction chain with
    | nil => simp [listing]
    | cons s rest ih =>
      intro hchain seen found
      obtain ⟨hs, hrest⟩ := List.forall_mem_cons.mp hchain
      have hsymbols : ∀ x ∈ (history.declaredIn s.id).reverse, t.symbol? x.id = some x :=
        fun x hx => h.symbol?_declared (mem_declaredIn.mp (List.mem_reverse.mp hx)).1
      rw [List.foldl_cons, (h.scope hs).symbols, ← List.map_reverse, visibleIn_eq hsymbols,
        ih hrest, listing, List.flatMap_append, List.flatMap_map, List.append_assoc]
  have hall : ∀ s ∈ t.ancestors scope, t.scopes[s.id]? = some s := by
    intro s hs
    obtain ⟨front, back, hsplit⟩ := List.append_of_mem hs
    exact (h.ancestors_split front hsplit).1
  exact hfold _ hall [] []

/-- A scope that shows the name answers for it, seen from there. -/
theorem lookup_of_shows (h : Recorded history t) {s : Scope} {back : List Scope} {name : String}
    (hs : t.scopes[s.id]? = some s) (hback : t.ancestors s.id = s :: back)
    (hshows : history.Shows offset name s) :
    ∃ x ∈ history.declarations s.id name, t.lookup s.id name offset = some x.id := by
  rw [t.lookup_eq_or, hback, List.findSome?_cons]
  cases hin : t.lookupIn name offset s with
  | some id =>
    obtain ⟨x, hx, rfl, -⟩ := h.mem_of_lookupIn hs hin
    exact ⟨x, hx, rfl⟩
  | none =>
    -- The name comes later, so it is a global, and the scope is the root scope.
    obtain ⟨x, hx, hreach⟩ := hshows
    have hlate := h.lt_of_lookupIn_none hs hin x hx
    have hglobal : x.isLocal = false := by
      simpa [SymbolOver.inReach, Nat.not_le.mpr hlate] using hreach
    have hroot : s.id = SymbolTableOver.rootId := by
      by_contra hne
      have hempty := (h.lookupIn_eq_none_iff hs ((h.parent_isSome hs).mpr hne)).mp hin
      rw [hempty] at hx
      cases hx
    have hnil : back = [] := by
      rw [h.ancestors_cons hs, h.parent_eq_none hs hroot] at hback
      exact (List.cons.inj hback).2.symm
    subst hnil
    cases hlater : t.laterGlobal name with
    | none =>
      have hlocal := h.laterGlobal_eq_none_iff.mp hlater x (hroot ▸ hx)
      rw [hglobal] at hlocal
      cases hlocal
    | some id =>
      obtain ⟨y, hy, -, rfl⟩ := h.mem_of_laterGlobal hlater
      exact ⟨y, hroot ▸ hy, rfl⟩

/-- Where a scope that does not show the name declares it, it hides the name. -/
theorem hides_iff (h : Recorded history t) {s : Scope} {name : String}
    (hs : t.scopes[s.id]? = some s) (hnested : s.parent.isSome = true)
    (hshows : ¬history.Shows offset name s) :
    t.Hides offset name s ↔ t.lookupIn name offset s ≠ none := by
  rw [ne_eq, h.lookupIn_eq_none_iff hs hnested, ← h.declarations_eq_nil hs]
  refine ⟨fun hhides => hhides.2.1, fun hne => ⟨hnested, hne, fun id hid => ?_⟩⟩
  rw [(h.scope hs).declarations] at hid
  obtain ⟨x, hx, rfl⟩ := List.mem_map.mp hid
  refine ⟨x, h.symbol?_of_mem_byStart x hx, ?_⟩
  by_contra hreach
  refine hshows ⟨x, SymbolOver.mem_byStart.mp hx, ?_⟩
  by_cases hlate : offset < x.start
  · have hglobal : x.isLocal = false := by
      rw [← Bool.not_eq_true]
      exact fun hlocal => hreach ⟨hlocal, hlate⟩
    simp [SymbolOver.inReach, hglobal]
  · simp [SymbolOver.inReach, Nat.not_lt.mp hlate]

end Recorded

namespace Recorded

variable {scope : ScopeId} {offset : Nat}

/-- What is listed is there, and leads to a symbol of the name declared in the scope. -/
theorem of_mem_listing (h : Recorded history t) {i : ScopeId} {name : String}
    (hmem : (i, name) ∈ history.listing offset [] (t.ancestors scope)) :
    ∃ x front s back, t.lookup i name offset = some x.id ∧ x ∈ history.declarations i name ∧
      t.ancestors scope = front ++ s :: back ∧ s.id = i ∧ history.Shows offset name s ∧
        ∀ c ∈ front, ¬history.Shows offset name c := by
  obtain ⟨-, front, s, back, hsplit, rfl, hshows, hfront⟩ := mem_listing.mp hmem
  obtain ⟨hs, hback, -⟩ := h.ancestors_split front hsplit
  obtain ⟨x, hx, hfound⟩ := h.lookup_of_shows hs hback hshows
  exact ⟨x, front, s, back, hfound, hx, hsplit, rfl, hshows, hfront⟩

/-- The symbols are listed with the names that they were looked up by. -/
theorem names_visible (h : Recorded history t) :
    (t.visible scope offset).map (fun v => (t.symbol? v).map (·.name)) =
      (history.listing offset [] (t.ancestors scope)).map (fun p => some p.2) := by
  have hone : ∀ p ∈ history.listing offset [] (t.ancestors scope),
      ((t.lookup p.1 p.2 offset).toList.map fun v => (t.symbol? v).map (·.name)) = [some p.2] := by
    intro p hp
    obtain ⟨x, -, -, -, hfound, hx, -⟩ := h.of_mem_listing hp
    obtain ⟨hdeclared, -, hname⟩ := mem_declarations.mp hx
    simp [hfound, h.symbol?_declared hdeclared, hname]
  rw [h.visible_eq, List.map_flatMap, List.flatMap_congr hone]
  exact List.flatMap_pure_eq_map _ _

theorem mem_visible (h : Recorded history t) {v : SymbolId} : v ∈ t.visible scope offset ↔
    ∃ i name, (i, name) ∈ history.listing offset [] (t.ancestors scope) ∧
      t.lookup i name offset = some v := by
  rw [h.visible_eq, List.mem_flatMap]
  simp [Option.mem_toList]

/-- A name that no nested scope in front declares is listed by the scope that shows it. -/
theorem mem_visible_of_shows (h : Recorded history t) {front back : List Scope} {s : Scope}
    {name : String} {r : SymbolId} (hsplit : t.ancestors scope = front ++ s :: back)
    (hfront : ∀ c ∈ front, t.lookupIn name offset c = none) (hshows : history.Shows offset name s)
    (hfound : t.lookup scope name offset = some r) : r ∈ t.visible scope offset := by
  obtain ⟨-, hback, hnested⟩ := h.ancestors_split front hsplit
  have hsame : t.lookup s.id name offset = some r := by
    rw [t.lookup_eq_or, hback, ← hfound, t.lookup_eq_or scope, hsplit, List.findSome?_append,
      List.findSome?_eq_none_iff.mpr hfront, Option.none_or]
  refine h.mem_visible.mpr ⟨s.id, name, mem_listing.mpr ⟨nofun, front, s, back, hsplit, rfl, hshows,
    fun c hc => ?_⟩, hsame⟩
  rintro ⟨x, hx, -⟩
  rw [(h.lookupIn_eq_none_iff (hnested c hc).1 (hnested c hc).2).mp (hfront c hc)] at hx
  cases hx

/-- A listed symbol is what a lookup finds but where a scope further in hides the name. -/
theorem lookup_iff_of_visible (h : Recorded history t) {v : SymbolId}
    (hv : v ∈ t.visible scope offset) : ∃ x front s back, t.symbol? v = some x ∧
      t.ancestors scope = front ++ s :: back ∧ s.id = x.scope ∧
      (t.lookup scope x.name offset = some v ↔ ∀ c ∈ front, ¬t.Hides offset x.name c) := by
  obtain ⟨i, name, hmem, hlookup⟩ := h.mem_visible.mp hv
  obtain ⟨x, front, s, back, hfound, hx, hsplit, rfl, hshows, hfront⟩ := h.of_mem_listing hmem
  obtain rfl := Option.some.inj (hlookup.symm.trans hfound)
  obtain ⟨hdeclared, hscope, rfl⟩ := mem_declarations.mp hx
  obtain ⟨hs, hback, hnested⟩ := h.ancestors_split front hsplit
  have hhides : ∀ c ∈ front, t.Hides offset x.name c ↔ t.lookupIn x.name offset c ≠ none :=
    fun c hc => h.hides_iff (hnested c hc).1 (hnested c hc).2 (hfront c hc)
  have hsame : t.lookup scope x.name offset =
      (front.findSome? (t.lookupIn x.name offset)).or (some x.id) := by
    rw [← hfound, t.lookup_eq_or scope, hsplit, List.findSome?_append, Option.or_assoc,
      t.lookup_eq_or s.id, hback]
  refine ⟨x, front, s, back, h.symbol?_declared hdeclared, hsplit, hscope.symm, ?_⟩
  rw [hsame]
  constructor
  · intro hown c hc hhidden
    -- The answer of a scope further in is a symbol of that scope.
    have hsome : front.findSome? (t.lookupIn x.name offset) = some x.id := by
      cases hin : front.findSome? (t.lookupIn x.name offset) with
      | some w => rw [hin] at hown; exact hown
      | none =>
        exact absurd (List.findSome?_eq_none_iff.mp hin c hc) ((hhides c hc).mp hhidden)
    obtain ⟨d, hd, hanswer⟩ := List.exists_of_findSome?_eq_some hsome
    obtain ⟨y, hy, hid, -⟩ := h.mem_of_lookupIn (hnested d hd).1 hanswer
    obtain ⟨hydeclared, hyscope, -⟩ := mem_declarations.mp hy
    have hsymbol := h.symbol?_declared hydeclared
    rw [hid, h.symbol?_declared hdeclared] at hsymbol
    obtain rfl := Option.some.inj hsymbol
    have hds := (hnested d hd).1
    rw [← hyscope, hscope, hs] at hds
    obtain rfl := Option.some.inj hds
    exact hfront _ hd hshows
  · intro hnone
    rw [List.findSome?_eq_none_iff.mpr fun c hc => ?_, Option.none_or]
    by_contra hanswer
    exact hnone c hc ((hhides c hc).mpr hanswer)

/-- What a lookup finds is listed, or a local of a nested scope that comes later. -/
theorem visible_or_later (h : Recorded history t) (hscope : scope < t.scopes.size) {name : String}
    {r : SymbolId} (hfound : t.lookup scope name offset = some r) :
    r ∈ t.visible scope offset ∨ ∃ x, t.symbol? r = some x ∧
      x.scope ≠ SymbolTableOver.rootId ∧ x.isLocal = true ∧ offset < x.start := by
  rcases Option.or_eq_some_iff.mp ((t.lookup_eq_or ..).symm.trans hfound) with hin | ⟨hnone, hlater⟩
  · obtain ⟨front, s, back, hsplit, hanswer, hfront⟩ := List.findSome?_eq_some_iff.mp hin
    obtain ⟨hs, -, -⟩ := h.ancestors_split front hsplit
    obtain ⟨x, hx, rfl, hroot⟩ := h.mem_of_lookupIn hs hanswer
    by_cases hreach : x.inReach offset = true
    · exact .inl (h.mem_visible_of_shows hsplit hfront ⟨x, hx, hreach⟩ hfound)
    · obtain ⟨hdeclared, hxscope, -⟩ := mem_declarations.mp hx
      have hlate : offset < x.start ∧ x.isLocal = true := by
        simpa [SymbolOver.inReach] using hreach
      refine .inr ⟨x, h.symbol?_declared hdeclared, ?_, hlate.2, hlate.1⟩
      rw [hxscope]
      exact fun hr => absurd (hroot hr) (Nat.not_le.mpr hlate.1)
  · obtain ⟨front, root, hsplit, hroot⟩ := h.ancestors_root scope hscope
    obtain ⟨x, hx, hglobal, -⟩ := h.mem_of_laterGlobal hlater
    rw [hsplit] at hnone
    have hfront : ∀ c ∈ front, t.lookupIn name offset c = none := fun c hc =>
      List.findSome?_eq_none_iff.mp hnone c (List.mem_append_left _ hc)
    refine .inl (h.mem_visible_of_shows hsplit hfront ⟨x, hroot ▸ hx, ?_⟩ hfound)
    simp [SymbolOver.inReach, hglobal]

end Recorded

/-- Every name is listed once; a listed symbol is what a lookup of its name finds, if no nested
scope further in hides the name; and what a lookup finds is listed, or else a local of a nested
scope that comes later. -/
theorem Reaches.visible_agrees {length : Nat} (h : Reaches length history t) {scope : ScopeId}
    (hscope : scope < t.scopes.size) (offset : Nat) :
    ((t.visible scope offset).map (fun v => (t.symbol? v).map (·.name))).Nodup ∧
    (∀ v ∈ t.visible scope offset, ∃ x front s back, t.symbol? v = some x ∧
      t.ancestors scope = front ++ s :: back ∧ s.id = x.scope ∧
      (t.lookup scope x.name offset = some v ↔ ∀ c ∈ front, ¬t.Hides offset x.name c)) ∧
    ∀ name r, t.lookup scope name offset = some r → r ∈ t.visible scope offset ∨
      ∃ x, t.symbol? r = some x ∧ x.scope ≠ SymbolTableOver.rootId ∧ x.isLocal = true ∧
        offset < x.start := by
  refine ⟨?_, fun v hv => h.recorded.lookup_iff_of_visible hv,
    fun name r hr => h.recorded.visible_or_later hscope hr⟩
  have hnodup : ((history.listing offset [] (t.ancestors scope)).map Prod.snd).Nodup :=
    nodup_listing _
  have hnames := hnodup.map (Option.some_injective String)
  rw [List.map_map] at hnames
  rw [h.recorded.names_visible]
  exact hnames

/-- The scope declares `x` twice, but only further down: the one that is listed is the global, and
a lookup finds a symbol that is not listed. -/
theorem visible_agrees_out_of_order :
    (outOfOrder.table 50).visible 1 11 = [4, 0] ∧
      (outOfOrder.table 50).lookup 1 "x" 11 = some 3 ∧
      ∃ x, (outOfOrder.table 50).symbol? 3 = some x ∧ x.scope ≠ SymbolTableOver.rootId ∧
        x.isLocal = true ∧ 11 < x.start := by
  have hlisted : (outOfOrder.table 50).visible 1 11 = [4, 0] := by decide +kernel
  have hfound : (outOfOrder.table 50).lookup 1 "x" 11 = some 3 := by decide +kernel
  refine ⟨hlisted, hfound, ?_⟩
  have hreaches : Reaches 50 outOfOrder (outOfOrder.table 50) := reaches_table (by decide +kernel)
  have hscope : 1 < (outOfOrder.table 50).scopes.size := by decide +kernel
  obtain ⟨-, -, hagrees⟩ := Reaches.visible_agrees hreaches hscope 11
  rcases hagrees "x" 3 hfound with hvisible | hlater
  · rw [hlisted] at hvisible
    exact absurd hvisible (by decide)
  · exact hlater

end TableHistory

end LuaScope

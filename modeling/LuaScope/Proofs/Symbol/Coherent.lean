import LuaScope.Proofs.Scoping.Innermost
import LuaScope.Proofs.Symbol.Lookup

/-!
# LuaScope.Proofs.Symbol.Coherent

How the parts of a symbol table fit together, whatever scopes were opened and whatever symbols were
declared at whatever places.

* `SymbolOver.Before`             — the order in which a scope lists the symbols of one name.
* `Scope.Filed`                   — a scope lists its symbols under their names, each list in order.
* `SymbolTableOver.Coherent`      — numbers are places, the scopes are a tree, each scope is filed.
* `TableHistory.Reaches.coherent` — every table that is reached is coherent: the way outwards from
  any scope ends at the root, the way down to any offset ends, and members stand in no scope.
-/

namespace LuaScope

/-! ## Insertion in the order of starts -/

namespace SymbolOver

variable {ρ : Type} {x y : SymbolOver ρ} {xs : List (SymbolOver ρ)}

/-- The first symbol starts earlier, or at the same place and was declared earlier. -/
def Before (x y : SymbolOver ρ) : Prop := x.start < y.start ∨ x.start = y.start ∧ x.id < y.id

theorem Before.le (h : x.Before y) : x.start ≤ y.start :=
  h.elim Nat.le_of_lt fun hsame => Nat.le_of_eq hsame.1

theorem mem_insertLate : y ∈ insertLate xs x ↔ y = x ∨ y ∈ xs :=
  (insertLate_perm xs x).mem_iff.trans List.mem_cons

/-- The newest symbol goes behind all that start with it, so none of them has a greater number. -/
theorem before_insertLate (h : xs.Pairwise Before) (hnew : ∀ y ∈ xs, y.id < x.id) :
    (insertLate xs x).Pairwise Before := by
  have hsorted : Sorted xs := h.imp Before.le
  have hfront : ∀ a ∈ xs.takeWhile (·.start ≤ x.start), a.Before x := by
    intro a ha
    have hle : a.start ≤ x.start := by simpa using List.mem_takeWhile_imp ha
    have hid := hnew a ((List.takeWhile_prefix _).subset ha)
    exact (Nat.lt_or_eq_of_le hle).imp_right fun hsame => ⟨hsame, hid⟩
  have hback : ∀ b ∈ xs.dropWhile (·.start ≤ x.start), x.Before b :=
    fun b hb => .inl (hsorted.lt_of_mem_dropWhile hb)
  refine List.pairwise_append.mpr ⟨?_, List.pairwise_cons.mpr ⟨hback, ?_⟩, ?_⟩
  · exact h.sublist (List.takeWhile_sublist _)
  · exact h.sublist (List.dropWhile_sublist _)
  · intro a ha b hb
    rcases List.mem_cons.mp hb with rfl | hb
    · exact hfront a ha
    · rw [← xs.takeWhile_append_dropWhile (p := fun y => y.start ≤ x.start)] at h
      exact (List.pairwise_append.mp h).2.2 a ha b hb

end SymbolOver

/-! ## The lists under the names -/

section ModifyUnder

variable {name : String} {f : List SymbolId → List SymbolId}

theorem names_modifyUnder (name : String) (f : List SymbolId → List SymbolId) :
    ∀ entries : List (String × List SymbolId), (modifyUnder name f entries).map Prod.fst =
      if name ∈ entries.map Prod.fst then entries.map Prod.fst
      else entries.map Prod.fst ++ [name]
  | [] => rfl
  | (n, ids) :: rest => by
    unfold modifyUnder
    by_cases hn : n = name
    · simp [hn]
    · rw [if_neg hn, List.map_cons, names_modifyUnder name f rest]
      by_cases hmem : name ∈ rest.map Prod.fst
      · simp [hmem]
      · rw [if_neg hmem, if_neg (by simpa [Ne.symm hn] using hmem)]
        rfl

theorem nodup_names_modifyUnder {entries : List (String × List SymbolId)}
    (h : (entries.map Prod.fst).Nodup) : ((modifyUnder name f entries).map Prod.fst).Nodup := by
  rw [names_modifyUnder]
  split
  · exact h
  · rename_i hname
    exact List.nodup_append.mpr ⟨h, List.nodup_singleton _, by
      rintro n hn _ hlast rfl
      exact hname (List.mem_singleton.mp hlast ▸ hn)⟩

/-- The lists together get what the list under the name gets. -/
theorem modifyUnder_perm {id : SymbolId} (h : ∀ ids, (f ids).Perm (id :: ids)) :
    ∀ entries : List (String × List SymbolId),
      ((modifyUnder name f entries).flatMap Prod.snd).Perm (id :: entries.flatMap Prod.snd)
  | [] => by
    unfold modifyUnder
    simpa using h []
  | (n, ids) :: rest => by
    unfold modifyUnder
    split
    · simpa using (h ids).append_right (rest.flatMap Prod.snd)
    · rw [List.flatMap_cons, List.flatMap_cons]
      exact ((modifyUnder_perm h rest).append_left ids).trans List.perm_middle

end ModifyUnder

namespace SymbolTableOver

variable {ρ : Type} {t t' : SymbolTableOver ρ}

theorem insertByStart_perm (t : SymbolTableOver ρ) (start : Nat) (id : SymbolId)
    (ids : List SymbolId) : (t.insertByStart start id ids).Perm (id :: ids) := by
  have hmiddle : (t.insertByStart start id ids).Perm
      (id :: (ids.takeWhile (t.startsBy start) ++ ids.dropWhile (t.startsBy start))) :=
    List.perm_middle
  rwa [List.takeWhile_append_dropWhile] at hmiddle

end SymbolTableOver

/-- The scope lists its symbols under their names, and those of one name in their order. -/
structure Scope.Filed {ρ : Type} (t : SymbolTableOver ρ) (s : Scope) : Prop where
  names : (s.byName.map Prod.fst).Nodup
  lists : ∀ {name ids}, (name, ids) ∈ s.byName → ∃ xs : List (SymbolOver ρ),
    ids = xs.map (·.id) ∧ xs.Pairwise SymbolOver.Before ∧
      ∀ x ∈ xs, t.symbol? x.id = some x ∧ x.name = name ∧ x.scope = s.id
  symbols : (s.byName.flatMap Prod.snd).Perm s.symbols
  /-- Symbols stand in the order of their declaration, each once. -/
  declared : s.symbols.Pairwise (· < ·)

namespace Scope.Filed

variable {ρ : Type} {t t' : SymbolTableOver ρ} {s : Scope} {x : SymbolOver ρ}

/-- Nothing but the symbols and the lists of the scope counts, and the symbols that are there. -/
theorem mono (h : s.Filed t) (hkept : ∀ {x}, t.symbol? x.id = some x → t'.symbol? x.id = some x)
    (children : List ScopeId) : ({ s with children := children } : Scope).Filed t' where
  names := h.names
  lists hentry := by
    obtain ⟨xs, hids, hbefore, hxs⟩ := h.lists hentry
    exact ⟨xs, hids, hbefore, fun x hx => ⟨hkept (hxs x hx).1, (hxs x hx).2⟩⟩
  symbols := h.symbols
  declared := h.declared

theorem empty (t : SymbolTableOver ρ) (hbyName : s.byName = []) (hsymbols : s.symbols = []) :
    s.Filed t where
  names := hbyName ▸ .nil
  lists hentry := by
    rw [hbyName] at hentry
    cases hentry
  symbols := by rw [hbyName, hsymbols]; rfl
  declared := hsymbols ▸ .nil

/-- Every symbol that the scope lists is there. -/
theorem lt_of_mem (h : s.Filed t) {id : SymbolId} (hid : id ∈ s.symbols) : id < t.nextSymbolId := by
  obtain ⟨⟨name, ids⟩, hentry, hmem⟩ := List.mem_flatMap.mp (h.symbols.mem_iff.mpr hid)
  obtain ⟨xs, rfl, -, hxs⟩ := h.lists hentry
  obtain ⟨x, hx, rfl⟩ := List.mem_map.mp hmem
  exact (Array.getElem?_eq_some_iff.mp (hxs x hx).1).1

/-- The list under the name of a new symbol was in order, so the symbol stands at its place. -/
theorem declare (h : s.Filed t) (hscope : x.scope = s.id) (hid : x.id = t.nextSymbolId)
    (hkept : ∀ {y}, t.symbol? y.id = some y → t'.symbol? y.id = some y)
    (hnew : t'.symbol? x.id = some x) :
    Scope.Filed t' { s with
      symbols := s.symbols ++ [x.id]
      byName := modifyUnder x.name (t.insertByStart x.span.start x.id) s.byName } := by
  have hinserted : ∀ {ids : List SymbolId} (xs : List (SymbolOver ρ)), ids = xs.map (·.id) →
      xs.Pairwise SymbolOver.Before →
      (∀ y ∈ xs, t.symbol? y.id = some y ∧ y.name = x.name ∧ y.scope = s.id) →
      ∃ ys : List (SymbolOver ρ), t.insertByStart x.span.start x.id ids = ys.map (·.id) ∧
        ys.Pairwise SymbolOver.Before ∧
        ∀ y ∈ ys, t'.symbol? y.id = some y ∧ y.name = x.name ∧ y.scope = s.id := by
    rintro _ xs rfl hbefore hxs
    refine ⟨SymbolOver.insertLate xs x,
      SymbolTableOver.insertByStart_map (fun y hy => (hxs y hy).1) x,
      SymbolOver.before_insertLate hbefore fun y hy => ?_, fun y hy => ?_⟩
    · rw [hid]
      exact (Array.getElem?_eq_some_iff.mp (hxs y hy).1).1
    · rcases SymbolOver.mem_insertLate.mp hy with rfl | hy
      · exact ⟨hnew, rfl, hscope⟩
      · exact ⟨hkept (hxs y hy).1, (hxs y hy).2⟩
  constructor
  case names => exact nodup_names_modifyUnder h.names
  case lists =>
    intro name ids hentry
    rcases SymbolTable.Safe.mem_modifyUnder hentry with hold | ⟨ids', heq, hids'⟩
    · obtain ⟨xs, hids, hbefore, hxs⟩ := h.lists hold
      exact ⟨xs, hids, hbefore, fun y hy => ⟨hkept (hxs y hy).1, (hxs y hy).2⟩⟩
    · obtain ⟨rfl, rfl⟩ := Prod.mk.inj heq
      rcases hids' with rfl | hold
      · exact hinserted [] rfl .nil nofun
      · obtain ⟨xs, hids, hbefore, hxs⟩ := h.lists hold
        exact hinserted xs hids hbefore hxs
  case symbols =>
    calc ((modifyUnder x.name (t.insertByStart x.span.start x.id) s.byName).flatMap Prod.snd).Perm
          (x.id :: s.byName.flatMap Prod.snd) := modifyUnder_perm (t.insertByStart_perm _ _) _
      _ |>.Perm (x.id :: s.symbols) := h.symbols.cons _
      _ |>.Perm (s.symbols ++ [x.id]) := (List.perm_append_singleton _ _).symm
  case declared =>
    refine List.pairwise_append.mpr ⟨h.declared, List.pairwise_singleton _ _, fun y hy z hz => ?_⟩
    rw [List.mem_singleton.mp hz, hid]
    exact h.lt_of_mem hy

end Scope.Filed

/-! ## Tables whose parts fit together -/

namespace SymbolTableOver

variable {ρ : Type} {t : SymbolTableOver ρ} {x : SymbolOver ρ}

/-- The numbers of symbols and scopes are their places, the scopes are one tree below the root, and
each scope lists its symbols under their names. -/
structure Coherent (t : SymbolTableOver ρ) : Prop where
  symbolId : ∀ {i x}, t.symbol? i = some x → x.id = i
  scopeId : ∀ {i s}, t.scope? i = some s → s.id = i
  root : ∃ s, t.scope? rootId = some s ∧ s.parent = none
  parent : ∀ {i s}, t.scope? i = some s → i ≠ rootId → ∃ p around, s.parent = some p ∧ p < i ∧
    t.scope? p = some around ∧ i ∈ around.children
  /-- Each scope but the root is listed once, by one scope. -/
  children : (t.scopes.toList.flatMap Scope.children).Perm (List.range' 1 (t.scopes.size - 1))
  filed : ∀ {i s}, t.scope? i = some s → s.Filed t

/-- The symbol with the next number stands at its place. -/
theorem symbol?_new_of_push {t' : SymbolTableOver ρ} (hpush : t'.symbols = t.symbols.push x)
    (hid : x.id = t.nextSymbolId) : t'.symbol? x.id = some x := by
  rw [symbol?, hpush, Array.getElem?_push]
  exact if_pos hid

/-- One list of children more for the new scope, and one child more in the list of its parent. -/
theorem children_addScope {parent : ScopeId} (hparent : parent < t.scopes.size) (kind : ScopeKind)
    (span : Span) : ((t.addScope parent kind span).scopes.toList.flatMap Scope.children).Perm
      (t.scopes.toList.flatMap Scope.children ++ [t.nextScopeId]) := by
  have hmodify : ∀ (ss : List Scope) (i : Nat), i < ss.length →
      ((ss.modify i (fun s => { s with children := s.children ++ [t.nextScopeId] })).flatMap
        Scope.children).Perm (ss.flatMap Scope.children ++ [t.nextScopeId]) := by
    intro ss
    induction ss with
    | nil => exact fun i hi => absurd hi (Nat.not_lt_zero i)
    | cons s rest ih =>
      intro i hi
      cases i with
      | zero =>
        simp only [List.modify_zero_cons, List.flatMap_cons, List.append_assoc]
        exact List.perm_append_comm.append_left s.children
      | succ i =>
        simp only [List.modify_succ_cons, List.flatMap_cons, List.append_assoc]
        exact (ih i (Nat.lt_of_succ_lt_succ hi)).append_left s.children
  simp only [addScope, Array.toList_modify, Array.toList_push]
  refine (hmodify _ parent ?_).trans ?_
  · simpa using Nat.lt_succ_of_lt hparent
  · rw [List.flatMap_append]
    simp

namespace Coherent

theorem new (length : Nat) : (SymbolTableOver.new length : SymbolTableOver ρ).Coherent := by
  have hroot : ∀ {i s}, (SymbolTableOver.new length : SymbolTableOver ρ).scope? i = some s →
      i = rootId ∧ s = { id := rootId, kind := .chunk, parent := none, span := ⟨0, length⟩ } := by
    intro i s hs
    obtain ⟨hlt, rfl⟩ := Array.getElem?_eq_some_iff.mp hs
    obtain rfl : i = 0 := Nat.lt_one_iff.mp hlt
    exact ⟨rfl, rfl⟩
  constructor
  case symbolId => nofun
  case scopeId =>
    intro i s hs
    obtain ⟨rfl, rfl⟩ := hroot hs
    rfl
  case root => exact ⟨_, rfl, rfl⟩
  case parent => exact fun hs hne => absurd (hroot hs).1 hne
  case children => exact .nil
  case filed =>
    intro i s hs
    obtain ⟨-, rfl⟩ := hroot hs
    exact .empty _ rfl rfl

theorem symbolId_of_push (h : t.Coherent) {t' : SymbolTableOver ρ}
    (hpush : t'.symbols = t.symbols.push x) (hid : x.id = t.nextSymbolId) {i : SymbolId}
    {y : SymbolOver ρ} (hy : t'.symbol? i = some y) : y.id = i := by
  rw [symbol?, hpush, Array.getElem?_push] at hy
  split at hy
  · rename_i hi
    obtain rfl := Option.some.inj hy
    exact hid.trans hi.symm
  · exact h.symbolId hy

theorem addMember (h : t.Coherent) (hid : x.id = t.nextSymbolId) : (t.addMember x).Coherent where
  symbolId := h.symbolId_of_push rfl hid
  scopeId := h.scopeId
  root := h.root
  parent := h.parent
  children := h.children
  filed := fun {_ s} hs => (h.filed hs).mono (symbol?_of_push rfl) s.children

theorem declare (h : t.Coherent) (hid : x.id = t.nextSymbolId) : (t.declare x).Coherent := by
  have hscopes : ∀ {i s}, t.scope? i = some s → ∃ s', (t.declare x).scope? i = some s' ∧
      s'.parent = s.parent ∧ s'.children = s.children := by
    intro i s hs
    rw [scope?_declare, hs]
    split <;> exact ⟨_, rfl, rfl, rfl⟩
  have hold : ∀ {i s'}, (t.declare x).scope? i = some s' → ∃ s, t.scope? i = some s ∧
      s'.id = s.id ∧ s'.parent = s.parent := by
    intro i s' hs'
    rw [scope?_declare] at hs'
    split at hs'
    · obtain ⟨s, hs, rfl⟩ := Option.map_eq_some_iff.mp hs'
      exact ⟨s, hs, rfl, rfl⟩
    · exact ⟨s', hs', rfl, rfl⟩
  constructor
  case symbolId => exact h.symbolId_of_push rfl hid
  case scopeId =>
    intro i s' hs'
    obtain ⟨s, hs, hsame, -⟩ := hold hs'
    exact hsame.trans (h.scopeId hs)
  case root =>
    obtain ⟨s, hs, hnone⟩ := h.root
    obtain ⟨s', hs', hparent, -⟩ := hscopes hs
    exact ⟨s', hs', hparent.trans hnone⟩
  case parent =>
    intro i s' hs' hi
    obtain ⟨s, hs, -, hparent⟩ := hold hs'
    obtain ⟨p, around, hp, hlt, haround, hmem⟩ := h.parent hs hi
    obtain ⟨around', haround', -, hchildren⟩ := hscopes haround
    exact ⟨p, around', hparent.trans hp, hlt, haround', hchildren ▸ hmem⟩
  case children =>
    have hsame : (t.declare x).scopes.toList.map Scope.children =
        t.scopes.toList.map Scope.children := by
      simp only [SymbolTableOver.declare, Array.toList_modify]
      refine List.ext_getElem? fun i => ?_
      rw [List.getElem?_map, List.getElem?_map, List.getElem?_modify]
      cases t.scopes.toList[i]? with
      | none => rfl
      | some s => by_cases hi : x.scope = i <;> simp [hi]
    rw [List.flatMap_def, hsame, ← List.flatMap_def, size_declare]
    exact h.children
  case filed =>
    intro i s' hs'
    rw [scope?_declare] at hs'
    split at hs'
    · rename_i hi
      obtain ⟨s, hs, rfl⟩ := Option.map_eq_some_iff.mp hs'
      exact (h.filed hs).declare (hi.symm.trans (h.scopeId hs).symm) hid (symbol?_of_push rfl)
        (symbol?_new_of_push rfl hid)
    · exact (h.filed hs').mono (symbol?_of_push rfl) s'.children

theorem addScope (h : t.Coherent) {outer : ScopeId} (houter : outer < t.scopes.size)
    (kind : ScopeKind) (span : Span) : (t.addScope outer kind span).Coherent := by
  have hscopes : ∀ {i s}, t.scope? i = some s → ∃ s', (t.addScope outer kind span).scope? i =
      some s' ∧ s'.parent = s.parent ∧ ∀ child ∈ s.children, child ∈ s'.children := by
    intro i s hs
    rw [scope?_addScope houter, if_neg (Nat.ne_of_lt (lt_of_scope? hs)), hs]
    split
    · exact ⟨_, rfl, rfl, fun child => List.mem_append_left _⟩
    · exact ⟨s, rfl, rfl, fun _ hchild => hchild⟩
  constructor
  case symbolId => exact h.symbolId
  case scopeId =>
    intro i s' hs'
    by_cases hi : i = t.scopes.size
    · rw [scope?_addScope houter, if_pos hi] at hs'
      cases hs'
      exact hi.symm
    · obtain ⟨s, children, hs, rfl⟩ := t.eq_of_getElem?_addScope hi hs'
      exact h.scopeId (s := s) hs
  case root =>
    obtain ⟨s, hs, hnone⟩ := h.root
    obtain ⟨s', hs', hparent, -⟩ := hscopes hs
    exact ⟨s', hs', hparent.trans hnone⟩
  case parent =>
    intro i s' hs' hi
    by_cases hnew : i = t.scopes.size
    · rw [scope?_addScope houter, if_pos hnew] at hs'
      cases hs'
      obtain ⟨around, haround⟩ := exists_scope? houter
      refine ⟨outer, { around with children := around.children ++ [t.nextScopeId] }, rfl,
        hnew ▸ houter, ?_, ?_⟩
      · rw [scope?_addScope houter, if_neg (Nat.ne_of_lt houter), if_pos rfl, haround]
        rfl
      · exact List.mem_append_right _ (List.mem_singleton.mpr hnew)
    · obtain ⟨s, children, hs, rfl⟩ := t.eq_of_getElem?_addScope hnew hs'
      obtain ⟨p, around, hp, hlt, haround, hmem⟩ := h.parent hs hi
      obtain ⟨around', haround', -, hsub⟩ := hscopes haround
      exact ⟨p, around', hp, hlt, haround', hsub i hmem⟩
  case children =>
    have hpos : 1 ≤ t.scopes.size := Nat.lt_of_le_of_lt (Nat.zero_le _) houter
    have hrange : List.range' 1 (t.scopes.size + 1 - 1) =
        List.range' 1 (t.scopes.size - 1) ++ [t.nextScopeId] := by
      obtain ⟨n, hn⟩ := Nat.exists_eq_add_of_le' hpos
      rw [nextScopeId, hn, Nat.add_sub_cancel, Nat.add_sub_cancel, List.range'_1_concat,
        Nat.add_comm 1 n]
    rw [size_addScope, hrange]
    exact (children_addScope houter kind span).trans (h.children.append_right _)
  case filed =>
    intro i s' hs'
    by_cases hi : i = t.scopes.size
    · rw [scope?_addScope houter, if_pos hi] at hs'
      cases hs'
      exact .empty _ rfl rfl
    · obtain ⟨s, children, hs, rfl⟩ := t.eq_of_getElem?_addScope hi hs'
      have hkept : ∀ {x}, t.symbol? x.id = some x →
          (t.addScope outer kind span).symbol? x.id = some x := fun hx => hx
      exact (h.filed hs).mono hkept children

end Coherent

/-! ## The ways outwards and inwards end -/

/-- From the first scope outwards these are the scopes, of which the last is the root scope. -/
inductive Climbs (t : SymbolTableOver ρ) : ScopeId → List Scope → Prop where
  | root {s : Scope} : t.scope? rootId = some s → s.parent = none → Climbs t rootId [s]
  | step {id outer : ScopeId} {s : Scope} {around : List Scope} :
      t.scope? id = some s → s.parent = some outer → Climbs t outer around →
      Climbs t id (s :: around)

/-- By induction on the number of scopes to go through, as a parent has a smaller number. -/
theorem Coherent.climbs_chain (h : t.Coherent) : ∀ (fuel : Nat) {id : ScopeId}, id < fuel →
    id < t.scopes.size → t.Climbs id (t.chain fuel (some id)) := by
  intro fuel
  induction fuel with
  | zero => exact fun hfuel _ => absurd hfuel (Nat.not_lt_zero _)
  | succ fuel ih =>
    intro id hfuel hid
    obtain ⟨s, hs⟩ := exists_scope? hid
    by_cases hroot : id = rootId
    · subst hroot
      obtain ⟨s', hs', hnone⟩ := h.root
      obtain rfl := Option.some.inj (hs.symm.trans hs')
      have hchain : t.chain (fuel + 1) (some rootId) = [s] := by
        simp only [chain, hs, hnone]
        cases fuel <;> rfl
      rw [hchain]
      exact .root hs hnone
    · obtain ⟨p, around, hp, hlt, haround, -⟩ := h.parent hs hroot
      have hchain : t.chain (fuel + 1) (some id) = s :: t.chain fuel (some p) := by
        simp only [chain, hs, hp]
      rw [hchain]
      exact .step hs hp (ih (Nat.lt_of_lt_of_le hlt (Nat.le_of_lt_succ hfuel))
        (lt_of_scope? haround))

/-- By induction on the number of scopes behind, as a child has a greater number. -/
theorem Grounded.exists_descends (h : t.Grounded) (offset : Nat) : ∀ (behind : Nat) {id : ScopeId},
    id < t.scopes.size → t.scopes.size ≤ id + behind → ∃ last, t.Descends offset id last := by
  intro behind
  induction behind with
  | zero => exact fun hid hall => absurd hid (Nat.not_lt.mpr hall)
  | succ behind ih =>
    intro id hid hall
    obtain ⟨s, hs⟩ := exists_scope? hid
    cases hchild : t.childAt s offset with
    | none => exact ⟨id, .stop hs hchild⟩
    | some child =>
      obtain ⟨hlt, hsize⟩ := h.children hs (mem_of_firstAt hchild)
      have hfewer : t.scopes.size ≤ child + behind :=
        calc t.scopes.size ≤ id + (behind + 1) := hall
          _ = id + 1 + behind := (Nat.succ_add_eq_add_succ id behind).symm
          _ ≤ child + behind := Nat.add_le_add_right hlt behind
      obtain ⟨last, hlast⟩ := ih hsize hfewer
      exact ⟨last, .step hs hchild hlast⟩

end SymbolTableOver

namespace TableHistory

open SymbolTableOver

variable {ρ : Type} {length : Nat} {history : TableHistory ρ} {t : SymbolTableOver ρ}

theorem Reaches.fits_together (h : Reaches length history t) : t.Coherent ∧ t.Grounded := by
  induction h with
  | new => exact ⟨.new length, .new length⟩
  | @change history t change _ hfits ih =>
    cases change with
    | scope parent kind span => exact ⟨ih.1.addScope hfits kind span, ih.2.addScope hfits kind span⟩
    | declared x => exact ⟨ih.1.declare hfits.1, ih.2.declare hfits.1⟩
    | member x => exact ⟨ih.1.addMember hfits, ih.2.congr rfl (by simp [TableChange.apply,
        SymbolTableOver.addMember, entries])⟩

/-- Whatever the changes of a table were, its parts fit together: the scopes outwards from any scope
end with the root scope, the way down to any offset ends in the last scope that contains it, and
the symbols of a scope are those declared in it, none of which is a member. -/
theorem Reaches.coherent (h : Reaches length history t) :
    t.Coherent ∧
      (∀ id < t.scopes.size, t.Climbs id (t.ancestors id)) ∧
      (∀ offset, t.Descends offset rootId (t.innermostScope offset) ∧
        ∃ s, t.scope? (t.innermostScope offset) = some s ∧
          (t.innermostScope offset = rootId ∨ s.span.contains offset = true) ∧
          ∀ child ∈ s.children, ∀ c, t.scope? child = some c → c.span.contains offset = false) ∧
      ∀ {id s}, t.scope? id = some s → s.symbols = (history.declaredIn id).map (·.id) ∧
        ∀ x, .member x ∈ history → x.id ∉ s.symbols ∧
          ∀ name ids, (name, ids) ∈ s.byName → x.id ∉ ids := by
  obtain ⟨hcoherent, hgrounded⟩ := h.fits_together
  refine ⟨hcoherent, fun id hid => hcoherent.climbs_chain _ hid hid, fun offset => ?_,
    fun {id s} hs => ?_⟩
  · obtain ⟨root, hroot, -⟩ := hcoherent.root
    obtain ⟨last, hlast⟩ := hgrounded.exists_descends offset _ (lt_of_scope? hroot)
      (Nat.le_add_left _ _)
    rw [hlast.innermostScope_eq hgrounded]
    obtain ⟨s, hs, hnone⟩ := hlast.stops
    refine ⟨hlast, s, hs, ?_, fun child hchild c hc => ?_⟩
    · rcases hlast.contains with hlast | ⟨s', hs', hcontains⟩
      · exact .inl hlast
      · obtain rfl := Option.some.inj (hs.symm.trans hs')
        exact .inr hcontains
    · have haway := List.find?_eq_none.mp hnone child hchild
      rw [hc] at haway
      exact Bool.eq_false_iff.mpr haway
  · have hsymbols := (h.recorded.scope hs).symbols
    have hout : ∀ x, .member x ∈ history → x.id ∉ s.symbols := by
      intro x hx hmem
      rw [hsymbols] at hmem
      obtain ⟨y, hy, hid⟩ := List.mem_map.mp hmem
      exact h.recorded.apart (mem_declaredIn.mp hy).1 hx hid
    refine ⟨hsymbols, fun x hx => ⟨hout x hx, fun name ids hentry hmem => hout x hx ?_⟩⟩
    exact (hcoherent.filed hs).symbols.mem_iff.mp (List.mem_flatMap.mpr ⟨_, hentry, hmem⟩)

/-- The member is the second of five symbols; the block lists the two locals alone, and is where a
query between them ends. -/
theorem coherent_out_of_order :
    (outOfOrder.table 50).Coherent ∧ (outOfOrder.table 50).innermostScope 15 = 1 ∧
      (outOfOrder.table 50).Climbs 1 ((outOfOrder.table 50).ancestors 1) ∧
      ∃ s, (outOfOrder.table 50).scope? 1 = some s ∧ s.symbols = [1, 3] ∧
        s.byName = [("x", [3, 1])] ∧ 2 ∉ s.symbols := by
  have hreaches : Reaches 50 outOfOrder (outOfOrder.table 50) := reaches_table (by decide +kernel)
  obtain ⟨hcoherent, houtwards, -, hmembers⟩ := Reaches.coherent hreaches
  obtain ⟨s, hs, hsymbols, hnames⟩ : ∃ s, (outOfOrder.table 50).scope? 1 = some s ∧
      s.symbols = [1, 3] ∧ s.byName = [("x", [3, 1])] := by
    refine ⟨⟨1, .block, some 0, ⟨10, 30⟩, [], [1, 3], [("x", [3, 1])]⟩, ?_, rfl, rfl⟩
    decide +kernel
  have hmember := (hmembers hs).2 (.plain 2 "x" 1 20 true) (by simp [outOfOrder])
  exact ⟨hcoherent, by decide +kernel, houtwards 1 (by decide +kernel), s, hs, hsymbols, hnames,
    hmember.1⟩

end TableHistory

end LuaScope

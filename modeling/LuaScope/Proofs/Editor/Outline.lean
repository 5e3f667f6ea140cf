import LuaScope.Editor.Outline
import LuaScope.Proofs.Member.Walked
import LuaScope.Proofs.Owner.Chain

/-!
# LuaScope.Proofs.Editor.Outline

Which symbols the outline of the root scope lists.

* `Index.outlined`         — the symbols of the outline, in the order of their names.
* `Index.Stray`            — a member that belongs to no table, added by a statement of the root scope.
* `Index.outline_of_build` — the outline lists what belongs to a name of the root scope, and what
  belongs to a stray member.
* `Index.outline_lists_stray` — which is how the entries of an argument get into it.
-/

namespace LuaScope

variable {σ : Type}

/-- A scope lists symbols that were declared in it. -/
theorem SymbolTableOver.Arises.scope_of_declaredIn {ρ : Type} {t : SymbolTableOver ρ}
    {length : Nat} (h : t.Arises length) {scope : ScopeId} {id : SymbolId} {x : SymbolOver ρ}
    (hdeclared : t.DeclaredIn scope id) (hx : t.symbol? id = some x) : x.scope = scope := by
  obtain ⟨history, hreaches⟩ := h
  obtain ⟨s, hs, hid⟩ := hdeclared
  have hs : t.untyped.scopes[scope]? = some s := hs
  rw [(hreaches.recorded.scope hs).symbols] at hid
  obtain ⟨y, hy, rfl⟩ := List.mem_map.mp hid
  obtain ⟨hhistory, rfl⟩ := TableHistory.mem_declaredIn.mp hy
  have hfound := hreaches.recorded.symbol?_declared hhistory
  rw [symbol?_untyped, hx] at hfound
  exact congrArg (·.scope) (Option.some.inj hfound)

namespace Index

variable {i : Index} {globalOnly : Bool} {id : SymbolId} {os : List SymbolId} {x : Symbol}

/-! ## The symbols of the outline -/

/-- The symbols that the outline is about, in its order. -/
def outlined (i : Index) (globalOnly : Bool) : List Symbol :=
  sortByKey (fun s => s.span.start) (i.table.symbols.toList.filter (i.inOutline globalOnly))

theorem outline_eq (i : Index) (globalOnly : Bool) :
    i.outline globalOnly = (i.outlined globalOnly).map i.outlineEntry := rfl

theorem mem_outlined :
    x ∈ i.outlined globalOnly ↔ (∃ id, i.symbol? id = some x) ∧ i.inOutline globalOnly x = true := by
  rw [outlined, sortByKey, List.mem_mergeSort, List.mem_filter, List.mem_iff_getElem?]
  simp only [Array.getElem?_toList]
  rfl

/-- The symbols stand in the order of their names, each of them once. -/
theorem outlined_ascending (hstarts : ∀ id id' x x', i.symbol? id = some x →
      i.symbol? id' = some x' → x'.span.start = x.span.start → id' = id) :
    (i.outlined globalOnly).Pairwise fun x y => x.span.start < y.span.start := by
  have hnodup : (i.table.symbols.toList.map fun x => x.span.start).Nodup := by
    refine List.nodup_iff_getElem?_ne_getElem?.mpr fun id id' hlt hlt' heq => ?_
    rw [List.length_map, Array.length_toList] at hlt'
    have hx : i.symbol? id = some i.table.symbols[id] := Array.getElem?_eq_getElem _
    have hx' : i.symbol? id' = some i.table.symbols[id'] := Array.getElem?_eq_getElem _
    simp only [List.getElem?_map, Array.getElem?_toList] at heq
    rw [show i.table.symbols[id]? = _ from hx, show i.table.symbols[id']? = _ from hx'] at heq
    exact Nat.ne_of_gt hlt (hstarts id id' _ _ hx hx' (Option.some.inj heq).symm)
  have hkept : ((i.outlined globalOnly).map fun x => x.span.start).Nodup :=
    ((List.mergeSort_perm _ _).map _).nodup_iff.mpr (hnodup.sublist (List.filter_sublist.map _))
  have hsorted : (i.outlined globalOnly).Pairwise fun x y => x.span.start ≤ y.span.start := by
    refine (List.pairwise_mergeSort (fun a b c hab hbc => ?_) (fun a b => ?_) _).imp
      of_decide_eq_true
    · exact decide_eq_true (Nat.le_trans (of_decide_eq_true hab) (of_decide_eq_true hbc))
    · simpa using Nat.le_total a.span.start b.span.start
  exact (hsorted.and (List.pairwise_map.mp hkept)).imp fun h => Nat.lt_of_le_of_ne h.1 h.2

/-! ## What belongs to the root scope -/

/-- The chain of containers ends in one symbol, which alone has no container. -/
theorem Hangs.top (h : i.Hangs id os) (hx : i.symbol? id = some x) :
    ∃ top y, i.symbol? top = some y ∧ (os.filterMap i.symbol?).getLast?.getD x = y ∧
      y.container = none ∧ top ∈ id :: os ∧
      ∀ r ∈ id :: os, ∀ z, i.symbol? r = some z → z.container = none → r = top := by
  induction h generalizing x with
  | @root id y hy hnone =>
    rw [hy] at hx
    cases hx
    exact ⟨id, y, hy, rfl, hnone, List.mem_singleton_self id, fun r hr _ _ _ =>
      List.mem_singleton.mp hr⟩
  | @member id o y os hy hsome hrest ih =>
    obtain ⟨z, hz⟩ := hrest.symbol
    obtain ⟨top, w, hw, hlast, hnone, hmem, honly⟩ := ih hz
    refine ⟨top, w, hw, ?_, hnone, List.mem_cons_of_mem _ hmem, fun r hr v hv hvnone => ?_⟩
    · rw [List.filterMap_cons, hz, List.getLast?_cons]
      exact hlast
    · rcases List.mem_cons.mp hr with rfl | hr
      · rw [hy] at hv
        cases hv
        rw [hsome] at hvnone
        cases hvnone
      · exact honly r hr v hv hvnone

/-- A member that no table has got, recorded by a statement of the root scope. -/
structure Stray (i : Index) (id : SymbolId) : Prop where
  unnamed : i.table.Unnamed id
  root : ∃ x, i.symbol? id = some x ∧ x.container = none ∧ x.scope = SymbolTableOver.rootId

/-- Where a chain of containers ends decides whether the outline of the root scope lists a symbol. -/
theorem Hangs.inOutline_iff (h : i.Hangs id os) (hx : i.symbol? id = some x)
    (hlength : os.length ≤ maxContainerHops) (hparted : SymbolTable.Parted i.table)
    (hscope : ∀ scope id x, i.table.DeclaredIn scope id → i.symbol? id = some x → x.scope = scope) :
    i.inOutline true x = true ↔ x.span.isEmpty = false ∧
      ((∃ r ∈ id :: os, i.table.DeclaredIn SymbolTableOver.rootId r) ∨
        ∃ r ∈ id :: os, i.Stray r) := by
  obtain ⟨top, y, hy, hlast, hnone, hmem, honly⟩ := h.top hx
  have houtermost : i.outermost x = y := by
    rw [Index.outermost, containers, h.containersWithin_eq hx _ hlength]
    exact hlast
  have hlisted : i.inOutline true x = true ↔
      x.span.isEmpty = false ∧ y.scope = SymbolTableOver.rootId := by
    simp [inOutline, houtermost]
  rw [hlisted]
  refine and_congr_right fun _ => ⟨fun hroot => ?_, ?_⟩
  · by_cases hnamed : i.table.Unnamed top
    · exact .inr ⟨top, hmem, hnamed, y, hy, hnone, hroot⟩
    · obtain ⟨scope, hdeclared⟩ : ∃ scope, i.table.DeclaredIn scope top := by
        by_contra hnot
        exact hnamed ⟨SymbolTableOver.lt_of_symbol? hy, fun scope h => hnot ⟨scope, h⟩⟩
      obtain rfl : SymbolTableOver.rootId = scope := hroot ▸ hscope scope top y hdeclared hy
      exact .inl ⟨top, hmem, hdeclared⟩
  · rintro (⟨r, hr, hdeclared⟩ | ⟨r, hr, -, z, hz, hznone, hroot⟩)
    · obtain ⟨z, hz, hznone⟩ := hparted.named _ r hdeclared
      rw [honly r hr z hz hznone] at hdeclared
      exact hscope _ top y hdeclared hy
    · rw [honly r hr z hz hznone, hy] at hz
      cases hz
      exact hroot

/-- No chain ends in a name and in a stray member. -/
theorem Hangs.not_both (h : i.Hangs id os) (hparted : SymbolTable.Parted i.table) :
    ¬((∃ r ∈ id :: os, i.table.DeclaredIn SymbolTableOver.rootId r) ∧ ∃ r ∈ id :: os, i.Stray r) := by
  rintro ⟨⟨r, hr, hdeclared⟩, r', hr', hunnamed, z', hz', hnone', -⟩
  obtain ⟨x, hx⟩ := h.symbol
  obtain ⟨top, -, -, -, -, -, honly⟩ := h.top hx
  obtain ⟨z, hz, hnone⟩ := hparted.named _ r hdeclared
  have hsame : r = r' := (honly r hr z hz hnone).trans (honly r' hr' z' hz' hnone').symm
  exact hunnamed.unlisted _ (hsame ▸ hdeclared)

/--
The outline of the root scope lists symbols in the order of their names, each of them once. A symbol
whose chain of containers is within the bound is listed if and only if its name covers text and the
chain comes to a name of the root scope, or to a member that no table has got and that a statement
of the root scope has made. It never comes to both.
-/
theorem outline_of_build (document : DocumentId) (revision : Revision) (text : String)
    (options : ParserOptions) (loader : Loader σ) (world : σ) :
    let i := (Index.build document revision text options loader world).1
    ∃ listed : List Symbol, i.outline true = listed.map i.outlineEntry ∧
      (listed.Pairwise fun x y => x.span.start < y.span.start) ∧
      (∀ x ∈ listed, ∃ id, i.symbol? id = some x) ∧
      ∀ id x os, i.symbol? id = some x → i.Hangs id os → os.length ≤ maxContainerHops →
        (x ∈ listed ↔ x.span.isEmpty = false ∧
          ((∃ r ∈ id :: os, i.table.DeclaredIn SymbolTableOver.rootId r) ∨
            ∃ r ∈ id :: os, i.Stray r)) ∧
        ¬((∃ r ∈ id :: os, i.table.DeclaredIn SymbolTableOver.rootId r) ∧
          ∃ r ∈ id :: os, i.Stray r) := by
  intro i
  -- A text that is no chunk has no symbols.
  have hwalked : (∀ id id' x x', i.symbol? id = some x → i.symbol? id' = some x' →
        x'.span.start = x.span.start → id' = id) ∧ SymbolTable.Parted i.table ∧
      ∀ scope id x, i.table.DeclaredIn scope id → i.symbol? id = some x → x.scope = scope := by
    cases htext : Chunk.ofChars? text.toList with
    | none =>
      have hchars : Chunk.ofChars? (Source.ofString text).chars = none := htext
      have htable : i.table = .new (Source.ofString text).size := by
        simp only [i, Index.build, hchars]
        rfl
      have hnone : ∀ id x, i.symbol? id ≠ some x := fun id x hx => by
        rw [Index.symbol?, htable] at hx
        cases hx
      exact ⟨fun id _ x _ hx => (hnone id x hx).elim, htable ▸ .new _,
        fun _ id x _ hx => (hnone id x hx).elim⟩
    | some chunk =>
      have htable := (build_walked htext document revision options loader world).1
      simp only [Index.symbol?, i, htable]
      exact ⟨fun id id' x x' hx hx' => chunk.walked_starts _ world rfl htext hx hx',
        chunk.walked_parted _ world, fun scope id x hdeclared hx =>
          (chunk.walked_arises _ world).scope_of_declaredIn hdeclared hx⟩
  obtain ⟨hstarts, hparted, hscope⟩ := hwalked
  refine ⟨i.outlined true, i.outline_eq true, outlined_ascending hstarts,
    fun x hx => (mem_outlined.mp hx).1, fun id x os hx hangs hlength => ⟨?_, hangs.not_both hparted⟩⟩
  rw [mem_outlined, hangs.inOutline_iff hx hlength hparted hscope]
  exact and_iff_right ⟨id, hx⟩

/-- In `local t = {} function t.f() end` the function is listed, as `t` is a name of the root scope. -/
theorem outline_of_member :
    let i := Index.buildAlone ⟨"a"⟩ 1 "local t = {} function t.f() end" {}
    i.Hangs 1 [0] ∧ ∃ (listed : List Symbol) (x : Symbol), i.outline true = listed.map i.outlineEntry ∧
      i.symbol? 1 = some x ∧ x.name = "f" ∧ x ∈ listed := by
  have hfacts :
      let i := Index.buildAlone ⟨"a"⟩ 1 "local t = {} function t.f() end" {}
      ((i.symbol? 0).map fun x => (x.name, x.container)) = some ("t", none) ∧
        ((i.symbol? 1).map fun x => (x.name, x.container, x.span.isEmpty)) =
          some ("f", some 0, false) ∧
        ((i.table.scope? 0).map fun s => s.symbols) = some [0] := by
    decide +kernel
  obtain ⟨ht, hf, hroot⟩ := hfacts
  obtain ⟨t, ht, hnone⟩ := Option.map_eq_some_iff.mp ht
  obtain ⟨f, hf, hmember⟩ := Option.map_eq_some_iff.mp hf
  obtain ⟨s, hs, hsymbols⟩ := Option.map_eq_some_iff.mp hroot
  have hangs : (Index.buildAlone ⟨"a"⟩ 1 "local t = {} function t.f() end" {}).Hangs 1 [0] :=
    .member hf (congrArg (·.2.1) hmember) (.root ht (congrArg Prod.snd hnone))
  obtain ⟨listed, hlisted, -, -, hiff⟩ :=
    outline_of_build ⟨"a"⟩ 1 "local t = {} function t.f() end" {} Loader.none ()
  refine ⟨hangs, listed, f, hlisted, hf, congrArg Prod.fst hmember,
    ((hiff 1 f [0] hf hangs (by decide)).1).mpr ⟨congrArg (·.2.2) hmember, .inl ⟨0, ?_, s, hs, ?_⟩⟩⟩
  · exact List.mem_cons_of_mem _ List.mem_cons_self
  · exact hsymbols ▸ List.mem_singleton_self 0

/-- The entry of a table that is only passed on: the root scope has no names, and the outline lists
the entry. -/
theorem outline_lists_stray :
    let i := Index.buildAlone ⟨"a"⟩ 1 "print({x = 1})" {}
    (∀ id, ¬i.table.DeclaredIn SymbolTableOver.rootId id) ∧
      (i.outline true).map (·.name) = ["x"] := by
  have hfacts :
      let i := Index.buildAlone ⟨"a"⟩ 1 "print({x = 1})" {}
      ((i.table.scope? 0).map fun s => s.symbols) = some [] := by
    decide +kernel
  refine ⟨fun id => ?_, by decide +kernel⟩
  rintro ⟨s, hs, hid⟩
  obtain ⟨s', hs', hsymbols⟩ := Option.map_eq_some_iff.mp hfacts
  rw [show SymbolTableOver.rootId = 0 from rfl, hs'] at hs
  cases hs
  rw [hsymbols] at hid
  cases hid

end Index

end LuaScope

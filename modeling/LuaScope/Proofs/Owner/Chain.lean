import LuaScope.Editor.Describe
import LuaScope.Proofs.Editor.Edits
import LuaScope.Proofs.Owner.Walk
import Mathlib.Data.Set.Card

/-!
# LuaScope.Proofs.Owner.Chain

The containers of a symbol, from the nearest outwards. Qualified names and the outline follow them
for a bounded number of steps, in case they never end.

* `Index.Hangs`          — following containers from a symbol leads to these, and the last has none.
* `Index.hangs_of_build` — so it is for every symbol of an index, unless the chain runs into a circle
  with a member that a function returned before it had an owner.
* `Index.circle_of_returned` — which happens where a function hands out its table twice.
-/

namespace LuaScope

variable {σ : Type}

/-- Following containers from `id` leads to the symbols `os`, one by one; the last one has none. -/
inductive Index.Hangs (i : Index) : SymbolId → List SymbolId → Prop where
  | root {id : SymbolId} {x : Symbol} : i.symbol? id = some x → x.container = none → Hangs i id []
  | member {id o : SymbolId} {x : Symbol} {os : List SymbolId} : i.symbol? id = some x →
      x.container = some o → Hangs i o os → Hangs i id (o :: os)

namespace Index.Hangs

variable {i : Index} {id : SymbolId} {os os' : List SymbolId} {x : Symbol}

theorem symbol (h : i.Hangs id os) : ∃ x, i.symbol? id = some x := by
  cases h with
  | root hx _ => exact ⟨_, hx⟩
  | member hx _ _ => exact ⟨_, hx⟩

/-- The chain begins with the container of the symbol. -/
theorem first (h : i.Hangs id os) (hx : i.symbol? id = some x) :
    (x.container = none ∧ os = []) ∨
      ∃ o rest, x.container = some o ∧ os = o :: rest ∧ i.Hangs o rest := by
  cases h with
  | root hy hnone =>
    rw [hx] at hy
    cases hy
    exact .inl ⟨hnone, rfl⟩
  | member hy hsome hrest =>
    rw [hx] at hy
    cases hy
    exact .inr ⟨_, _, hsome, rfl, hrest⟩

theorem unique (h : i.Hangs id os) (h' : i.Hangs id os') : os = os' := by
  induction h generalizing os' with
  | root hx hnone =>
    rcases h'.first hx with ⟨-, rfl⟩ | ⟨o, rest, hsome, -⟩
    · rfl
    · rw [hnone] at hsome
      cases hsome
  | member hx hsome _ ih =>
    rcases h'.first hx with ⟨hnone, -⟩ | ⟨o, rest, hsome', rfl, hrest⟩
    · rw [hsome] at hnone
      cases hnone
    · rw [hsome] at hsome'
      cases hsome'
      rw [ih hrest]

/-- Each container has a chain of its own, which is shorter. -/
theorem shorter (h : i.Hangs id os) : ∀ o ∈ os, ∃ rest, i.Hangs o rest ∧ rest.length < os.length := by
  induction h with
  | root => exact nofun
  | member _ _ hrest ih =>
    intro o ho
    rcases List.mem_cons.mp ho with rfl | ho
    · exact ⟨_, hrest, Nat.lt_succ_self _⟩
    · obtain ⟨rest, hangs, hlt⟩ := ih o ho
      exact ⟨rest, hangs, Nat.lt_succ_of_lt hlt⟩

/-- A chain that ends has no symbol twice. -/
theorem nodup (h : i.Hangs id os) : (id :: os).Nodup := by
  induction h with
  | root => exact List.nodup_singleton _
  | member hx hsome hrest ih =>
    have hwhole := Hangs.member hx hsome hrest
    refine List.nodup_cons.mpr ⟨fun hmem => ?_, ih⟩
    obtain ⟨rest, hangs, hlt⟩ := hwhole.shorter _ hmem
    rw [hwhole.unique hangs] at hlt
    exact Nat.lt_irrefl _ hlt

/-- A bound that the chain does not reach changes nothing. -/
theorem containersWithin_eq (h : i.Hangs id os) (hx : i.symbol? id = some x) :
    ∀ fuel, os.length ≤ fuel → i.containersWithin fuel x = os.filterMap i.symbol? := by
  induction os generalizing id x with
  | nil =>
    rcases h.first hx with ⟨hnone, -⟩ | ⟨o, rest, -, hcons, -⟩
    · intro fuel _
      cases fuel with
      | zero => rfl
      | succ fuel =>
        rw [containersWithin, hnone]
        rfl
    · cases hcons
  | cons o os ih =>
    rcases h.first hx with ⟨-, hnil⟩ | ⟨o, rest, hsome, heq, hrest⟩
    · cases hnil
    · cases heq
      obtain ⟨y, hy⟩ := hrest.symbol
      intro fuel hfuel
      cases fuel with
      | zero => cases hfuel
      | succ fuel =>
        rw [containersWithin, hsome, Option.bind_some, hy, List.filterMap_cons, hy]
        exact congrArg (y :: ·) (ih hrest hy fuel (Nat.le_of_succ_le_succ hfuel))

/-- The last symbol of the chain has no container. -/
theorem last (h : i.Hangs id os) (hx : i.symbol? id = some x) :
    ((os.filterMap i.symbol?).getLast?.getD x).container = none := by
  induction os generalizing id x with
  | nil =>
    rcases h.first hx with ⟨hnone, -⟩ | ⟨o, rest, -, hcons, -⟩
    · exact hnone
    · cases hcons
  | cons o os ih =>
    rcases h.first hx with ⟨-, hnil⟩ | ⟨o, rest, -, heq, hrest⟩
    · cases hnil
    · cases heq
      obtain ⟨y, hy⟩ := hrest.symbol
      rw [List.filterMap_cons, hy, List.getLast?_cons]
      exact ih hrest hy

theorem outermost (h : i.Hangs id os) (hx : i.symbol? id = some x)
    (hlength : os.length ≤ maxContainerHops) : (i.outermost x).container = none := by
  rw [Index.outermost, containers, h.containersWithin_eq hx _ hlength]
  exact h.last hx

end Index.Hangs

/-! ## Circles -/

section Circles

variable {i : Index} {K : Set SymbolId}

/-- Symbols of `K` that own the symbol, in any number of steps, or are it. -/
def Index.above (i : Index) (K : Set SymbolId) (id : SymbolId) : Set SymbolId :=
  { m | m ∈ K ∧ Relation.ReflTransGen i.table.Owns m id }

theorem Index.finite_above (K : Set SymbolId)
    (hstands : ∀ o m, i.table.Owns o m → o < i.table.symbols.size) {id : SymbolId}
    (hid : id < i.table.symbols.size) : (i.above K id).Finite := by
  refine (Set.finite_lt_nat i.table.symbols.size).subset fun m hm => ?_
  rcases Relation.ReflTransGen.cases_head hm.2 with rfl | ⟨o, hfirst, -⟩
  · exact hid
  · exact hstands m o hfirst

/-- A chain that does not end comes to a symbol of `K` that owns itself, for each time that it comes
to another symbol of `K`, there are fewer of these above it. -/
theorem Index.hangs_or_circle (hwf : WellFounded (i.table.Owner K))
    (hstands : ∀ o m, i.table.Owns o m → o < i.table.symbols.size) {id : SymbolId}
    (hid : id < i.table.symbols.size)
    (hcircle : ∀ m ∈ i.above K id, ¬Relation.TransGen i.table.Owns m m) : ∃ os, i.Hangs id os := by
  have hcount : ∀ count id, (i.above K id).ncard ≤ count → id < i.table.symbols.size →
      (∀ m ∈ i.above K id, ¬Relation.TransGen i.table.Owns m m) → ∃ os, i.Hangs id os := by
    intro count
    induction count using Nat.strong_induction_on with
    | h count ihcount =>
      intro id
      induction hwf.apply id with
      | intro id _ ihowner =>
        intro hcard hid hcircle
        have hx : i.symbol? id = some i.table.symbols[id] := Array.getElem?_eq_getElem hid
        cases hcontainer : (i.table.symbols[id]).container with
        | none => exact ⟨[], .root hx hcontainer⟩
        | some o =>
          have howns : i.table.Owns o id := ⟨_, hx, hcontainer⟩
          have hsub : i.above K o ⊆ i.above K id := fun m hm => ⟨hm.1, hm.2.tail howns⟩
          have ho := hstands o id howns
          have hfinite := finite_above K hstands hid
          have hnext : ∃ os, i.Hangs o os := by
            by_cases hK : id ∈ K
            · have hself : id ∉ i.above K o := fun hmem =>
                hcircle id ⟨hK, .refl⟩ (Relation.TransGen.tail' hmem.2 howns)
              have hlt : (i.above K o).ncard < (i.above K id).ncard :=
                Set.ncard_lt_ncard ⟨hsub, fun h => hself (h ⟨hK, .refl⟩)⟩ hfinite
              exact ihcount _ (Nat.lt_of_lt_of_le hlt hcard) o (Nat.le_refl _) ho
                fun m hm => hcircle m (hsub hm)
            · exact ihowner o ⟨hK, howns⟩ ((Set.ncard_le_ncard hsub hfinite).trans hcard) ho
                fun m hm => hcircle m (hsub hm)
          obtain ⟨os, hrest⟩ := hnext
          exact ⟨o :: os, .member hx hcontainer hrest⟩
  exact hcount _ id (Nat.le_refl _) hid hcircle

end Circles

/-! ## The finished index -/

theorem Binder.Owned.start (K : Set SymbolId) (source : Source) (world : σ) :
    (Binder.start source world).Owned K ∅ where
  island := .empty K _
  wellFounded := ⟨fun m => .intro m fun o howner => by
    obtain ⟨-, x, hx, -⟩ := howner
    cases hx⟩
  named id scope hscope entry hentry := by
    have hscope : (SymbolTableOver.new source.size : SymbolTable).scopes[id]? = some scope := hscope
    obtain ⟨hlt, rfl⟩ := Array.getElem?_eq_some_iff.mp hscope
    obtain rfl : id = 0 := Nat.lt_one_iff.mp hlt
    cases hentry
  returns value hvalue := by
    cases List.mem_singleton.mp hvalue

/-- Members apart that a function returned without an owner, no symbol of a document owns itself. -/
theorem Chunk.wellFounded_walked (s : Setting σ) (chunk : Chunk) (world : σ) :
    WellFounded ((chunk.walked s world).table.Owner
      { m | ∃ v ∈ chunk.visits s world, m ∈ v.loose s }) := by
  have hloose : FunctionVisit.LooseIn s { m | ∃ v ∈ chunk.visits s world, m ∈ v.loose s }
      (chunk.visits s world) := fun v hv _ hm => ⟨v, hv, hm⟩
  obtain ⟨_, hwalked⟩ :=
    Walk.statements_owned chunk.statements 1 (.start _ s.source world) hloose
  exact hwalked.owned.wellFounded

/--
Following containers from a symbol comes to one without a container, after symbols that are all
distinct; a bound on the number of steps that is not below their number changes nothing. Otherwise
it runs into a circle, and there is a member in it that a function returned before it had an owner.
-/
theorem Index.hangs_of_build (document : DocumentId) (revision : Revision) (text : String)
    (options : ParserOptions) (loader : Loader σ) (world : σ) :
    let i := (Index.build document revision text options loader world).1
    let s : Setting σ := ⟨.ofString text, document, options.allowDefined, loader⟩
    ∀ id x, i.symbol? id = some x →
      (∃ os, i.Hangs id os ∧ (id :: os).Nodup ∧
        (∀ fuel, os.length ≤ fuel → i.containersWithin fuel x = os.filterMap i.symbol?) ∧
        (os.length ≤ maxContainerHops → (i.outermost x).container = none)) ∨
      ∃ chunk, Chunk.ofChars? text.toList = some chunk ∧
        ∃ v ∈ chunk.visits s world, ∃ m ∈ v.loose s,
          Relation.ReflTransGen i.table.Owns m id ∧ Relation.TransGen i.table.Owns m m := by
  intro i s id x hx
  cases htext : Chunk.ofChars? text.toList with
  | none =>
    have hempty : i.table.symbols = #[] := by
      have hchars : Chunk.ofChars? (Source.ofString text).chars = none := htext
      simp only [i, Index.build, hchars]
      rfl
    rw [Index.symbol?, SymbolTableOver.symbol?, hempty] at hx
    cases hx
  | some chunk =>
    have hsafe := (Index.build_faithful_alone document revision text options loader world).safe.table
    have htable : i.table = (chunk.walked s world).table :=
      (Index.build_walked htext document revision options loader world).1
    have hwf := chunk.wellFounded_walked s world
    rw [← htable] at hwf
    have hstands : ∀ o m, i.table.Owns o m → o < i.table.symbols.size := by
      rintro o m ⟨y, hy, hcontainer⟩
      exact (hsafe.symbols hy).container o hcontainer
    by_cases hcircle : ∃ m ∈ i.above { m | ∃ v ∈ chunk.visits s world, m ∈ v.loose s } id,
        Relation.TransGen i.table.Owns m m
    · obtain ⟨m, ⟨⟨v, hv, hloose⟩, habove⟩, hm⟩ := hcircle
      exact .inr ⟨chunk, rfl, v, hv, m, hloose, habove, hm⟩
    · obtain ⟨os, hangs⟩ := Index.hangs_or_circle hwf hstands
        (SymbolTableOver.lt_of_symbol? hx) fun m hm howns => hcircle ⟨m, hm, howns⟩
      exact .inl ⟨os, hangs, hangs.nodup, hangs.containersWithin_eq hx, hangs.outermost hx⟩

/-- Two functions return a table each, and a member of either becomes the owner of the other one. -/
theorem Index.circle_of_returned :
    ¬ ∀ (text : String) (chunk : Chunk), Chunk.ofChars? text.toList = some chunk →
      let i := Index.buildAlone ⟨"a"⟩ 1 text {}
      ∀ id x, i.symbol? id = some x → ∃ os, i.Hangs id os := by
  intro hall
  let text := "local function g() return {x = u} end local function f() return {a = g()} end " ++
    "local y = g() y.x = f()"
  have hparsed : (Chunk.ofChars? text.toList).isSome = true := by decide +kernel
  have hcircle : ((Index.buildAlone ⟨"a"⟩ 1 text {}).symbol? 1).bind (·.container) = some 3 ∧
      ((Index.buildAlone ⟨"a"⟩ 1 text {}).symbol? 3).bind (·.container) = some 1 := by
    decide +kernel
  obtain ⟨chunk, htext⟩ := Option.isSome_iff_exists.mp hparsed
  obtain ⟨x, hx, hx'⟩ := Option.bind_eq_some_iff.mp hcircle.1
  obtain ⟨y, hy, hy'⟩ := Option.bind_eq_some_iff.mp hcircle.2
  obtain ⟨os, hangs⟩ := hall text chunk htext 1 x hx
  rcases hangs.first hx with ⟨hnone, -⟩ | ⟨o, rest, hsome, rfl, hrest⟩
  · rw [hx'] at hnone
    cases hnone
  · rw [hx'] at hsome
    cases hsome
    rcases hrest.first hy with ⟨hnone, -⟩ | ⟨o, rest', hsome, rfl, hlast⟩
    · rw [hy'] at hnone
      cases hnone
    · rw [hy'] at hsome
      cases hsome
      exact absurd hangs.nodup (by simp)

end LuaScope

import LuaScope.Proofs.Owner.Table

/-!
# LuaScope.Proofs.Owner.Held

What a walk has in its hands. Names lead to symbols that are held; a value that was just inferred
may lead to others, which it alone knows, since the table they are members of has no name yet.

* `Binder.Owned`      — what is held is an island, and no symbol owns itself in any number of steps.
* `Inferred.Private`  — a value with the symbols that it alone leads to.
* `Inferred.Values`   — several values, none of which leads to the symbols of another.
* `Located.Held`      — lookups that start at a symbol that is held find symbols that are held.
* `Binder.Becomes`    — a walk went from one such state to another and left other values alone.
-/

namespace LuaScope

variable {σ : Type} {K A B H H' N : Set SymbolId} {t t' : SymbolTable} {n : Nat}

/-- All that the value leads to is in `A`. -/
structure Inferred.Within (A : Set SymbolId) (value : Inferred) : Prop where
  ty : ∀ m ∈ value.ty.mentioned, m ∈ A
  «alias» : ∀ link, value.alias = some link → ∀ m ∈ link.here?, m ∈ A

/-- The value leads to what is held, and to the symbols of `N`, which are none of those before `n`.
What it lists has an owner, or waits for one. -/
structure Inferred.Private (K : Set SymbolId) (n : Nat) (H N : Set SymbolId) (t : SymbolTable)
    (value : Inferred) : Prop where
  fresh : ∀ id ∈ N, n ≤ id
  apart : ∀ id ∈ N, id ∉ H
  island : t.Island K (H ∪ N)
  ty : ∀ m ∈ value.ty.mentioned, m ∈ H ∪ N
  «alias» : ∀ link, value.alias = some link → ∀ m ∈ link.here?, m ∈ H
  listed : ∀ m ∈ value.ty.listed, t.Settled K m ∨ m ∈ N ∧ m ∈ value.ty.own

/-- Each value has symbols of its own, all of them together are `N`. -/
inductive Inferred.Values (K : Set SymbolId) (n : Nat) (t : SymbolTable) :
    Set SymbolId → Set SymbolId → List Inferred → Prop where
  | nil {H : Set SymbolId} : Values K n t H ∅ []
  | cons {H N M : Set SymbolId} {value : Inferred} {values : List Inferred} :
      Inferred.Private K n H N t value → Values K n t (H ∪ N) M values →
      Values K n t H (N ∪ M) (value :: values)

/-- What is held is an island with all that scopes name and functions return, and ownership has no
circles. -/
structure Binder.Owned (K H : Set SymbolId) (b : Binder σ) : Prop where
  island : b.table.Island K H
  wellFounded : WellFounded (b.table.Owner K)
  named : ∀ id scope, b.table.scope? id = some scope → ∀ entry ∈ scope.byName, ∀ m ∈ entry.2, m ∈ H
  returns : ∀ value, some value ∈ b.returns → value.Within H

/-- The state holds `H` now, and what was neither in `A` nor came later is as it was. -/
structure Binder.Becomes (K A : Set SymbolId) (b : Binder σ) (H : Set SymbolId) (b' : Binder σ) :
    Prop where
  owned : b'.Owned K H
  spares : b.table.Spares A H b'.table

/-! ## Values -/

namespace Inferred

variable {value : Inferred} {values : List Inferred} {M : Set SymbolId} {m : Nat}

theorem Within.mono (h : value.Within A) (hsub : A ⊆ B) : value.Within B :=
  ⟨fun id hid => hsub (h.ty id hid), fun link hlink id hid => hsub (h.alias link hlink id hid)⟩

namespace Private

/-- A value that leads to nothing that is not held. -/
theorem of_within (hH : t.Island K H) (hvalue : value.Within H)
    (hlisted : ∀ m ∈ value.ty.listed, t.Settled K m) : value.Private K n H ∅ t where
  fresh := nofun
  apart := nofun
  island := by rwa [Set.union_empty]
  ty := by
    rw [Set.union_empty]
    exact hvalue.ty
  «alias» := hvalue.alias
  listed m hm := .inl (hlisted m hm)

/-- A value that leads nowhere. -/
theorem plain (hH : t.Island K H) {ty : Ty} (hty : ty.mentioned = []) :
    ({ ty := ty } : Inferred).Private K n H ∅ t :=
  .of_within hH ⟨fun m hm => by simp [hty] at hm, nofun⟩ fun m hm => by
    have hmentioned := TyOver.listed_subset_mentioned ty hm
    simp [hty] at hmentioned

theorem within (h : value.Private K n H N t) : value.Within (H ∪ N) :=
  ⟨h.ty, fun link hlink id hid => .inl (h.alias link hlink id hid)⟩

/-- What waits for an owner is not held. -/
theorem not_held (h : value.Private K n H N t) {id : SymbolId} (hid : id ∈ value.ty.own)
    (hwaits : ¬t.Settled K id) : id ∉ H := by
  rcases h.listed id (TyOver.own_subset_listed _ hid) with hsettled | ⟨hN, -⟩
  · exact (hwaits hsettled).elim
  · exact h.apart id hN

theorem settled_or_own (h : value.Private K n H N t) {id : SymbolId} (hid : id ∈ value.ty.listed) :
    t.Settled K id ∨ id ∈ value.ty.own :=
  (h.listed id hid).imp_right And.right

/-- What is called answers with nothing that waits for an owner. -/
theorem callResult (h : value.Private K n H N t) :
    (Binder.callResult value).Private K n H N t := by
  unfold Binder.callResult
  split
  · rename_i params returns isMethod hty
    have hmentioned := h.ty
    have hlisted := h.listed
    rw [hty] at hmentioned hlisted
    refine ⟨h.fresh, h.apart, h.island, hmentioned, nofun, fun m hm => .inl ?_⟩
    exact (hlisted m hm).resolve_right fun hown => by cases hown.2
  · exact ⟨h.fresh, h.apart, h.island, nofun, nofun, nofun⟩

/-- The same type without the name. -/
theorem unnamed (h : value.Private K n H N t) :
    ({ ty := value.ty } : Inferred).Private K n H N t :=
  ⟨h.fresh, h.apart, h.island, h.ty, nofun, h.listed⟩

/-- A change leaves a value alone whose own symbols it spares. -/
theorem spared (h : value.Private K n A N t) (hspares : t.Spares A H t') (hH : t'.Island K H) :
    value.Private K n H N t' where
  fresh := h.fresh
  apart id hid := by
    obtain ⟨x, hx, -⟩ := h.island.encloses id (.inr hid)
    exact (hspares.outside id x hx (h.apart id hid)).2
  island := h.island.spared hspares hH h.apart
  ty id hid := Set.union_subset_union_left N hspares.grows (h.ty id hid)
  «alias» link hlink id hid := hspares.grows (h.alias link hlink id hid)
  listed id hid := (h.listed id hid).imp_left hspares.settled

/-- The value leads to no symbol of `B`, so these may be held as well. -/
theorem widen (h : value.Private K m H N t) (hn : n ≤ m) (hB : ∀ id ∈ B, id < m)
    (hisland : t.Island K (H ∪ B)) : value.Private K n (H ∪ B) N t where
  fresh id hid := Nat.le_trans hn (h.fresh id hid)
  apart id hid := by
    rintro (hH | hid')
    · exact h.apart id hid hH
    · exact Nat.not_lt.mpr (h.fresh id hid) (hB id hid')
  island := by
    have hunion := hisland.union h.island
    rwa [← Set.union_union_distrib_left, ← Set.union_assoc] at hunion
  ty id hid := (h.ty id hid).imp_left .inl
  «alias» link hlink id hid := .inl (h.alias link hlink id hid)
  listed := h.listed

end Private

namespace Values

theorem fresh (h : Values K n t H N values) : ∀ id ∈ N, n ≤ id := by
  induction h with
  | nil => exact nofun
  | cons hvalue _ ih => exact fun id hid => hid.elim (hvalue.fresh id) (ih id)

/-- The first value of a list, and those behind it. -/
theorem split (h : Values K n t H N values) (hH : t.Island K H) :
    ∃ N₁ N₂, N = N₁ ∪ N₂ ∧ (values.headD {}).Private K n H N₁ t ∧
      Values K n t (H ∪ N₁) N₂ values.tail := by
  cases h with
  | nil => exact ⟨∅, ∅, (Set.union_empty ∅).symm, .plain hH rfl, .nil⟩
  | cons hvalue hvalues => exact ⟨_, _, rfl, hvalue, hvalues⟩

theorem island (h : Values K n t H N values) (hH : t.Island K H) : t.Island K (H ∪ N) := by
  induction h with
  | nil => rwa [Set.union_empty]
  | cons hvalue _ ih =>
    rw [← Set.union_assoc]
    exact ih hvalue.island

theorem spared (h : Values K n t A N values) : ∀ {H : Set SymbolId}, t.Spares A H t' →
    t'.Island K H → Values K n t' H N values := by
  induction h with
  | nil => exact fun _ _ => .nil
  | cons hvalue _ ih =>
    intro H hspares hH
    have hvalue' := hvalue.spared hspares hH
    exact .cons hvalue' (ih (hspares.union _) hvalue'.island)

theorem widen (h : Values K m t H N values) (hn : n ≤ m) (hB : ∀ id ∈ B, id < m)
    (hisland : t.Island K (H ∪ B)) : Values K n t (H ∪ B) N values := by
  induction h with
  | nil => exact .nil
  | @cons H N _ _ _ hvalue _ ih =>
    have hvalue' := hvalue.widen hn hB hisland
    refine .cons hvalue' ?_
    rw [Set.union_right_comm]
    exact ih (by rw [Set.union_right_comm]; exact hvalue'.island)

end Values

end Inferred

/-! ## States -/

namespace Binder

variable {b b' b'' : Binder σ} {value : Inferred}

/-- The names and the frames lead to what is held, also when there is more of it. -/
theorem Owned.release (hb : b.Owned K H) (hisland : b.table.Island K (H ∪ N)) :
    b.Owned K (H ∪ N) where
  island := hisland
  wellFounded := hb.wellFounded
  named id scope hscope entry hentry m hm := .inl (hb.named id scope hscope entry hentry m hm)
  returns value hvalue := (hb.returns value hvalue).mono Set.subset_union_left

namespace Becomes

theorem refl (hb : b.Owned K H) : b.Becomes K H H b := ⟨hb, .refl H b.table⟩

theorem trans (h : b.Becomes K A H b') (h' : b'.Becomes K H H' b'') : b.Becomes K A H' b'' :=
  ⟨h'.owned, h.spares.trans h'.spares subset_rfl fun _ hid => .inl hid⟩

/-- The first step knows nothing of the symbols that the second one uses as well. -/
theorem around (h : b.Becomes K A H b') (h' : b'.Becomes K (H ∪ N) H' b'') :
    b.Becomes K (A ∪ N) H' b'' :=
  ⟨h'.owned, (h.spares.union N).trans h'.spares subset_rfl fun _ hid => .inl hid⟩

/-- Symbols that came after the first state were not there to be touched. -/
theorem use (h : b.Becomes K A H b') (hN : ∀ id ∈ N, b.table.symbols.size ≤ id)
    (h' : b'.Becomes K (H ∪ N) H' b'') : b.Becomes K A H' b'' :=
  ⟨h'.owned, h.spares.trans h'.spares Set.subset_union_left fun id hid => hid.imp_right (hN id)⟩

end Becomes

end Binder

/-! ## Lookups -/

/-- The walk has come to a symbol that is held, or has left the document. -/
structure Located.Held (H : Set SymbolId) (t : SymbolTable) (l : Located) : Prop where
  home : l.home.At t
  held : l.home.origin = none → l.id ∈ H

theorem Home.origin_enter {h : Home} {origin : Option Index} :
    (h.enter origin).origin = none ↔ h.origin = none ∧ origin = none := by
  cases origin with
  | none => exact ⟨fun h => ⟨h, rfl⟩, And.left⟩
  | some o => exact ⟨nofun, nofun⟩

namespace Located.Held

theorem here {id : SymbolId} (hid : id ∈ H) : Located.Held H t ((Home.here t).locate id) :=
  ⟨Home.at_here t, fun _ => hid⟩

theorem follow {h : Home} (hat : h.At t) {link : Link}
    (hlink : h.origin = none → ∀ m ∈ link.here?, m ∈ H) : Located.Held H t (h.follow link) := by
  refine ⟨hat.enter link.origin, fun hnone => ?_⟩
  obtain ⟨hhere, horigin⟩ := Home.origin_enter.mp hnone
  refine hlink hhere link.id ?_
  rw [LinkOver.here?, LinkOver.isLocal, horigin]
  rfl

theorem symbol {l : Located} (hl : l.Held H t) (hnone : l.home.origin = none) {x : Symbol}
    (hx : l.symbol? = some x) : t.symbol? l.id = some x := by
  have hhome : l.home.table = _ := hl.home
  rwa [Located.symbol?, hhome, hnone] at hx

theorem mentioned (hH : t.Island K H) {l : Located} (hl : l.Held H t) (hnone : l.home.origin = none) :
    (∀ m ∈ l.ty.mentioned, m ∈ H) ∧ ∀ m ∈ l.ty.listed, t.Settled K m := by
  unfold Located.ty
  split
  · rename_i x hx
    have hx' := hl.symbol hnone hx
    exact ⟨(hH.encloses.within (hl.held hnone) hx').ty, hH.settles _ (hl.held hnone) x hx'⟩
  · exact ⟨nofun, nofun⟩

theorem opens {h : Home} (hat : h.At t) {ty : Ty}
    (hty : h.origin = none → ∀ m ∈ ty.mentioned, m ∈ H) : h.Opens (Located.Held H t) ty := by
  -- A table of this document has its members and its prototype among the symbols of the type.
  have hown : ∀ home table, h.tableOf ty = some (home, table) → home.At t ∧
      (home.origin = none → (∀ entry ∈ table.members, entry.2 ∈ H) ∧
        ∀ proto, table.prototype = some proto → ∀ m ∈ proto.link.here?, m ∈ H) := by
    intro home table htable
    unfold Home.tableOf at htable
    split at htable
    · rename_i table'
      cases htable
      refine ⟨hat.enter _, fun hnone => ?_⟩
      obtain ⟨hhere, horigin⟩ := Home.origin_enter.mp hnone
      have hmentioned := hty hhere
      simp only [TyOver.mentioned, TableOver.isForeign, horigin, Option.isSome_none,
        Bool.false_eq_true, if_false, List.mem_append] at hmentioned
      refine ⟨fun entry hentry => hmentioned _ (.inl (List.mem_map_of_mem hentry)),
        fun proto hproto m hm => hmentioned m (.inr ?_)⟩
      rw [hproto]
      exact Option.mem_toList.mpr hm
    · split at htable
      · cases htable
        refine ⟨(hat.enter _).enter _, fun hnone => ?_⟩
        cases (Home.origin_enter.mp (Home.origin_enter.mp hnone).1).2
      · cases htable
    · cases htable
  exact ⟨fun home table htable entry hentry =>
      ⟨(hown home table htable).1, fun hnone => ((hown home table htable).2 hnone).1 entry hentry⟩,
    fun home table htable proto hproto =>
      follow (hown home table htable).1 fun hnone =>
        ((hown home table htable).2 hnone).2 proto hproto⟩

/-- No lookup leads from what is held to what is not. -/
theorem closed (hH : t.Island K H) : Located.Closed (Located.Held H t) where
  «alias» l link hl hlink := by
    obtain ⟨x, hx, halias⟩ := Option.bind_eq_some_iff.mp hlink
    exact follow hl.home fun hnone =>
      (hH.encloses.within (hl.held hnone) (hl.symbol hnone hx)).alias link halias
  opens l hl := opens hl.home fun hnone => (hl.mentioned hH hnone).1

theorem valueType (hH : t.Island K H) {l : Located} (hl : l.Held H t) :
    (∀ m ∈ l.valueType.mentioned, m ∈ H) ∧ ∀ m ∈ l.valueType.listed, t.Settled K m := by
  have htarget := (closed hH).resolveAlias hl
  unfold Located.valueType
  dsimp only
  split
  · rename_i o ho
    have hnone := TyOver.mentioned_rebased o l.resolveAlias.ty
    refine ⟨fun m hm => ?_, fun m hm => ?_⟩
    · rw [hnone] at hm
      cases hm
    · have hm' := TyOver.listed_subset_mentioned _ hm
      rw [hnone] at hm'
      cases hm'
  · rename_i hnone
    exact htarget.mentioned hH hnone

end Located.Held

namespace Binder.Owned

variable {b : Binder σ}

theorem mem_of_lookup (hb : b.Owned K H) {scope : ScopeId} {name : String} {offset : Nat}
    {id : SymbolId} (hid : b.table.lookup scope name offset = some id) : id ∈ H := by
  obtain ⟨i, s, hs, hid⟩ := SymbolTableOver.declared_of_lookup hid
  unfold Scope.declarations at hid
  split at hid
  · rename_i ids hids
    exact hb.named i s hs _ (SymbolTable.Safe.mem_of_lookup hids) id hid
  · cases hid

theorem held_of_mem_walkPath (hb : b.Owned K H) {path : List Ident} {link : Link}
    (hlink : some link ∈ b.walkPath path) : ∀ m ∈ link.here?, m ∈ H := by
  obtain ⟨l, hl, rfl⟩ := (Located.Held.closed hb.island).of_mem_walkPath
    (fun _ _ hid => .here (hb.mem_of_lookup hid)) hlink
  intro m hm
  unfold LinkOver.here? at hm
  split at hm
  · rename_i hlocal
    cases hm
    exact hl.held (Option.isNone_iff_eq_none.mp hlocal)
  · cases hm

theorem held_resolveAlias (hb : b.Owned K H) {link : Link} (hlink : ∀ m ∈ link.here?, m ∈ H) :
    Located.Held H b.table (b.home.follow link).resolveAlias :=
  (Located.Held.closed hb.island).resolveAlias (.follow (Home.at_here b.table) fun _ => hlink)

/-- The value behind a link that is held lists nothing that waits for an owner. -/
theorem valueType (hb : b.Owned K H) {link : Link} (hlink : ∀ m ∈ link.here?, m ∈ H) :
    (∀ m ∈ (b.home.follow link).valueType.mentioned, m ∈ H) ∧
      ∀ m ∈ (b.home.follow link).valueType.listed, b.table.Settled K m :=
  (Located.Held.follow (Home.at_here b.table) fun _ => hlink).valueType hb.island

end Binder.Owned

end LuaScope

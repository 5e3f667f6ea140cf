import LuaScope.Proofs.Linking.Step
import LuaScope.Proofs.Owner.Held

/-!
# LuaScope.Proofs.Owner.Step

Every step of the walk keeps ownership without circles.

* `SymbolTableOver.wellFounded_adopt` — a new symbol may adopt what nothing held leads to.
* `Binder.Owned.bind`, `Binder.Owned.refine`, `Binder.Owned.insertMember` — a value goes to a name
  or to a member: its symbols are held from then on, and have owners.
* `Binder.Becomes.addField`           — an entry of a table constructor is known to the table alone.
* `Binder.Owned.attachPrototype`, `Binder.Owned.declareFunction` and the others.
-/

namespace LuaScope

variable {σ : Type} {K A B H H' M N : Set SymbolId} {t t₁ t₂ t' : SymbolTable} {n m : Nat}

namespace SymbolTableOver

variable {x : Symbol} {members : List SymbolId}

theorem Spares.shrink (h : t.Spares A H' t') (hgrows : A ⊆ H) (hsub : H ⊆ H') :
    t.Spares A H t' where
  grows := hgrows
  size := h.size
  outside id x hx hid := (h.outside id x hx hid).imp_right fun hH' hH => hH' (hsub hH)
  owned := h.owned

/-- A new symbol that is a member of something held adopts symbols that nothing held leads to. -/
theorem wellFounded_adopt (hpush : t₁.symbols = t.symbols.push x) (hsame : t₁.SameOwners t₂)
    (hadopts : Adopts t.symbols.size members t₂ t') (hwf : WellFounded (t.Owner K))
    (hH : t.Encloses K H) (hcontainer : ∀ o, x.container = some o → o ∈ H)
    (hold : ∀ m ∈ members, m < t.symbols.size)
    (hapart : ∀ m ∈ members, ¬t.Settled K m → m ∉ H) : WellFounded (t'.Owner K) := by
  have hpushed : WellFounded (t₂.Owner K) :=
    hsame.wellFounded (wellFounded_push hpush hwf hH hcontainer)
  refine hadopts.wellFounded hpushed (Set.mem_insert t.symbols.size H) ?_ ?_
  · rintro m hm o howner
    obtain ⟨hK, y, hy, hy'⟩ := hsame.owner howner
    rw [symbol?_push hpush] at hy
    split at hy
    · cases hy
      exact .inr (hcontainer o hy')
    · rename_i hne
      exact .inr (hH.owner (hm.resolve_left hne) ⟨hK, y, hy, hy'⟩)
  · rintro m hm hwaits (rfl | hmH)
    · exact Nat.lt_irrefl _ (hold _ hm)
    · exact hapart m hm
        (fun hsettled => hwaits (hsame.settled ((spares_push hpush H).settled hsettled))) hmH

end SymbolTableOver

namespace Binder

variable {s : Setting σ} {b b₀ b' : Binder σ} {value : Inferred} {id : SymbolId}

theorem mem_byName_declare {x : Symbol} {i : ScopeId} {scope : Scope}
    (hscope : (t.declare x).scope? i = some scope) {entry : String × List SymbolId}
    (hentry : entry ∈ scope.byName) {m : SymbolId} (hm : m ∈ entry.2) :
    m = x.id ∨ ∃ old, t.scope? i = some old ∧ ∃ entry ∈ old.byName, m ∈ entry.2 := by
  simp only [SymbolTableOver.scope?, SymbolTableOver.declare, Array.getElem?_modify] at hscope
  split at hscope
  · obtain ⟨old, hold, rfl⟩ := Option.map_eq_some_iff.mp hscope
    rcases SymbolTable.Safe.mem_modifyUnder hentry with hentry | ⟨ids, rfl, hids⟩
    · exact .inr ⟨old, hold, entry, hentry, hm⟩
    · rcases SymbolTable.Safe.mem_insertByStart hm with rfl | hm
      · exact .inl rfl
      · rcases hids with rfl | hids
        · cases hm
        · exact .inr ⟨old, hold, _, hids, hm⟩
  · exact .inr ⟨scope, hscope, entry, hentry, hm⟩

/-- Adoption touches symbols alone. -/
theorem adoptMembers_eq (b : Binder σ) (o : SymbolId) :
    ∃ symbols, b.adoptMembers o = { b with table := { b.table with symbols := symbols } } := by
  have hfold (members : Members) : ∀ b : Binder σ, ∃ symbols,
      members.foldl (fun b member => b.modifySymbol member.2 (ownedBy o)) b =
        { b with table := { b.table with symbols := symbols } } := by
    induction members with
    | nil => exact fun b => ⟨b.table.symbols, rfl⟩
    | cons member rest ih =>
      intro b
      obtain ⟨symbols, heq⟩ := ih (b.modifySymbol member.2 (ownedBy o))
      exact ⟨symbols, heq⟩
  unfold adoptMembers
  split
  · split
    · exact ⟨b.table.symbols, rfl⟩
    · exact hfold _ b
  · exact ⟨b.table.symbols, rfl⟩

theorem scopes_adoptMembers (b : Binder σ) (o : SymbolId) :
    (b.adoptMembers o).table.scopes = b.table.scopes ∧ (b.adoptMembers o).returns = b.returns := by
  obtain ⟨symbols, heq⟩ := adoptMembers_eq b o
  rw [heq]
  exact ⟨rfl, rfl⟩

/-! ### What a table type leads to -/

theorem container_mapTable (f : Table → Table) (x : Symbol) :
    (Binder.mapTable f x).container = x.container ∧ (Binder.mapTable f x).alias = x.alias := by
  unfold Binder.mapTable
  split <;> exact ⟨rfl, rfl⟩

theorem mem_ids_insert {ms : Members} {name : String} {new m : SymbolId}
    (hm : m ∈ (ms.insert name new).map Prod.snd) : m = new ∨ m ∈ ms.map Prod.snd := by
  obtain ⟨entry, hentry, rfl⟩ := List.mem_map.mp hm
  rcases Sound.mem_insert hentry with rfl | hentry
  · exact .inl rfl
  · exact .inr (List.mem_map_of_mem hentry)

/-- A table that gets a member lists it and what it listed before. -/
theorem mentioned_insert {x : Symbol} {name : String} {new : SymbolId} {f : Table → Table}
    (hf : f = fun t => { t with members := t.members.insert name new }) :
    (∀ m ∈ (Binder.mapTable f x).ty.mentioned, m = new ∨ m ∈ x.ty.mentioned) ∧
      ∀ m ∈ (Binder.mapTable f x).ty.listed, m = new ∨ m ∈ x.ty.listed := by
  subst hf
  unfold Binder.mapTable
  split
  · rename_i table hty
    rw [hty]
    have hforeign : ({ table with members := table.members.insert name new } : Table).isForeign =
      table.isForeign := rfl
    simp only [TyOver.mentioned, TyOver.listed, TyOver.own, hforeign]
    split
    · exact ⟨fun _ hm => absurd hm List.not_mem_nil, fun _ hm => absurd hm List.not_mem_nil⟩
    · refine ⟨fun m hm => ?_, fun m => mem_ids_insert⟩
      rcases List.mem_append.mp hm with hm | hm
      · exact (mem_ids_insert hm).imp_right (List.mem_append_left _)
      · exact .inr (List.mem_append_right _ hm)
  · exact ⟨fun _ => .inr, fun _ => .inr⟩

/-- A table that gets a prototype leads to it, and lists what it listed before. -/
theorem mentioned_prototype {x : Symbol} {proto : Prototype} {f : Table → Table}
    (hf : f = fun t => { t with prototype := some proto }) :
    (∀ m ∈ (Binder.mapTable f x).ty.mentioned, m ∈ proto.link.here? ∨ m ∈ x.ty.mentioned) ∧
      (Binder.mapTable f x).ty.listed = x.ty.listed := by
  subst hf
  unfold Binder.mapTable
  split
  · rename_i table hty
    rw [hty]
    have hforeign : ({ table with prototype := some proto } : Table).isForeign = table.isForeign :=
      rfl
    refine ⟨fun m hm => ?_, rfl⟩
    simp only [TyOver.mentioned, hforeign] at hm ⊢
    split at hm
    · cases hm
    · rename_i hown
      rw [if_neg hown]
      rcases List.mem_append.mp hm with hm | hm
      · exact .inr (List.mem_append_left _ hm)
      · exact .inl (Option.mem_toList.mp hm)
  · exact ⟨fun _ => .inr, rfl⟩

/-! ### Changes of a state -/

namespace Owned

/-- Only scopes, references, frames or the loader's state changed. -/
theorem congr (hb : b.Owned K H) (hsymbols : b'.table.symbols = b.table.symbols)
    (hnamed : ∀ i scope, b'.table.scope? i = some scope →
      ∀ entry ∈ scope.byName, ∀ m ∈ entry.2, m ∈ H)
    (hreturns : ∀ value, some value ∈ b'.returns → value.Within H) : b.Becomes K H H b' := by
  obtain ⟨⟨scopes, symbols⟩, references, scope, returns, world⟩ := b
  obtain ⟨⟨scopes', symbols'⟩, references', scope', returns', world'⟩ := b'
  dsimp only at hsymbols
  subst hsymbols
  have hspares := SymbolTableOver.Spares.refl H ⟨scopes, symbols'⟩
  exact ⟨⟨⟨hb.island.encloses, hb.island.settles⟩, hb.wellFounded, hnamed, hreturns⟩,
    ⟨subset_rfl, hspares.size, hspares.outside, hspares.owned⟩⟩

theorem same (hb : b.Owned K H) (htable : b'.table = b.table) (hreturns : b'.returns = b.returns) :
    b.Becomes K H H b' :=
  hb.congr (congrArg _ htable) (htable ▸ hb.named) (hreturns ▸ hb.returns)

theorem enterScope (hb : b.Owned K H) (kind : ScopeKind) (span : Span) :
    b.Becomes K H H (b.enterScope kind span) := by
  refine hb.congr rfl (fun i scope hscope entry hentry m hm => ?_) hb.returns
  simp only [Binder.enterScope, SymbolTableOver.addScope, SymbolTableOver.scope?,
    Array.getElem?_modify] at hscope
  have hpushed : ∀ scope,
      (b.table.scopes.push ⟨b.table.nextScopeId, kind, some b.scope, span, [], [], []⟩)[i]? =
        some scope → ∀ entry ∈ scope.byName, ∀ m ∈ entry.2, m ∈ H := by
    intro scope hscope entry hentry m hm
    rw [Array.getElem?_push] at hscope
    split at hscope
    · cases hscope
      cases hentry
    · exact hb.named i scope hscope entry hentry m hm
  split at hscope
  · obtain ⟨old, hold, rfl⟩ := Option.map_eq_some_iff.mp hscope
    exact hpushed old hold entry hentry m hm
  · exact hpushed scope hscope entry hentry m hm

/-- The type or the alias of a symbol changes to one that leads to what is held. -/
theorem modify (hb : b.Owned K H) (hid : id ∈ H) {f : Symbol → Symbol}
    (hf : ∀ x, (f x).container = x.container)
    (hfit : ∀ x, b.table.symbol? id = some x → (∀ m ∈ (f x).ty.mentioned, m ∈ H) ∧
      ∀ link, (f x).alias = some link → ∀ m ∈ link.here?, m ∈ H)
    (hlisted : ∀ x, b.table.symbol? id = some x → ∀ m ∈ (f x).ty.listed, b.table.Settled K m) :
    b.Becomes K H H (b.modifySymbol id f) where
  owned :=
    { island := hb.island.modify hf (fun x hx _ => hfit x hx) fun x hx _ => hlisted x hx
      wellFounded := (SymbolTableOver.sameOwners_modifySymbol hf).wellFounded hb.wellFounded
      named := hb.named
      returns := hb.returns }
  spares := SymbolTableOver.spares_modifySymbol hf hid

/-! ### New names and members -/

/-- A name is declared with a value that lists nothing that waits for an owner. -/
theorem declare (hb : b.Owned K H) {x : Symbol} (hid : x.id = b.table.nextSymbolId)
    (hwithin : ({ ty := x.ty, «alias» := x.alias } : Inferred).Within H)
    (hlisted : ∀ m ∈ x.ty.listed, b.table.Settled K m) (hnone : x.container = none) :
    b.Becomes K H (insert x.id H) (b.declare x) := by
  have hpush : (b.declare x).table.symbols = b.table.symbols.push x := rfl
  have hspares := SymbolTableOver.spares_push hpush H
  have hwithin' := hwithin.mono (Set.subset_insert b.table.symbols.size H)
  have hcontainer : ∀ o, x.container = some o → o ∈ H := fun o ho => by
    rw [hnone] at ho
    cases ho
  rw [show x.id = b.table.symbols.size from hid]
  refine ⟨⟨⟨hb.island.encloses.push hpush ⟨hwithin'.ty, hwithin'.alias, fun _ o ho =>
    .inr (hcontainer o ho)⟩, ?_⟩, ?_, ?_, ?_⟩, hspares⟩
  · rintro i (rfl | hi) y hy m hm
    · rw [SymbolTableOver.symbol?_push hpush, if_pos rfl] at hy
      cases hy
      exact hspares.settled (hlisted m hm)
    · exact SymbolTableOver.settles_push hpush hb.island i hi y hy m hm
  · exact SymbolTableOver.wellFounded_push hpush hb.wellFounded hb.island.encloses hcontainer
  · intro i scope hscope entry hentry m hm
    rcases mem_byName_declare hscope hentry hm with rfl | ⟨old, hold, entry', hentry', hm'⟩
    · exact .inl hid
    · exact .inr (hb.named i old hold entry' hentry' m hm')
  · exact fun value hvalue => (hb.returns value hvalue).mono (Set.subset_insert _ _)

/-- A new symbol that belongs to nothing yet takes the table of a value. -/
theorem adopt_new (hb : b.Owned K H) (hvalue : value.Private K n H N b.table) {x : Symbol}
    (hty : x.ty = value.ty) (halias : x.alias = value.alias) (hnone : x.container = none)
    (hid : x.id = b.table.nextSymbolId) (b₁ : Binder σ)
    (hpush : b₁.table.symbols = b.table.symbols.push x) :
    (b₁.adoptMembers x.id).table.Island K (insert x.id (H ∪ N)) ∧
      (b₁.adoptMembers x.id).table.Island K H ∧
      WellFounded ((b₁.adoptMembers x.id).table.Owner K) ∧
      b.table.Spares (H ∪ N) (insert x.id (H ∪ N)) (b₁.adoptMembers x.id).table := by
  have hnew : x.id = b.table.symbols.size := hid
  have hadopts := b₁.adopts_adoptMembers x.id
  have hsymbol : b₁.table.symbol? x.id = some x := by
    rw [SymbolTableOver.symbol?_push hpush, if_pos hnew]
  rw [tyOf_of_symbol? hsymbol, hty] at hadopts
  have hspares := SymbolTableOver.spares_push hpush (H ∪ N)
  have hcontainer : ∀ o, x.container = some o → o ∈ H := fun o ho => by
    rw [hnone] at ho
    cases ho
  have hown : ∀ m ∈ value.ty.own, m ∈ H ∪ N := fun m hm =>
    hvalue.ty m (TyOver.own_subset_mentioned _ hm)
  rw [hnew] at hadopts hsymbol ⊢
  have hencloses : b₁.table.Encloses K (insert b.table.symbols.size (H ∪ N)) := by
    refine hvalue.island.encloses.push hpush ⟨fun m hm => ?_, fun link hlink m hm => ?_, ?_⟩
    · exact .inr (hvalue.ty m (hty ▸ hm))
    · exact .inr (.inl (hvalue.alias link (halias ▸ hlink) m hm))
    · exact fun _ o ho => .inr (.inl (hcontainer o ho))
  have hwaits : ∀ m ∈ value.ty.own, ¬b₁.table.Settled K m → m ∉ H := fun m hm hwaits =>
    hvalue.not_held hm fun hsettled => hwaits (hspares.settled hsettled)
  refine ⟨?_, ?_, ?_, ?_⟩
  · refine hadopts.island hencloses (Set.mem_insert _ _) (fun m hm => .inr (hown m hm)) ?_
    rintro i (rfl | hi) y hy m hm
    · rw [hsymbol] at hy
      cases hy
      exact (hvalue.settled_or_own (hty ▸ hm)).imp_left hspares.settled
    · exact .inl (SymbolTableOver.settles_push hpush hvalue.island i hi y hy m hm)
  · refine hadopts.island_apart ⟨fun i hi => ?_, ?_⟩ hwaits
    · obtain ⟨y, hy, hwithin⟩ := hb.island.encloses i hi
      exact ⟨y, (SymbolTableOver.symbol?_push_of_lt hpush (hb.island.encloses.lt hi)).trans hy,
        hwithin⟩
    · exact SymbolTableOver.settles_push hpush hb.island
  · exact SymbolTableOver.wellFounded_adopt hpush (fun _ => rfl) hadopts hb.wellFounded
      hb.island.encloses hcontainer (fun m hm => hvalue.island.encloses.lt (hown m hm))
      fun m hm hfree => hvalue.not_held hm hfree
  · exact hspares.trans (hadopts.spares fun m hm => .inr (hown m hm)) subset_rfl
      fun _ hi => .inl hi

/-- A name is declared with a value; the members of its table have an owner from then on. -/
theorem bind (hb : b.Owned K H) (hvalue : value.Private K n H N b.table) {x : Symbol}
    (hty : x.ty = value.ty) (halias : x.alias = value.alias) (hnone : x.container = none)
    (hid : x.id = b.table.nextSymbolId) :
    b.Becomes K (H ∪ N) (insert x.id (H ∪ N)) (b.bind x) := by
  obtain ⟨hisland, -, hwellFounded, hspares⟩ :=
    hb.adopt_new hvalue hty halias hnone hid (b.declare x) rfl
  obtain ⟨hscopes, hreturns⟩ := scopes_adoptMembers (b.declare x) x.id
  refine ⟨⟨hisland, hwellFounded, fun i scope hscope entry hentry m hm => ?_, ?_⟩, hspares⟩
  · rw [Binder.bind, SymbolTableOver.scope?, hscopes] at hscope
    rcases mem_byName_declare hscope hentry hm with rfl | ⟨old, hold, entry', hentry', hm'⟩
    · exact .inl rfl
    · exact .inr (.inl (hb.named i old hold entry' hentry' m hm'))
  · rw [Binder.bind, hreturns]
    exact fun value hvalue => (hb.returns value hvalue).mono
      (Set.subset_union_left.trans (Set.subset_insert _ _))

/-- A symbol without a type takes that of a value. -/
theorem refine (hb : b.Owned K H) (hvalue : value.Private K n H N b.table) (hid : id ∈ H) :
    b.Becomes K (H ∪ N) (H ∪ N) (b.refine id value) := by
  have hwith := hb.release hvalue.island
  unfold Binder.refine
  split
  · exact .refl hwith
  · obtain ⟨x, hx, hwithin⟩ := hvalue.island.encloses id (.inl hid)
    have hsame : b.table.SameOwners (b.modifySymbol id (refined value)).table :=
      SymbolTableOver.sameOwners_modifySymbol fun _ => rfl
    have hadopts := (b.modifySymbol id (refined value)).adopts_adoptMembers id
    rw [tyOf_of_symbol? (symbol?_modifySymbol_self _ hx)] at hadopts
    change SymbolTableOver.Adopts id value.ty.own _ _ at hadopts
    obtain ⟨hscopes, hreturns⟩ := scopes_adoptMembers (b.modifySymbol id (refined value)) id
    have hown : ∀ m ∈ value.ty.own, m ∈ H ∪ N := fun m hm =>
      hvalue.ty m (TyOver.own_subset_mentioned _ hm)
    have hencloses : (b.modifySymbol id (refined value)).table.Encloses K (H ∪ N) := by
      refine hvalue.island.encloses.modify (fun _ => rfl) fun y hy hmem => ⟨hvalue.ty, ?_⟩
      intro link hlink m hm
      dsimp only [refined] at hlink
      split at hlink
      · exact .inl (hvalue.alias link hlink m hm)
      · exact (hvalue.island.encloses.within hmem hy).alias link hlink m hm
    refine ⟨⟨hadopts.island hencloses (.inl hid) hown ?_, ?_, ?_, ?_⟩, ?_⟩
    · intro i hi y hy m hm
      rw [modifySymbol, SymbolTableOver.symbol?_modifySymbol] at hy
      split at hy
      · obtain ⟨z, hz, rfl⟩ := Option.map_eq_some_iff.mp hy
        exact (hvalue.settled_or_own hm).imp_left hsame.settled
      · exact .inl (hsame.settled (hvalue.island.settles i hi y hy m hm))
    · refine hadopts.wellFounded (hsame.wellFounded hb.wellFounded) hid ?_ ?_
      · exact fun m hm o howner => hb.island.encloses.owner hm (hsame.owner howner)
      · exact fun m hm hwaits => hvalue.not_held hm fun hsettled => hwaits (hsame.settled hsettled)
    · intro i scope hscope
      rw [SymbolTableOver.scope?, hscopes] at hscope
      exact hwith.named i scope hscope
    · rw [hreturns]
      exact hwith.returns
    · exact (SymbolTableOver.spares_modifySymbol (f := refined value) (fun _ => rfl)
        (.inl hid)).trans (hadopts.spares hown) subset_rfl fun _ hi => .inl hi

/-- A vacant symbol becomes an empty table. -/
theorem asTable (hb : b.Owned K H) (hid : id ∈ H) :
    b.Becomes K H H (b.modifySymbol id Binder.asTable) := by
  have hcontainer : ∀ x : Symbol, (Binder.asTable x).container = x.container := fun x => by
    unfold Binder.asTable
    split <;> rfl
  refine hb.modify hid hcontainer (fun x hx => ?_) fun x hx => ?_
  · have hwithin := hb.island.encloses.within hid hx
    unfold Binder.asTable
    split
    · exact ⟨nofun, hwithin.alias⟩
    · exact ⟨hwithin.ty, hwithin.alias⟩
  · unfold Binder.asTable
    split
    · exact nofun
    · exact hb.island.settles id hid x hx

section Listing

variable {A : Set SymbolId} {target : SymbolId} {x : Symbol} {f : Table → Table}

/-- A table that lists a member of the set stays within the set. -/
theorem encloses_listing (hf : f = fun t => { t with members := t.members.insert x.name x.id })
    (h : b.table.Encloses K A) (hid : x.id ∈ A) :
    (b.modifySymbol target (Binder.mapTable f)).table.Encloses K A := by
  refine h.modify (fun y => (container_mapTable f y).1) fun y hy hmem => ⟨?_, ?_⟩
  · intro m hm
    rcases (mentioned_insert hf).1 m hm with rfl | hm
    · exact hid
    · exact (h.within hmem hy).ty m hm
  · rw [(container_mapTable f y).2]
    exact (h.within hmem hy).alias

/-- A new member with a container is settled where it is listed; the others wait as before. -/
theorem settles_listing (hf : f = fun t => { t with members := t.members.insert x.name x.id })
    {own : List SymbolId} (hcontainer : x.container ≠ none)
    (hsymbol : (b.modifySymbol target (Binder.mapTable f)).table.symbol? x.id = some x)
    (hlisted : ∀ i ∈ A, ∀ y, b.table.symbol? i = some y → ∀ m ∈ y.ty.listed,
      b.table.Settled K m ∨ m ∈ own) :
    ∀ i ∈ A, ∀ y, (b.modifySymbol target (Binder.mapTable f)).table.symbol? i = some y →
      ∀ m ∈ y.ty.listed,
        (b.modifySymbol target (Binder.mapTable f)).table.Settled K m ∨ m ∈ own := by
  have hsame : b.table.SameOwners (b.modifySymbol target (Binder.mapTable f)).table :=
    SymbolTableOver.sameOwners_modifySymbol fun y => (container_mapTable f y).1
  intro i hi y hy m hm
  rw [modifySymbol, SymbolTableOver.symbol?_modifySymbol] at hy
  split at hy
  · obtain ⟨z, hz, rfl⟩ := Option.map_eq_some_iff.mp hy
    rcases (mentioned_insert hf).2 m hm with rfl | hm
    · exact .inl (.inr ⟨x, hsymbol, hcontainer⟩)
    · exact (hlisted i hi z (‹target = i› ▸ hz) m hm).imp_left hsame.settled
  · exact (hlisted i hi y hy m hm).imp_left hsame.settled

end Listing

/-- A symbol that is held lists a new member, and the new member adopts those of its value. -/
theorem addNamed (hb : b.Owned K H) (hvalue : value.Private K n H N b.table) {target : SymbolId}
    (htarget : target ∈ H) {x : Symbol} (hty : x.ty = value.ty) (halias : x.alias = value.alias)
    (hcontainer : x.container = some target) (hid : x.id = b.table.nextSymbolId) :
    b.Becomes K (H ∪ N) (insert x.id (H ∪ N))
      (((b.addMember x).modifySymbol target (Binder.mapTable fun t =>
        { t with members := t.members.insert x.name x.id })).adoptMembers x.id) := by
  have hnew : x.id = b.table.symbols.size := hid
  have howned : ∀ o, x.container = some o → o ∈ H := fun o ho => by
    rw [hcontainer] at ho
    cases ho
    exact htarget
  have hpush : (b.addMember x).table.symbols = b.table.symbols.push x := rfl
  have hpushed := SymbolTableOver.spares_push hpush (H ∪ N)
  have hsymbol : (b.addMember x).table.symbol? x.id = some x := by
    rw [SymbolTableOver.symbol?_push hpush, if_pos hnew]
  have hencloses := hvalue.island.encloses.push hpush ⟨fun m hm => .inr (hvalue.ty m (hty ▸ hm)),
    fun link hlink m hm => .inr (.inl (hvalue.alias link (halias ▸ hlink) m hm)),
    fun _ o ho => .inr (.inl (howned o ho))⟩
  have hsettles := SymbolTableOver.settles_push hpush hvalue.island
  have hscopes : (b.addMember x).table.scopes = b.table.scopes := rfl
  have hreturns : (b.addMember x).returns = b.returns := rfl
  rw [← hnew] at hpushed hencloses
  generalize b.addMember x = b₂ at hpush hpushed hsymbol hencloses hsettles hscopes hreturns ⊢
  -- From here on the new member belongs to the target; only its own members still wait.
  obtain ⟨f, hf⟩ : ∃ f : Table → Table, f = fun t =>
    { t with members := t.members.insert x.name x.id } := ⟨_, rfl⟩
  rw [← hf]
  have hsame : b₂.table.SameOwners (b₂.modifySymbol target (Binder.mapTable f)).table :=
    SymbolTableOver.sameOwners_modifySymbol fun y => (container_mapTable f y).1
  have hmodified : b₂.table.Spares (insert x.id (H ∪ N)) (insert x.id (H ∪ N))
      (b₂.modifySymbol target (Binder.mapTable f)).table :=
    SymbolTableOver.spares_modifySymbol (fun y => (container_mapTable f y).1)
      (.inr (.inl htarget))
  have hencloses' : (b₂.modifySymbol target (Binder.mapTable f)).table.Encloses K
      (insert x.id (H ∪ N)) := encloses_listing hf hencloses (Set.mem_insert _ _)
  have hne : target ≠ x.id := hnew ▸ Nat.ne_of_lt (hb.island.encloses.lt htarget)
  have hsymbol' : (b₂.modifySymbol target (Binder.mapTable f)).table.symbol? x.id = some x := by
    rw [modifySymbol, SymbolTableOver.symbol?_modifySymbol, if_neg hne, hsymbol]
  have hadopts := (b₂.modifySymbol target (Binder.mapTable f)).adopts_adoptMembers x.id
  rw [tyOf_of_symbol? hsymbol', hty] at hadopts
  obtain ⟨hscopes', hreturns'⟩ :=
    scopes_adoptMembers (b₂.modifySymbol target (Binder.mapTable f)) x.id
  have hown : ∀ m ∈ value.ty.own, m ∈ H ∪ N := fun m hm =>
    hvalue.ty m (TyOver.own_subset_mentioned _ hm)
  have hwith := hb.release hvalue.island
  refine ⟨⟨hadopts.island hencloses' (Set.mem_insert _ _) (fun m hm => .inr (hown m hm)) ?_, ?_,
    ?_, ?_⟩, ?_⟩
  · refine settles_listing hf (by simp [hcontainer]) hsymbol' fun i hi y hy m hm => ?_
    rcases hi with rfl | hi
    · rw [hsymbol] at hy
      cases hy
      exact (hvalue.settled_or_own (hty ▸ hm)).imp_left hpushed.settled
    · exact .inl (hsettles i hi y hy m hm)
  · rw [hnew] at hadopts ⊢
    exact SymbolTableOver.wellFounded_adopt hpush hsame hadopts hb.wellFounded hb.island.encloses
      howned (fun m hm => hvalue.island.encloses.lt (hown m hm)) fun m hm => hvalue.not_held hm
  · intro i scope hscope entry hentry m hm
    rw [SymbolTableOver.scope?, hscopes', modifySymbol, SymbolTableOver.modifySymbol, hscopes]
      at hscope
    exact .inr (hwith.named i scope hscope entry hentry m hm)
  · rw [hreturns', modifySymbol, hreturns]
    exact fun value hvalue => (hwith.returns value hvalue).mono (Set.subset_insert _ _)
  · exact (hpushed.trans hmodified subset_rfl fun _ hi => .inl hi).trans
      (hadopts.spares fun m hm => .inr (hown m hm)) subset_rfl fun _ hi => .inl hi

/-- A member is added to the table behind a link, with a value. -/
theorem insertMember (hb : b.Owned K H) (hvalue : value.Private K n H N b.table) {x : Symbol}
    (hty : x.ty = value.ty) (halias : x.alias = value.alias) (hid : x.id = b.table.nextSymbolId)
    {link : Link} (hlink : ∀ m ∈ link.here?, m ∈ H) {new : SymbolId}
    (h : b.insertMember link x = some (new, b')) :
    b.Becomes K (H ∪ N) (insert new (H ∪ N)) (b'.adoptMembers new) := by
  unfold Binder.insertMember at h
  split at h
  · cases h
  · rename_i target howner
    cases h
    obtain ⟨hnone, htarget, -⟩ := ownTable?_eq_some howner
    have hheld : target ∈ H := by
      exact htarget ▸ (hb.held_resolveAlias hlink).held hnone
    have hfirst := hb.asTable hheld
    have hvalue' := hvalue.spared hfirst.spares hfirst.owned.island
    have hadded := hfirst.owned.addNamed hvalue' hheld (x := { x with container := some target })
      hty halias rfl (hid.trans (nextSymbolId_modifySymbol b target Binder.asTable).symm)
    exact hfirst.around hadded

/-! ### Prototypes -/

theorem setPrototype (hb : b.Owned K H) {link : Link} {proto : Prototype}
    (hlink : ∀ m ∈ link.here?, m ∈ H) (hproto : ∀ m ∈ proto.link.here?, m ∈ H)
    (h : b.setPrototype link proto = some b') : b.Becomes K H H b' := by
  unfold Binder.setPrototype at h
  dsimp only at h
  split at h
  · cases h
  · rename_i hlocal
    have hnone : (b.home.follow link).resolveAlias.home.origin = none := by
      simpa [Located.isLocal] using hlocal
    have hheld : (b.home.follow link).resolveAlias.id ∈ H :=
      (hb.held_resolveAlias hlink).held hnone
    have hfirst := hb.asTable hheld
    split at h
    · split at h
      · cases h
      · cases h
        obtain ⟨f, hf⟩ : ∃ f : Table → Table, f = fun t => { t with prototype := some proto } :=
          ⟨_, rfl⟩
        rw [← hf]
        refine hfirst.trans (hfirst.owned.modify hheld (fun x => (container_mapTable f x).1)
          (fun x hx => ?_) fun x hx => ?_)
        · have hwithin := hfirst.owned.island.encloses.within hheld hx
          rw [(container_mapTable f x).2]
          exact ⟨fun m hm => ((mentioned_prototype hf).1 m hm).elim (hproto m) (hwithin.ty m),
            hwithin.alias⟩
        · rw [(mentioned_prototype hf).2]
          exact hfirst.owned.island.settles _ hheld x hx
    · cases h

theorem attachPrototype (hb : b.Owned K H) {target : Inferred}
    (htarget : target.Private K n H N b.table) {prototype : Option Prototype}
    (hprototype : ∀ proto, prototype = some proto → ∀ m ∈ proto.link.here?, m ∈ H) :
    b.Becomes K H H (b.attachPrototype target prototype).2 ∧ ∃ N',
      (b.attachPrototype target prototype).1.Private K n H N'
        (b.attachPrototype target prototype).2.table := by
  unfold Binder.attachPrototype
  split
  · exact ⟨.refl hb, N, htarget⟩
  · rename_i proto
    have hproto := hprototype proto rfl
    split
    · rename_i link b' hset
      obtain ⟨link', halias, hset⟩ := Option.bind_eq_some_iff.mp hset
      obtain ⟨b'', hset, heq⟩ := Option.map_eq_some_iff.mp hset
      cases heq
      have hlink := htarget.alias link halias
      have hstep := hb.setPrototype hlink hproto hset
      obtain ⟨hmentioned, hlisted⟩ := hstep.owned.valueType hlink
      refine ⟨hstep, ∅, .of_within hstep.owned.island ⟨hmentioned, fun link' hlink' => ?_⟩ hlisted⟩
      cases hlink'
      exact hlink
    · -- No symbol takes the prototype, so the value that is answered with has it.
      have hempty : ({ ty := .table { prototype := some proto } } : Inferred).Private K n H ∅
          b.table := by
        refine .of_within hb.island ⟨fun m hm => hproto m ?_, fun _ hlink => by cases hlink⟩
          fun _ hm => absurd hm List.not_mem_nil
        simpa [TyOver.mentioned, TableOver.isForeign] using hm
      split
      · rename_i table hty
        split
        · exact ⟨.refl hb, N, htarget.unnamed⟩
        · rename_i hown
          have hvalue := htarget.unnamed
          rw [hty] at hvalue
          refine ⟨.refl hb, N, hvalue.fresh, hvalue.apart, hvalue.island, fun m hm => ?_,
            fun _ hlink => (by cases hlink), hvalue.listed⟩
          have hmentioned := hvalue.ty m
          have hforeign : ({ table with prototype := some proto } : Table).isForeign =
            table.isForeign := rfl
          simp only [TyOver.mentioned, hforeign, if_neg hown, List.mem_append] at hm hmentioned
          rcases hm with hm | hm
          · exact hmentioned (.inl hm)
          · exact .inl (hproto m (by simpa using hm))
      · exact ⟨.refl hb, ∅, hempty⟩
      · exact ⟨.refl hb, ∅, hempty⟩
      · exact ⟨.refl hb, N, htarget.unnamed⟩

/-! ### Paths -/

theorem recordAll (hb : b.Owned K H) (first : Ident) (segments : List Ident)
    (links : List (Option Link)) :
    (Binder.recordAll s first segments links b).table = b.table ∧
      b.Becomes K H H (Binder.recordAll s first segments links b) := by
  obtain ⟨references, heq⟩ := recordAll_eq s first segments links b
  rw [heq]
  exact ⟨rfl, hb.same rfl rfl⟩

theorem inferPath (hb : b.Owned K H) (path : List Ident) :
    b.Becomes K H H (b.inferPath s path).2 ∧
      (b.inferPath s path).1.Private K n H ∅ (b.inferPath s path).2.table := by
  cases path with
  | nil => exact ⟨.refl hb, .plain hb.island rfl⟩
  | cons first rest =>
    obtain ⟨htable, hstep⟩ := hb.recordAll (s := s) first (first :: rest) (b.walkPath (first :: rest))
    simp only [Binder.inferPath]
    split
    · rename_i link hlast
      have hlink := hb.held_of_mem_walkPath (List.mem_of_getLast? hlast)
      obtain ⟨hmentioned, hlisted⟩ := hstep.owned.valueType hlink
      refine ⟨hstep, .of_within hstep.owned.island ⟨hmentioned, fun link' hlink' => ?_⟩ hlisted⟩
      cases hlink'
      exact hlink
    · exact ⟨hstep, .plain hstep.owned.island rfl⟩

/-- A dotted definition gives its value to a member that was there or is new. -/
theorem defineMember (hb : b.Owned K H) (path : List Ident) (kind : SymbolKind) (statement : Span)
    (hvalue : value.Private K n H N b.table) (doc : Option String) :
    ∃ H', b.Becomes K (H ∪ N) H' (b.defineMember s path kind statement value doc).2 ∧
      (∀ id, (b.defineMember s path kind statement value doc).1.symbol = some id → id ∈ H') ∧
      ∀ link, (b.defineMember s path kind statement value doc).1.container = some link →
        ∀ m ∈ link.here?, m ∈ H := by
  have hskip : b.Becomes K (H ∪ N) (H ∪ N) b := .refl (hb.release hvalue.island)
  have hnothing {α : Type} {P : α → Prop} (a : α) (h : none = some a) : P a := by cases h
  unfold Binder.defineMember
  split
  · rename_i first last _ _
    have hcontainer : ∀ link, (b.walkPath path).dropLast.getLast?.join = some link →
        ∀ m ∈ link.here?, m ∈ H := fun link hlink => hb.held_of_mem_walkPath
      (List.dropLast_subset _ (List.mem_of_getLast? (Option.join_eq_some_iff.mp hlink)))
    have hfound : ∀ link, (b.walkPath path).getLast?.join = some link →
        ∀ m ∈ link.here?, m ∈ H := fun link hlink =>
      hb.held_of_mem_walkPath (List.mem_of_getLast? (Option.join_eq_some_iff.mp hlink))
    obtain ⟨htable, hstep⟩ := hb.recordAll (s := s) first path (b.walkPath path).dropLast
    dsimp only
    generalize (b.walkPath path).dropLast.getLast?.join = container at hcontainer ⊢
    generalize Binder.recordAll s first path (b.walkPath path).dropLast b = b₁ at htable hstep ⊢
    rw [← htable] at hvalue
    have hlast (target : Option Link) : b₁.Becomes K H H (b₁.record s first last target) :=
      hstep.owned.same rfl rfl
    have hrecord (target : Option Link) :
        b.Becomes K (H ∪ N) (H ∪ N) (b₁.record s first last target) :=
      (hstep.trans (hlast target)).around (.refl ((hlast target).owned.release hvalue.island))
    split
    · rename_i existing hexisting
      split
      · rename_i hlocal
        have hheld : existing.id ∈ H := by
          refine hfound existing hexisting existing.id ?_
          rw [LinkOver.here?, if_pos hlocal]
          rfl
        refine ⟨_, (hstep.trans (hlast _)).around ((hlast _).owned.refine hvalue hheld), ?_,
          hcontainer⟩
        intro id hid
        cases hid
        exact .inl hheld
      · exact ⟨_, hrecord _, hnothing, hcontainer⟩
    · cases container with
      | none => exact ⟨_, hrecord none, hnothing, hnothing⟩
      | some link =>
        dsimp only
        split
        · rename_i id b₂ hinsert
          have hadded := hstep.owned.insertMember hvalue (x := newSymbol s b₁ last kind statement
            value false doc) rfl rfl rfl (hcontainer link rfl) hinsert
          refine ⟨_, hstep.around hadded, fun id' hid' => ?_, hcontainer⟩
          cases hid'
          exact Set.mem_insert _ _
        · exact ⟨_, hrecord none, hnothing, hcontainer⟩
  · exact ⟨_, hskip, hnothing, hnothing⟩

theorem assignName (hb : b.Owned K H) (name : Ident) (statement : Span)
    (hvalue : value.Private K n H N b.table) (doc : Option String) :
    ∃ H', b.Becomes K (H ∪ N) H' (b.assignName s name statement value doc) := by
  have hrecord (target : Option Link) : b.Becomes K H H (b.record s name name target) :=
    hb.same rfl rfl
  unfold Binder.assignName
  split
  · rename_i id hlookup
    exact ⟨_, (hrecord _).around ((hrecord _).owned.refine hvalue (hb.mem_of_lookup hlookup))⟩
  · split
    · exact ⟨_, hb.bind hvalue rfl rfl rfl rfl⟩
    · exact ⟨_, (hrecord none).around (.refl ((hrecord none).owned.release hvalue.island))⟩

/-! ### Declarations -/

theorem declareLocals (statement : Span) (doc : Option String) : ∀ (names : List Ident)
    {values : List Inferred} {b : Binder σ} {H N : Set SymbolId}, b.Owned K H →
    Inferred.Values K n b.table H N values →
    ∃ H', b.Becomes K (H ∪ N) H' (b.declareLocals s statement doc names values)
  | [], _, _, _, _, hb, hvalues => ⟨_, .refl (hb.release (hvalues.island hb.island))⟩
  | name :: names, values, b, H, N, hb, hvalues => by
    obtain ⟨N₁, N₂, rfl, hvalue, hrest⟩ := hvalues.split hb.island
    have hbound := hb.bind hvalue (x := newSymbol s b name (.ofTy (values.headD {}).ty .variable)
      statement (values.headD {}) true doc) rfl rfl rfl rfl
    obtain ⟨H', hlater⟩ := declareLocals statement doc names hbound.owned
      (hrest.spared hbound.spares hbound.owned.island)
    rw [← Set.union_assoc]
    exact ⟨H', hbound.around hlater⟩

/-- A name is declared without a table of its own. -/
theorem declarePlain (hb : b.Owned K H) (name : Ident) (kind : SymbolKind) (statement : Span)
    (ty : Ty) (hty : ty.mentioned = []) (isLocal : Bool) (doc : Option String) :
    b.Becomes K H (insert b.table.nextSymbolId H)
      (b.declare (newSymbol s b name kind statement { ty := ty } isLocal doc)) := by
  have hplain : ({ ty := ty } : Inferred).Private K 0 H ∅ b.table := .plain hb.island hty
  have hwithin := hplain.within
  rw [Set.union_empty] at hwithin
  exact hb.declare (x := newSymbol s b name kind statement { ty := ty } isLocal doc) rfl hwithin
    (fun m hm => (hplain.listed m hm).resolve_right And.left) rfl

theorem declareCounters (statement : Span) : ∀ (names : List Ident) {b : Binder σ}
    {H : Set SymbolId}, b.Owned K H →
    ∃ H', b.Becomes K H H'
      (names.foldl (fun b name => b.declareCounter s statement .unknown name) b)
  | [], _, H, hb => ⟨H, .refl hb⟩
  | name :: names, _, _, hb => by
    have hfirst := hb.declarePlain (s := s) name .variable statement .unknown rfl true none
    obtain ⟨H', hlater⟩ := declareCounters statement names hfirst.owned
    exact ⟨H', hfirst.trans hlater⟩

theorem declareParameters (parameters : Span) : ∀ (entries : List Parameter) {b : Binder σ}
    {H : Set SymbolId}, b.Owned K H →
    ∃ H', b.Becomes K H H' (b.declareParameters s parameters entries)
  | [], _, H, hb => ⟨H, .refl hb⟩
  | .vararg :: rest, _, _, hb => declareParameters parameters rest hb
  | .name name :: rest, _, _, hb => by
    have hfirst := hb.declarePlain (s := s) name .parameter parameters .unknown rfl true none
    obtain ⟨H', hlater⟩ := declareParameters parameters rest hfirst.owned
    exact ⟨H', hfirst.trans hlater⟩

theorem declareSelf (hb : b.Owned K H) (parameters : Span) {container : Option Link}
    (hcontainer : ∀ link, container = some link → ∀ m ∈ link.here?, m ∈ H) :
    ∃ H', b.Becomes K H H' (b.declareSelf s parameters container) := by
  cases container with
  | none => exact ⟨_, hb.declare rfl ⟨nofun, nofun⟩ nofun rfl⟩
  | some link =>
    obtain ⟨hmentioned, hlisted⟩ := hb.valueType (hcontainer link rfl)
    exact ⟨_, hb.declare rfl ⟨hmentioned, hcontainer⟩ hlisted rfl⟩

theorem declareFunction (hb : b.Owned K H) (reach : FunctionReach) (name : FunctionName)
    (statement : Span) (params : List String) (doc : Option String) :
    ∃ H', b.Becomes K H H' (b.declareFunction s reach name statement params doc).2 ∧
      (∀ id, (b.declareFunction s reach name statement params doc).1.symbol = some id → id ∈ H') ∧
      ∀ link, (b.declareFunction s reach name statement params doc).1.container = some link →
        ∀ m ∈ link.here?, m ∈ H' := by
  have hvalue : ({ ty := .function params .unknown name.method.isSome } : Inferred).Private K 0 H ∅
      b.table := .plain hb.island rfl
  have hdeclare (isLocal : Bool) := hb.declarePlain (s := s) name.head .function statement
    (.function params .unknown name.method.isSome) rfl isLocal doc
  unfold Binder.declareFunction
  dsimp only
  split
  · obtain ⟨H', hstep, hsymbol, hcontainer⟩ := hb.defineMember (s := s) name.path
      (if name.method.isSome = true then SymbolKind.method else .function) statement hvalue doc
    rw [Set.union_empty] at hstep
    exact ⟨H', hstep, hsymbol, fun link hlink m hm =>
      hstep.spares.grows (hcontainer link hlink m hm)⟩
  · split
    · exact ⟨_, hdeclare true, fun id hid => .inl (Option.some.inj hid).symm, nofun⟩
    · split
      · rename_i id hlookup
        have hid := hb.mem_of_lookup hlookup
        have hrecord : b.Becomes K H H (b.record s name.head name.head (some (.here id))) :=
          hb.same rfl rfl
        refine ⟨_, hrecord.trans (hrecord.owned.modify hid (fun _ => rfl) (fun x hx => ⟨nofun, ?_⟩)
          fun _ _ => nofun), fun id' hid' => ?_, nofun⟩
        · exact (hrecord.owned.island.encloses.within hid hx).alias
        · cases hid'
          exact hid
      · exact ⟨_, hdeclare false, fun id hid => .inl (Option.some.inj hid).symm, nofun⟩

/-! ### Functions and modules -/

theorem pushFrame (hb : b.Owned K H) : b.Becomes K H H b.pushFrame :=
  hb.congr rfl hb.named fun value hvalue => by
    rcases List.mem_cons.mp hvalue with hnone | hvalue
    · cases hnone
    · exact hb.returns value hvalue

theorem enterFunction (hb : b.Owned K H) (parameters : Parameters) (stop : Nat) (isMethod : Bool)
    {container : Option Link} (hcontainer : ∀ link, container = some link → ∀ m ∈ link.here?, m ∈ H) :
    ∃ H', b.Becomes K H H' (b.enterFunction s parameters stop isMethod container) := by
  have hscope := hb.enterScope .function ⟨parameters.span.start, stop⟩
  have hself : ∃ H', b.Becomes K H H'
      (if isMethod then
        (b.enterScope .function ⟨parameters.span.start, stop⟩).declareSelf s parameters.span container
      else b.enterScope .function ⟨parameters.span.start, stop⟩) := by
    split
    · obtain ⟨H', hself⟩ := hscope.owned.declareSelf (s := s) parameters.span hcontainer
      exact ⟨H', hscope.trans hself⟩
    · exact ⟨H, hscope⟩
  obtain ⟨H₁, hself⟩ := hself
  obtain ⟨H₂, hparameters⟩ := declareParameters (s := s) parameters.span parameters.entries hself.owned
  exact ⟨H₂, hself.trans (hparameters.trans hparameters.owned.pushFrame)⟩

/-- What a function returns was held when it did. -/
theorem leaveFunction (hb : b.Owned K H) (outer : ScopeId) :
    b.Becomes K H H (b.leaveFunction outer).2 ∧ ∀ m ∈ (b.leaveFunction outer).1.mentioned, m ∈ H := by
  unfold Binder.leaveFunction popFrame
  split
  · exact ⟨hb.same rfl rfl, nofun⟩
  · rename_i frame rest hreturns
    refine ⟨hb.congr rfl hb.named fun value hvalue => ?_, ?_⟩
    · exact hb.returns value (hreturns ▸ List.mem_cons_of_mem frame hvalue)
    · cases frame with
      | none => exact nofun
      | some value => exact (hb.returns value (hreturns ▸ List.mem_cons_self)).ty

theorem noteReturn (hb : b.Owned K H) (hvalue : value.Within H) :
    b.Becomes K H H (b.noteReturn value) := by
  unfold Binder.noteReturn
  split
  · exact .refl hb
  · rename_i frame rest hreturns
    have hnoted : b.Becomes K H H { b with returns := some value :: rest } := by
      refine hb.congr rfl hb.named fun value' hvalue' => ?_
      rcases List.mem_cons.mp hvalue' with heq | hvalue'
      · cases heq
        exact hvalue
      · exact hb.returns value' (hreturns ▸ List.mem_cons_of_mem frame hvalue')
    cases frame with
    | none => exact hnoted
    | some earlier =>
      dsimp only
      split
      · exact .refl hb
      · exact hnoted

/-- A function type with a return type that lists nothing that waits for an owner. -/
theorem finishFunction (hb : b.Owned K H) {id? : Option SymbolId} (hid : ∀ id, id? = some id → id ∈ H)
    {returns : Ty} (hmentioned : ∀ m ∈ returns.mentioned, m ∈ H)
    (hlisted : ∀ m ∈ returns.listed, b.table.Settled K m) :
    b.Becomes K H H (b.finishFunction id? returns) := by
  cases id? with
  | none => exact .refl hb
  | some id =>
    have hheld := hid id rfl
    refine hb.modify hheld (fun x => ?_) (fun x hx => ?_) fun x hx => ?_
    · unfold withReturns
      split <;> rfl
    · have hwithin := hb.island.encloses.within hheld hx
      unfold withReturns
      split
      · exact ⟨hmentioned, hwithin.alias⟩
      · exact ⟨hwithin.ty, hwithin.alias⟩
    · unfold withReturns
      split
      · exact hlisted
      · exact hb.island.settles id hheld x hx

theorem require (hb : b.Owned K H) (name : String) :
    b.Becomes K H H (b.require s name).2 ∧
      (b.require s name).1.Private K n H ∅ (b.require s name).2.table := by
  have hstep : b.Becomes K H H { b with world := (s.loader name b.world).2 } := hb.same rfl rfl
  unfold Binder.require
  dsimp only
  split
  · split <;> exact ⟨hstep, .plain hb.island rfl⟩
  · exact ⟨hstep, .plain hb.island rfl⟩

end Owned

/-- An entry of a table constructor adopts the members of its value; it waits for an owner itself. -/
theorem Becomes.addField (h : b₀.Becomes K A H b) {members : Members} {name : String}
    (hmembers : ({ ty := .table { members := members } } : Inferred).Private K n H M b.table)
    (hvalue : value.Private K b₀.table.symbols.size H N b.table)
    (hn : n ≤ b₀.table.symbols.size) (hM : ∀ id ∈ M, id < b₀.table.symbols.size) {x : Symbol}
    (hty : x.ty = value.ty) (halias : x.alias = value.alias) (hnone : x.container = none)
    (hid : x.id = b.table.nextSymbolId) :
    b₀.Becomes K A H ((b.addMember x).adoptMembers x.id) ∧ ∃ M',
      ({ ty := .table { members := members.insert name x.id } } : Inferred).Private K n H M'
        ((b.addMember x).adoptMembers x.id).table := by
  have hwith := h.owned.release hmembers.island
  have hvalue' := hvalue.widen (Nat.le_refl _) hM hmembers.island
  obtain ⟨-, hisland, hwellFounded, hspares⟩ :=
    h.owned.adopt_new hvalue hty halias hnone hid (b.addMember x) rfl
  obtain ⟨hislands, -⟩ := hwith.adopt_new hvalue' hty halias hnone hid (b.addMember x) rfl
  obtain ⟨hscopes, hreturns⟩ := scopes_adoptMembers (b.addMember x) x.id
  generalize (b.addMember x).adoptMembers x.id = b'
    at hisland hwellFounded hspares hislands hscopes hreturns ⊢
  have hnew : x.id = b.table.symbols.size := hid
  refine ⟨⟨⟨hisland, hwellFounded, fun i scope hscope => ?_, hreturns ▸ h.owned.returns⟩, ?_⟩,
    insert x.id (M ∪ N), ?_⟩
  · rw [SymbolTableOver.scope?, hscopes] at hscope
    exact h.owned.named i scope hscope
  · refine SymbolTableOver.Spares.shrink (h.spares.trans hspares Set.subset_union_left fun i hi =>
      hi.imp_right (hvalue.fresh i)) h.spares.grows ?_
    exact Set.subset_union_left.trans (Set.subset_insert _ _)
  · refine ⟨?_, ?_, ?_, fun m hm => ?_, fun _ hlink => (by cases hlink), fun m hm => ?_⟩
    · rintro i (rfl | hi | hi)
      · exact hnew ▸ Nat.le_trans hn h.spares.size
      · exact hmembers.fresh i hi
      · exact Nat.le_trans hn (hvalue.fresh i hi)
    · rintro i (rfl | hi | hi)
      · exact fun hH => Nat.ne_of_lt (h.owned.island.encloses.lt hH) hnew
      · exact hmembers.apart i hi
      · exact hvalue.apart i hi
    · rwa [Set.union_insert, ← Set.union_assoc]
    · rw [TyOver.mentioned_members] at hm
      rcases mem_ids_insert hm with rfl | hm
      · exact .inr (.inl rfl)
      · have hold := hmembers.ty m (by rwa [TyOver.mentioned_members])
        exact hold.imp_right fun hM => .inr (.inl hM)
    · rcases mem_ids_insert hm with rfl | hold
      · exact .inr ⟨.inl rfl, hm⟩
      · rcases hmembers.listed m hold with hsettled | ⟨hM, -⟩
        · exact .inl (hspares.settled hsettled)
        · exact .inr ⟨.inr (.inl hM), hm⟩

end Binder

end LuaScope

import LuaScope.Proofs.Owner.Step

/-!
# LuaScope.Proofs.Member.Unnamed

A symbol is either declared by its name, then a scope lists it, or it is a member, which no scope
lists. Types list members alone, so no name ever gets an owner.

* `SymbolTableOver.DeclaredIn`, `SymbolTableOver.Unnamed` — names and members.
* `Binder.Parted`   — names have no container, and all types list members.
* `Binder.Advances` — a step of the walk keeps the state so, and members stay members.
-/

namespace LuaScope

variable {σ : Type}

/-! ## Names and members -/

namespace SymbolTableOver

/-- The symbol was declared by its name in the scope. -/
def DeclaredIn {ρ : Type} (t : SymbolTableOver ρ) (scope : ScopeId) (id : SymbolId) : Prop :=
  ∃ s, t.scope? scope = some s ∧ id ∈ s.symbols

/-- The symbol is there, and was not declared by its name. -/
structure Unnamed {ρ : Type} (t : SymbolTableOver ρ) (id : SymbolId) : Prop where
  lt : id < t.symbols.size
  unlisted : ∀ scope, ¬t.DeclaredIn scope id

/-- What is a member stays one. -/
def Retains (t t' : SymbolTable) : Prop := ∀ m, t.Unnamed m → t'.Unnamed m

/-- The type lists members alone. -/
def Admits (t : SymbolTable) (ty : Ty) : Prop := ∀ m ∈ ty.listed, t.Unnamed m

end SymbolTableOver

/-- Types list members alone, and names have no container. -/
structure SymbolTable.Parted (t : SymbolTable) : Prop where
  types : ∀ id x, t.symbol? id = some x → t.Admits x.ty
  named : ∀ scope id, t.DeclaredIn scope id → ∃ x, t.symbol? id = some x ∧ x.container = none

/-- So do the types of what functions return. -/
structure Binder.Parted (b : Binder σ) : Prop where
  table : SymbolTable.Parted b.table
  returns : ∀ value, some value ∈ b.returns → b.table.Admits value.ty

/-- A step after which names and members are apart as they were before. -/
structure Binder.Advances (b b' : Binder σ) : Prop where
  parted : b'.Parted
  retains : b.table.Retains b'.table

namespace SymbolTableOver

variable {t t' t'' : SymbolTable} {id m : SymbolId} {x : Symbol} {ty : Ty}

theorem Retains.refl (t : SymbolTable) : t.Retains t := fun _ hm => hm

theorem Retains.trans (h : t.Retains t') (h' : t'.Retains t'') : t.Retains t'' :=
  fun m hm => h' m (h m hm)

theorem Admits.mono (h : t.Admits ty) (hretains : t.Retains t') : t'.Admits ty :=
  fun m hm => hretains m (h m hm)

/-- A type without symbols. -/
theorem admits_plain (t : SymbolTable) (hty : ty.mentioned = []) : t.Admits ty := fun m hm => by
  have hm' := TyOver.listed_subset_mentioned ty hm
  rw [hty] at hm'
  cases hm'

/-- Only symbols changed, and there are no fewer of them. -/
theorem retains_of_scopes (hscopes : t'.scopes = t.scopes)
    (hsize : t.symbols.size ≤ t'.symbols.size) : t.Retains t' := fun m hm => by
  refine ⟨Nat.lt_of_lt_of_le hm.lt hsize, ?_⟩
  rintro scope ⟨s, hs, hmem⟩
  rw [scope?, hscopes] at hs
  exact hm.unlisted scope ⟨s, hs, hmem⟩

theorem retains_modifySymbol (t : SymbolTable) (id : SymbolId) (f : Symbol → Symbol) :
    t.Retains (t.modifySymbol id f) :=
  retains_of_scopes rfl (by simp [modifySymbol])

theorem retains_addMember (t : SymbolTable) (x : Symbol) : t.Retains (t.addMember x) :=
  retains_of_scopes rfl (by simp [addMember])

/-- A member that is added is one. -/
theorem unnamed_addMember (hid : x.id = t.nextSymbolId) (hold : ∀ scope id, t.DeclaredIn scope id →
    id < t.symbols.size) : (t.addMember x).Unnamed x.id where
  lt := by
    rw [hid]
    simp [addMember, nextSymbolId]
  unlisted scope hdeclared := by
    have hlt := hold scope x.id hdeclared
    rw [hid] at hlt
    exact Nat.lt_irrefl _ hlt

/-- A declaration adds one name. -/
theorem DeclaredIn.of_declare {scope : ScopeId} (h : (t.declare x).DeclaredIn scope m) :
    t.DeclaredIn scope m ∨ m = x.id := by
  obtain ⟨s, hs, hm⟩ := h
  simp only [scope?, declare, Array.getElem?_modify] at hs
  split at hs
  · obtain ⟨old, hold, rfl⟩ := Option.map_eq_some_iff.mp hs
    exact (List.mem_append.mp hm).imp (fun hm => ⟨old, hold, hm⟩) List.mem_singleton.mp
  · exact .inl ⟨s, hs, hm⟩

theorem retains_declare (hid : x.id = t.nextSymbolId) : t.Retains (t.declare x) := fun m hm => by
  refine ⟨Nat.lt_of_lt_of_le hm.lt (by simp [declare]), fun scope hdeclared => ?_⟩
  rcases hdeclared.of_declare with hdeclared | rfl
  · exact hm.unlisted scope hdeclared
  · have hlt := hm.lt
    rw [hid] at hlt
    exact Nat.lt_irrefl _ hlt

/-- A new scope lists nothing. -/
theorem DeclaredIn.of_addScope {parent scope : ScopeId} {kind : ScopeKind} {span : Span}
    (h : (t.addScope parent kind span).DeclaredIn scope m) : t.DeclaredIn scope m := by
  obtain ⟨s, hs, hm⟩ := h
  simp only [scope?, addScope, Array.getElem?_modify, Array.getElem?_push] at hs
  split at hs
  · obtain ⟨old, hold, rfl⟩ := Option.map_eq_some_iff.mp hs
    split at hold
    · cases hold
      cases hm
    · exact ⟨old, hold, hm⟩
  · split at hs
    · cases hs
      cases hm
    · exact ⟨s, hs, hm⟩

theorem retains_addScope (parent : ScopeId) (kind : ScopeKind) (span : Span) :
    t.Retains (t.addScope parent kind span) :=
  fun _ hm => ⟨hm.lt, fun scope hdeclared => hm.unlisted scope hdeclared.of_addScope⟩

end SymbolTableOver

open SymbolTableOver

/-! ## Changes of a table -/

namespace SymbolTable.Parted

variable {t t' : SymbolTable} {id : SymbolId} {x : Symbol}

theorem new (length : Nat) : SymbolTable.Parted (.new length) where
  types id x hx := by cases hx
  named scope id hdeclared := by
    obtain ⟨s, hs, hid⟩ := hdeclared
    obtain ⟨hlt, rfl⟩ := Array.getElem?_eq_some_iff.mp hs
    obtain rfl : scope = 0 := Nat.lt_one_iff.mp hlt
    cases hid

theorem lt_of_declaredIn (h : SymbolTable.Parted t) {scope : ScopeId} (hdeclared : t.DeclaredIn scope id) :
    id < t.symbols.size := by
  obtain ⟨x, hx, -⟩ := h.named scope id hdeclared
  exact lt_of_symbol? hx

/-- The type of a symbol becomes another one that lists members. -/
theorem modify (h : SymbolTable.Parted t) {f : Symbol → Symbol}
    (hcontainer : ∀ x, (f x).container = x.container)
    (hty : ∀ x, t.symbol? id = some x → t.Admits (f x).ty) :
    SymbolTable.Parted (t.modifySymbol id f) where
  types id' y hy := by
    refine Admits.mono ?_ (retains_modifySymbol t id f)
    rw [symbol?_modifySymbol] at hy
    split at hy
    · obtain ⟨x, hx, rfl⟩ := Option.map_eq_some_iff.mp hy
      exact hty x (‹id = id'› ▸ hx)
    · exact h.types id' y hy
  named scope id' hdeclared := by
    obtain ⟨x, hx, hnone⟩ := h.named scope id' hdeclared
    rw [symbol?_modifySymbol, hx]
    split
    · exact ⟨f x, rfl, (hcontainer x).trans hnone⟩
    · exact ⟨x, rfl, hnone⟩

/-- Members get an owner, names do not. -/
theorem adopt (h : SymbolTable.Parted t) {o : SymbolId} {members : List SymbolId}
    (hadopts : Adopts o members t t') (hscopes : t'.scopes = t.scopes)
    (hmembers : ∀ m ∈ members, t.Unnamed m) : SymbolTable.Parted t' where
  types id x hx := by
    obtain ⟨y, hy, hty, -⟩ := hadopts.before hx
    rw [hty]
    exact (h.types id y hy).mono (retains_of_scopes hscopes hadopts.size.ge)
  named scope id hdeclared := by
    obtain ⟨s, hs, hid⟩ := hdeclared
    rw [scope?, hscopes] at hs
    obtain ⟨x, hx, hnone⟩ := h.named scope id ⟨s, hs, hid⟩
    obtain ⟨x', hx', -, -, -, hsame⟩ := hadopts.after hx
    have hout : id ∉ members := fun hmem => (hmembers id hmem).unlisted scope ⟨s, hs, hid⟩
    rw [hsame (.inl hout)] at hx'
    exact ⟨x, hx', hnone⟩

/-- A new symbol whose type lists members; if it is a name, it has no container. -/
theorem push (h : SymbolTable.Parted t) (hpush : t'.symbols = t.symbols.push x)
    (hretains : t.Retains t') (hty : t.Admits x.ty)
    (hdeclared : ∀ scope id, t'.DeclaredIn scope id →
      t.DeclaredIn scope id ∨ id = t.symbols.size ∧ x.container = none) : SymbolTable.Parted t' where
  types id y hy := by
    rw [symbol?_push hpush] at hy
    split at hy
    · cases hy
      exact hty.mono hretains
    · exact (h.types id y hy).mono hretains
  named scope id hid := by
    rcases hdeclared scope id hid with hold | ⟨rfl, hnone⟩
    · obtain ⟨y, hy, hnone⟩ := h.named scope id hold
      exact ⟨y, (symbol?_push_of_lt hpush (lt_of_symbol? hy)).trans hy, hnone⟩
    · exact ⟨x, by rw [symbol?_push hpush, if_pos rfl], hnone⟩

end SymbolTable.Parted

/-! ## What values list -/

namespace Located

variable {t : SymbolTable}

/-- Wherever a lookup goes on, it is in this table or has left the document. -/
theorem closed_at : Located.Closed (Located.Held Set.univ t) where
  «alias» _ _ hl _ := .follow hl.home fun _ _ _ => trivial
  opens _ hl := Located.Held.opens hl.home fun _ _ _ => trivial

/-- What is taken from another document lists no symbol of this one. -/
theorem admits_valueType (ht : SymbolTable.Parted t) (link : Link) :
    t.Admits ((Home.here t).follow link).valueType := by
  have hstart : Located.Held Set.univ t ((Home.here t).follow link) :=
    .follow (Home.at_here t) fun _ _ _ => trivial
  have htarget := closed_at.resolveAlias hstart
  unfold Located.valueType
  dsimp only
  split
  · exact admits_plain t (TyOver.mentioned_rebased _ _)
  · rename_i hnone
    unfold Located.ty
    split
    · rename_i x hx
      exact ht.types _ x (htarget.symbol hnone hx)
    · exact admits_plain t rfl

end Located

/-! ## Steps -/

namespace Binder

variable {s : Setting σ} {b b' b'' : Binder σ} {value : Inferred} {id : SymbolId} {x : Symbol}

namespace Advances

theorem refl (hb : b.Parted) : b.Advances b := ⟨hb, .refl _⟩

theorem trans (h : b.Advances b') (h' : b'.Advances b'') : b.Advances b'' :=
  ⟨h'.parted, h.retains.trans h'.retains⟩

end Advances

theorem Parted.start (source : Source) (world : σ) : (Binder.start source world).Parted where
  table := .new source.size
  returns value hvalue := by cases List.mem_singleton.mp hvalue

namespace Parted

theorem withTable (hb : b.Parted) {t : SymbolTable} (ht : SymbolTable.Parted t)
    (hretains : b.table.Retains t) : b.Advances { b with table := t } :=
  ⟨⟨ht, fun value hvalue => (hb.returns value hvalue).mono hretains⟩, hretains⟩

/-- Only references, the scope or the loader's state changed. -/
theorem same (hb : b.Parted) (htable : b'.table = b.table) (hreturns : b'.returns = b.returns) :
    b.Advances b' := by
  refine ⟨⟨htable ▸ hb.table, ?_⟩, ?_⟩
  · rw [htable, hreturns]
    exact hb.returns
  · rw [htable]
    exact .refl _

theorem enterScope (hb : b.Parted) (kind : ScopeKind) (span : Span) :
    b.Advances (b.enterScope kind span) := by
  have hretains := retains_addScope (t := b.table) b.scope kind span
  have htable : SymbolTable.Parted (b.table.addScope b.scope kind span) :=
    ⟨fun id x hx => (hb.table.types id x hx).mono hretains,
      fun scope id hdeclared => hb.table.named scope id hdeclared.of_addScope⟩
  have hstep := hb.withTable htable hretains
  exact hstep.trans (hstep.parted.same rfl rfl)

theorem modify (hb : b.Parted) {f : Symbol → Symbol}
    (hcontainer : ∀ x, (f x).container = x.container)
    (hty : ∀ x, b.table.symbol? id = some x → b.table.Admits (f x).ty) :
    b.Advances (b.modifySymbol id f) :=
  hb.withTable (hb.table.modify hcontainer hty) (retains_modifySymbol b.table id f)

theorem adoptMembers (hb : b.Parted) (owner : SymbolId) : b.Advances (b.adoptMembers owner) := by
  have hadopts := b.adopts_adoptMembers owner
  have hlisted : b.table.Admits (b.tyOf owner) := by
    unfold Binder.tyOf Located.ty
    split
    · rename_i x hx
      exact hb.table.types owner x hx
    · exact admits_plain _ rfl
  obtain ⟨symbols, heq⟩ := adoptMembers_eq b owner
  rw [heq] at hadopts ⊢
  exact hb.withTable
    (hb.table.adopt hadopts rfl fun m hm => hlisted m (TyOver.own_subset_listed _ hm))
    (retains_of_scopes rfl hadopts.size.ge)

theorem declare (hb : b.Parted) (hid : x.id = b.table.nextSymbolId) (hty : b.table.Admits x.ty)
    (hnone : x.container = none) : b.Advances (b.declare x) := by
  have hretains := retains_declare hid
  exact hb.withTable (hb.table.push rfl hretains hty fun scope id hdeclared =>
    hdeclared.of_declare.imp_right fun heq => ⟨heq.trans hid, hnone⟩) hretains

theorem addMember (hb : b.Parted) (hid : x.id = b.table.nextSymbolId) (hty : b.table.Admits x.ty) :
    b.Advances (b.addMember x) ∧ (b.addMember x).table.Unnamed x.id := by
  have hretains := retains_addMember b.table x
  exact ⟨hb.withTable (hb.table.push rfl hretains hty fun _ _ => .inl) hretains,
    unnamed_addMember hid fun _ _ hdeclared => hb.table.lt_of_declaredIn hdeclared⟩

theorem bind (hb : b.Parted) (hid : x.id = b.table.nextSymbolId) (hty : b.table.Admits x.ty)
    (hnone : x.container = none) : b.Advances (b.bind x) :=
  let hstep := hb.declare hid hty hnone
  hstep.trans (hstep.parted.adoptMembers x.id)

theorem refine (hb : b.Parted) (id : SymbolId) (hvalue : b.table.Admits value.ty) :
    b.Advances (b.refine id value) := by
  unfold Binder.refine
  split
  · exact .refl hb
  · have hstep : b.Advances (b.modifySymbol id (refined value)) :=
      hb.modify (fun _ => rfl) fun _ _ => hvalue
    exact hstep.trans (hstep.parted.adoptMembers id)

theorem asTable (hb : b.Parted) (id : SymbolId) :
    b.Advances (b.modifySymbol id Binder.asTable) := by
  refine hb.modify (fun x => ?_) fun x hx => ?_
  · unfold Binder.asTable
    split <;> rfl
  · unfold Binder.asTable
    split
    · exact admits_plain _ rfl
    · exact hb.table.types id x hx

/-- A table that lists one more member. -/
theorem listMember (hb : b.Parted) (target : SymbolId) (hx : b.table.Unnamed x.id) :
    b.Advances (b.modifySymbol target
      (Binder.mapTable fun t => { t with members := t.members.insert x.name x.id })) := by
  refine hb.modify (fun y => (container_mapTable _ y).1) fun y hy m hm => ?_
  rcases (mentioned_insert rfl).2 m hm with rfl | hm
  · exact hx
  · exact hb.table.types target y hy m hm

theorem insertMember (hb : b.Parted) (hid : x.id = b.table.nextSymbolId)
    (hty : b.table.Admits x.ty) {link : Link} {new : SymbolId}
    (h : b.insertMember link x = some (new, b')) : b.Advances b' := by
  unfold Binder.insertMember at h
  split at h
  · cases h
  · rename_i target _
    cases h
    have hfirst := hb.asTable target
    obtain ⟨hadded, hnew⟩ := hfirst.parted.addMember (x := { x with container := some target })
      (hid.trans (nextSymbolId_modifySymbol b target Binder.asTable).symm)
      (hty.mono hfirst.retains)
    exact hfirst.trans (hadded.trans (hadded.parted.listMember target hnew))

theorem setPrototype (hb : b.Parted) {link : Link} {proto : Prototype}
    (h : b.setPrototype link proto = some b') : b.Advances b' := by
  unfold Binder.setPrototype at h
  dsimp only at h
  split at h
  · cases h
  · have hfirst := hb.asTable (b.home.follow link).resolveAlias.id
    split at h
    · split at h
      · cases h
      · cases h
        refine hfirst.trans (hfirst.parted.modify (fun x => (container_mapTable _ x).1)
          fun x hx m hm => ?_)
        rw [(mentioned_prototype rfl).2] at hm
        exact hfirst.parted.table.types _ x hx m hm
    · cases h

theorem attachPrototype (hb : b.Parted) {target : Inferred} (htarget : b.table.Admits target.ty)
    (prototype : Option Prototype) :
    b.Advances (b.attachPrototype target prototype).2 ∧
      (b.attachPrototype target prototype).2.table.Admits
        (b.attachPrototype target prototype).1.ty := by
  unfold Binder.attachPrototype
  split
  · exact ⟨.refl hb, htarget⟩
  · rename_i proto
    split
    · rename_i link b' hset
      obtain ⟨_, _, hset⟩ := Option.bind_eq_some_iff.mp hset
      obtain ⟨_, hset, heq⟩ := Option.map_eq_some_iff.mp hset
      cases heq
      have hstep := hb.setPrototype hset
      exact ⟨hstep, Located.admits_valueType hstep.parted.table link⟩
    · have hempty : b.table.Admits (.table { prototype := some proto }) :=
        fun _ hm => absurd hm List.not_mem_nil
      split
      · rename_i table hty
        split
        · exact ⟨.refl hb, htarget⟩
        · rw [hty] at htarget
          exact ⟨.refl hb, htarget⟩
      · exact ⟨.refl hb, hempty⟩
      · exact ⟨.refl hb, hempty⟩
      · exact ⟨.refl hb, htarget⟩

/-! ### Paths and definitions -/

theorem recordAll (hb : b.Parted) (first : Ident) (segments : List Ident)
    (links : List (Option Link)) :
    (Binder.recordAll s first segments links b).table = b.table ∧
      b.Advances (Binder.recordAll s first segments links b) := by
  obtain ⟨references, heq⟩ := recordAll_eq s first segments links b
  rw [heq]
  exact ⟨rfl, hb.same rfl rfl⟩

theorem inferPath (hb : b.Parted) (path : List Ident) :
    b.Advances (b.inferPath s path).2 ∧
      (b.inferPath s path).2.table.Admits (b.inferPath s path).1.ty := by
  cases path with
  | nil => exact ⟨.refl hb, admits_plain _ rfl⟩
  | cons first rest =>
    obtain ⟨-, hstep⟩ := hb.recordAll (s := s) first (first :: rest) (b.walkPath (first :: rest))
    simp only [Binder.inferPath]
    split
    · exact ⟨hstep, Located.admits_valueType hstep.parted.table _⟩
    · exact ⟨hstep, admits_plain _ rfl⟩

theorem defineMember (hb : b.Parted) (path : List Ident) (kind : SymbolKind) (statement : Span)
    (hvalue : b.table.Admits value.ty) (doc : Option String) :
    b.Advances (b.defineMember s path kind statement value doc).2 := by
  unfold Binder.defineMember
  split
  · rename_i first last _ _
    obtain ⟨htable, hstep⟩ := hb.recordAll (s := s) first path (b.walkPath path).dropLast
    dsimp only
    generalize Binder.recordAll s first path (b.walkPath path).dropLast b = b₁ at htable hstep ⊢
    rw [← htable] at hvalue
    have hrecord (target : Option Link) : b₁.Advances (b₁.record s first last target) :=
      hstep.parted.same rfl rfl
    split
    · rename_i existing _
      split
      · exact (hstep.trans (hrecord _)).trans ((hrecord _).parted.refine existing.id hvalue)
      · exact hstep.trans (hrecord _)
    · split
      · exact hstep.trans (hrecord none)
      · split
        · rename_i id b₂ hinsert
          have hadded := hstep.parted.insertMember (x := newSymbol s b₁ last kind statement value
            false doc) rfl hvalue hinsert
          exact (hstep.trans hadded).trans (hadded.parted.adoptMembers id)
        · exact hstep.trans (hrecord none)
  · exact .refl hb

theorem assignName (hb : b.Parted) (name : Ident) (statement : Span)
    (hvalue : b.table.Admits value.ty) (doc : Option String) :
    b.Advances (b.assignName s name statement value doc) := by
  have hrecord (target : Option Link) : b.Advances (b.record s name name target) :=
    hb.same rfl rfl
  unfold Binder.assignName
  split
  · rename_i id _
    exact (hrecord _).trans ((hrecord _).parted.refine id hvalue)
  · split
    · exact hb.bind rfl hvalue rfl
    · exact hrecord none

theorem declareLocals (statement : Span) (doc : Option String) : ∀ (names : List Ident)
    {values : List Inferred} {b : Binder σ}, b.Parted →
    (∀ value ∈ values, b.table.Admits value.ty) →
    b.Advances (b.declareLocals s statement doc names values)
  | [], _, _, hb, _ => .refl hb
  | name :: names, values, b, hb, hvalues => by
    have hvalue : b.table.Admits (values.headD {}).ty := by
      cases values with
      | nil => exact admits_plain _ rfl
      | cons value _ => exact hvalues value List.mem_cons_self
    have hbound := hb.bind (x := newSymbol s b name (.ofTy (values.headD {}).ty .variable)
      statement (values.headD {}) true doc) rfl hvalue rfl
    exact hbound.trans (declareLocals statement doc names hbound.parted fun value hmem =>
      (hvalues value (List.mem_of_mem_tail hmem)).mono hbound.retains)

/-- A name is declared without a table of its own. -/
theorem declarePlain (hb : b.Parted) (name : Ident) (kind : SymbolKind) (statement : Span)
    (ty : Ty) (hty : ty.mentioned = []) (isLocal : Bool) (doc : Option String) :
    b.Advances (b.declare (newSymbol s b name kind statement { ty := ty } isLocal doc)) :=
  hb.declare (x := newSymbol s b name kind statement { ty := ty } isLocal doc) rfl
    (admits_plain _ hty) rfl

theorem declareCounters (statement : Span) : ∀ (names : List Ident) {b : Binder σ}, b.Parted →
    b.Advances (names.foldl (fun b name => b.declareCounter s statement .unknown name) b)
  | [], _, hb => .refl hb
  | name :: names, _, hb =>
    let hfirst := hb.declarePlain (s := s) name .variable statement .unknown rfl true none
    hfirst.trans (declareCounters statement names hfirst.parted)

theorem declareParameters (parameters : Span) : ∀ (entries : List Parameter) {b : Binder σ},
    b.Parted → b.Advances (b.declareParameters s parameters entries)
  | [], _, hb => .refl hb
  | .vararg :: rest, _, hb => declareParameters parameters rest hb
  | .name name :: rest, _, hb =>
    let hfirst := hb.declarePlain (s := s) name .parameter parameters .unknown rfl true none
    hfirst.trans (declareParameters parameters rest hfirst.parted)

theorem declareSelf (hb : b.Parted) (parameters : Span) (container : Option Link) :
    b.Advances (b.declareSelf s parameters container) := by
  cases container with
  | none => exact hb.declare rfl (admits_plain _ rfl) rfl
  | some link => exact hb.declare rfl (Located.admits_valueType hb.table link) rfl

theorem declareFunction (hb : b.Parted) (reach : FunctionReach) (name : FunctionName)
    (statement : Span) (params : List String) (doc : Option String) :
    b.Advances (b.declareFunction s reach name statement params doc).2 := by
  have hdeclare (isLocal : Bool) := hb.declarePlain (s := s) name.head .function statement
    (.function params .unknown name.method.isSome) rfl isLocal doc
  unfold Binder.declareFunction
  dsimp only
  split
  · exact hb.defineMember _ _ statement (admits_plain _ rfl) doc
  · split
    · exact hdeclare true
    · split
      · rename_i id _
        have hrecord : b.Advances (b.record s name.head name.head (some (.here id))) :=
          hb.same rfl rfl
        exact hrecord.trans (hrecord.parted.modify (fun _ => rfl) fun _ _ => admits_plain _ rfl)
      · exact hdeclare false

/-! ### Functions and modules -/

theorem enterFunction (hb : b.Parted) (parameters : Parameters) (stop : Nat) (isMethod : Bool)
    (container : Option Link) :
    b.Advances (b.enterFunction s parameters stop isMethod container) := by
  have hscope := hb.enterScope .function ⟨parameters.span.start, stop⟩
  have hself : b.Advances (if isMethod then
      (b.enterScope .function ⟨parameters.span.start, stop⟩).declareSelf s parameters.span container
      else b.enterScope .function ⟨parameters.span.start, stop⟩) := by
    split
    · exact hscope.trans (hscope.parted.declareSelf parameters.span container)
    · exact hscope
  have hentries := hself.trans (declareParameters (s := s) parameters.span parameters.entries
    hself.parted)
  refine ⟨⟨hentries.parted.table, fun value hvalue => ?_⟩, hentries.retains⟩
  rcases List.mem_cons.mp hvalue with hnone | hvalue
  · cases hnone
  · exact hentries.parted.returns value hvalue

theorem leaveFunction (hb : b.Parted) (outer : ScopeId) :
    b.Advances (b.leaveFunction outer).2 ∧
      (b.leaveFunction outer).2.table.Admits (b.leaveFunction outer).1 := by
  unfold Binder.leaveFunction popFrame
  split
  · exact ⟨hb.same rfl rfl, admits_plain _ rfl⟩
  · rename_i frame rest hreturns
    refine ⟨⟨⟨hb.table, fun value hvalue => ?_⟩, .refl _⟩, ?_⟩
    · exact hb.returns value (hreturns ▸ List.mem_cons_of_mem frame hvalue)
    · cases frame with
      | none => exact admits_plain _ rfl
      | some value => exact hb.returns value (hreturns ▸ List.mem_cons_self)

theorem noteReturn (hb : b.Parted) (hvalue : b.table.Admits value.ty) :
    b.Advances (b.noteReturn value) := by
  unfold Binder.noteReturn
  split
  · exact .refl hb
  · rename_i frame rest hreturns
    have hnoted : b.Advances { b with returns := some value :: rest } := by
      refine ⟨⟨hb.table, fun value' hvalue' => ?_⟩, .refl _⟩
      rcases List.mem_cons.mp hvalue' with heq | hvalue'
      · cases heq
        exact hvalue
      · exact hb.returns value' (hreturns ▸ List.mem_cons_of_mem frame hvalue')
    cases frame with
    | none => exact hnoted
    | some earlier =>
      dsimp only
      split
      · exact .refl hb
      · exact hnoted

theorem finishFunction (hb : b.Parted) (id? : Option SymbolId) {returns : Ty}
    (hreturns : b.table.Admits returns) : b.Advances (b.finishFunction id? returns) := by
  cases id? with
  | none => exact .refl hb
  | some id =>
    refine hb.modify (fun x => ?_) fun x hx => ?_
    · unfold withReturns
      split <;> rfl
    · unfold withReturns
      split
      · exact hreturns
      · exact hb.table.types id x hx

theorem require (hb : b.Parted) (name : String) :
    b.Advances (b.require s name).2 ∧
      (b.require s name).2.table.Admits (b.require s name).1.ty := by
  have hstep : b.Advances { b with world := (s.loader name b.world).2 } := hb.same rfl rfl
  unfold Binder.require
  dsimp only
  split
  · split <;> exact ⟨hstep, admits_plain _ rfl⟩
  · exact ⟨hstep, admits_plain _ rfl⟩

/-- An entry of a table constructor is a member. -/
theorem addField (hb : b.Parted) (hid : x.id = b.table.nextSymbolId) (hty : b.table.Admits x.ty) :
    b.Advances ((b.addMember x).adoptMembers x.id) ∧
      ((b.addMember x).adoptMembers x.id).table.Unnamed x.id := by
  obtain ⟨hadded, hnew⟩ := hb.addMember hid hty
  have hadopted := hadded.parted.adoptMembers x.id
  exact ⟨hadded.trans hadopted, hadopted.retains _ hnew⟩

end Parted

end Binder

/-- What is called answers with a type that lists members alone. -/
theorem SymbolTableOver.Admits.callResult {t : SymbolTable} {callee : Inferred}
    (h : t.Admits callee.ty) : t.Admits (Binder.callResult callee).ty := by
  unfold Binder.callResult
  split
  · rename_i hty
    rw [hty] at h
    exact h
  · exact admits_plain _ rfl

end LuaScope

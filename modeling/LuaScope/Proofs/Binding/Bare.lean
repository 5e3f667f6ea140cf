import LuaScope.Binding.Walk

/-!
# LuaScope.Proofs.Binding.Bare

The state of a walk without what is read off the text: ranges, documentation, the texts of
references, the spans of scopes. No decision of a walk is made on these.

* `Home.bare`, `Located.bare` — members and values are found alike in a bare table.
* `Binder.bare`               — each change of a state is the same change of the bare one.
-/

namespace LuaScope

variable {σ : Type}

/-! ## Bare tables -/

def SymbolOver.bare {ρ : Type} (x : SymbolOver ρ) : SymbolOver ρ :=
  { x with range := default, fullRange := default, doc := none }

def ReferenceOver.bare {ρ : Type} (r : ReferenceOver ρ) : ReferenceOver ρ :=
  { r with text := "", range := default }

def Scope.bare (s : Scope) : Scope := { s with span := default }

theorem ReferenceOver.of_bare_eq {ρ : Type} {r r' : ReferenceOver ρ} (h : r'.bare = r.bare) :
    r'.span = r.span ∧ r'.scope = r.scope ∧ r'.anchor = r.anchor ∧ r'.target = r.target := by
  simpa [bare] using h

theorem Scope.of_bare_eq {s s' : Scope} (h : s'.bare = s.bare) :
    s'.id = s.id ∧ s'.kind = s.kind ∧ s'.parent = s.parent := by
  simp only [bare, Scope.mk.injEq] at h
  exact ⟨h.1, h.2.1, h.2.2.1⟩

namespace SymbolTableOver

variable {ρ : Type}

def bare (t : SymbolTableOver ρ) : SymbolTableOver ρ :=
  ⟨t.scopes.map Scope.bare, t.symbols.map SymbolOver.bare⟩

variable (t : SymbolTableOver ρ)

@[simp] theorem nextSymbolId_bare : t.bare.nextSymbolId = t.nextSymbolId := by
  simp [bare, nextSymbolId]

@[simp] theorem nextScopeId_bare : t.bare.nextScopeId = t.nextScopeId := by
  simp [bare, nextScopeId]

@[simp] theorem symbol?_bare (id : SymbolId) :
    t.bare.symbol? id = (t.symbol? id).map SymbolOver.bare := by
  simp [bare, symbol?]

@[simp] theorem scope?_bare (id : ScopeId) : t.bare.scope? id = (t.scope? id).map Scope.bare := by
  simp [bare, scope?]

@[simp] theorem startsBy_bare (offset : Nat) : t.bare.startsBy offset = t.startsBy offset := by
  funext id
  unfold startsBy startOf
  rw [symbol?_bare]
  cases t.symbol? id <;> rfl

@[simp] theorem isGlobal_bare : t.bare.isGlobal = t.isGlobal := by
  funext id
  unfold isGlobal
  rw [symbol?_bare]
  cases t.symbol? id <;> rfl

theorem chain_bare : ∀ (fuel : Nat) (id? : Option ScopeId),
    t.bare.chain fuel id? = (t.chain fuel id?).map Scope.bare
  | 0, _ => by cases ‹Option ScopeId› <;> rfl
  | _ + 1, none => rfl
  | fuel + 1, some id => by
    unfold chain
    rw [scope?_bare]
    cases t.scope? id with
    | none => rfl
    | some s => exact congrArg (s.bare :: ·) (chain_bare fuel s.parent)

theorem lookupIn_bare (name : String) (offset : Nat) (s : Scope) :
    t.bare.lookupIn name offset s.bare = t.lookupIn name offset s := by
  unfold lookupIn
  rw [startsBy_bare]
  rfl

@[simp] theorem lookup_bare (scope : ScopeId) (name : String) (offset : Nat) :
    t.bare.lookup scope name offset = t.lookup scope name offset := by
  have hsize : t.bare.scopes.size = t.scopes.size := Array.size_map
  have hfind : (t.bare.ancestors scope).findSome? (t.bare.lookupIn name offset) =
      (t.ancestors scope).findSome? (t.lookupIn name offset) := by
    unfold ancestors
    rw [hsize, chain_bare, List.findSome?_map]
    congr 1
    funext s
    exact t.lookupIn_bare name offset s
  have hlater : t.bare.laterGlobal name = t.laterGlobal name := by
    unfold laterGlobal
    rw [scope?_bare, isGlobal_bare]
    cases t.scope? rootId <;> rfl
  rw [lookup, hfind, hlater]
  rfl

/-! ### Changes of a table -/

theorem map_modify {α : Type} {f h : α → α} (as : Array α) (i : Nat)
    (hf : ∀ a, h (f a) = f (h a)) : (as.modify i f).map h = (as.map h).modify i f := by
  refine Array.ext_getElem? fun j => ?_
  simp only [Array.getElem?_map, Array.getElem?_modify]
  cases as[j]? with
  | none => split <;> rfl
  | some a =>
    simp only [Option.map_some]
    split
    · exact congrArg some (hf a)
    · rfl

@[simp] theorem bare_addScope (parent : ScopeId) (kind : ScopeKind) (span : Span) :
    (t.addScope parent kind span).bare = t.bare.addScope parent kind default := by
  simp only [addScope, nextScopeId_bare]
  rw [bare, map_modify, Array.map_push]
  · rfl
  · exact fun _ => rfl

@[simp] theorem bare_declare (x : SymbolOver ρ) :
    (t.declare x).bare = t.bare.declare x.bare := by
  have hinsert : t.bare.insertByStart = t.insertByStart := by
    funext start id ids
    simp only [insertByStart, startsBy_bare]
  simp only [declare, hinsert]
  rw [bare, map_modify, Array.map_push]
  · rfl
  · exact fun _ => rfl

@[simp] theorem bare_addMember (x : SymbolOver ρ) :
    (t.addMember x).bare = t.bare.addMember x.bare :=
  congrArg (SymbolTableOver.mk _) Array.map_push

theorem bare_modifySymbol {f : SymbolOver ρ → SymbolOver ρ} (hf : ∀ x, (f x).bare = f x.bare)
    (id : SymbolId) : (t.modifySymbol id f).bare = t.bare.modifySymbol id f :=
  congrArg (SymbolTableOver.mk _) (map_modify _ _ hf)

end SymbolTableOver

/-! ## Members -/

namespace Home

/-- The same place, with the table under way bare; those of finished documents stay. -/
def bare (h : Home) : Home :=
  match h.origin with
  | none => { h with table := h.table.bare }
  | some _ => h

end Home

namespace Located

def bare (l : Located) : Located := ⟨l.home.bare, l.id⟩

end Located

namespace Home

variable (h : Home)

@[simp] theorem origin_bare : h.bare.origin = h.origin := by
  unfold bare
  split <;> rfl

@[simp] theorem hops_bare : h.bare.hops = h.hops := by
  unfold bare
  split <;> rfl

@[simp] theorem enter_bare (origin : Option Index) : h.bare.enter origin = (h.enter origin).bare := by
  cases origin with
  | none => rfl
  | some origin =>
    unfold enter
    rw [hops_bare]
    rfl

@[simp] theorem follow_bare (link : Link) : h.bare.follow link = (h.follow link).bare := by
  unfold follow
  rw [enter_bare]
  rfl

theorem symbol_bare (id : SymbolId) :
    h.bare.table.symbol? id = h.table.symbol? id ∨
      h.bare.table.symbol? id = (h.table.symbol? id).map SymbolOver.bare := by
  unfold bare
  split
  · exact .inr (h.table.symbol?_bare id)
  · exact .inl rfl

end Home

namespace Located

variable (l : Located)

@[simp] theorem isLocal_bare : l.bare.isLocal = l.isLocal := by
  unfold isLocal
  rw [bare, Home.origin_bare]

@[simp] theorem toLink_bare : l.bare.toLink = l.toLink := by
  unfold toLink
  rw [bare, Home.origin_bare]

@[simp] theorem key_bare : l.bare.key = l.key := by
  unfold key
  rw [bare, Home.hops_bare]

theorem alias_bare : l.bare.symbol?.bind (·.«alias») = l.symbol?.bind (·.«alias») := by
  unfold symbol? bare
  rcases l.home.symbol_bare l.id with heq | heq
  · rw [heq]
  · rw [heq]
    cases l.home.table.symbol? l.id <;> rfl

@[simp] theorem ty_bare : l.bare.ty = l.ty := by
  unfold ty symbol? bare
  rcases l.home.symbol_bare l.id with heq | heq
  · rw [heq]
  · rw [heq]
    cases l.home.table.symbol? l.id <;> rfl

theorem aliasWithin_bare : ∀ (fuel : Nat) (l : Located),
    aliasWithin fuel l.bare = (aliasWithin fuel l).bare
  | 0, _ => rfl
  | fuel + 1, l => by
    unfold aliasWithin
    rw [alias_bare]
    split
    · rename_i link _
      rw [← aliasWithin_bare fuel]
      exact congrArg (aliasWithin fuel) (l.home.follow_bare link)
    · rfl

@[simp] theorem resolveAlias_bare : l.bare.resolveAlias = l.resolveAlias.bare :=
  aliasWithin_bare maxAliasHops l

@[simp] theorem valueType_bare : l.bare.valueType = l.valueType := by
  unfold valueType
  simp only [resolveAlias_bare, ty_bare]
  rw [bare, Home.origin_bare]

@[simp] theorem container_bare : l.bare.container = (l.container.1.bare, l.container.2) := by
  unfold container
  simp only [resolveAlias_bare, ty_bare]
  rfl

end Located

namespace Home

variable (h : Home)

@[simp] theorem tableOf_bare (ty : Ty) :
    h.bare.tableOf ty = (h.tableOf ty).map fun found => (found.1.bare, found.2) := by
  unfold tableOf
  split
  · simp
  · split
    · simp
    · rfl
  · rfl

@[simp] theorem ownMember_bare (ty : Ty) (name : String) :
    h.bare.ownMember ty name = (h.ownMember ty name).map Located.bare := by
  unfold ownMember
  rw [tableOf_bare]
  cases h.tableOf ty with
  | none => rfl
  | some found =>
    simp only [Option.map_some, Option.map_map]
    rfl

theorem searchMember_bare : ∀ (fuel : Nat) (h : Home) (ty : Ty) (name : String)
    (visited : Visited), searchMember fuel h.bare ty name visited =
      (searchMember fuel h ty name visited).map fun found => (found.1.bare, found.2)
  | 0, _, _, _, _ => rfl
  | fuel + 1, h, ty, name, visited => by
    unfold searchMember
    rw [ownMember_bare, tableOf_bare]
    cases h.ownMember ty name with
    | some found => rfl
    | none =>
      cases h.tableOf ty with
      | none => rfl
      | some found =>
        obtain ⟨home, t⟩ := found
        simp only [Option.map_none, Option.map_some]
        cases t.prototype with
        | none => rfl
        | some prototype =>
          cases prototype with
          | base link =>
            simp only [follow_bare, Located.resolveAlias_bare, Located.key_bare,
              Located.container_bare, searchMember_bare fuel]
            split <;> rfl
          | metatable link =>
            simp only [follow_bare, Located.resolveAlias_bare, Located.container_bare,
              searchMember_bare fuel]
            cases searchMember fuel (home.follow link).resolveAlias.container.1
              (home.follow link).resolveAlias.container.2 "__index" visited with
            | none => rfl
            | some index =>
              simp only [Option.map_some, Located.resolveAlias_bare, Located.key_bare,
                Located.container_bare, searchMember_bare fuel]
              split <;> rfl

@[simp] theorem extendedMember_bare (ty : Ty) (name : String) :
    h.bare.extendedMember ty name = (h.extendedMember ty name).map Located.bare := by
  unfold extendedMember
  rw [searchMember_bare, Option.map_map, Option.map_map]
  rfl

end Home

@[simp] theorem Located.extendedMember_bare (l : Located) (name : String) :
    l.bare.extendedMember name = (l.extendedMember name).map Located.bare := by
  unfold extendedMember
  rw [container_bare, Home.extendedMember_bare]

/-! ## States -/

namespace Binder

def bare (b : Binder σ) : Binder σ :=
  { b with table := b.table.bare, references := b.references.map ReferenceOver.bare }

section Changes

variable (b : Binder σ)

@[simp] theorem home_bare : b.bare.home = b.home.bare := rfl

@[simp] theorem tyOf_bare (id : SymbolId) : b.bare.tyOf id = b.tyOf id :=
  (b.home.locate id).ty_bare

@[simp] theorem bare_declare (x : Symbol) : (b.declare x).bare = b.bare.declare x.bare := by
  simp [bare, declare]

@[simp] theorem bare_addMember (x : Symbol) : (b.addMember x).bare = b.bare.addMember x.bare := by
  simp [bare, addMember]

theorem bare_modifySymbol {f : Symbol → Symbol} (hf : ∀ x, (f x).bare = f x.bare)
    (id : SymbolId) : (b.modifySymbol id f).bare = b.bare.modifySymbol id f := by
  simp only [bare, modifySymbol, SymbolTableOver.bare_modifySymbol _ hf]

theorem bare_ownedBy (owner : SymbolId) (x : Symbol) :
    (ownedBy owner x).bare = ownedBy owner x.bare := by
  unfold ownedBy
  exact apply_ite SymbolOver.bare _ _ _

theorem bare_asTable (x : Symbol) : (asTable x).bare = asTable x.bare := by
  unfold asTable
  exact apply_ite SymbolOver.bare _ _ _

theorem bare_mapTable (f : Table → Table) (x : Symbol) :
    (mapTable f x).bare = mapTable f x.bare := by
  have hty : x.bare.ty = x.ty := rfl
  unfold mapTable
  rw [hty]
  split <;> rfl

theorem bare_withReturns (returns : Ty) (x : Symbol) :
    (withReturns returns x).bare = withReturns returns x.bare := by
  have hty : x.bare.ty = x.ty := rfl
  unfold withReturns
  rw [hty]
  split <;> rfl

@[simp] theorem bare_adoptMembers (owner : SymbolId) :
    (b.adoptMembers owner).bare = b.bare.adoptMembers owner := by
  have hfold : ∀ (members : Members) (b : Binder σ),
      (members.foldl (fun b member => b.modifySymbol member.2 (ownedBy owner)) b).bare =
        members.foldl (fun b member => b.modifySymbol member.2 (ownedBy owner)) b.bare := by
    intro members
    induction members with
    | nil => exact fun _ => rfl
    | cons member members ih =>
      intro b
      rw [List.foldl_cons, ih, bare_modifySymbol _ (bare_ownedBy owner)]
      rfl
  unfold adoptMembers
  rw [tyOf_bare]
  split
  · split
    · rfl
    · exact hfold _ b
  · rfl

@[simp] theorem bare_bind (x : Symbol) : (b.bind x).bare = b.bare.bind x.bare := by
  unfold bind
  rw [bare_adoptMembers, bare_declare]
  rfl

@[simp] theorem bare_refine (id : SymbolId) (value : Inferred) :
    (b.refine id value).bare = b.bare.refine id value := by
  unfold Binder.refine
  rw [tyOf_bare, apply_ite Binder.bare, bare_adoptMembers, bare_modifySymbol]
  exact fun _ => rfl

@[simp] theorem ownTable?_bare (link : Link) : b.bare.ownTable? link = b.ownTable? link := by
  unfold ownTable?
  simp only [home_bare, Home.follow_bare, Located.resolveAlias_bare, Located.isLocal_bare,
    tyOf_bare]
  rfl

theorem insertMember_bare (container : Link) (x : Symbol) :
    b.bare.insertMember container x.bare =
      (b.insertMember container x).map fun r => (r.1, r.2.bare) := by
  unfold insertMember
  rw [ownTable?_bare]
  split
  · rfl
  · simp only [Option.map_some]
    rw [bare_modifySymbol _ (bare_mapTable _), bare_addMember, bare_modifySymbol _ bare_asTable]
    rfl

theorem setPrototype_bare (link : Link) (prototype : Prototype) :
    b.bare.setPrototype link prototype = (b.setPrototype link prototype).map Binder.bare := by
  have htable : (b.bare.home.follow link).resolveAlias = (b.home.follow link).resolveAlias.bare := by
    rw [home_bare, Home.follow_bare, Located.resolveAlias_bare]
  unfold setPrototype
  rw [htable]
  simp only [Located.isLocal_bare]
  by_cases hlocal : (b.home.follow link).resolveAlias.isLocal
  · simp only [hlocal, Bool.not_true, Bool.false_eq_true, if_false]
    have hid : (b.home.follow link).resolveAlias.bare.id = (b.home.follow link).resolveAlias.id :=
      rfl
    rw [hid, ← bare_modifySymbol _ bare_asTable, tyOf_bare]
    split
    · split
      · rfl
      · rw [← bare_modifySymbol _ (bare_mapTable _)]
        rfl
    · rfl
  · simp [hlocal]

@[simp] theorem bare_noteReturn (value : Inferred) :
    (b.noteReturn value).bare = b.bare.noteReturn value := by
  unfold noteReturn bare
  simp only
  split
  · rfl
  · split <;> split <;> rfl

theorem popFrame_bare : b.bare.popFrame = ((b.popFrame).1, (b.popFrame).2.bare) := by
  unfold popFrame bare
  simp only
  split <;> rfl

theorem attachPrototype_bare (target : Inferred) (prototype : Option Prototype) :
    b.bare.attachPrototype target prototype =
      ((b.attachPrototype target prototype).1, (b.attachPrototype target prototype).2.bare) := by
  unfold attachPrototype
  cases prototype with
  | none => rfl
  | some prototype =>
    cases halias : target.alias with
    | none =>
      simp only [Option.bind_none]
      split
      · split <;> rfl
      · rfl
      · rfl
      · rfl
    | some link =>
      simp only [Option.bind_some, setPrototype_bare]
      cases b.setPrototype link prototype with
      | none =>
        simp only [Option.map_none]
        split
        · split <;> rfl
        · rfl
        · rfl
        · rfl
      | some b' => simp

@[simp] theorem bare_finishFunction (id? : Option SymbolId) (returns : Ty) :
    (b.finishFunction id? returns).bare = b.bare.finishFunction id? returns := by
  cases id? with
  | none => rfl
  | some id => exact b.bare_modifySymbol (bare_withReturns returns) id

theorem walkFrom_bare (path : List Ident) (at? : Option Located) :
    walkFrom (at?.map Located.bare) path = walkFrom at? path := by
  induction path generalizing at? with
  | nil => rfl
  | cons segment rest ih =>
    have hnext : (at?.map Located.bare).bind (·.extendedMember segment.name) =
        (at?.bind (·.extendedMember segment.name)).map Located.bare := by
      cases at? with
      | none => rfl
      | some l => exact l.extendedMember_bare segment.name
    simp only [walkFrom, hnext, ih, Option.map_map]
    congr 2
    funext l
    exact l.toLink_bare

@[simp] theorem walkPath_bare (path : List Ident) : b.bare.walkPath path = b.walkPath path := by
  cases path with
  | nil => rfl
  | cons first rest =>
    have hroot : (b.bare.table.lookup b.bare.scope first.name first.span.start).map
        b.bare.home.locate = ((b.table.lookup b.scope first.name first.span.start).map
          b.home.locate).map Located.bare := by
      rw [bare, SymbolTableOver.lookup_bare, Option.map_map]
      rfl
    unfold walkPath
    simp only
    rw [hroot, walkFrom_bare, Option.map_map]
    congr 2
    funext l
    exact l.toLink_bare

end Changes

end Binder

end LuaScope

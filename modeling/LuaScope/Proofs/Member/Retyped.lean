import LuaScope.Proofs.Member.Declared
import LuaScope.Proofs.Member.Rebased
import LuaScope.Proofs.Scoping.Links

/-!
# LuaScope.Proofs.Member.Retyped

What a later assignment does for a symbol that has no type yet. The symbol takes the type of the
value; but every lookup follows aliases first, so the type is seen only where the symbol is none.

* `Binder.Assigns`            — an assignment to a name or a member that is found in this document.
* `Binder.Assigns.value_seen` — a symbol without an alias has the assigned value afterwards; one
  with an alias keeps the value behind the alias.
* `Binder.value_unseen_of_alias` — so a name that was initialised from an untyped name stays untyped.
-/

namespace LuaScope

variable {σ : Type}

/-! ## A symbol, read later -/

/-- The same home, with the table that the queried document has now. -/
def Home.now (t : SymbolTable) (h : Home) : Home :=
  match h.origin with
  | none => .here t
  | some _ => h

/-- The same symbol, read in the table that the queried document has now. -/
def Located.now (t : SymbolTable) (l : Located) : Located := (l.home.now t).locate l.id

namespace Home

variable {t t' : SymbolTable} {h : Home}

theorem origin_now (t' : SymbolTable) (h : Home) : (h.now t').origin = h.origin := by
  unfold now
  split
  · rename_i horigin
    exact horigin.symm
  · rfl

/-- From the same home the same document is entered. -/
theorem enter_now (t' : SymbolTable) (hstays : (here t).Stays h) (origin : Option Index) :
    (h.now t').enter origin = (h.enter origin).now t' := by
  cases origin with
  | none => rfl
  | some o =>
    cases horigin : h.origin with
    | none => rw [hstays horigin]; rfl
    | some _ => simp only [enter, now, foreign, horigin]

theorem follow_now (t' : SymbolTable) (hstays : (here t).Stays h) (link : Link) :
    (h.now t').follow link = (h.follow link).now t' :=
  congrArg (locate · link.id) (enter_now t' hstays link.origin)

theorem tableOf_now (t' : SymbolTable) (hstays : (here t).Stays h) (ty : Ty) :
    (h.now t').tableOf ty = (h.tableOf ty).map fun p => (p.1.now t', p.2) := by
  cases ty with
  | table table => exact congrArg (fun home => some (home, table)) (enter_now t' hstays table.origin)
  | module name origin =>
    simp only [tableOf]
    cases origin.exportedTable with
    | none => rfl
    | some exported =>
      simp only [Option.map_some, enter_now t' hstays, enter_now t' (hstays.trans (h.stays_enter _))]
  | _ => rfl

theorem ownMember_now (t' : SymbolTable) (hstays : (here t).Stays h) (ty : Ty) (name : String) :
    (h.now t').ownMember ty name = (h.ownMember ty name).map (Located.now t') := by
  rw [ownMember_eq, ownMember_eq, tableOf_now t' hstays]
  cases h.tableOf ty with
  | none => rfl
  | some p => exact (Option.map_map (Located.now t') p.1.locate _).symm

/-- Own members are found first. -/
theorem extendedMember_of_own {ty : Ty} {name : String} {m : Located}
    (hm : h.ownMember ty name = some m) : h.extendedMember ty name = some m := by
  rw [extendedMember, searchMember_succ, hm]
  rfl

end Home

namespace Located

variable {t : SymbolTable} {l : Located}

theorem valueType_eq (l : Located) :
    l.valueType = l.container.1.origin.elim l.container.2 (TyOver.rebased · l.container.2) := by
  unfold valueType container
  dsimp only
  cases l.resolveAlias.home.origin <;> rfl

/-- Symbols of other documents are what they were. -/
theorem symbol?_now {α : Type} {g : Symbol → α} {t' : SymbolTable}
    (h : (Home.here t).Stays l.home)
    (hsame : l.home.origin = none → (t'.symbol? l.id).map g = (t.symbol? l.id).map g) :
    (l.now t').symbol?.map g = l.symbol?.map g := by
  unfold now Home.now
  cases horigin : l.home.origin with
  | none =>
    unfold symbol?
    rw [h horigin]
    exact hsame horigin
  | some o => rfl

/-- Aliases are followed as before, up to a symbol that is none of those that got one. -/
theorem aliasWithin_now (t' : SymbolTable) {E : SymbolId → Prop}
    (hsame : ∀ id, ¬E id → (t'.symbol? id).map (·.alias) = (t.symbol? id).map (·.alias))
    (hends : ∀ id, E id → ((Home.here t).locate id).aliasLink? = none) (fuel : Nat) :
    ∀ l : Located, (Home.here t).Stays l.home →
      (∀ id, E id → l.aliasWithin fuel ≠ (Home.here t).locate id) →
      (l.now t').aliasWithin fuel = (l.aliasWithin fuel).now t' := by
  induction fuel with
  | zero => exact fun _ _ _ => rfl
  | succ fuel ih =>
    intro l hstays hend
    have hlink : (l.now t').aliasLink? = l.aliasLink? := by
      have hjoin : ∀ m : Located, m.aliasLink? = (m.symbol?.map (·.alias)).join := fun m => by
        unfold aliasLink?
        cases m.symbol? <;> rfl
      rw [hjoin, hjoin, symbol?_now hstays fun horigin => ?_]
      refine hsame l.id fun hE => ?_
      -- An excepted symbol has had no alias, so the walk would end there.
      have hl : l = (Home.here t).locate l.id := congrArg (Located.mk · l.id) (hstays horigin)
      refine hend l.id hE ?_
      rw [hl]
      exact aliasWithin_eq (.here _) (Nat.zero_le _) (hends l.id hE)
    have hstep : ∀ m : Located, m.aliasWithin (fuel + 1) =
        m.aliasLink?.elim m fun link => (m.home.follow link).aliasWithin fuel := fun m => by
      rw [aliasWithin, aliasLink?]
      cases m.symbol?.bind (·.alias) <;> rfl
    rw [hstep] at hend ⊢
    rw [hstep, hlink]
    cases hnext : l.aliasLink? with
    | none => rfl
    | some link =>
      rw [hnext] at hend
      rw [Option.elim_some, Option.elim_some]
      change ((l.home.now t').follow link).aliasWithin fuel = _
      rw [Home.follow_now t' hstays]
      exact ih _ (hstays.trans (l.home.stays_enter link.origin)) hend

end Located

/-! ## Assignments -/

namespace Inferred

/-- The type that the value has in this state: that behind its alias, if it is a path. -/
def typeIn (b : Binder σ) (value : Inferred) : Ty :=
  match value.alias with
  | some link => (b.home.follow link).valueType
  | none => value.ty

/-- The type that holds the members of the value, with the table it is read in. -/
def containerIn (b : Binder σ) (value : Inferred) : Home × Ty :=
  match value.alias with
  | some link => (b.home.follow link).container
  | none => (b.home, value.ty)

/-- The value has a type in this state, and its aliases end in front of the bound. -/
structure Typed (b : Binder σ) (value : Inferred) : Prop where
  known : value.ty.isUnknown = false
  stands : TyOver.isUnknown (value.containerIn b).2 = false
  short : ∀ link, value.alias = some link →
    (b.home.follow link).aliasWithin (maxAliasHops - 1) = (b.home.follow link).resolveAlias

end Inferred

namespace Binder

variable {b b' : Binder σ} {id : SymbolId} {x : Symbol} {value : Inferred}

/-- An assignment that finds this symbol of the document, and the state behind it. -/
inductive Assigns (s : Setting σ) (b : Binder σ) : SymbolId → Inferred → Binder σ → Prop where
  | name {name : Ident} {id : SymbolId} (statement : Span) (value : Inferred)
      (doc : Option String) : b.table.lookup b.scope name.name name.span.start = some id →
      Assigns s b id value (b.assignName s name statement value doc)
  | member {path : List Ident} {existing : Link} (kind : SymbolKind) (statement : Span)
      (value : Inferred) (doc : Option String) :
      (b.walkPath path).getLast?.join = some existing → existing.isLocal = true →
      Assigns s b existing.id value (b.defineMember s path kind statement value doc).2

/-- References apart, the assignment is a refinement. -/
theorem Assigns.refines {s : Setting σ} (h : Assigns s b id value b') :
    ∃ b₁ : Binder σ, b₁.table = b.table ∧ b' = b₁.refine id value := by
  cases h with
  | @name name id statement value doc hlookup =>
    refine ⟨b.record s name name (some (.here id)), rfl, ?_⟩
    simp only [assignName, hlookup]
  | @member path existing kind statement value doc hfound hlocal =>
    cases path with
    | nil => cases hfound
    | cons first rest =>
      obtain ⟨references, hrecorded⟩ :=
        recordAll_eq s first (first :: rest) (b.walkPath (first :: rest)).dropLast b
      obtain ⟨last, hlast⟩ : ∃ last, (first :: rest).getLast? = some last :=
        ⟨_, List.getLast?_cons⟩
      refine ⟨{ b with references := references }.record s first last (some existing), rfl, ?_⟩
      simp only [defineMember, List.head?_cons, hlast, hrecorded, hfound, hlocal, if_true]

/-- The state behind has this type and this alias for the symbol, and for others what they had. -/
def Writes (b b' : Binder σ) (id : SymbolId) (ty : Ty) (link? : Option Link) : Prop :=
  ∀ id', (b'.table.symbol? id').map (fun x => (x.ty, x.alias)) =
    if id = id' then some (ty, link?) else (b.table.symbol? id').map fun x => (x.ty, x.alias)

theorem writes_refine (hx : b.table.symbol? id = some x) (huntyped : x.ty.isUnknown = true)
    (hknown : value.ty.isUnknown = false) :
    b.Writes (b.refine id value) id value.ty
      (if x.alias.isNone then value.alias else x.alias) := by
  intro id'
  have hty : (b.tyOf id).isUnknown = true := tyOf_of_symbol? hx ▸ huntyped
  unfold refine
  rw [hty, hknown]
  change ((adoptMembers id (b.modifySymbol id (refined value))).table.symbol? id').map _ = _
  rw [map_symbol?_adoptMembers (fun owner x => by unfold ownedBy; split <;> rfl), modifySymbol,
    SymbolTableOver.symbol?_modifySymbol]
  split
  · rename_i heq
    rw [← heq, hx]
    rfl
  · rfl

theorem Assigns.writes {s : Setting σ} (h : Assigns s b id value b')
    (hx : b.table.symbol? id = some x) (huntyped : x.ty.isUnknown = true)
    (hknown : value.ty.isUnknown = false) :
    b.Writes b' id value.ty (if x.alias.isNone then value.alias else x.alias) := by
  obtain ⟨b₁, htable, rfl⟩ := h.refines
  have hwrites := writes_refine (htable ▸ hx) huntyped hknown
  unfold Writes at hwrites ⊢
  rwa [htable] at hwrites

namespace Writes

variable {ty : Ty} {link? : Option Link}

theorem alias_of_ne (h : b.Writes b' id ty link?) {id' : SymbolId} (hne : id ≠ id') :
    (b'.table.symbol? id').map (·.alias) = (b.table.symbol? id').map (·.alias) := by
  have hpair := congrArg (Option.map Prod.snd) (h id')
  rwa [if_neg hne, Option.map_map, Option.map_map] at hpair

theorem ty_of_ne (h : b.Writes b' id ty link?) {id' : SymbolId} (hne : id ≠ id') :
    (b'.table.symbol? id').map (·.ty) = (b.table.symbol? id').map (·.ty) := by
  have hpair := congrArg (Option.map Prod.fst) (h id')
  rwa [if_neg hne, Option.map_map, Option.map_map] at hpair

theorem symbol (h : b.Writes b' id ty link?) :
    ∃ x', b'.table.symbol? id = some x' ∧ x'.ty = ty ∧ x'.alias = link? := by
  have hpair := h id
  rw [if_pos rfl] at hpair
  obtain ⟨x', hx', heq⟩ := Option.map_eq_some_iff.mp hpair
  exact ⟨x', hx', congrArg Prod.fst heq, congrArg Prod.snd heq⟩

/-- A symbol that is not the one written to has the type that it had. -/
theorem ty_now (h : b.Writes b' id ty link?) {l : Located} (hstays : b.home.Stays l.home)
    (hne : l ≠ b.home.locate id) : (l.now b'.table).ty = l.ty := by
  have hty : ∀ m : Located, m.ty = (m.symbol?.map (·.ty)).getD .unknown := fun m => by
    unfold Located.ty
    cases m.symbol? <;> rfl
  rw [hty, hty, Located.symbol?_now hstays fun horigin => h.ty_of_ne fun hid => ?_]
  exact hne (by rw [hid, ← hstays horigin]; rfl)

/-- What is behind an alias of the value is behind the symbol now. -/
theorem container_of_value (h : b.Writes b' id value.ty value.alias) (hvalue : value.Typed b)
    (hx : b.table.symbol? id = some x) (huntyped : x.ty.isUnknown = true)
    (hnone : x.alias = none) :
    (b'.home.locate id).container =
      ((value.containerIn b).1.now b'.table, (value.containerIn b).2) := by
  obtain ⟨x', hx', hty, halias⟩ := h.symbol
  have hsymbol : (b'.home.locate id).symbol? = some x' := hx'
  have hstands := hvalue.stands
  unfold Inferred.containerIn at hstands ⊢
  cases hlink : value.alias with
  | none =>
    have hlast : (b'.home.locate id).aliasLink? = none := by
      rw [Located.aliasLink?, hsymbol, Option.bind_some, halias, hlink]
    unfold Located.container
    dsimp only
    rw [Located.resolveAlias_eq (.here _) (Nat.zero_le _) hlast, Located.ty, hsymbol]
    exact Prod.ext rfl hty
  | some link =>
    rw [hlink] at hstands
    dsimp only at hstands ⊢
    let target := (b.home.follow link).resolveAlias
    have hstays : b.home.Stays target.home :=
      (b.home.stays_enter link.origin).trans (Located.stays_resolveAlias _)
    -- The symbol itself is untyped, so it is not what the value is resolved to.
    have hne : target ≠ b.home.locate id := by
      intro heq
      have hsame : (b.home.follow link).container.2 = x.ty :=
        (congrArg Located.ty heq).trans (tyOf_of_symbol? hx)
      rw [hsame, huntyped] at hstands
      cases hstands
    have hwithin := Located.aliasWithin_now (t := b.table) b'.table (E := (· = id))
      (fun id' hid => h.alias_of_ne (Ne.symm hid))
      (fun id' hid => by
        rw [hid, Located.aliasLink?]
        exact (congrArg (Option.bind · _) hx).trans hnone)
      (maxAliasHops - 1) (b.home.follow link) (b.home.stays_enter link.origin)
      (fun id' hid => by
        rw [hvalue.short link hlink, hid]
        exact hne)
    rw [hvalue.short link hlink] at hwithin
    have hresolved : (b'.home.locate id).resolveAlias = target.now b'.table := by
      have hstep : (b'.home.locate id).resolveAlias =
          (b'.home.follow link).aliasWithin (maxAliasHops - 1) := by
        rw [Located.resolveAlias, maxAliasHops, Located.aliasWithin, hsymbol, Option.bind_some,
          halias, hlink]
        rfl
      rw [hstep]
      exact (congrArg (Located.aliasWithin _)
        (Home.follow_now b'.table (.refl b.home) link)).trans hwithin
    unfold Located.container
    dsimp only
    rw [hresolved]
    exact Prod.ext rfl (h.ty_now hstays hne)

/-- A symbol that keeps its alias keeps what is behind it, unless that is the symbol itself. -/
theorem container_of_alias (h : b.Writes b' id ty x.alias) (hx : b.table.symbol? id = some x)
    (hne : (b.home.locate id).resolveAlias ≠ b.home.locate id) :
    (b'.home.locate id).container =
      ((b.home.locate id).container.1.now b'.table, (b.home.locate id).container.2) := by
  have halias : ∀ id', (b'.table.symbol? id').map (·.alias) = (b.table.symbol? id').map (·.alias) := by
    intro id'
    by_cases hid : id = id'
    · obtain ⟨x', hx', -, hlink⟩ := h.symbol
      rw [← hid, hx', hx, Option.map_some, Option.map_some, hlink]
    · exact h.alias_of_ne hid
  have hresolved := Located.aliasWithin_now (t := b.table) b'.table (E := fun _ => False)
    (fun id' _ => halias id') (fun _ hfalse => hfalse.elim) maxAliasHops (b.home.locate id)
    (.refl _) (fun _ hfalse => hfalse.elim)
  unfold Located.container Located.resolveAlias
  dsimp only
  change Prod.mk (Located.aliasWithin maxAliasHops ((b.home.locate id).now b'.table)).home
    (Located.aliasWithin maxAliasHops ((b.home.locate id).now b'.table)).ty = _
  rw [hresolved]
  exact Prod.ext rfl (h.ty_now (Located.stays_resolveAlias _) hne)

end Writes

/--
An untyped symbol of the document is assigned a value that has a type. If the symbol has no alias it
has that value from then on: its type is that of the value, and every member of the value is found
through it. If it has one, what is behind the alias stays what is seen, whatever was assigned.
-/
theorem Assigns.value_seen {s : Setting σ} (h : Assigns s b id value b')
    (hx : b.table.symbol? id = some x) (huntyped : x.ty.isUnknown = true)
    (hvalue : value.Typed b) :
    (x.alias = none →
      (b'.home.locate id).valueType = value.typeIn b ∧
      (∀ name, (b'.home.locate id).ownMember name =
        ((value.containerIn b).1.ownMember (value.containerIn b).2 name).map
          (Located.now b'.table)) ∧
      ∀ name m, (value.containerIn b).1.ownMember (value.containerIn b).2 name = some m →
        (b'.home.locate id).extendedMember name = some (m.now b'.table)) ∧
    (x.alias.isSome = true → (b.home.locate id).resolveAlias ≠ b.home.locate id →
      (b'.home.locate id).valueType = (b.home.locate id).valueType) := by
  have hwrites := h.writes hx huntyped hvalue.known
  constructor
  · intro hnone
    rw [hnone, Option.isNone_none, if_pos rfl] at hwrites
    have hcontainer := hwrites.container_of_value hvalue hx huntyped hnone
    have hstays : b.home.Stays (value.containerIn b).1 := by
      unfold Inferred.containerIn
      split
      · exact (b.home.stays_enter _).trans (Located.stays_resolveAlias _)
      · exact .refl _
    have hown : ∀ name, (b'.home.locate id).ownMember name =
        ((value.containerIn b).1.ownMember (value.containerIn b).2 name).map
          (Located.now b'.table) := fun name => by
      rw [Located.ownMember, hcontainer]
      exact Home.ownMember_now b'.table hstays _ name
    refine ⟨?_, hown, fun name m hm => ?_⟩
    · rw [Located.valueType_eq, hcontainer, Home.origin_now, Inferred.typeIn, Inferred.containerIn]
      cases value.alias with
      | none => rfl
      | some link => exact (Located.valueType_eq _).symm
    · refine Home.extendedMember_of_own ((hown name).trans ?_)
      rw [hm, Option.map_some]
  · intro hsome hne
    rw [if_neg (by cases hlink : x.alias <;> simp [hlink] at hsome ⊢)] at hwrites
    have hcontainer := hwrites.container_of_alias hx hne
    rw [Located.valueType_eq, Located.valueType_eq, hcontainer, Home.origin_now]

/-! ### Two assignments -/

/-- The state behind the statements of a text. -/
def behind (text : String) : Binder Unit :=
  match Chunk.ofChars? text.toList with
  | some chunk => chunk.walked ⟨.ofString text, ⟨"a"⟩, true, .none⟩ ()
  | none => .start (.ofString text) ()

/-- Behind `local a = {x = 1} local c`, the assignment `c = a` lets `x` be found through `c`. -/
theorem value_seen_of_path :
    let s : Setting Unit := ⟨.ofString "", ⟨"a"⟩, true, .none⟩
    let b := behind "local a = {x = 1} local c"
    let value := (b.inferPath s [⟨"a", ⟨26, 27⟩⟩]).1
    ∃ b', Assigns s b 2 value b' ∧ (b'.home.locate 2).valueType = value.typeIn b ∧
      ((b'.home.locate 2).extendedMember "x").map (·.id) = some 0 := by
  intro s b value
  have hlookup : b.table.lookup b.scope "c" 30 = some 2 := by decide +kernel
  have hsymbol : ∃ x ∈ b.table.symbol? 2, x.ty.isUnknown = true ∧ x.alias.isNone = true := by
    decide +kernel
  have hvalue : value.ty.isUnknown = false ∧
      TyOver.isUnknown (value.containerIn b).2 = false := by
    decide +kernel
  have hlink : value.alias.map (fun link => (link.isLocal, link.id)) = some (true, 1) := by
    decide +kernel
  have hroot : ((b.home.locate 1).aliasLink?).isNone = true := by decide +kernel
  have hmember : ((value.containerIn b).1.ownMember (value.containerIn b).2 "x").map
      (fun m => (m.id, m.home.origin.isNone)) = some (0, true) := by
    decide +kernel
  have htyped : value.Typed b := by
    refine ⟨hvalue.1, hvalue.2, fun link hl => ?_⟩
    rw [hl] at hlink
    obtain ⟨hlocal, hid⟩ := Prod.mk.inj (Option.some.inj hlink)
    have hfollow : b.home.follow link = b.home.locate 1 := by
      unfold Home.follow
      rw [Option.isNone_iff_eq_none.mp hlocal, hid]
      rfl
    have hlast := Option.isNone_iff_eq_none.mp hroot
    rw [hfollow, Located.resolveAlias_eq (.here _) (Nat.zero_le _) hlast]
    exact Located.aliasWithin_eq (.here _) (Nat.zero_le _) hlast
  obtain ⟨x, hx, huntyped, hnone⟩ := hsymbol
  obtain ⟨m, hm, hid⟩ := Option.map_eq_some_iff.mp hmember
  have hassigns : Assigns s b 2 value (b.assignName s ⟨"c", ⟨30, 31⟩⟩ ⟨0, 0⟩ value none) :=
    .name ⟨0, 0⟩ value none hlookup
  obtain ⟨htype, -, hfound⟩ :=
    (hassigns.value_seen hx huntyped htyped).1 (Option.isNone_iff_eq_none.mp hnone)
  refine ⟨_, hassigns, htype, ?_⟩
  rw [hfound "x" m hm]
  exact congrArg some (congrArg Prod.fst hid)

/-- Behind `local a local b = a`, the assignment `b = {x = 1}` gives `b` a table, but what is seen of
`b` is still untyped, for its alias leads to `a`. -/
theorem value_unseen_of_alias :
    ¬ ∀ (s : Setting Unit) (b b' : Binder Unit) (id : SymbolId) (x : Symbol) (value : Inferred),
      Assigns s b id value b' → b.table.symbol? id = some x → x.ty.isUnknown = true →
      value.Typed b → (b'.home.locate id).valueType = value.typeIn b := by
  intro hall
  let s : Setting Unit := ⟨.ofString "", ⟨"a"⟩, true, .none⟩
  let b := behind "local a local b = a"
  let value : Inferred := { ty := .table {} }
  have hlookup : b.table.lookup b.scope "b" 20 = some 1 := by decide +kernel
  have hsymbol : ∃ x ∈ b.table.symbol? 1, x.ty.isUnknown = true := by decide +kernel
  have hunseen : TyOver.isUnknown (((b.assignName s ⟨"b", ⟨20, 21⟩⟩ ⟨0, 0⟩ value
      none).home.locate 1).valueType) = true := by
    decide +kernel
  obtain ⟨x, hx, huntyped⟩ := hsymbol
  have hassigns : Assigns s b 1 value (b.assignName s ⟨"b", ⟨20, 21⟩⟩ ⟨0, 0⟩ value none) :=
    .name ⟨0, 0⟩ value none hlookup
  have hseen := hall s b _ 1 x value hassigns hx huntyped ⟨rfl, rfl, nofun⟩
  rw [hseen] at hunseen
  cases hunseen

end Binder

end LuaScope

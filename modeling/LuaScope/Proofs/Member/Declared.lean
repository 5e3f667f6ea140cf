import LuaScope.Binding.Build
import LuaScope.Proofs.Linking.Follow
import LuaScope.Proofs.Linking.Table

/-!
# LuaScope.Proofs.Member.Declared

Which table a dotted declaration gives its member to. The declaration looks the member up along
prototypes first, so what is only inherited counts as being there.

* `Binder.Targets.found`          — the last name of a path leads to what the table in front of it
  has or inherits.
* `Binder.insertMember_eq`        — what adding a member changes.
* `Binder.DeclaresMember.own_iff` — the table has the member afterwards if it had it before or if no
  base has it; in the latter case the member is new, and no other function type changes.
* `Binder.override_changes_base`  — a method that overrides one of a base is no member of its own
  table, and the method of the base takes its return type.
-/

namespace LuaScope

variable {σ : Type}

/-! ## Paths -/

namespace Binder

variable {b : Binder σ}

/-- What the names behind a symbol lead to. -/
def stepThrough (at? : Option Located) (names : List Ident) : Option Located :=
  names.foldl (fun at? segment => at?.bind (·.extendedMember segment.name)) at?

/-- What a path leads to. -/
def reached? (b : Binder σ) : List Ident → Option Located
  | [] => none
  | first :: rest =>
    stepThrough ((b.table.lookup b.scope first.name first.span.start).map b.home.locate) rest

theorem getLast?_walkFrom (at? : Option Located) (names : List Ident) :
    (at?.map Located.toLink :: walkFrom at? names).getLast? =
      some ((stepThrough at? names).map Located.toLink) := by
  induction names generalizing at? with
  | nil => rfl
  | cons segment rest ih => exact ih (at?.bind (·.extendedMember segment.name))

theorem dropLast_walkFrom (at? : Option Located) (names : List Ident) (last : Ident) :
    (at?.map Located.toLink :: walkFrom at? (names ++ [last])).dropLast =
      at?.map Located.toLink :: walkFrom at? names := by
  induction names generalizing at? with
  | nil => rfl
  | cons segment rest ih =>
    exact congrArg (_ :: ·) (ih (at?.bind (·.extendedMember segment.name)))

theorem getLast?_walkPath (b : Binder σ) (path : List Ident) :
    (b.walkPath path).getLast?.join = (b.reached? path).map Located.toLink := by
  cases path with
  | nil => rfl
  | cons first rest =>
    simp only [walkPath, reached?, getLast?_walkFrom, Option.join_some]

theorem dropLast_walkPath (b : Binder σ) {front : List Ident} (hne : front ≠ []) (last : Ident) :
    (b.walkPath (front ++ [last])).dropLast = b.walkPath front := by
  obtain ⟨first, rest, rfl⟩ := List.exists_cons_of_ne_nil hne
  exact dropLast_walkFrom _ rest last

theorem reached?_concat (b : Binder σ) {front : List Ident} (hne : front ≠ []) (last : Ident) :
    b.reached? (front ++ [last]) = (b.reached? front).bind (·.extendedMember last.name) := by
  obtain ⟨first, rest, rfl⟩ := List.exists_cons_of_ne_nil hne
  simp only [List.cons_append, reached?, stepThrough, List.foldl_append, List.foldl_cons,
    List.foldl_nil]

theorem stays_of_reached? {path : List Ident} {l : Located} (h : b.reached? path = some l) :
    b.home.Stays l.home := by
  have hsteps : ∀ (names : List Ident) (at? : Option Located),
      (∀ m, at? = some m → b.home.Stays m.home) →
        stepThrough at? names = some l → b.home.Stays l.home := by
    intro names
    induction names with
    | nil => exact fun at? hat hl => hat l hl
    | cons segment rest ih =>
      intro at? hat hl
      refine ih _ (fun m hm => ?_) hl
      obtain ⟨before, hbefore, hfound⟩ := Option.bind_eq_some_iff.mp hm
      exact (hat before hbefore).trans (Located.stays_extendedMember hfound)
  cases path with
  | nil => cases h
  | cons first rest =>
    refine hsteps rest _ (fun m hm => ?_) h
    obtain ⟨id, -, rfl⟩ := Option.map_eq_some_iff.mp hm
    exact .refl _

/-! ## The table in front of a declared member -/

/-- A link to who may take members has not left this document, and the owner's type is the one that
it leads to. -/
theorem container_of_ownTable? {link : Link} {owner : SymbolId}
    (h : b.ownTable? link = some owner) :
    link.origin = none ∧ (b.home.follow link).container = (b.home, b.tyOf owner) := by
  obtain ⟨hnone, rfl, -⟩ := ownTable?_eq_some h
  have hstays := (b.home.follow link).stays_resolveAlias hnone
  have horigin : link.origin = none := by
    cases hlink : link.origin with
    | none => rfl
    | some o =>
      rw [hstays, Home.follow, hlink] at hnone
      cases hnone
  have hhome : (b.home.follow link).resolveAlias.home = b.home := by
    rw [hstays, Home.follow, horigin]
    rfl
  have hlocate : (b.home.follow link).resolveAlias =
      b.home.locate (b.home.follow link).resolveAlias.id :=
    congrArg (Located.mk · (b.home.follow link).resolveAlias.id) hhome
  exact ⟨horigin, Prod.ext hhome (congrArg Located.ty hlocate)⟩

/-- The path ends with this name, and what is in front of it leads to a symbol of this document that
may take members: this owner. -/
structure Targets (b : Binder σ) (path : List Ident) (last : Ident) (owner : SymbolId) : Prop where
  getLast : path.getLast? = some last
  holder : (b.walkPath path).dropLast.getLast?.join.bind b.ownTable? = some owner
  present : (b.table.symbol? owner).isSome = true

/-- The member of this name that a symbol has itself. -/
def memberOf? (b : Binder σ) (owner : SymbolId) (name : String) : Option Located :=
  b.home.ownMember (b.tyOf owner) name

/-- The member of this name that a symbol has or inherits. -/
def extendedMemberOf? (b : Binder σ) (owner : SymbolId) (name : String) : Option Located :=
  b.home.extendedMember (b.tyOf owner) name

namespace Targets

variable {path : List Ident} {last : Ident} {owner : SymbolId}

theorem container (h : b.Targets path last owner) :
    ∃ link, (b.walkPath path).dropLast.getLast?.join = some link ∧ b.ownTable? link = some owner :=
  Option.bind_eq_some_iff.mp h.holder

theorem head (h : b.Targets path last owner) : ∃ first, path.head? = some first := by
  cases path with
  | nil => cases h.getLast
  | cons first rest => exact ⟨first, rfl⟩

/-- The last name leads to what the owner has or inherits under it. -/
theorem found (h : b.Targets path last owner) :
    (b.walkPath path).getLast?.join =
      (b.extendedMemberOf? owner last.name).map Located.toLink := by
  obtain ⟨front, rfl⟩ := List.getLast?_eq_some_iff.mp h.getLast
  obtain ⟨link, hlink, howner⟩ := h.container
  have hne : front ≠ [] := by
    rintro rfl
    cases hlink
  rw [dropLast_walkPath b hne, getLast?_walkPath] at hlink
  obtain ⟨l, hl, rfl⟩ := Option.map_eq_some_iff.mp hlink
  obtain ⟨horigin, hcontainer⟩ := container_of_ownTable? howner
  -- An owner of this document is reached only by a walk that has never left it.
  have hsame : b.home.follow l.toLink = l := by
    have hhome : l.home = b.home := stays_of_reached? hl horigin
    rw [Home.follow, horigin]
    exact congrArg (Located.mk · l.id) hhome.symm
  rw [hsame] at hcontainer
  rw [getLast?_walkPath, reached?_concat b hne, hl, Option.bind_some, Located.extendedMember,
    hcontainer, extendedMemberOf?]

end Targets

/-! ## What a step leaves alone -/

/-- The symbol of this number, without its kind and its links. -/
def face? (b : Binder σ) (id : SymbolId) : Option (String × Span × Ty) :=
  (b.table.symbol? id).map fun x => (x.name, x.span, x.ty)

theorem tyOf_eq (b : Binder σ) (id : SymbolId) :
    b.tyOf id = (b.face? id).elim .unknown (·.2.2) := by
  unfold tyOf Located.ty face?
  change (match b.table.symbol? id with | some x => x.ty | none => .unknown) = _
  cases b.table.symbol? id <;> rfl

theorem tyOf_congr {b' : Binder σ} {id : SymbolId} (h : b'.face? id = b.face? id) :
    b'.tyOf id = b.tyOf id := by
  rw [tyOf_eq, tyOf_eq, h]

theorem face?_modifySymbol_of_ne {id id' : SymbolId} (f : Symbol → Symbol) (hne : id ≠ id') :
    (b.modifySymbol id f).face? id' = b.face? id' := by
  unfold face? modifySymbol
  rw [SymbolTableOver.symbol?_modifySymbol, if_neg hne]

theorem symbol?_modifySymbol_self {id : SymbolId} {x : Symbol} (f : Symbol → Symbol)
    (hx : b.table.symbol? id = some x) : (b.modifySymbol id f).table.symbol? id = some (f x) := by
  rw [modifySymbol, SymbolTableOver.symbol?_modifySymbol, if_pos rfl, hx]
  rfl

theorem nextSymbolId_modifySymbol (b : Binder σ) (id : SymbolId) (f : Symbol → Symbol) :
    (b.modifySymbol id f).table.nextSymbolId = b.table.nextSymbolId :=
  Array.size_modify

theorem symbol?_addMember (b : Binder σ) (x : Symbol) (id : SymbolId) :
    (b.addMember x).table.symbol? id =
      if id = b.table.nextSymbolId then some x else b.table.symbol? id :=
  Array.getElem?_push

/-- Adoption changes nothing of a symbol but its owner. -/
theorem map_symbol?_adoptMembers {α : Type} {g : Symbol → α}
    (hg : ∀ owner x, g (ownedBy owner x) = g x) (b : Binder σ) (owner id : SymbolId) :
    ((b.adoptMembers owner).table.symbol? id).map g = (b.table.symbol? id).map g := by
  have hone (b : Binder σ) (member : SymbolId) :
      ((b.modifySymbol member (ownedBy owner)).table.symbol? id).map g =
        (b.table.symbol? id).map g := by
    unfold modifySymbol
    rw [SymbolTableOver.symbol?_modifySymbol]
    split
    · rw [Option.map_map]
      exact congrArg (Option.map · _) (funext (hg owner))
    · rfl
  have hall (members : Members) (b : Binder σ) :
      ((members.foldl (fun b member => b.modifySymbol member.2 (ownedBy owner)) b).table.symbol?
        id).map g = (b.table.symbol? id).map g := by
    induction members generalizing b with
    | nil => rfl
    | cons member rest ih => exact (ih _).trans (hone b member.2)
  unfold adoptMembers
  split
  · split
    · rfl
    · exact hall _ b
  · rfl

theorem face?_adoptMembers (b : Binder σ) (owner id : SymbolId) :
    (b.adoptMembers owner).face? id = b.face? id :=
  map_symbol?_adoptMembers (fun owner x => by unfold ownedBy; split <;> rfl) b owner id

/-- A refinement touches no symbol that has a type. -/
theorem tyOf_refine {id id' : SymbolId} (value : Inferred)
    (hknown : (b.tyOf id').isUnknown = false) : (b.refine id value).tyOf id' = b.tyOf id' := by
  unfold refine
  split
  · rfl
  · rename_i huntyped
    have hne : id ≠ id' := by
      rintro rfl
      simp [hknown] at huntyped
    rw [tyOf_congr (face?_adoptMembers _ _ _), tyOf_congr (face?_modifySymbol_of_ne _ hne)]

/-- Recording touches references alone. -/
theorem recordAll_eq (s : Setting σ) (first : Ident) (segments : List Ident)
    (links : List (Option Link)) (b : Binder σ) :
    ∃ references, recordAll s first segments links b = { b with references := references } := by
  induction segments generalizing links b with
  | nil => exact ⟨b.references, by cases links <;> rfl⟩
  | cons segment rest ih =>
    cases links with
    | nil => exact ⟨b.references, rfl⟩
    | cons link links =>
      obtain ⟨references, heq⟩ := ih links (b.record s first segment link)
      exact ⟨references, heq⟩

/-! ## A new member -/

end Binder

theorem Members.get?_insert (ms : Members) (name : String) (id : SymbolId) :
    (ms.insert name id).get? name = some id := by
  induction ms with
  | nil => rw [Members.insert, Members.get?_cons, if_pos rfl]
  | cons entry rest ih =>
    obtain ⟨first, old⟩ := entry
    rw [Members.insert]
    split
    · rename_i hname
      rw [Members.get?_cons, if_pos hname.symm]
    · rename_i hname
      rw [Members.get?_cons, if_neg (Ne.symm hname), ih]

/-- Whether a value has a member does not depend on where its numbers are read. -/
theorem Home.isSome_ownMember (h h' : Home) (ty : Ty) (name : String) :
    (h.ownMember ty name).isSome = (h'.ownMember ty name).isSome := by
  cases ty with
  | table t => simp [Home.ownMember, Home.tableOf]
  | module _ origin =>
    cases hexports : origin.exportedTable <;> simp [Home.ownMember, Home.tableOf, hexports]
  | _ => rfl

/-- What is no table inherits nothing. -/
theorem Home.extendedMember_of_isVacant (h : Home) {ty : Ty} (hvacant : ty.isVacant = true)
    (name : String) : h.extendedMember ty name = none := by
  cases ty with
  | unknown | nil => rfl
  | _ => cases hvacant

namespace Binder

variable {b : Binder σ} {owner : SymbolId}

theorem isSome_memberOf?_congr {b' : Binder σ} (hty : b'.tyOf owner = b.tyOf owner)
    (name : String) : (b'.memberOf? owner name).isSome = (b.memberOf? owner name).isSome := by
  rw [memberOf?, memberOf?, hty, Home.isSome_ownMember b'.home b.home]

/-- The declaration has made a new member: the symbol that comes next, which the owner now has under
the last name. No symbol that was there before becomes a function, stops being one or gets other
parameters or another return type, neither now nor when the return type is noted. -/
structure MakesMember (b : Binder σ) (step : Defined × Binder σ) (last : Ident)
    (owner : SymbolId) : Prop where
  symbol : step.1.symbol = some b.table.nextSymbolId
  stands : ∃ ty, step.2.face? b.table.nextSymbolId = some (last.name, last.span, ty)
  member : step.2.memberOf? owner last.name = some (step.2.home.locate b.table.nextSymbolId)
  functions : ∀ id < b.table.nextSymbolId, ∀ params returns isMethod,
    step.2.tyOf id = .function params returns isMethod ↔
      b.tyOf id = .function params returns isMethod
  finish : ∀ (later : Binder σ) returns, ∀ id < b.table.nextSymbolId,
    (later.finishFunction step.1.symbol returns).tyOf id = later.tyOf id

/-- A vacant owner becomes a table, another one stays what it is. -/
theorem table_of_asTable {ty : Ty} {x : Symbol} (hty : x.ty = ty)
    (hholds : (∃ t, ty = .table t ∧ t.origin = none) ∨ ty.isVacant = true) :
    ∃ t, (asTable x).ty = .table t ∧ t.origin = none := by
  unfold asTable
  rcases hholds with ⟨t, rfl, ht⟩ | hvacant
  · exact ⟨t, by rw [hty]; exact hty, ht⟩
  · rw [hty, if_pos hvacant]
    exact ⟨{}, rfl, rfl⟩

theorem ty_mapTable {f : Table → Table} {x : Symbol} {t : Table} (hty : x.ty = .table t) :
    (mapTable f x).ty = .table (f t) := by
  simp only [mapTable, hty]

/-- What is added is the last symbol; the owner has it, and no other symbol changes. -/
theorem insertMember_eq {link : Link} (symbol : Symbol) (howner : b.ownTable? link = some owner)
    (hpresent : (b.table.symbol? owner).isSome = true) (hid : symbol.id = b.table.nextSymbolId) :
    ∃ b', b.insertMember link symbol = some (symbol.id, b') ∧
      b'.face? symbol.id = some (symbol.name, symbol.span, symbol.ty) ∧
      (∀ id < b.table.nextSymbolId, id ≠ owner → b'.face? id = b.face? id) ∧
      ∃ t, b'.tyOf owner = .table t ∧ t.origin = none ∧
        t.members.get? symbol.name = some symbol.id := by
  obtain ⟨x, hx⟩ := Option.isSome_iff_exists.mp hpresent
  have hlt : owner < b.table.nextSymbolId := (Array.getElem?_eq_some_iff.mp hx).1
  obtain ⟨-, -, hholds⟩ := ownTable?_eq_some howner
  obtain ⟨t, ht, horigin⟩ := table_of_asTable rfl (tyOf_of_symbol? hx ▸ hholds)
  have hnext := nextSymbolId_modifySymbol b owner asTable
  have hadded (id : SymbolId) :
      ((b.modifySymbol owner asTable).addMember
        { symbol with container := some owner }).table.symbol? id =
          if id = symbol.id then some { symbol with container := some owner }
          else (b.modifySymbol owner asTable).table.symbol? id := by
    rw [symbol?_addMember, hnext, hid]
  unfold insertMember
  rw [howner]
  refine ⟨_, rfl, ?_, fun id hlt' hne => ?_,
    { t with members := t.members.insert symbol.name symbol.id }, ?_, horigin,
    Members.get?_insert _ _ _⟩
  · rw [face?_modifySymbol_of_ne _ (Nat.ne_of_lt (hid ▸ hlt)), face?, hadded, if_pos rfl]
    rfl
  · rw [face?_modifySymbol_of_ne _ hne.symm, face?, hadded, if_neg (Nat.ne_of_lt (hid ▸ hlt'))]
    exact face?_modifySymbol_of_ne _ hne.symm
  · have htable := (hadded owner).trans (if_neg (Nat.ne_of_lt (hid ▸ hlt)))
    rw [symbol?_modifySymbol_self asTable hx] at htable
    exact (tyOf_of_symbol? (symbol?_modifySymbol_self _ htable)).trans (ty_mapTable ht)

/-! ## Declarations -/

/-- A statement that declares a member by a dotted path, and what it makes of the state: an
assignment to a field, or a function of a dotted name, up to its body. -/
inductive DeclaresMember (s : Setting σ) (b : Binder σ) :
    List Ident → Defined × Binder σ → Prop where
  | assign (base : Expr) {path : List Ident} (key : Ident) (statement : Span) (value : Inferred)
      (doc : Option String) : base.path? = some path →
      DeclaresMember s b (path ++ [key])
        (b.defineMember s (path ++ [key]) (.ofTy value.ty .field) statement value doc)
  | function (reach : FunctionReach) {name : FunctionName} (statement : Span)
      (params : List String) (doc : Option String) :
      (!name.fields.isEmpty || name.method.isSome) = true →
      DeclaresMember s b name.path (b.declareFunction s reach name statement params doc)

variable {s : Setting σ} {path : List Ident} {last : Ident} {step : Defined × Binder σ}

theorem DeclaresMember.defines (h : DeclaresMember s b path step) :
    ∃ kind statement value doc, step = b.defineMember s path kind statement value doc := by
  cases h with
  | assign base key statement value doc hpath => exact ⟨_, _, _, _, rfl⟩
  | function reach statement params doc hdotted =>
    exact ⟨_, _, _, _, if_pos hdotted⟩

/-- A member that is found is there already. -/
theorem Targets.defineMember_found (h : b.Targets path last owner) {m : Located}
    (hm : b.extendedMemberOf? owner last.name = some m) (kind : SymbolKind) (statement : Span)
    (value : Inferred) (doc : Option String) :
    (b.defineMember s path kind statement value doc).1.symbol =
        (if m.isLocal then some m.id else none) ∧
      (b.defineMember s path kind statement value doc).2.tyOf owner = b.tyOf owner := by
  have hknown : (b.tyOf owner).isUnknown = false := by
    cases hty : b.tyOf owner with
    | unknown =>
      rw [extendedMemberOf?, hty, Home.extendedMember_of_isVacant _ rfl] at hm
      cases hm
    | _ => rfl
  obtain ⟨first, hfirst⟩ := h.head
  obtain ⟨references, hrecorded⟩ := recordAll_eq s first path (b.walkPath path).dropLast b
  unfold defineMember
  rw [hfirst, h.getLast]
  simp only [hrecorded, h.found, hm, Option.map_some]
  split
  · rename_i hlocal
    exact ⟨(if_pos hlocal).symm, tyOf_refine value hknown⟩
  · rename_i hlocal
    exact ⟨(if_neg hlocal).symm, rfl⟩

/-- A member that is not found is added. -/
theorem Targets.defineMember_none (h : b.Targets path last owner)
    (hnone : b.extendedMemberOf? owner last.name = none) (kind : SymbolKind) (statement : Span)
    (value : Inferred) (doc : Option String) :
    b.MakesMember (b.defineMember s path kind statement value doc) last owner := by
  obtain ⟨first, hfirst⟩ := h.head
  obtain ⟨link, hlink, howner⟩ := h.container
  obtain ⟨references, hrecorded⟩ := recordAll_eq s first path (b.walkPath path).dropLast b
  obtain ⟨b', hinsert, hnew, hothers, t, htable, horigin, hget⟩ :=
    insertMember_eq (b := { b with references := references })
      (newSymbol s { b with references := references } last kind statement value false doc)
      howner h.present rfl
  -- What was recorded meanwhile are references: the table is the one in which the path was walked.
  have hstep : b.defineMember s path kind statement value doc =
      ({ symbol := some b.table.nextSymbolId, container := some link },
        b'.adoptMembers b.table.nextSymbolId) := by
    unfold defineMember
    rw [hfirst, h.getLast]
    simp only [hrecorded, h.found, hnone, Option.map_none, hlink]
    rw [hinsert]
    rfl
  have hface (id : SymbolId) := face?_adoptMembers b' b.table.nextSymbolId id
  have howns : (b'.adoptMembers b.table.nextSymbolId).tyOf owner = .table t :=
    (tyOf_congr (hface owner)).trans htable
  have hbefore : ∀ params returns isMethod, b.tyOf owner ≠ .function params returns isMethod := by
    intro params returns isMethod hty
    obtain ⟨-, -, ⟨t, ht, -⟩ | hvacant⟩ := ownTable?_eq_some howner
    · rw [hty] at ht
      cases ht
    · rw [hty] at hvacant
      cases hvacant
  rw [hstep]
  refine ⟨rfl, ⟨value.ty, (hface _).trans hnew⟩, ?_, fun id hlt params returns isMethod => ?_,
    fun later returns id hlt => tyOf_congr (face?_modifySymbol_of_ne _ (Nat.ne_of_gt hlt))⟩
  · rw [memberOf?, howns, Home.ownMember]
    simp only [Home.tableOf, horigin]
    exact congrArg (Option.map _) hget
  -- The owner's own type does change, but is that of a function neither before nor afterwards.
  · by_cases hid : id = owner
    · rw [hid, howns]
      exact ⟨fun hty => (by cases hty), fun hty => (hbefore _ _ _ hty).elim⟩
    · rw [tyOf_congr ((hface id).trans (hothers id hlt hid))]
      rfl

/--
Does the owner have the member itself after a declaration? It does if it had it before or if nothing
was found under the name; in the latter case the member is a new one. Where a base has the member,
that one is taken for what is declared, and the body's return type goes there.
-/
theorem DeclaresMember.own_iff (hdeclares : DeclaresMember s b path step)
    (htargets : b.Targets path last owner) :
    ((step.2.memberOf? owner last.name).isSome = true ↔
        (b.memberOf? owner last.name).isSome = true ∨
          b.extendedMemberOf? owner last.name = none) ∧
      (b.extendedMemberOf? owner last.name = none → b.MakesMember step last owner) ∧
      ∀ m, b.extendedMemberOf? owner last.name = some m →
        step.1.symbol = if m.isLocal then some m.id else none := by
  obtain ⟨kind, statement, value, doc, rfl⟩ := hdeclares.defines
  cases hfound : b.extendedMemberOf? owner last.name with
  | none =>
    have hmakes := htargets.defineMember_none (s := s) hfound kind statement value doc
    exact ⟨by simp [hmakes.member], fun _ => hmakes, nofun⟩
  | some m =>
    obtain ⟨hsymbol, hty⟩ := htargets.defineMember_found (s := s) hfound kind statement value doc
    refine ⟨?_, nofun, fun m' hm' => ?_⟩
    · rw [isSome_memberOf?_congr hty]
      simp
    · cases hm'
      exact hsymbol

/-- After `local B = {} function B.f() return 1 end local D = setmetatable({}, {__index = B})`, the
declaration `D.g = 2` makes a member: nothing is found under `g`. -/
theorem DeclaresMember.own_iff_of_new :
    let front := "local B = {} function B.f() return 1 end " ++
      "local D = setmetatable({}, {__index = B})"
    let i := Index.buildAlone ⟨"file:///a.lua"⟩ 1 front {}
    let s : Setting Unit := ⟨.ofString (front ++ " D.g = 2"), i.document, false, Loader.none⟩
    let b : Binder Unit := ⟨i.table, #[], SymbolTableOver.rootId, [none], ()⟩
    let key : Ident := ⟨"g", ⟨85, 86⟩⟩
    let step := b.defineMember s [⟨"D", ⟨83, 84⟩⟩, key] .field ⟨83, 90⟩ { ty := .number } none
    (step.2.memberOf? 3 "g").isSome = true ∧ b.MakesMember step key 3 := by
  intro front i s b key step
  have hdeclares : DeclaresMember s b [⟨"D", ⟨83, 84⟩⟩, key] step :=
    .assign (.name ⟨"D", ⟨83, 84⟩⟩) key ⟨83, 90⟩ { ty := .number } none rfl
  have htargets : b.Targets [⟨"D", ⟨83, 84⟩⟩, key] key 3 :=
    ⟨rfl, by decide +kernel, by decide +kernel⟩
  have hnew : (b.extendedMemberOf? 3 key.name).isNone = true := by decide +kernel
  obtain ⟨hown, hmakes, -⟩ := hdeclares.own_iff htargets
  have hnone := Option.isNone_iff_eq_none.mp hnew
  exact ⟨hown.mpr (.inr hnone), hmakes hnone⟩

/-- After the same statements `function D.f() return "s" end` leaves `D` without a member of its own
and overwrites the return type of `B.f`. -/
theorem override_changes_base :
    let front := "local B = {} function B.f() return 1 end " ++
      "local D = setmetatable({}, {__index = B})"
    let text := front ++ " function D.f() return \"s\" end"
    let i := Index.buildAlone ⟨"file:///a.lua"⟩ 1 front {}
    let s : Setting Unit := ⟨.ofString text, i.document, false, Loader.none⟩
    let b : Binder Unit := ⟨i.table, #[], SymbolTableOver.rootId, [none], ()⟩
    let name : FunctionName := ⟨⟨"D", ⟨92, 93⟩⟩, [⟨"f", ⟨94, 95⟩⟩], none⟩
    let step := b.declareFunction s .named name ⟨83, 112⟩ [] none
    DeclaresMember s b name.path step ∧ b.Targets name.path ⟨"f", ⟨94, 95⟩⟩ 3 ∧
      (step.2.memberOf? 3 "f").isNone = true ∧ step.1.symbol = some 1 ∧
      (b.tyOf 1).describe = "function(): number" ∧
      ((step.2.finishFunction step.1.symbol .string).tyOf 1).describe = "function(): string" := by
  refine ⟨.function .named _ [] none rfl, ⟨rfl, ?_, ?_⟩, ?_⟩ <;> decide +kernel

end Binder

end LuaScope

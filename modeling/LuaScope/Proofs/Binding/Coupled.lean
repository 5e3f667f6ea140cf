import LuaScope.Proofs.Binding.Bare

/-!
# LuaScope.Proofs.Binding.Coupled

Walks over one tree with two sources go hand in hand: their states stay alike but for what is read
off the sources, and their answers are the same.

* `Binder.Alike`  — two states that are the same once they are bare.
* `Walk.Couples`  — two walks that lead from states alike to states alike, with the same answer.
* `Walk.expr_couples`, `Walk.statements_couples` and the others — walks over the same part of a
  tree, whatever the sources and the doc comments are.
-/

namespace LuaScope

variable {σ : Type}

/-- The same setting with another source. -/
def Setting.over (s : Setting σ) (source : Source) : Setting σ := { s with source := source }

namespace Binder

/-! ## Steps -/

/-- The same state, but for what is read off the text. -/
def Alike (b b' : Binder σ) : Prop := b.bare = b'.bare

namespace Alike

variable {b b' : Binder σ}

theorem start (source source' : Source) (world : σ) :
    (Binder.start source world).Alike (.start source' world) := by
  simp [Alike, Binder.start, Binder.bare, SymbolTableOver.new, SymbolTableOver.bare, Scope.bare]

theorem bare (h : b.Alike b') : b.bare = b'.bare := h

theorem scope (h : b.Alike b') : b.scope = b'.scope :=
  (congrArg Binder.scope h.bare : b.bare.scope = b'.bare.scope)

theorem world (h : b.Alike b') : b.world = b'.world :=
  (congrArg Binder.world h.bare : b.bare.world = b'.bare.world)

theorem nextSymbolId (h : b.Alike b') : b.table.nextSymbolId = b'.table.nextSymbolId := by
  rw [← SymbolTableOver.nextSymbolId_bare, ← b'.table.nextSymbolId_bare]
  exact congrArg (·.table.nextSymbolId) h

theorem lookup (h : b.Alike b') (scope : ScopeId) (name : String) (offset : Nat) :
    b.table.lookup scope name offset = b'.table.lookup scope name offset := by
  rw [← SymbolTableOver.lookup_bare, ← b'.table.lookup_bare]
  exact congrArg (·.table.lookup scope name offset) h

theorem walkPath (h : b.Alike b') (path : List Ident) : b.walkPath path = b'.walkPath path := by
  rw [← walkPath_bare, ← b'.walkPath_bare]
  exact congrArg (·.walkPath path) h

theorem valueType (h : b.Alike b') (link : Link) :
    (b.home.follow link).valueType = (b'.home.follow link).valueType := by
  have hbare : ∀ b : Binder σ,
      (b.bare.home.follow link).valueType = (b.home.follow link).valueType := by
    intro b
    rw [home_bare, Home.follow_bare, Located.valueType_bare]
  rw [← hbare b, ← hbare b', h]

theorem symbol? (h : b.Alike b') {id : SymbolId} {x : Symbol} (hx : b.table.symbol? id = some x) :
    ∃ x', b'.table.symbol? id = some x' ∧ x'.bare = x.bare := by
  have hsymbols := congrArg (·.table.symbol? id) h.bare
  simp only [Binder.bare, SymbolTableOver.symbol?_bare, hx] at hsymbols
  exact Option.map_eq_some_iff.mp hsymbols.symm

theorem scope? (h : b.Alike b') {id : ScopeId} {s : Scope} (hs : b.table.scope? id = some s) :
    ∃ s', b'.table.scope? id = some s' ∧ s'.bare = s.bare := by
  have hscopes := congrArg (·.table.scope? id) h.bare
  simp only [Binder.bare, SymbolTableOver.scope?_bare, hs] at hscopes
  exact Option.map_eq_some_iff.mp hscopes.symm

theorem reference? (h : b.Alike b') {k : Nat} {r : Reference} (hr : b.references[k]? = some r) :
    ∃ r', b'.references[k]? = some r' ∧ r'.bare = r.bare := by
  have hreferences := congrArg (·.references[k]?) h.bare
  simp only [Binder.bare, Array.getElem?_map, hr] at hreferences
  exact Option.map_eq_some_iff.mp hreferences.symm

/-! ### Changes that read nothing -/

theorem declare (h : b.Alike b') {x x' : Symbol} (hx : x.bare = x'.bare) :
    (b.declare x).Alike (b'.declare x') := by
  unfold Alike
  rw [bare_declare, bare_declare, h, hx]

theorem bind (h : b.Alike b') {x x' : Symbol} (hx : x.bare = x'.bare) :
    (b.bind x).Alike (b'.bind x') := by
  unfold Alike
  rw [bare_bind, bare_bind, h, hx]

theorem modifySymbol (h : b.Alike b') {f : Symbol → Symbol} (hf : ∀ x, (f x).bare = f x.bare)
    (id : SymbolId) : (b.modifySymbol id f).Alike (b'.modifySymbol id f) := by
  unfold Alike
  rw [bare_modifySymbol _ hf, bare_modifySymbol _ hf, h]

theorem adoptMembers (h : b.Alike b') (owner : SymbolId) :
    (b.adoptMembers owner).Alike (b'.adoptMembers owner) := by
  unfold Alike
  rw [bare_adoptMembers, bare_adoptMembers, h]

theorem addMember (h : b.Alike b') {x x' : Symbol} (hx : x.bare = x'.bare) :
    (b.addMember x).Alike (b'.addMember x') := by
  unfold Alike
  rw [bare_addMember, bare_addMember, h, hx]

theorem refine (h : b.Alike b') (id : SymbolId) (value : Inferred) :
    (b.refine id value).Alike (b'.refine id value) := by
  unfold Alike
  rw [bare_refine, bare_refine, h]

theorem finishFunction (h : b.Alike b') (id? : Option SymbolId) (returns : Ty) :
    (b.finishFunction id? returns).Alike (b'.finishFunction id? returns) := by
  unfold Alike
  rw [bare_finishFunction, bare_finishFunction, h]

theorem noteReturn (h : b.Alike b') (value : Inferred) :
    (b.noteReturn value).Alike (b'.noteReturn value) := by
  unfold Alike
  rw [bare_noteReturn, bare_noteReturn, h]

theorem popFrame (h : b.Alike b') :
    b.popFrame.1 = b'.popFrame.1 ∧ b.popFrame.2.Alike b'.popFrame.2 := by
  have hpop := congrArg Binder.popFrame h
  rw [popFrame_bare, popFrame_bare] at hpop
  exact Prod.mk.inj hpop

theorem attachPrototype (h : b.Alike b') (target : Inferred) (prototype : Option Prototype) :
    (b.attachPrototype target prototype).1 = (b'.attachPrototype target prototype).1 ∧
      (b.attachPrototype target prototype).2.Alike (b'.attachPrototype target prototype).2 := by
  have hattach := congrArg (·.attachPrototype target prototype) h
  simp only [attachPrototype_bare] at hattach
  exact Prod.mk.inj hattach

/-- Both insert a member, or neither does. -/
theorem insertMember (h : b.Alike b') (container : Link) {x x' : Symbol} (hx : x.bare = x'.bare) :
    (b.insertMember container x = none ∧ b'.insertMember container x' = none) ∨
      ∃ id c c', b.insertMember container x = some (id, c) ∧
        b'.insertMember container x' = some (id, c') ∧ c.Alike c' := by
  have hinsert : (b.insertMember container x).map (fun r => (r.1, r.2.bare)) =
      (b'.insertMember container x').map fun r => (r.1, r.2.bare) := by
    rw [← insertMember_bare, ← insertMember_bare, h, hx]
  cases hfirst : b.insertMember container x with
  | none =>
    rw [hfirst, Option.map_none] at hinsert
    exact .inl ⟨rfl, Option.map_eq_none_iff.mp hinsert.symm⟩
  | some r =>
    rw [hfirst, Option.map_some] at hinsert
    obtain ⟨r', hsecond, heq⟩ := Option.map_eq_some_iff.mp hinsert.symm
    obtain ⟨hid, hstate⟩ := Prod.mk.inj heq
    exact .inr ⟨r.1, r.2, r'.2, rfl, by rw [hsecond, ← hid], hstate.symm⟩

theorem enterScope (h : b.Alike b') (kind : ScopeKind) (span : Span) :
    (b.enterScope kind span).Alike (b'.enterScope kind span) := by
  have henter : ∀ b : Binder σ,
      (b.enterScope kind span).bare = b.bare.enterScope kind default := by
    intro b
    simp only [Binder.enterScope, Binder.bare, SymbolTableOver.bare_addScope,
      SymbolTableOver.nextScopeId_bare]
  unfold Alike
  rw [henter, henter, h]

theorem backTo (h : b.Alike b') (scope : ScopeId) : (b.backTo scope).Alike (b'.backTo scope) :=
  congrArg (fun c : Binder σ => c.backTo scope) h.bare

theorem pushFrame (h : b.Alike b') : b.pushFrame.Alike b'.pushFrame :=
  congrArg Binder.pushFrame h

/-! ### Changes that read the source -/

variable (s : Setting σ) (source : Source)

theorem record (h : b.Alike b') (first last : Ident) (target : Option Link) :
    (b.record s first last target).Alike (b'.record (s.over source) first last target) := by
  have hrecord : ∀ (s : Setting σ) (b : Binder σ), (b.record s first last target).bare =
      { b.bare with
        references := b.bare.references.push
          (ReferenceOver.mk "" default last.span b.bare.scope first.span.start target) } := by
    intro s b
    simp only [Binder.record, Binder.bare, Array.map_push]
    rfl
  unfold Alike
  rw [hrecord, hrecord, h]

theorem recordAll (first : Ident) (segments : List Ident) (links : List (Option Link))
    (h : b.Alike b') : (b.recordAll s first segments links).Alike
      (b'.recordAll (s.over source) first segments links) := by
  induction segments generalizing links b b' with
  | nil => exact h
  | cons segment segments ih =>
    cases links with
    | nil => exact h
    | cons link links => exact ih links (h.record s source first segment link)

theorem inferPath (h : b.Alike b') (path : List Ident) :
    (b.inferPath s path).1 = (b'.inferPath (s.over source) path).1 ∧
      (b.inferPath s path).2.Alike (b'.inferPath (s.over source) path).2 := by
  cases path with
  | nil => exact ⟨rfl, h⟩
  | cons first rest =>
    have hall := recordAll s source first (first :: rest) (b.walkPath (first :: rest)) h
    simp only [Binder.inferPath]
    rw [← h.walkPath]
    cases (b.walkPath (first :: rest)).getLast? with
    | none => exact ⟨rfl, hall⟩
    | some last =>
      cases last with
      | none => exact ⟨rfl, hall⟩
      | some link =>
        refine ⟨?_, hall⟩
        simp only
        rw [hall.valueType]

theorem newSymbol (h : b.Alike b') (name : Ident) (kind : SymbolKind) (statement : Span)
    (value : Inferred) (isLocal : Bool) (doc doc' : Option String) :
    (Binder.newSymbol s b name kind statement value isLocal doc).bare =
      (Binder.newSymbol (s.over source) b' name kind statement value isLocal doc').bare := by
  unfold Binder.newSymbol
  rw [h.nextSymbolId, h.scope]
  rfl

theorem defineMember (h : b.Alike b') (path : List Ident) (kind : SymbolKind) (statement : Span)
    (value : Inferred) (doc doc' : Option String) :
    (b.defineMember s path kind statement value doc).1 =
        (b'.defineMember (s.over source) path kind statement value doc').1 ∧
      (b.defineMember s path kind statement value doc).2.Alike
        (b'.defineMember (s.over source) path kind statement value doc').2 := by
  unfold Binder.defineMember
  cases path.head? with
  | none => exact ⟨rfl, h⟩
  | some first =>
    cases path.getLast? with
    | none => exact ⟨rfl, h⟩
    | some last =>
      simp only
      rw [← h.walkPath]
      have hfront := recordAll s source first path (b.walkPath path).dropLast h
      generalize Binder.recordAll s first path _ b = c at hfront ⊢
      generalize Binder.recordAll (s.over source) first path _ b' = c' at hfront ⊢
      cases (b.walkPath path).getLast?.join with
      | some existing =>
        have hrecord := hfront.record s source first last (some existing)
        by_cases hlocal : existing.isLocal
        · simp only [hlocal, if_true]
          exact ⟨trivial, hrecord.refine _ value⟩
        · simp only [hlocal]
          exact ⟨rfl, hrecord⟩
      | none =>
        have hrecord := hfront.record s source first last none
        cases (b.walkPath path).dropLast.getLast?.join with
        | none => exact ⟨rfl, hrecord⟩
        | some link =>
          have hsymbol := hfront.newSymbol s source last kind statement value false doc doc'
          simp only
          obtain ⟨hfirst, hsecond⟩ | ⟨id, d, d', hfirst, hsecond, halike⟩ :=
            hfront.insertMember link hsymbol
          · rw [hfirst, hsecond]
            exact ⟨rfl, hrecord⟩
          · rw [hfirst, hsecond]
            exact ⟨rfl, halike.adoptMembers id⟩

theorem assignName (h : b.Alike b') (name : Ident) (statement : Span) (value : Inferred)
    (doc doc' : Option String) :
    (b.assignName s name statement value doc).Alike
      (b'.assignName (s.over source) name statement value doc') := by
  unfold Binder.assignName
  rw [← h.lookup, ← h.scope]
  cases b.table.lookup b.scope name.name name.span.start with
  | some id => exact (h.record s source name name _).refine id value
  | none =>
    simp only
    have hallow : (s.over source).allowDefined = s.allowDefined := rfl
    rw [hallow]
    split
    · exact h.bind (h.newSymbol s source name _ statement value false doc doc')
    · exact h.record s source name name none

theorem declareLocals (statement : Span) (doc doc' : Option String) (names : List Ident)
    (values : List Inferred) (h : b.Alike b') :
    (b.declareLocals s statement doc names values).Alike
      (b'.declareLocals (s.over source) statement doc' names values) := by
  induction names generalizing values b b' with
  | nil => exact h
  | cons name names ih =>
    exact ih values.tail (h.bind (h.newSymbol s source name _ statement _ true doc doc'))

theorem declareCounter (h : b.Alike b') (statement : Span) (ty : Ty) (name : Ident) :
    (b.declareCounter s statement ty name).Alike
      (b'.declareCounter (s.over source) statement ty name) :=
  h.declare (h.newSymbol s source name _ statement _ true none none)

theorem declareCounters (statement : Span) (ty : Ty) (names : List Ident) (h : b.Alike b') :
    (names.foldl (fun b name => b.declareCounter s statement ty name) b).Alike
      (names.foldl (fun b name => b.declareCounter (s.over source) statement ty name) b') := by
  induction names generalizing b b' with
  | nil => exact h
  | cons name names ih => exact ih (h.declareCounter s source statement ty name)

theorem declareFunction (h : b.Alike b') (reach : FunctionReach) (name : FunctionName)
    (statement : Span) (params : List String) (doc doc' : Option String) :
    (b.declareFunction s reach name statement params doc).1 =
        (b'.declareFunction (s.over source) reach name statement params doc').1 ∧
      (b.declareFunction s reach name statement params doc).2.Alike
        (b'.declareFunction (s.over source) reach name statement params doc').2 := by
  unfold Binder.declareFunction
  simp only
  split
  · exact h.defineMember s source name.path _ statement _ doc doc'
  · have hsymbol := fun isLocal => h.newSymbol s source name.head .function statement
      { ty := .function params .unknown name.method.isSome } isLocal doc doc'
    have hdeclared := fun isLocal => h.declare (hsymbol isLocal)
    have hid := fun isLocal => congrArg (fun x : Symbol => Defined.mk (some x.id) none)
      (hsymbol isLocal)
    split
    · exact ⟨hid true, hdeclared true⟩
    · rw [← h.lookup, ← h.scope]
      cases b.table.lookup b.scope name.head.name name.head.span.start with
      | some id =>
        have hrecord := h.record s source name.head name.head (some (.here id))
        refine ⟨rfl, hrecord.modifySymbol (fun x => ?_) id⟩
        rfl
      | none => exact ⟨hid false, hdeclared false⟩

theorem declareSelf (h : b.Alike b') (parameters : Span) (container : Option Link) :
    (b.declareSelf s parameters container).Alike
      (b'.declareSelf (s.over source) parameters container) := by
  refine h.declare ?_
  rw [h.nextSymbolId, h.scope]
  cases container with
  | none => rfl
  | some link =>
    simp only
    rw [h.valueType]
    rfl

theorem declareParameters (parameters : Span) (entries : List Parameter) (h : b.Alike b') :
    (b.declareParameters s parameters entries).Alike
      (b'.declareParameters (s.over source) parameters entries) := by
  induction entries generalizing b b' with
  | nil => exact h
  | cons entry rest ih =>
    cases entry with
    | vararg => exact ih h
    | name name => exact ih (h.declare (h.newSymbol s source name _ parameters _ true none none))

theorem require (h : b.Alike b') (name : String) :
    (b.require s name).1 = (b'.require (s.over source) name).1 ∧
      (b.require s name).2.Alike (b'.require (s.over source) name).2 := by
  have hloader : (s.over source).loader name b'.world = s.loader name b.world :=
    congrArg (s.loader name) h.world.symm
  have hload : Alike { b with world := (s.loader name b.world).2 }
      { b' with world := (s.loader name b.world).2 } := by
    have hbare := congrArg (fun c : Binder σ => { c with world := (s.loader name b.world).2 }) h.bare
    exact hbare
  unfold Binder.require
  rw [hloader]
  simp only
  cases (s.loader name b.world).1 with
  | none => exact ⟨rfl, hload⟩
  | some index =>
    simp only
    split
    · exact ⟨rfl, hload⟩
    · exact ⟨rfl, hload⟩

end Alike

end Binder

/-! ## Walks -/

namespace Walk

variable {α β : Type}

/-- From states alike the walks lead to states alike, with the same answer. -/
def Couples (w w' : Walk σ α) : Prop :=
  ∀ b b', b.Alike b' → (w b).1 = (w' b').1 ∧ (w b).2.Alike (w' b').2

namespace Couples

theorem pure (a : α) : Couples (Pure.pure a : Walk σ α) (Pure.pure a) := fun _ _ h => ⟨rfl, h⟩

theorem bind {w w' : Walk σ α} {k k' : α → Walk σ β} (hw : Couples w w')
    (hk : ∀ a, Couples (k a) (k' a)) : Couples (w >>= k) (w' >>= k') := by
  intro b b' h
  obtain ⟨hanswer, hstate⟩ := hw b b' h
  have hnext := hk (w b).1 _ _ hstate
  rw [show (w' >>= k') b' = k' (w' b').1 (w' b').2 from rfl, ← hanswer]
  exact hnext

/-- What the first walk answers is not used. -/
theorem andThen {w w' : Walk σ α} {k k' : Walk σ β} (hw : Couples w w') (hk : Couples k k') :
    Couples (w >>= fun _ => k) (w' >>= fun _ => k') := hw.bind fun _ => hk

theorem change {f f' : Binder σ → Binder σ} (h : ∀ b b', b.Alike b' → (f b).Alike (f' b')) :
    Couples (modify f : Walk σ Unit) (modify f') := fun b b' halike => ⟨rfl, h b b' halike⟩

end Couples

section Source

variable (s : Setting σ) (source : Source)

theorem path_couples (path : List Ident) :
    Couples (inferPath s path) (inferPath (s.over source) path) :=
  fun _ _ h => h.inferPath s source path

theorem name_couples (ident : Ident) (depth : Nat) :
    Couples (inferName s ident depth) (inferName (s.over source) ident depth) := by
  unfold inferName
  split
  · exact .pure _
  · exact path_couples s source [ident]

theorem within_couples (kind : ScopeKind) (span : Span) {inside inside' : Walk σ Unit}
    (h : Couples inside inside') : Couples (within kind span inside) (within kind span inside') := by
  intro b b' halike
  have hinside := (h _ _ (halike.enterScope kind span)).2
  have hback : ((inside (b.enterScope kind span)).2.backTo b.scope).Alike
      ((inside' (b'.enterScope kind span)).2.backTo b'.scope) := by
    rw [← halike.scope]
    exact hinside.backTo b.scope
  exact ⟨rfl, hback⟩

theorem function_couples (parameters : Parameters) (stop : Nat) (isMethod : Bool)
    (container : Option Link) {body body' : Walk σ Unit} (h : Couples body body') :
    Couples (inFunction s parameters stop isMethod container body)
      (inFunction (s.over source) parameters stop isMethod container body') := by
  have hself : Couples
      (if isMethod then modify (Binder.declareSelf s parameters.span container) else Pure.pure ())
      (if isMethod then modify (Binder.declareSelf (s.over source) parameters.span container)
        else Pure.pure () : Walk σ Unit) := by
    split
    · exact .change fun _ _ halike => halike.declareSelf s source parameters.span container
    · exact .pure ()
  have hparameters : Couples
      (modify (Binder.declareParameters s parameters.span parameters.entries) : Walk σ Unit)
      (modify (Binder.declareParameters (s.over source) parameters.span parameters.entries)) :=
    .change fun _ _ halike => halike.declareParameters s source parameters.span parameters.entries
  have hframe : Couples (modify (·.pushFrame) : Walk σ Unit) (modify (·.pushFrame)) :=
    .change fun _ _ halike => halike.pushFrame
  have hpop : Couples (modifyGet (·.popFrame) : Walk σ Ty) (modifyGet (·.popFrame)) :=
    fun _ _ halike => halike.popFrame
  intro b b' halike
  have hinside := hself.andThen (hparameters.andThen (hframe.andThen (h.andThen hpop))) _ _
    (halike.enterScope .function ⟨parameters.span.start, stop⟩)
  have hrun : ∀ (s : Setting σ) (body : Walk σ Unit) (b : Binder σ),
      inFunction s parameters stop isMethod container body b =
        let r := ((if isMethod then modify (Binder.declareSelf s parameters.span container)
            else Pure.pure () : Walk σ Unit) >>= fun _ =>
          (modify (Binder.declareParameters s parameters.span parameters.entries) : Walk σ Unit) >>=
            fun _ => (modify (·.pushFrame) : Walk σ Unit) >>= fun _ => body >>= fun _ =>
              (modifyGet (·.popFrame) : Walk σ Ty))
          (b.enterScope .function ⟨parameters.span.start, stop⟩)
        (r.1, r.2.backTo b.scope) := by
    intro s body b
    cases isMethod <;> rfl
  rw [hrun, hrun, ← halike.scope]
  exact ⟨hinside.1, hinside.2.backTo b.scope⟩

mutual

theorem expr_couples : ∀ (e : Expr) (depth : Nat),
    Couples (inferExpr s e depth) (inferExpr (s.over source) e depth)
  | .nil, depth | .boolean, depth | .number, depth | .literal _, depth => by
    simp only [inferExpr]
    split <;> exact .pure _
  | .vararg, _ | .global, _ => .pure _
  | .name ident, depth => name_couples s source ident depth
  | .field base key, depth => by
    simp only [inferExpr]
    split
    · exact .pure _
    · split
      · exact path_couples s source _
      · exact (expr_couples base _).andThen ((name_couples s source key _).andThen (.pure _))
  | .subscript base key, depth => by
    simp only [inferExpr]
    split
    · exact .pure _
    · exact (expr_couples base _).andThen ((expr_couples key _).andThen (.pure _))
  | .paren inner, depth => by
    simp only [inferExpr]
    split
    · exact .pure _
    · exact expr_couples inner _
  | .table fields, depth => by
    simp only [inferExpr]
    split
    · exact .pure _
    · exact (fields_couples fields depth []).bind fun _ => .pure _
  | .function (.mk parameters block stop), depth => by
    simp only [inferExpr]
    split
    · exact .pure _
    · exact (function_couples s source parameters stop false none (block_couples block _)).bind
        fun _ => .pure _
  | .call callee method arguments, depth => by
    have harguments : ∀ value : Inferred, Couples
        (do
          let _ ← inferList s arguments depth
          pure (Binder.callResult value))
        (do
          let _ ← inferList (s.over source) arguments depth
          pure (Binder.callResult value)) :=
      fun _ => (list_couples arguments depth).andThen (.pure _)
    simp only [inferExpr]
    split
    · exact .pure _
    · split
      · exact fun _ _ h => h.require s source _
      · exact setmetatable_couples arguments depth
      · exact (expr_couples _ _).bind harguments
      · split
        · exact (Couples.pure _).bind harguments
        · split
          · exact (path_couples s source _).bind harguments
          · exact (expr_couples _ _).andThen
              ((name_couples s source _ _).andThen ((Couples.pure _).bind harguments))
  | .binary op _ left right, depth => by
    simp only [inferExpr]
    split
    · exact .pure _
    · exact (expr_couples left _).bind fun _ => (expr_couples right _).bind fun _ => .pure _
  | .unary op _ operand, depth => by
    simp only [inferExpr]
    split
    · exact .pure _
    · exact (expr_couples operand _).andThen (.pure _)

theorem list_couples : ∀ (es : List Expr) (depth : Nat),
    Couples (inferList s es depth) (inferList (s.over source) es depth)
  | [], _ => .pure _
  | e :: rest, depth => by
    have hrest := list_couples rest depth
    have hcons : Couples
        (do
          let value ← inferExpr s e (depth + 1)
          return value :: (← inferList s rest depth))
        (do
          let value ← inferExpr (s.over source) e (depth + 1)
          return value :: (← inferList (s.over source) rest depth)) :=
      (expr_couples e _).bind fun _ => hrest.bind fun _ => .pure _
    cases e <;> first | exact hrest | exact hcons

theorem fields_couples : ∀ (fields : List Field) (depth : Nat) (members : Members),
    Couples (inferFields s fields depth members) (inferFields (s.over source) fields depth members)
  | [], _, _ => .pure _
  | .positional value :: rest, depth, members | .unnamed value :: rest, depth, members => by
    simp only [inferFields]
    exact (expr_couples value _).andThen (fields_couples rest depth members)
  | .computed key value :: rest, depth, members => by
    simp only [inferFields]
    exact (expr_couples key _).andThen
      ((expr_couples value _).andThen (fields_couples rest depth members))
  | .named comments span key value :: rest, depth, members => by
    simp only [inferFields]
    refine (expr_couples value _).bind fun found b b' h => ?_
    have hsymbol := h.newSymbol s source key (.ofTy found.ty .field) span found false
      (Comment.doc? s.source.lines span.start comments)
      (Comment.doc? (s.over source).source.lines span.start comments)
    -- The two members have the same number, but it is read off two tables.
    have hrest : ∀ id, b.table.nextSymbolId = id → ∀ c c' : Binder σ, c.Alike c' →
        (inferFields s rest depth (members.insert key.name b.table.nextSymbolId)
            (c.adoptMembers b.table.nextSymbolId)).1 =
          (inferFields (s.over source) rest depth (members.insert key.name id)
            (c'.adoptMembers id)).1 ∧
        (inferFields s rest depth (members.insert key.name b.table.nextSymbolId)
            (c.adoptMembers b.table.nextSymbolId)).2.Alike
          (inferFields (s.over source) rest depth (members.insert key.name id)
            (c'.adoptMembers id)).2 := by
      rintro _ rfl c c' halike
      exact fields_couples rest depth _ _ _ (halike.adoptMembers _)
    exact hrest _ h.nextSymbolId _ _ (h.addMember hsymbol)

theorem setmetatable_couples : ∀ (arguments : List Expr) (depth : Nat),
    Couples (inferSetmetatable s arguments depth) (inferSetmetatable (s.over source) arguments depth)
  | [], _ => .pure _
  | target :: rest, depth => by
    have hrest := setmetatable_couples rest depth
    have hcons : Couples
        (do
          let target ← inferExpr s target (depth + 1)
          let prototype ← inferMetatable s rest depth
          fun b => b.attachPrototype target prototype)
        (do
          let target ← inferExpr (s.over source) target (depth + 1)
          let prototype ← inferMetatable (s.over source) rest depth
          fun b => b.attachPrototype target prototype) :=
      (expr_couples target _).bind fun target => (metatable_couples rest depth).bind
        fun prototype _ _ h => h.attachPrototype target prototype
    cases target <;> first | exact hrest | exact hcons

theorem metatable_couples : ∀ (arguments : List Expr) (depth : Nat),
    Couples (inferMetatable s arguments depth) (inferMetatable (s.over source) arguments depth)
  | [], _ => .pure _
  | metatable :: rest, depth => by
    have hrest := metatable_couples rest depth
    have hcons : Couples
        (do
          let value ← inferExpr s metatable (depth + 1)
          let _ ← inferList s rest depth
          pure (value.alias.map PrototypeOver.metatable))
        (do
          let value ← inferExpr (s.over source) metatable (depth + 1)
          let _ ← inferList (s.over source) rest depth
          pure (value.alias.map PrototypeOver.metatable)) :=
      (expr_couples metatable _).bind fun _ => (list_couples rest depth).andThen (.pure _)
    cases metatable with
    | global => exact hrest
    | table fields =>
      exact (fields_couples fields _ _).bind fun _ => (list_couples rest depth).andThen (.pure _)
    | _ => exact hcons

theorem block_couples : ∀ (block : Option Block) (depth : Nat),
    Couples (visitBlock s block depth) (visitBlock (s.over source) block depth)
  | none, _ => .pure _
  | some (.mk _ statements), depth => by
    simp only [visitBlock]
    split
    · exact .pure _
    · exact statements_couples statements _

theorem scoped_couples (kind : ScopeKind) : ∀ (block : Option Block) (depth : Nat),
    Couples (visitScoped s kind block depth) (visitScoped (s.over source) kind block depth)
  | none, _ => .pure _
  | some (.mk span statements), depth => by
    simp only [visitScoped]
    refine within_couples kind span ?_
    split
    · exact .pure _
    · exact statements_couples statements _

/-- A doc comment is read off the source. -/
theorem statements_couples : ∀ (statements : List Statement) (depth : Nat),
    Couples (visitStatements s statements depth) (visitStatements (s.over source) statements depth)
  | [], _ => .pure _
  | .mk comments span node :: rest, depth => by
    simp only [visitStatements]
    split
    · exact (statement_couples node span _ _ depth).andThen (statements_couples rest depth)
    · exact statements_couples rest depth

theorem statement_couples : ∀ (node : StatementNode) (span : Span) (doc doc' : Option String)
    (depth : Nat), Couples (visitStatement s node span doc depth)
      (visitStatement (s.over source) node span doc' depth)
  | .empty, _, _, _, _ | .label, _, _, _, _ | .goto, _, _, _, _ | .break, _, _, _, _ => .pure _
  | .declare _ _ names none, span, doc, doc', _ =>
    .change fun _ _ h => h.declareLocals s source span doc doc' _ _
  | .declare _ _ names (some values), span, doc, doc', depth =>
    (list_couples values depth).bind fun _ =>
      .change fun _ _ h => h.declareLocals s source span doc doc' _ _
  | .implicitGlobals none, _, _, _, _ => .pure _
  | .implicitGlobals (some (name, _)), _, _, _, depth =>
    (name_couples s source name _).andThen (.pure _)
  | .assign targets values, span, doc, doc', depth => by
    simp only [visitStatement]
    exact (list_couples values depth).bind fun found =>
      targets_couples targets found span doc doc' depth
  | .function reach name (.mk parameters block stop), span, doc, doc', depth => by
    simp only [visitStatement]
    have hname : Couples
        (fun b => b.declareFunction s reach name span parameters.names doc : Walk σ _)
        (fun b => b.declareFunction (s.over source) reach name span parameters.names doc') :=
      fun _ _ h => h.declareFunction s source reach name span parameters.names doc doc'
    refine hname.bind fun defined => ?_
    refine (function_couples s source parameters stop _ defined.container
      (block_couples block _)).bind fun returns => ?_
    exact .change fun _ _ h => h.finishFunction defined.symbol returns
  | .do body, span, _, _, depth => by
    simp only [visitStatement]
    split
    · exact within_couples .block span (block_couples body _)
    · exact .pure _
  | .while condition body, _, _, _, depth => by
    simp only [visitStatement]
    exact (expr_couples condition _).andThen (scoped_couples .loop body depth)
  | .repeat body condition, span, _, _, depth => by
    simp only [visitStatement]
    exact within_couples .loop span
      ((block_couples body _).andThen ((expr_couples condition _).andThen (.pure _)))
  | .if condition body rest none, _, _, _, depth =>
    (expr_couples condition _).andThen ((scoped_couples .block body depth).andThen
      ((elseIfs_couples rest depth).andThen (.pure _)))
  | .if condition body rest (some block), _, _, _, depth =>
    (expr_couples condition _).andThen ((scoped_couples .block body depth).andThen
      ((elseIfs_couples rest depth).andThen (scoped_couples .block block depth)))
  | .numericFor counter start limit step body, span, _, _, depth => by
    have hcounter : Couples
        (modify (Binder.declareCounter s span .number counter) : Walk σ Unit)
        (modify (Binder.declareCounter (s.over source) span .number counter)) :=
      .change fun _ _ h => h.declareCounter s source span .number counter
    have hloop := within_couples .loop span (hcounter.andThen (block_couples body (depth + 1)))
    cases step with
    | none => exact (expr_couples start _).andThen ((expr_couples limit _).andThen hloop)
    | some step =>
      exact (expr_couples start _).andThen ((expr_couples limit _).andThen
        ((expr_couples step _).andThen hloop))
  | .genericFor names values body, span, _, _, depth => by
    simp only [visitStatement]
    refine (list_couples values depth).andThen (within_couples .loop span ?_)
    exact .andThen (.change fun _ _ h => h.declareCounters s source span .unknown names)
      (block_couples body _)
  | .return none, _, _, _, _ => .pure _
  | .return (some values), _, _, _, depth => by
    refine (list_couples values depth).bind fun found => ?_
    cases found with
    | nil => exact .pure _
    | cons first _ => exact .change fun _ _ h => h.noteReturn first
  | .call call, _, _, _, depth => by
    simp only [visitStatement]
    exact (expr_couples call _).andThen (.pure _)

theorem elseIfs_couples : ∀ (rest : List ElseIf) (depth : Nat),
    Couples (visitElseIfs s rest depth) (visitElseIfs (s.over source) rest depth)
  | [], _ => .pure _
  | .mk condition body :: rest, depth => by
    simp only [visitElseIfs]
    exact (expr_couples condition _).andThen
      ((scoped_couples .block body depth).andThen (elseIfs_couples rest depth))

theorem targets_couples : ∀ (targets : List Expr) (values : List Inferred) (span : Span)
    (doc doc' : Option String) (depth : Nat),
    Couples (assignTargets s targets values span doc depth)
      (assignTargets (s.over source) targets values span doc' depth)
  | [], _, _, _, _, _ => .pure _
  | target :: rest, values, span, doc, doc', depth => by
    have hrest := fun values => targets_couples rest values span doc doc' depth
    have hother : Couples
        (do
          let _ ← inferExpr s target (depth + 1)
          assignTargets s rest values.tail span doc depth)
        (do
          let _ ← inferExpr (s.over source) target (depth + 1)
          assignTargets (s.over source) rest values.tail span doc' depth) :=
      (expr_couples target _).andThen (hrest _)
    cases target with
    | global => exact hrest values
    | name ident =>
      have hassign : Couples
          (modify (Binder.assignName s ident span (values.headD {}) doc) : Walk σ Unit)
          (modify (Binder.assignName (s.over source) ident span (values.headD {}) doc')) :=
        .change fun _ _ h => h.assignName s source ident span _ doc doc'
      exact hassign.andThen (hrest values.tail)
    | field base key =>
      simp only [assignTargets]
      split
      · refine .andThen (.change fun _ _ h => ?_) (hrest values.tail)
        exact (h.defineMember s source _ _ span _ doc doc').2
      · exact (expr_couples base _).andThen (hrest values.tail)
    | _ => exact hother

end

end Source

end Walk

end LuaScope

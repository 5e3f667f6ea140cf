import LuaScope.Binding.Walk

/-!
# LuaScope.Proofs.Binding.Walk

What a walk may do to its state, said once for every statement and expression.

* `Binder.FrameLaws` — three relations between states: `E` is kept by all that an expression does,
  `D` also by declarations in the scope, `S` also by the `return`s of the frame. Only the single
  changes of a state are asked for, those of types in `Binder.TypeLaws`, declarations in
  `Binder.DeclareLaws`; leaving a function turns `S` around its body into `E`.
* `Walk.expr_steps`, `Walk.statement_steps` and the others — then every walk keeps them.
* `Binder.Laws`, `Walk.statements_moves` — the same for relations that do not tell `D` from `S`, and
  that take the inside of a scope or of a frame one by one.
-/

namespace LuaScope

/-- A change of symbols that leaves alone where and as what they were declared. -/
structure SymbolOver.Keeps {ρ : Type} (f : SymbolOver ρ → SymbolOver ρ) : Prop where
  id : ∀ x, (f x).id = x.id
  name : ∀ x, (f x).name = x.name
  document : ∀ x, (f x).document = x.document
  range : ∀ x, (f x).range = x.range
  span : ∀ x, (f x).span = x.span
  fullRange : ∀ x, (f x).fullRange = x.fullRange
  scope : ∀ x, (f x).scope = x.scope
  isLocal : ∀ x, (f x).isLocal = x.isLocal
  doc : ∀ x, (f x).doc = x.doc

namespace Binder

variable {σ : Type}

/-- `E` is kept by what changes types, and by the loader. -/
structure TypeLaws (s : Setting σ) (E : Binder σ → Binder σ → Prop) : Prop where
  refl : ∀ b, E b b
  trans : ∀ a b c, E a b → E b c → E a c
  modify : ∀ id f b, SymbolOver.Keeps f → E b (b.modifySymbol id f)
  load : ∀ name (b : Binder σ), E b { b with world := (s.loader name b.world).2 }

/-- `E` is kept by what changes members and references, `D` also by what declares names. -/
structure DeclareLaws (s : Setting σ) (E D : Binder σ → Binder σ → Prop) : Prop
    extends TypeLaws s E where
  outerTrans : ∀ a b c, D a b → D b c → D a c
  weaken : ∀ a b, E a b → D a b
  record : ∀ first last target b, E b (b.record s first last target)
  member : ∀ symbol b, symbol.id = b.table.nextSymbolId → E b (b.addMember symbol)
  declare : ∀ (symbol : Symbol) b, symbol.id = b.table.nextSymbolId → symbol.scope = b.scope →
    D b (b.declare symbol)

/-- `E` is kept by every change that an expression makes, `S` by those of a statement. -/
structure Laws (s : Setting σ) (E S : Binder σ → Binder σ → Prop) : Prop
    extends DeclareLaws s E S where
  note : ∀ value b, S b (b.noteReturn value)
  scope : ∀ kind span b b', S (b.enterScope kind span) b' → E b (b'.backTo b.scope)
  frame : ∀ b b', S b.pushFrame b' → S b b'.popFrame.2

/-- `E` is kept by every change that an expression makes, `D` by declarations, `S` by those of a
statement. A function is entered with its declarations, and its body leaves only a frame behind. -/
structure FrameLaws (s : Setting σ) (E D S : Binder σ → Binder σ → Prop) : Prop
    extends DeclareLaws s E D where
  bodyTrans : ∀ a b c, S a b → S b c → S a c
  widen : ∀ a b, D a b → S a b
  note : ∀ value b, S b (b.noteReturn value)
  scope : ∀ kind span b b', S (b.enterScope kind span) b' → S b (b'.backTo b.scope)
  function : ∀ kind span b b₁ b', D (b.enterScope kind span) b₁ → S b₁.pushFrame b' →
    E b (b'.popFrame.2.backTo b.scope)

theorem keeps_ownedBy (owner : SymbolId) : SymbolOver.Keeps (ownedBy owner) := by
  constructor <;> intro x <;> unfold ownedBy <;> split <;> rfl

theorem keeps_refined (value : Inferred) : SymbolOver.Keeps (refined value) := by
  constructor <;> intro x <;> rfl

theorem keeps_asTable : SymbolOver.Keeps asTable := by
  constructor <;> intro x <;> unfold asTable <;> split <;> rfl

theorem keeps_mapTable (f : Table → Table) : SymbolOver.Keeps (mapTable f) := by
  constructor <;> intro x <;> unfold mapTable <;> split <;> rfl

theorem keeps_withReturns (returns : Ty) : SymbolOver.Keeps (withReturns returns) := by
  constructor <;> intro x <;> unfold withReturns <;> split <;> rfl

namespace TypeLaws

variable {s : Setting σ} {E : Binder σ → Binder σ → Prop}

theorem adopt (laws : TypeLaws s E) (owner : SymbolId) (b : Binder σ) :
    E b (b.adoptMembers owner) := by
  have hfold : ∀ (members : Members) b,
      E b (members.foldl (fun b member => b.modifySymbol member.2 (ownedBy owner)) b) := by
    intro members
    induction members with
    | nil => exact laws.refl
    | cons member members ih =>
      exact fun b => laws.trans _ _ _ (laws.modify _ _ b (keeps_ownedBy owner)) (ih _)
  unfold adoptMembers
  split
  · split
    · exact laws.refl b
    · exact hfold _ b
  · exact laws.refl b

theorem refine (laws : TypeLaws s E) (id : SymbolId) (value : Inferred) (b : Binder σ) :
    E b (b.refine id value) := by
  unfold Binder.refine
  split
  · exact laws.refl b
  · exact laws.trans _ _ _ (laws.modify id _ b (keeps_refined value)) (laws.adopt id _)

theorem setPrototype (laws : TypeLaws s E) {link : Link} {prototype : Prototype}
    {b b' : Binder σ} (h : b.setPrototype link prototype = some b') : E b b' := by
  unfold Binder.setPrototype at h
  simp only at h
  split at h
  · cases h
  · split at h
    · split at h
      · cases h
      · cases h
        exact laws.trans _ _ _ (laws.modify _ _ b keeps_asTable)
          (laws.modify _ _ _ (keeps_mapTable _))
    · cases h

theorem finishFunction (laws : TypeLaws s E) (id? : Option SymbolId) (returns : Ty)
    (b : Binder σ) : E b (b.finishFunction id? returns) := by
  cases id? with
  | none => exact laws.refl b
  | some id => exact laws.modify id _ b (keeps_withReturns returns)

theorem require (laws : TypeLaws s E) (name : String) (b : Binder σ) :
    E b (b.require s name).2 := by
  unfold Binder.require
  simp only
  split
  · split <;> exact laws.load name b
  · exact laws.load name b

theorem attachPrototype (laws : TypeLaws s E) (target : Inferred) (prototype : Option Prototype)
    (b : Binder σ) : E b (b.attachPrototype target prototype).2 := by
  unfold Binder.attachPrototype
  split
  · exact laws.refl b
  · split
    · rename_i hset
      obtain ⟨_, _, hset⟩ := Option.bind_eq_some_iff.mp hset
      obtain ⟨_, hset, heq⟩ := Option.map_eq_some_iff.mp hset
      cases heq
      exact laws.setPrototype hset
    · split
      · split <;> exact laws.refl b
      · exact laws.refl b
      · exact laws.refl b
      · exact laws.refl b

end TypeLaws

namespace DeclareLaws

variable {s : Setting σ} {E D : Binder σ → Binder σ → Prop}

theorem outerRefl (laws : DeclareLaws s E D) (b : Binder σ) : D b b :=
  laws.weaken _ _ (laws.refl b)

theorem recordAll (laws : DeclareLaws s E D) (first : Ident) :
    ∀ segments links b, E b (b.recordAll s first segments links)
  | [], _, b => laws.refl b
  | _ :: _, [], b => laws.refl b
  | segment :: segments, link :: links, b =>
    laws.trans _ _ _ (laws.record first segment link b) (laws.recordAll first segments links _)

theorem path (laws : DeclareLaws s E D) (path : List Ident) (b : Binder σ) :
    E b (b.inferPath s path).2 := by
  cases path with
  | nil => exact laws.refl b
  | cons first rest =>
    simp only [inferPath]
    split <;> exact laws.recordAll first _ _ b

theorem bind (laws : DeclareLaws s E D) (symbol : Symbol) (b : Binder σ)
    (hid : symbol.id = b.table.nextSymbolId) (hscope : symbol.scope = b.scope) :
    D b (b.bind symbol) :=
  laws.outerTrans _ _ _ (laws.declare symbol b hid hscope) (laws.weaken _ _ (laws.adopt _ _))

theorem insertMember (laws : DeclareLaws s E D) {container : Link} {symbol : Symbol} {b b' : Binder σ}
    {id : SymbolId} (hid : symbol.id = b.table.nextSymbolId)
    (h : b.insertMember container symbol = some (id, b')) : E b b' := by
  unfold Binder.insertMember at h
  split at h
  · cases h
  · rename_i target _
    cases h
    refine laws.trans _ _ _ (laws.modify target _ b keeps_asTable) ?_
    refine laws.trans _ _ _ (laws.member _ _ ?_) (laws.modify target _ _ (keeps_mapTable _))
    simpa [Binder.modifySymbol, SymbolTableOver.modifySymbol, SymbolTableOver.nextSymbolId]
      using hid

theorem defineMember (laws : DeclareLaws s E D) (path : List Ident) (kind : SymbolKind) (span : Span)
    (value : Inferred) (doc : Option String) (b : Binder σ) :
    E b (b.defineMember s path kind span value doc).2 := by
  unfold Binder.defineMember
  split
  · rename_i first last _ _
    refine laws.trans _ _ _ (laws.recordAll first path (b.walkPath path).dropLast b) ?_
    simp only
    generalize Binder.recordAll s first path (b.walkPath path).dropLast b = b₁
    split
    · rename_i existing _
      refine laws.trans _ _ _ (laws.record first last (some existing) b₁) ?_
      split
      · exact laws.refine _ value _
      · exact laws.refl _
    · split
      · exact laws.record first last none b₁
      · split
        · rename_i hinsert
          exact laws.trans _ _ _ (laws.insertMember rfl hinsert) (laws.adopt _ _)
        · exact laws.record first last none b₁
  · exact laws.refl b

theorem assignName (laws : DeclareLaws s E D) (name : Ident) (span : Span) (value : Inferred)
    (doc : Option String) (b : Binder σ) : D b (b.assignName s name span value doc) := by
  unfold Binder.assignName
  split
  · rename_i id _
    exact laws.weaken _ _
      (laws.trans _ _ _ (laws.record name name _ b) (laws.refine id value _))
  · split
    · exact laws.bind _ b rfl rfl
    · exact laws.weaken _ _ (laws.record name name none b)

theorem declareLocals (laws : DeclareLaws s E D) (span : Span) (doc : Option String) :
    ∀ names values b, D b (b.declareLocals s span doc names values)
  | [], _, b => laws.outerRefl b
  | _ :: names, values, b =>
    laws.outerTrans _ _ _ (laws.bind _ b rfl rfl) (laws.declareLocals span doc names values.tail _)

theorem declareCounter (laws : DeclareLaws s E D) (span : Span) (ty : Ty) (name : Ident)
    (b : Binder σ) : D b (b.declareCounter s span ty name) := laws.declare _ b rfl rfl

theorem declareSelf (laws : DeclareLaws s E D) (parameters : Span) (container : Option Link)
    (b : Binder σ) : D b (b.declareSelf s parameters container) := laws.declare _ b rfl rfl

theorem declareParameters (laws : DeclareLaws s E D) (parameters : Span) :
    ∀ entries b, D b (b.declareParameters s parameters entries)
  | [], b => laws.outerRefl b
  | .vararg :: rest, b => laws.declareParameters parameters rest b
  | .name _ :: rest, b =>
    laws.outerTrans _ _ _ (laws.declare _ b rfl rfl) (laws.declareParameters parameters rest _)

theorem declareFunction (laws : DeclareLaws s E D) (reach : FunctionReach) (name : FunctionName)
    (span : Span) (params : List String) (doc : Option String) (b : Binder σ) :
    D b (b.declareFunction s reach name span params doc).2 := by
  unfold Binder.declareFunction
  simp only
  split
  · exact laws.weaken _ _ (laws.defineMember _ _ span _ doc b)
  · split
    · exact laws.declare _ b rfl rfl
    · split
      · rename_i id _
        refine laws.weaken _ _
          (laws.trans _ _ _ (laws.record name.head name.head (some (.here id)) b) ?_)
        exact laws.modify id _ _ (by constructor <;> intro x <;> rfl)
      · exact laws.declare _ b rfl rfl

theorem declareCounters (laws : DeclareLaws s E D) (span : Span) (ty : Ty) :
    ∀ (names : List Ident) b, D b (names.foldl (fun b name => b.declareCounter s span ty name) b)
  | [], b => laws.outerRefl b
  | name :: names, b =>
    laws.outerTrans _ _ _ (laws.declareCounter span ty name b) (laws.declareCounters span ty names _)

end DeclareLaws

namespace FrameLaws

variable {s : Setting σ} {E D S : Binder σ → Binder σ → Prop}

theorem coarsen (laws : FrameLaws s E D S) (a b : Binder σ) (h : E a b) : S a b :=
  laws.widen a b (laws.weaken a b h)

theorem bodyRefl (laws : FrameLaws s E D S) (b : Binder σ) : S b b := laws.coarsen b b (laws.refl b)

end FrameLaws

theorem Laws.frames {s : Setting σ} {E S : Binder σ → Binder σ → Prop} (laws : Laws s E S) :
    FrameLaws s E S S where
  toDeclareLaws := laws.toDeclareLaws
  bodyTrans := laws.outerTrans
  widen _ _ h := h
  note := laws.note
  scope kind span b b' h := laws.weaken _ _ (laws.scope kind span b b' h)
  function kind span b b₁ b' hentered hbody :=
    laws.scope kind span b _ (laws.outerTrans _ _ _ hentered (laws.frame b₁ b' hbody))

/-! ## Functions -/

/-- The state at the start of a function's body: its parameters are declared, its frame is empty. -/
def enterFunction (s : Setting σ) (parameters : Parameters) (stop : Nat) (isMethod : Bool)
    (container : Option Link) (b : Binder σ) : Binder σ :=
  let b := b.enterScope .function ⟨parameters.span.start, stop⟩
  let b := if isMethod then b.declareSelf s parameters.span container else b
  (b.declareParameters s parameters.span parameters.entries).pushFrame

/-- Behind the body: the type of the frame, and the state outside the function. -/
def leaveFunction (b : Binder σ) (outer : ScopeId) : Ty × Binder σ :=
  (b.popFrame.1, b.popFrame.2.backTo outer)

end Binder

variable {σ : Type}

theorem Walk.inFunction_eq (s : Setting σ) (parameters : Parameters) (stop : Nat) (isMethod : Bool)
    (container : Option Link) (body : Walk σ Unit) (b : Binder σ) :
    inFunction s parameters stop isMethod container body b =
      (body (b.enterFunction s parameters stop isMethod container)).2.leaveFunction b.scope := by
  cases isMethod <;> rfl

namespace Walk

/-- Each run of the step leads from its state to one that `R` relates to it. -/
def Moves {α : Type} (R : Binder σ → Binder σ → Prop) (w : Walk σ α) : Prop :=
  ∀ b, R b (w b).2

namespace Moves

variable {α β : Type} {R : Binder σ → Binder σ → Prop}

theorem pure (refl : ∀ b, R b b) (a : α) : Moves R (Pure.pure a : Walk σ α) := refl

theorem bind (trans : ∀ a b c, R a b → R b c → R a c) {w : Walk σ α} {k : α → Walk σ β}
    (hw : Moves R w) (hk : ∀ a, Moves R (k a)) : Moves R (w >>= k) :=
  fun b => trans _ _ _ (hw b) (hk (w b).1 (w b).2)

theorem change {f : Binder σ → Binder σ} (h : ∀ b, R b (f b)) :
    Moves R (modify f : Walk σ Unit) := h

theorem mono {R' : Binder σ → Binder σ → Prop} (h : ∀ a b, R a b → R' a b) {w : Walk σ α}
    (hw : Moves R w) : Moves R' w := fun b => h _ _ (hw b)

end Moves

section Laws

variable {s : Setting σ} {E D S : Binder σ → Binder σ → Prop}

theorem name_steps (laws : Binder.FrameLaws s E D S) (ident : Ident) (depth : Nat) :
    Moves E (inferName s ident depth) := by
  unfold inferName
  split
  · exact .pure laws.refl _
  · exact laws.path [ident]

theorem within_steps (laws : Binder.FrameLaws s E D S) (kind : ScopeKind) (span : Span)
    {inside : Walk σ Unit} (hinside : Moves S inside) : Moves S (within kind span inside) :=
  fun b => laws.scope kind span b _ (hinside (b.enterScope kind span))

/-- The scope of a function holds its parameters, and its frame is inside the scope. -/
theorem function_steps (laws : Binder.FrameLaws s E D S) (parameters : Parameters) (stop : Nat)
    (isMethod : Bool) (container : Option Link) {body : Walk σ Unit} (hbody : Moves S body) :
    Moves E (inFunction s parameters stop isMethod container body) := by
  intro b
  have hself : ∀ b : Binder σ,
      D b (if isMethod then b.declareSelf s parameters.span container else b) := by
    intro b
    split
    · exact laws.declareSelf _ _ b
    · exact laws.outerRefl b
  rw [inFunction_eq]
  refine laws.function .function ⟨parameters.span.start, stop⟩ b _ _ ?_ (hbody _)
  exact laws.outerTrans _ _ _ (hself _)
    (laws.declareParameters parameters.span parameters.entries _)

mutual

theorem expr_steps (laws : Binder.FrameLaws s E D S) : ∀ e depth, Moves E (inferExpr s e depth)
  | .nil, depth | .boolean, depth | .number, depth | .literal _, depth => by
    simp only [inferExpr]
    split <;> exact .pure laws.refl _
  | .vararg, _ | .global, _ => .pure laws.refl _
  | .name ident, depth => name_steps laws ident depth
  | .field base key, depth => by
    simp only [inferExpr]
    split
    · exact .pure laws.refl _
    · split
      · exact laws.path _
      · refine .bind laws.trans (expr_steps laws base _) fun _ => ?_
        exact .bind laws.trans (name_steps laws key _) fun _ => .pure laws.refl _
  | .subscript base key, depth => by
    simp only [inferExpr]
    split
    · exact .pure laws.refl _
    · refine .bind laws.trans (expr_steps laws base _) fun _ => ?_
      exact .bind laws.trans (expr_steps laws key _) fun _ => .pure laws.refl _
  | .paren inner, depth => by
    simp only [inferExpr]
    split
    · exact .pure laws.refl _
    · exact expr_steps laws inner _
  | .table fields, depth => by
    simp only [inferExpr]
    split
    · exact .pure laws.refl _
    · exact .bind laws.trans (fields_steps laws fields _ _) fun _ => .pure laws.refl _
  | .function (.mk parameters block stop), depth => by
    simp only [inferExpr]
    split
    · exact .pure laws.refl _
    · refine .bind laws.trans ?_ fun _ => .pure laws.refl _
      exact function_steps laws _ _ _ _ (block_steps laws block _)
  | .call callee method arguments, depth => by
    simp only [inferExpr]
    split
    · exact .pure laws.refl _
    · split
      · exact laws.require _
      · exact setmetatable_steps laws arguments depth
      · refine .bind laws.trans (expr_steps laws _ _) fun _ => ?_
        exact .bind laws.trans (list_steps laws arguments _) fun _ => .pure laws.refl _
      · have harguments : ∀ value : Inferred, Moves E (do
            let _ ← inferList s arguments depth
            pure (Binder.callResult value)) :=
          fun _ => .bind laws.trans (list_steps laws arguments _) fun _ => .pure laws.refl _
        split
        · exact .bind laws.trans (.pure laws.refl _) harguments
        · split
          · exact .bind laws.trans (laws.path _) harguments
          · refine .bind laws.trans (expr_steps laws _ _) fun _ => ?_
            refine .bind laws.trans (name_steps laws _ _) fun _ => ?_
            exact .bind laws.trans (.pure laws.refl _) harguments
  | .binary op _ left right, depth => by
    simp only [inferExpr]
    split
    · exact .pure laws.refl _
    · refine .bind laws.trans (expr_steps laws left _) fun _ => ?_
      exact .bind laws.trans (expr_steps laws right _) fun _ => .pure laws.refl _
  | .unary op _ operand, depth => by
    simp only [inferExpr]
    split
    · exact .pure laws.refl _
    · exact .bind laws.trans (expr_steps laws operand _) fun _ => .pure laws.refl _

theorem list_steps (laws : Binder.FrameLaws s E D S) : ∀ es depth, Moves E (inferList s es depth)
  | [], _ => .pure laws.refl _
  | e :: rest, depth => by
    have hrest := list_steps laws rest depth
    have hcons : Moves E (do
        let value ← inferExpr s e (depth + 1)
        return value :: (← inferList s rest depth)) :=
      .bind laws.trans (expr_steps laws e _) fun _ =>
        .bind laws.trans hrest fun _ => .pure laws.refl _
    cases e <;> first | exact hrest | exact hcons

theorem fields_steps (laws : Binder.FrameLaws s E D S) :
    ∀ fields depth members, Moves E (inferFields s fields depth members)
  | [], _, _ => .pure laws.refl _
  | .positional value :: rest, depth, members | .unnamed value :: rest, depth, members => by
    simp only [inferFields]
    exact .bind laws.trans (expr_steps laws value _) fun _ => fields_steps laws rest _ _
  | .computed key value :: rest, depth, members => by
    simp only [inferFields]
    refine .bind laws.trans (expr_steps laws key _) fun _ => ?_
    exact .bind laws.trans (expr_steps laws value _) fun _ => fields_steps laws rest _ _
  | .named comments span key value :: rest, depth, members => by
    simp only [inferFields]
    refine .bind laws.trans (expr_steps laws value _) fun found => ?_
    intro b
    let symbol := Binder.newSymbol s b key (.ofTy found.ty .field) span found false
      (Comment.doc? s.source.lines span.start comments)
    have hmember : E b (b.addMember symbol) := laws.member symbol b rfl
    have hadopt : E (b.addMember symbol) ((b.addMember symbol).adoptMembers symbol.id) :=
      laws.adopt symbol.id _
    exact laws.trans _ _ _ (laws.trans _ _ _ hmember hadopt)
      (fields_steps laws rest depth (members.insert key.name symbol.id) _)

theorem setmetatable_steps (laws : Binder.FrameLaws s E D S) :
    ∀ arguments depth, Moves E (inferSetmetatable s arguments depth)
  | [], _ => .pure laws.refl _
  | target :: rest, depth => by
    have hrest := setmetatable_steps laws rest depth
    have hcons : Moves E (do
        let target ← inferExpr s target (depth + 1)
        let prototype ← inferMetatable s rest depth
        fun b => b.attachPrototype target prototype) :=
      .bind laws.trans (expr_steps laws target _) fun _ =>
        .bind laws.trans (metatable_steps laws rest _) fun _ => laws.attachPrototype _ _
    cases target <;> first | exact hrest | exact hcons

theorem metatable_steps (laws : Binder.FrameLaws s E D S) :
    ∀ arguments depth, Moves E (inferMetatable s arguments depth)
  | [], _ => .pure laws.refl _
  | metatable :: rest, depth => by
    have hrest := metatable_steps laws rest depth
    have hcons : Moves E (do
        let value ← inferExpr s metatable (depth + 1)
        let _ ← inferList s rest depth
        pure (value.alias.map PrototypeOver.metatable)) :=
      .bind laws.trans (expr_steps laws metatable _) fun _ =>
        .bind laws.trans (list_steps laws rest _) fun _ => .pure laws.refl _
    cases metatable with
    | global => exact hrest
    | table fields =>
      refine .bind laws.trans (fields_steps laws fields _ _) fun _ => ?_
      exact .bind laws.trans (list_steps laws rest _) fun _ => .pure laws.refl _
    | _ => exact hcons

theorem block_steps (laws : Binder.FrameLaws s E D S) :
    ∀ block depth, Moves S (visitBlock s block depth)
  | none, _ => .pure laws.bodyRefl _
  | some (.mk _ statements), depth => by
    simp only [visitBlock]
    split
    · exact .pure laws.bodyRefl _
    · exact statements_steps laws statements _

theorem scoped_steps (laws : Binder.FrameLaws s E D S) (kind : ScopeKind) :
    ∀ block depth, Moves S (visitScoped s kind block depth)
  | none, _ => .pure laws.bodyRefl _
  | some (.mk _ statements), depth => by
    simp only [visitScoped]
    refine within_steps laws _ _ ?_
    split
    · exact .pure laws.bodyRefl _
    · exact statements_steps laws statements _

theorem statements_steps (laws : Binder.FrameLaws s E D S) :
    ∀ statements depth, Moves S (visitStatements s statements depth)
  | [], _ => .pure laws.bodyRefl _
  | .mk comments span node :: rest, depth => by
    simp only [visitStatements]
    split
    · exact .bind laws.bodyTrans (statement_steps laws node _ _ _) fun _ =>
        statements_steps laws rest depth
    · exact statements_steps laws rest depth

theorem statement_steps (laws : Binder.FrameLaws s E D S) :
    ∀ node span doc depth, Moves S (visitStatement s node span doc depth)
  | .empty, _, _, _ | .label, _, _, _ | .goto, _, _, _ | .break, _, _, _ =>
    .pure laws.bodyRefl _
  | .declare _ _ _ none, span, doc, _ =>
    .mono laws.widen (.change (laws.declareLocals span doc _ _))
  | .declare _ _ _ (some values), span, doc, depth =>
    .bind laws.bodyTrans (.mono laws.coarsen (list_steps laws values depth)) fun _ =>
      .mono laws.widen (.change (laws.declareLocals span doc _ _))
  | .implicitGlobals none, _, _, _ => .pure laws.bodyRefl _
  | .implicitGlobals (some (name, _)), _, _, depth =>
    .mono laws.coarsen (.bind laws.trans (name_steps laws name _) fun _ => .pure laws.refl _)
  | .assign targets values, span, doc, depth => by
    simp only [visitStatement]
    exact .bind laws.bodyTrans (.mono laws.coarsen (list_steps laws values _)) fun _ =>
      .mono laws.widen (targets_steps laws targets _ _ _ _)
  | .function reach name body, span, doc, depth =>
    .mono laws.widen (declaration_steps laws reach name body span doc depth)
  | .do body, span, _, depth => by
    simp only [visitStatement]
    split
    · exact within_steps laws _ _ (block_steps laws body _)
    · exact .pure laws.bodyRefl _
  | .while condition body, _, _, depth => by
    simp only [visitStatement]
    exact .bind laws.bodyTrans (.mono laws.coarsen (expr_steps laws condition _)) fun _ =>
      scoped_steps laws _ body _
  | .repeat body condition, span, _, depth => by
    simp only [visitStatement]
    refine within_steps laws _ _ ?_
    refine .bind laws.bodyTrans (block_steps laws body _) fun _ => ?_
    exact .mono laws.coarsen
      (.bind laws.trans (expr_steps laws condition _) fun _ => .pure laws.refl _)
  | .if condition body rest none, _, _, depth => by
    refine .bind laws.bodyTrans (.mono laws.coarsen (expr_steps laws condition _)) fun _ => ?_
    refine .bind laws.bodyTrans (scoped_steps laws _ body depth) fun _ => ?_
    exact .bind laws.bodyTrans (elseIfs_steps laws rest depth) fun _ => .pure laws.bodyRefl _
  | .if condition body rest (some block), _, _, depth => by
    refine .bind laws.bodyTrans (.mono laws.coarsen (expr_steps laws condition _)) fun _ => ?_
    refine .bind laws.bodyTrans (scoped_steps laws _ body depth) fun _ => ?_
    exact .bind laws.bodyTrans (elseIfs_steps laws rest depth) fun _ =>
      scoped_steps laws _ block depth
  | .numericFor counter start limit none body, span, _, depth => by
    refine .bind laws.bodyTrans (.mono laws.coarsen (expr_steps laws start _)) fun _ => ?_
    refine .bind laws.bodyTrans (.mono laws.coarsen (expr_steps laws limit _)) fun _ => ?_
    exact within_steps laws .loop span (.bind laws.bodyTrans
      (.mono laws.widen (.change (laws.declareCounter span .number counter))) fun _ =>
        block_steps laws body (depth + 1))
  | .numericFor counter start limit (some step) body, span, _, depth => by
    refine .bind laws.bodyTrans (.mono laws.coarsen (expr_steps laws start _)) fun _ => ?_
    refine .bind laws.bodyTrans (.mono laws.coarsen (expr_steps laws limit _)) fun _ => ?_
    refine .bind laws.bodyTrans (.mono laws.coarsen (expr_steps laws step _)) fun _ => ?_
    exact within_steps laws .loop span (.bind laws.bodyTrans
      (.mono laws.widen (.change (laws.declareCounter span .number counter))) fun _ =>
        block_steps laws body (depth + 1))
  | .genericFor names values body, span, _, depth => by
    simp only [visitStatement]
    refine .bind laws.bodyTrans (.mono laws.coarsen (list_steps laws values _)) fun _ => ?_
    exact within_steps laws _ _ (.bind laws.bodyTrans
      (.mono laws.widen (.change (laws.declareCounters span .unknown names))) fun _ =>
        block_steps laws body _)
  | .return none, _, _, _ => .pure laws.bodyRefl _
  | .return (some values), _, _, depth => by
    refine .bind laws.bodyTrans (.mono laws.coarsen (list_steps laws values depth)) fun found => ?_
    cases found with
    | nil => exact .pure laws.bodyRefl _
    | cons first _ => exact .change (laws.note first)
  | .call call, _, _, depth => by
    simp only [visitStatement]
    exact .mono laws.coarsen
      (.bind laws.trans (expr_steps laws call _) fun _ => .pure laws.refl _)

theorem declaration_steps (laws : Binder.FrameLaws s E D S) (reach : FunctionReach)
    (name : FunctionName) : ∀ body span doc depth,
      Moves D (visitStatement s (.function reach name body) span doc depth)
  | .mk parameters block stop, span, doc, depth => by
    simp only [visitStatement]
    refine .bind laws.outerTrans (laws.declareFunction reach name span _ doc) fun _ => ?_
    refine .bind laws.outerTrans (.mono laws.weaken (function_steps laws _ _ _ _
      (block_steps laws block _))) fun _ => ?_
    exact .change fun b => laws.weaken _ _ (laws.finishFunction _ _ b)

theorem elseIfs_steps (laws : Binder.FrameLaws s E D S) :
    ∀ rest depth, Moves S (visitElseIfs s rest depth)
  | [], _ => .pure laws.bodyRefl _
  | .mk condition body :: rest, depth => by
    simp only [visitElseIfs]
    refine .bind laws.bodyTrans (.mono laws.coarsen (expr_steps laws condition _)) fun _ => ?_
    exact .bind laws.bodyTrans (scoped_steps laws _ body _) fun _ => elseIfs_steps laws rest depth

theorem targets_steps (laws : Binder.FrameLaws s E D S) :
    ∀ targets values span doc depth, Moves D (assignTargets s targets values span doc depth)
  | [], _, _, _, _ => .pure laws.outerRefl _
  | target :: rest, values, span, doc, depth => by
    have hrest := fun values => targets_steps laws rest values span doc depth
    have hother : Moves D (do
        let _ ← inferExpr s target (depth + 1)
        assignTargets s rest values.tail span doc depth) :=
      .bind laws.outerTrans (.mono laws.weaken (expr_steps laws target _)) fun _ => hrest _
    cases target with
    | global => exact hrest values
    | name ident =>
      exact .bind laws.outerTrans (.change (laws.assignName ident span _ doc)) fun _ => hrest _
    | field base key =>
      simp only [assignTargets]
      split
      · refine .bind laws.outerTrans (.change fun b => ?_) fun _ => hrest _
        exact laws.weaken _ _ (laws.defineMember _ _ _ _ _ b)
      · exact .bind laws.outerTrans (.mono laws.weaken (expr_steps laws base _)) fun _ => hrest _
    | _ => exact hother

end

theorem statements_moves (laws : Binder.Laws s E S) (statements : List Statement) (depth : Nat) :
    Moves S (visitStatements s statements depth) :=
  statements_steps laws.frames statements depth

end Laws

end Walk

end LuaScope

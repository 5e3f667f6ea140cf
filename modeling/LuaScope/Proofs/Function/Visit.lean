import LuaScope.Proofs.Binding.Walk
import LuaScope.Proofs.Function.Node
import LuaScope.Proofs.Scoping.Lexical

/-!
# LuaScope.Proofs.Function.Visit

The functions that a walk enters, each with the state in which it does.

* `FunctionVisit`       — a function that is entered.
* `Walk.exprVisits` and the others — what is entered below a piece of syntax, in the order of the walk.
* `Chunk.visits_enter`  — functions of a chunk are entered at most once, and all of them if the chunk
  is not nested too deep.
-/

namespace LuaScope

variable {σ : Type}

/-- A function that a walk enters. -/
structure FunctionVisit (σ : Type) where
  body : FunctionBody
  isMethod : Bool
  /-- Where the table leads that a method is declared for. -/
  container : Option Link
  /-- The symbol that a declaration has given the signature to. -/
  symbol : Option SymbolId
  depth : Nat
  before : Binder σ

namespace FunctionVisit

variable (s : Setting σ) (v : FunctionVisit σ)

def params : List String := v.body.parameters.names

def start : Binder σ :=
  v.before.enterFunction s v.body.parameters v.body.stop v.isMethod v.container

/-- The return type, and the state behind the function. -/
def run : Ty × Binder σ :=
  Walk.inFunction s v.body.parameters v.body.stop v.isMethod v.container
    (Walk.visitBlock s v.body.block (v.depth + 1)) v.before

def returned : Ty := (v.run s).1

def after : Binder σ := (v.run s).2

end FunctionVisit

namespace Walk

mutual

/-- Functions that are entered in an expression at this depth, from this state on. -/
def exprVisits (s : Setting σ) : Expr → Nat → Binder σ → List (FunctionVisit σ)
  | .nil, _, _ | .boolean, _, _ | .number, _, _ | .literal _, _, _ | .vararg, _, _
  | .global, _, _ | .name _, _, _ => []
  | .field base _, depth, b =>
    if maxDepth < depth then []
    else if base.path?.isSome then []
    else exprVisits s base (depth + 1) b
  | .subscript base key, depth, b =>
    if maxDepth < depth then []
    else
      exprVisits s base (depth + 1) b ++
        exprVisits s key (depth + 1) (inferExpr s base (depth + 1) b).2
  | .paren inner, depth, b => if maxDepth < depth then [] else exprVisits s inner (depth + 1) b
  | .table fields, depth, b => if maxDepth < depth then [] else fieldVisits s fields depth b
  | .function body, depth, b =>
    if maxDepth < depth then [] else bodyVisits s body false none none depth b
  | .call callee method arguments, depth, b =>
    if maxDepth < depth then []
    else
      match callee, method, literalArgument arguments with
      | .name ⟨"require", _⟩, none, some _ => []
      | .name ⟨"setmetatable", _⟩, none, _ => setmetatableVisits s arguments depth b
      | _, none, _ =>
        exprVisits s callee (depth + 1) b ++
          listVisits s arguments depth (inferExpr s callee (depth + 1) b).2
      | _, some name, _ =>
        if maxDepth < depth + 1 then listVisits s arguments depth b
        else
          match callee.path? with
          | some path => listVisits s arguments depth (b.inferPath s (path ++ [name])).2
          | none =>
            exprVisits s callee (depth + 2) b ++
              listVisits s arguments depth
                (inferName s name (depth + 2) (inferExpr s callee (depth + 2) b).2).2
  | .binary _ _ left right, depth, b =>
    if maxDepth < depth then []
    else
      exprVisits s left (depth + 1) b ++
        exprVisits s right (depth + 1) (inferExpr s left (depth + 1) b).2
  | .unary _ _ operand, depth, b =>
    if maxDepth < depth then [] else exprVisits s operand (depth + 1) b

def listVisits (s : Setting σ) : List Expr → Nat → Binder σ → List (FunctionVisit σ)
  | [], _, _ => []
  | .global :: rest, depth, b => listVisits s rest depth b
  | e :: rest, depth, b =>
    exprVisits s e (depth + 1) b ++ listVisits s rest depth (inferExpr s e (depth + 1) b).2

/-- What is entered does not depend on the members that are listed so far. -/
def fieldVisits (s : Setting σ) : List Field → Nat → Binder σ → List (FunctionVisit σ)
  | [], _, _ => []
  | .positional value :: rest, depth, b | .unnamed value :: rest, depth, b =>
    exprVisits s value (depth + 1) b ++
      fieldVisits s rest depth (inferExpr s value (depth + 1) b).2
  | .computed key value :: rest, depth, b =>
    let b' := (inferExpr s key (depth + 1) b).2
    exprVisits s key (depth + 1) b ++ (exprVisits s value (depth + 1) b' ++
      fieldVisits s rest depth (inferExpr s value (depth + 1) b').2)
  | .named comments span key value :: rest, depth, b =>
    exprVisits s value (depth + 1) b ++
      fieldVisits s rest depth (inferFields s [.named comments span key value] depth [] b).2

def setmetatableVisits (s : Setting σ) : List Expr → Nat → Binder σ → List (FunctionVisit σ)
  | [], _, _ => []
  | .global :: rest, depth, b => setmetatableVisits s rest depth b
  | target :: rest, depth, b =>
    exprVisits s target (depth + 1) b ++
      metatableVisits s rest depth (inferExpr s target (depth + 1) b).2

def metatableVisits (s : Setting σ) : List Expr → Nat → Binder σ → List (FunctionVisit σ)
  | [], _, _ => []
  | .global :: rest, depth, b => metatableVisits s rest depth b
  | .table fields :: rest, depth, b =>
    fieldVisits s fields (depth + 1) b ++
      listVisits s rest depth (inferFields s fields (depth + 1) [] b).2
  | metatable :: rest, depth, b =>
    exprVisits s metatable (depth + 1) b ++
      listVisits s rest depth (inferExpr s metatable (depth + 1) b).2

/-- The function itself, and those inside it. -/
def bodyVisits (s : Setting σ) : FunctionBody → Bool → Option Link → Option SymbolId → Nat →
    Binder σ → List (FunctionVisit σ)
  | .mk parameters block stop, isMethod, container, symbol, depth, b =>
    ⟨.mk parameters block stop, isMethod, container, symbol, depth, b⟩ ::
      blockVisits s block (depth + 1) (b.enterFunction s parameters stop isMethod container)

def blockVisits (s : Setting σ) : Option Block → Nat → Binder σ → List (FunctionVisit σ)
  | none, _, _ => []
  | some (.mk _ statements), depth, b =>
    if maxDepth < depth then [] else statementVisits s statements (depth + 1) b

def scopedVisits (s : Setting σ) (kind : ScopeKind) : Option Block → Nat → Binder σ →
    List (FunctionVisit σ)
  | none, _, _ => []
  | some (.mk span statements), depth, b =>
    if maxDepth < depth + 1 then []
    else statementVisits s statements (depth + 2) (b.enterScope kind span)

def statementVisits (s : Setting σ) : List Statement → Nat → Binder σ → List (FunctionVisit σ)
  | [], _, _ => []
  | .mk comments span node :: rest, depth, b =>
    let doc := Comment.doc? s.source.lines span.start comments
    if depth ≤ maxDepth then
      nodeVisits s node span doc depth b ++
        statementVisits s rest depth (visitStatement s node span doc depth b).2
    else statementVisits s rest depth b

def nodeVisits (s : Setting σ) : StatementNode → Span → Option String → Nat → Binder σ →
    List (FunctionVisit σ)
  | .empty, _, _, _, _ | .label, _, _, _, _ | .goto, _, _, _, _ | .break, _, _, _, _
  | .implicitGlobals _, _, _, _, _ | .declare _ _ _ none, _, _, _, _
  | .return none, _, _, _, _ => []
  | .declare _ _ _ (some values), _, _, depth, b | .return (some values), _, _, depth, b =>
    listVisits s values depth b
  | .assign targets values, span, doc, depth, b =>
    let found := inferList s values depth b
    listVisits s values depth b ++ targetVisits s targets found.1 span doc depth found.2
  | .function reach name body, span, doc, depth, b =>
    let declared := b.declareFunction s reach name span body.parameters.names doc
    bodyVisits s body name.method.isSome declared.1.container declared.1.symbol depth declared.2
  | .do body, span, _, depth, b => blockVisits s body (depth + 1) (b.enterScope .block span)
  | .while condition body, _, _, depth, b =>
    exprVisits s condition (depth + 1) b ++
      scopedVisits s .loop body depth (inferExpr s condition (depth + 1) b).2
  | .repeat body condition, span, _, depth, b =>
    let b := b.enterScope .loop span
    blockVisits s body (depth + 1) b ++
      exprVisits s condition (depth + 1) (visitBlock s body (depth + 1) b).2
  | .if condition body rest none, _, _, depth, b =>
    let b₁ := (inferExpr s condition (depth + 1) b).2
    exprVisits s condition (depth + 1) b ++ (scopedVisits s .block body depth b₁ ++
      elseIfVisits s rest depth (visitScoped s .block body depth b₁).2)
  | .if condition body rest (some block), _, _, depth, b =>
    let b₁ := (inferExpr s condition (depth + 1) b).2
    let b₂ := (visitScoped s .block body depth b₁).2
    exprVisits s condition (depth + 1) b ++ (scopedVisits s .block body depth b₁ ++
      (elseIfVisits s rest depth b₂ ++
        scopedVisits s .block block depth (visitElseIfs s rest depth b₂).2))
  | .numericFor counter start limit none body, span, _, depth, b =>
    let b₁ := (inferExpr s start (depth + 1) b).2
    let b₂ := (inferExpr s limit (depth + 1) b₁).2
    exprVisits s start (depth + 1) b ++ (exprVisits s limit (depth + 1) b₁ ++
      blockVisits s body (depth + 1)
        ((b₂.enterScope .loop span).declareCounter s span .number counter))
  | .numericFor counter start limit (some step) body, span, _, depth, b =>
    let b₁ := (inferExpr s start (depth + 1) b).2
    let b₂ := (inferExpr s limit (depth + 1) b₁).2
    let b₃ := (inferExpr s step (depth + 1) b₂).2
    exprVisits s start (depth + 1) b ++ (exprVisits s limit (depth + 1) b₁ ++
      (exprVisits s step (depth + 1) b₂ ++
        blockVisits s body (depth + 1)
          ((b₃.enterScope .loop span).declareCounter s span .number counter)))
  | .genericFor names values body, span, _, depth, b =>
    let b₁ := (inferList s values depth b).2
    listVisits s values depth b ++
      blockVisits s body (depth + 1)
        (names.foldl (fun b name => b.declareCounter s span .unknown name)
          (b₁.enterScope .loop span))
  | .call call, _, _, depth, b => exprVisits s call (depth + 1) b

def elseIfVisits (s : Setting σ) : List ElseIf → Nat → Binder σ → List (FunctionVisit σ)
  | [], _, _ => []
  | .mk condition body :: rest, depth, b =>
    let b₁ := (inferExpr s condition (depth + 1) b).2
    exprVisits s condition (depth + 1) b ++ (scopedVisits s .block body depth b₁ ++
      elseIfVisits s rest depth (visitScoped s .block body depth b₁).2)

def targetVisits (s : Setting σ) : List Expr → List Inferred → Span → Option String → Nat →
    Binder σ → List (FunctionVisit σ)
  | [], _, _, _, _, _ => []
  | .global :: rest, values, span, doc, depth, b => targetVisits s rest values span doc depth b
  | .name ident :: rest, values, span, doc, depth, b =>
    targetVisits s rest values.tail span doc depth
      (b.assignName s ident span (values.headD {}) doc)
  | .field base key :: rest, values, span, doc, depth, b =>
    match base.path? with
    | some path =>
      let value := values.headD {}
      targetVisits s rest values.tail span doc depth
        (b.defineMember s (path ++ [key]) (.ofTy value.ty .field) span value doc).2
    | none =>
      exprVisits s base (depth + 1) b ++
        targetVisits s rest values.tail span doc depth (inferExpr s base (depth + 1) b).2
  | other :: rest, values, span, doc, depth, b =>
    exprVisits s other (depth + 1) b ++
      targetVisits s rest values.tail span doc depth (inferExpr s other (depth + 1) b).2

end

variable {s : Setting σ}

/-- An expression that is nested too deep is not looked at. -/
theorem inferExpr_of_deep {depth : Nat} (hdeep : maxDepth < depth) (e : Expr) (b : Binder σ) :
    inferExpr s e depth b = ({}, b) := by
  cases e with
  | vararg | global => rfl
  | name ident => simp only [inferExpr, inferName, if_pos hdeep]; rfl
  | function body =>
    cases body
    simp only [inferExpr, if_pos hdeep]
    rfl
  | _ => simp only [inferExpr, if_pos hdeep]; rfl

/-- A call that is neither `require` nor `setmetatable`. -/
theorem inferExpr_call {callee : Expr} {arguments : List Expr} {depth : Nat}
    (hrequire : ∀ span name, callee = .name ⟨"require", span⟩ →
      literalArgument arguments = some name → False)
    (hsetmetatable : ∀ span, callee = .name ⟨"setmetatable", span⟩ → False)
    (hdeep : ¬maxDepth < depth) :
    inferExpr s (.call callee none arguments) depth = (do
      let value ← inferExpr s callee (depth + 1)
      let _ ← inferList s arguments depth
      pure (Binder.callResult value)) := by
  simp only [inferExpr, if_neg hdeep]

end Walk

/-! ## Every function is entered -/

theorem FunctionBody.height_eq (body : FunctionBody) : body.height = Block.height? body.block := by
  cases body
  rfl

/-- These functions are entered, in the order of the text; all of them, and none below the deepest
level that is looked at, if the syntax around them fits. -/
structure FunctionVisit.Enter (fits : Prop) (visits : List (FunctionVisit σ))
    (bodies : List FunctionBody) : Prop where
  sublist : (visits.map FunctionVisit.body).Sublist bodies
  bodies : fits → visits.map FunctionVisit.body = bodies
  fits : fits → ∀ v ∈ visits, v.depth + v.body.height ≤ maxDepth

namespace FunctionVisit.Enter

variable {fits fits' : Prop} {visits visits' : List (FunctionVisit σ)}
  {bodies bodies' : List FunctionBody}

theorem nil : Enter fits ([] : List (FunctionVisit σ)) [] := ⟨.refl _, fun _ => rfl, fun _ => nofun⟩

/-- What is nested too deep is not looked at. -/
theorem skip (hdeep : ¬fits) : Enter fits ([] : List (FunctionVisit σ)) bodies :=
  ⟨List.nil_sublist _, fun h => (hdeep h).elim, fun h => (hdeep h).elim⟩

theorem mono (h : Enter fits visits bodies) (hfits : fits' → fits) : Enter fits' visits bodies :=
  ⟨h.sublist, fun h' => h.bodies (hfits h'), fun h' => h.fits (hfits h')⟩

theorem append (h : Enter fits visits bodies) (h' : Enter fits visits' bodies') :
    Enter fits (visits ++ visits') (bodies ++ bodies') where
  sublist := by
    rw [List.map_append]
    exact h.sublist.append h'.sublist
  bodies hfits := by rw [List.map_append, h.bodies hfits, h'.bodies hfits]
  fits hfits v hv := (List.mem_append.mp hv).elim (h.fits hfits v) (h'.fits hfits v)

theorem cons {v : FunctionVisit σ} (hv : fits → v.depth + v.body.height ≤ maxDepth)
    (h : Enter fits visits bodies) : Enter fits (v :: visits) (v.body :: bodies) where
  sublist := h.sublist.cons_cons v.body
  bodies hfits := by rw [List.map_cons, h.bodies hfits]
  fits hfits := List.forall_mem_cons.mpr ⟨hv hfits, h.fits hfits⟩

end FunctionVisit.Enter

namespace Walk

open FunctionVisit (Enter)

variable {s : Setting σ}

mutual

theorem expr_enters : ∀ (e : Expr) (depth : Nat) (b : Binder σ),
    Enter (depth + e.height ≤ maxDepth) (exprVisits s e depth b) e.functions
  | .nil, _, _ | .boolean, _, _ | .number, _, _ | .literal _, _, _ | .vararg, _, _
  | .global, _, _ | .name _, _, _ => .nil
  | .field base key, depth, b => by
    simp only [Expr.height, exprVisits, Expr.functions]
    split
    · exact .skip (by omega)
    · split
      · rename_i hpath
        obtain ⟨path, hpath⟩ := Option.isSome_iff_exists.mp hpath
        rw [Expr.functions_of_path? hpath]
        exact .nil
      · exact (expr_enters base _ b).mono (by omega)
  | .subscript base key, depth, b => by
    simp only [Expr.height, exprVisits, Expr.functions]
    split
    · exact .skip (by omega)
    · exact ((expr_enters base _ b).mono (by omega)).append ((expr_enters key _ _).mono (by omega))
  | .paren inner, depth, b => by
    simp only [Expr.height, exprVisits, Expr.functions]
    split
    · exact .skip (by omega)
    · exact (expr_enters inner _ b).mono (by omega)
  | .table fields, depth, b => by
    simp only [Expr.height, exprVisits, Expr.functions]
    split
    · exact .skip (by omega)
    · exact fields_enter fields _ b
  | .function body, depth, b => by
    simp only [Expr.height, exprVisits, Expr.functions]
    split
    · exact .skip (by omega)
    · exact body_enters body _ _ _ _ b
  | .call callee none arguments, depth, b => by
    simp only [Expr.height, exprVisits, Expr.functions]
    split
    · exact .skip (by omega)
    · split
      · rename_i hliteral
        rw [Expr.functionsOf_of_literalArgument hliteral]
        exact .nil
      · exact (setmetatable_enters arguments depth b).mono (by omega)
      · exact ((expr_enters _ _ b).mono (by omega)).append
          ((list_enters arguments _ _).mono (by omega))
      · rename_i hmethod
        cases hmethod
  | .call callee (some name) arguments, depth, b => by
    have harguments (b : Binder σ) := list_enters arguments depth b
    simp only [Expr.height, exprVisits, Expr.functions]
    split
    · exact .skip (by omega)
    · split
      · -- The callee is too deep, its arguments are looked at.
        rename_i hdeep
        refine ⟨?_, by omega, by omega⟩
        exact (harguments b).sublist.trans (List.sublist_append_right _ _)
      · cases hpath : callee.path? with
        | some path =>
          rw [Expr.functions_of_path? hpath]
          exact (harguments _).mono (by omega)
        | none =>
          exact ((expr_enters callee _ b).mono (by omega)).append ((harguments _).mono (by omega))
  | .binary _ _ left right, depth, b => by
    simp only [Expr.height, exprVisits, Expr.functions]
    split
    · exact .skip (by omega)
    · exact ((expr_enters left _ b).mono (by omega)).append ((expr_enters right _ _).mono (by omega))
  | .unary _ _ operand, depth, b => by
    simp only [Expr.height, exprVisits, Expr.functions]
    split
    · exact .skip (by omega)
    · exact (expr_enters operand _ b).mono (by omega)

theorem list_enters : ∀ (es : List Expr) (depth : Nat) (b : Binder σ),
    Enter (depth + Expr.heightOf es ≤ maxDepth) (listVisits s es depth b) (Expr.functionsOf es)
  | [], _, _ => .nil
  | e :: rest, depth, b => by
    simp only [Expr.heightOf]
    have hrest (b : Binder σ) : Enter (depth + max (e.height + 1) (Expr.heightOf rest) ≤ maxDepth) _ _ :=
      (list_enters rest depth b).mono (by omega)
    have hcons := ((expr_enters e (depth + 1) b).mono (by omega)).append
      (hrest (inferExpr s e (depth + 1) b).2)
    cases e <;> first | exact hrest b | exact hcons

theorem fields_enter : ∀ (fields : List Field) (depth : Nat) (b : Binder σ),
    Enter (depth + Field.heightOf fields ≤ maxDepth) (fieldVisits s fields depth b)
      (Field.functionsOf fields)
  | [], _, _ => .nil
  | .positional value :: rest, depth, b | .unnamed value :: rest, depth, b
  | .named _ _ _ value :: rest, depth, b => by
    simp only [Field.heightOf]
    exact ((expr_enters value _ b).mono (by omega)).append ((fields_enter rest _ _).mono (by omega))
  | .computed key value :: rest, depth, b => by
    simp only [Field.heightOf]
    exact ((expr_enters key _ b).mono (by omega)).append
      (((expr_enters value _ _).mono (by omega)).append ((fields_enter rest _ _).mono (by omega)))

theorem setmetatable_enters : ∀ (arguments : List Expr) (depth : Nat) (b : Binder σ),
    Enter (depth + Expr.heightOf arguments ≤ maxDepth) (setmetatableVisits s arguments depth b)
      (Expr.functionsOf arguments)
  | [], _, _ => .nil
  | target :: rest, depth, b => by
    simp only [Expr.heightOf]
    have hcons : Enter (depth + max (target.height + 1) (Expr.heightOf rest) ≤ maxDepth) _ _ :=
      ((expr_enters target (depth + 1) b).mono (by omega)).append
        ((metatable_enters rest depth (inferExpr s target (depth + 1) b).2).mono (by omega))
    cases target <;> first | exact (setmetatable_enters rest _ b).mono (by omega) | exact hcons

theorem metatable_enters : ∀ (arguments : List Expr) (depth : Nat) (b : Binder σ),
    Enter (depth + Expr.heightOf arguments ≤ maxDepth) (metatableVisits s arguments depth b)
      (Expr.functionsOf arguments)
  | [], _, _ => .nil
  | metatable :: rest, depth, b => by
    simp only [Expr.heightOf]
    have hcons : Enter (depth + max (metatable.height + 1) (Expr.heightOf rest) ≤ maxDepth) _ _ :=
      ((expr_enters metatable (depth + 1) b).mono (by omega)).append
        ((list_enters rest depth (inferExpr s metatable (depth + 1) b).2).mono (by omega))
    cases metatable with
    | global => exact (metatable_enters rest _ b).mono (by omega)
    | table fields =>
      simp only [Expr.height]
      exact ((fields_enter fields _ b).mono (by omega)).append
        ((list_enters rest _ _).mono (by omega))
    | _ => exact hcons

theorem body_enters : ∀ (body : FunctionBody) (isMethod : Bool) (container : Option Link)
    (symbol : Option SymbolId) (depth : Nat) (b : Binder σ),
    Enter (depth + body.height ≤ maxDepth) (bodyVisits s body isMethod container symbol depth b)
      body.functions
  | .mk parameters block stop, _, _, _, depth, b =>
    .cons (fun hfits => hfits) ((block_enters block _ _).mono fun hfits => by
      rw [FunctionBody.height_eq] at hfits
      dsimp only [FunctionBody.block] at hfits
      omega)

theorem block_enters : ∀ (block : Option Block) (depth : Nat) (b : Binder σ),
    Enter (depth + Block.height? block ≤ maxDepth + 1) (blockVisits s block depth b)
      (Block.functions? block)
  | none, _, _ => .nil
  | some (.mk _ statements), depth, b => by
    simp only [Block.height?, blockVisits, Block.functions?]
    split
    · exact .skip (by omega)
    · exact (statements_enter statements _ b).mono (by omega)

theorem scoped_enters (kind : ScopeKind) : ∀ (block : Option Block) (depth : Nat) (b : Binder σ),
    Enter (depth + Block.height? block ≤ maxDepth) (scopedVisits s kind block depth b)
      (Block.functions? block)
  | none, _, _ => .nil
  | some (.mk _ statements), depth, b => by
    simp only [Block.height?, scopedVisits, Block.functions?]
    split
    · exact .skip (by omega)
    · exact (statements_enter statements _ _).mono (by omega)

theorem statements_enter : ∀ (statements : List Statement) (depth : Nat) (b : Binder σ),
    Enter (depth + Statement.heightOf statements ≤ maxDepth + 1)
      (statementVisits s statements depth b) (Statement.functionsOf statements)
  | [], _, _ => .nil
  | .mk _ span node :: rest, depth, b => by
    simp only [Statement.heightOf, statementVisits, Statement.functionsOf]
    split
    · exact ((node_enters node span _ _ b).mono (by omega)).append
        ((statements_enter rest _ _).mono (by omega))
    · refine ⟨?_, by omega, by omega⟩
      exact (statements_enter rest depth b).sublist.trans (List.sublist_append_right _ _)

theorem node_enters : ∀ (node : StatementNode) (span : Span) (doc : Option String) (depth : Nat)
    (b : Binder σ),
    Enter (depth + node.height ≤ maxDepth) (nodeVisits s node span doc depth b) node.functions
  | .empty, _, _, _, _ | .label, _, _, _, _ | .goto, _, _, _, _ | .break, _, _, _, _
  | .implicitGlobals _, _, _, _, _ | .declare _ _ _ none, _, _, _, _ | .return none, _, _, _, _ =>
    .nil
  | .declare _ _ _ (some values), _, _, depth, b | .return (some values), _, _, depth, b =>
    list_enters values depth b
  | .assign targets values, span, doc, depth, b => by
    simp only [StatementNode.height]
    exact ((list_enters values depth b).mono (by omega)).append
      ((targets_enter targets _ span doc depth _).mono (by omega))
  | .function _ _ body, _, _, depth, _ => body_enters body _ _ _ depth _
  | .do body, _, _, depth, b => by
    simp only [StatementNode.height]
    exact (block_enters body _ _).mono (by omega)
  | .while condition body, _, _, depth, b => by
    simp only [StatementNode.height]
    exact ((expr_enters condition _ b).mono (by omega)).append
      ((scoped_enters .loop body _ _).mono (by omega))
  | .repeat body condition, _, _, depth, b => by
    simp only [StatementNode.height]
    exact ((block_enters body _ _).mono (by omega)).append
      ((expr_enters condition _ _).mono (by omega))
  | .if condition body rest none, _, _, depth, b => by
    simp only [StatementNode.height]
    exact ((expr_enters condition _ b).mono (by omega)).append
      (((scoped_enters .block body _ _).mono (by omega)).append
        ((elseIfs_enter rest _ _).mono (by omega)))
  | .if condition body rest (some block), _, _, depth, b => by
    simp only [StatementNode.height]
    exact ((expr_enters condition _ b).mono (by omega)).append
      (((scoped_enters .block body _ _).mono (by omega)).append
        (((elseIfs_enter rest _ _).mono (by omega)).append
          ((scoped_enters .block block _ _).mono (by omega))))
  | .numericFor _ start limit none body, _, _, depth, b => by
    simp only [StatementNode.height]
    exact ((expr_enters start _ b).mono (by omega)).append
      (((expr_enters limit _ _).mono (by omega)).append ((block_enters body _ _).mono (by omega)))
  | .numericFor _ start limit (some step) body, _, _, depth, b => by
    simp only [StatementNode.height]
    exact ((expr_enters start _ b).mono (by omega)).append
      (((expr_enters limit _ _).mono (by omega)).append
        (((expr_enters step _ _).mono (by omega)).append ((block_enters body _ _).mono (by omega))))
  | .genericFor _ values body, _, _, depth, b => by
    simp only [StatementNode.height]
    exact ((list_enters values _ b).mono (by omega)).append ((block_enters body _ _).mono (by omega))
  | .call call, _, _, depth, b => by
    simp only [StatementNode.height]
    exact (expr_enters call _ b).mono (by omega)

theorem elseIfs_enter : ∀ (rest : List ElseIf) (depth : Nat) (b : Binder σ),
    Enter (depth + ElseIf.heightOf rest ≤ maxDepth) (elseIfVisits s rest depth b)
      (ElseIf.functionsOf rest)
  | [], _, _ => .nil
  | .mk condition body :: rest, depth, b => by
    simp only [ElseIf.heightOf]
    exact ((expr_enters condition _ b).mono (by omega)).append
      (((scoped_enters .block body _ _).mono (by omega)).append
        ((elseIfs_enter rest _ _).mono (by omega)))

theorem targets_enter : ∀ (targets : List Expr) (values : List Inferred) (span : Span)
    (doc : Option String) (depth : Nat) (b : Binder σ),
    Enter (depth + Expr.heightOf targets ≤ maxDepth)
      (targetVisits s targets values span doc depth b) (Expr.functionsOf targets)
  | [], _, _, _, _, _ => .nil
  | target :: rest, values, span, doc, depth, b => by
    simp only [Expr.heightOf]
    have hrest (values : List Inferred) (b : Binder σ) :
        Enter (depth + max (target.height + 1) (Expr.heightOf rest) ≤ maxDepth) _ _ :=
      (targets_enter rest values span doc depth b).mono (by omega)
    have hcons := ((expr_enters target (depth + 1) b).mono (by omega)).append
      (hrest values.tail (inferExpr s target (depth + 1) b).2)
    cases target with
    | global => exact hrest values b
    | name ident => exact hrest values.tail _
    | field base key =>
      simp only [Expr.height] at hrest ⊢
      simp only [targetVisits, Expr.functionsOf, Expr.functions]
      cases hpath : base.path? with
      | some path =>
        rw [Expr.functions_of_path? hpath]
        exact hrest values.tail _
      | none => exact ((expr_enters base _ b).mono (by omega)).append (hrest values.tail _)
    | _ => exact hcons

end

end Walk

/-- Functions that the walk over a chunk enters. -/
def Chunk.visits (s : Setting σ) (chunk : Chunk) (world : σ) : List (FunctionVisit σ) :=
  Walk.statementVisits s chunk.statements 1 (.start s.source world)

/-- The walk over a chunk enters functions of the chunk, each at most once; all of them, unless it is
nested too deep. -/
theorem Chunk.visits_enter (s : Setting σ) (chunk : Chunk) (world : σ) :
    FunctionVisit.Enter (chunk.nesting ≤ maxDepth) (chunk.visits s world) chunk.functions :=
  (Walk.statements_enter chunk.statements 1 _).mono (by unfold nesting; omega)

end LuaScope

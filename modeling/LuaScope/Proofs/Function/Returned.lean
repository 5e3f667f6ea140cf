import LuaScope.Proofs.Function.Visit

/-!
# LuaScope.Proofs.Function.Returned

The return type of a function. All functions of a chunk share one stack of frames: a frame is pushed
where a function is entered, each `return` writes to the frame on top, and what the frame holds when
the function is left is its return type.

* `Binder.framesLaws` — an expression leaves the frames as they are, a statement those below the
  top.
* `Walk.statements_leave` — what statements leave on top is the first known type of the `return`s
  that belong to them.
* `Chunk.returned_eq_firstKnown` — so a function returns the first known type of its own `return`s.
-/

namespace LuaScope

variable {σ : Type}

/-- The first type that is known, if there is one. -/
def Ty.firstKnown (types : List Ty) : Ty := (types.find? fun ty => !ty.isUnknown).getD .unknown

namespace Ty

theorem firstKnown_cons (ty : Ty) (types : List Ty) :
    firstKnown (ty :: types) = if ty.isUnknown then firstKnown types else ty := by
  cases ty <;> rfl

theorem firstKnown_singleton (ty : Ty) : firstKnown [ty] = ty := by
  cases ty <;> rfl

/-- What was settled by some types is not changed by those behind them. -/
theorem firstKnown_append (types types' : List Ty) :
    firstKnown (firstKnown types :: types') = firstKnown (types ++ types') := by
  induction types with
  | nil => rfl
  | cons ty types ih =>
    rw [List.cons_append, firstKnown_cons ty, firstKnown_cons ty]
    split
    · exact ih
    · rename_i hknown
      rw [firstKnown_cons, if_neg hknown]

end Ty

/-! ## Frames -/

namespace Binder

/-- The type of what a frame holds. -/
def frameTy (frame : Option Inferred) : Ty := frame.elim .unknown (·.ty)

theorem popFrame_returns (b : Binder σ) : b.popFrame.2.returns = b.returns.tail := by
  unfold popFrame
  split
  · rename_i hreturns
    rw [hreturns]
    rfl
  · rename_i hreturns
    rw [hreturns]
    rfl

theorem popFrame_ty {b : Binder σ} {frame : Option Inferred} {rest : List (Option Inferred)}
    (h : b.returns = frame :: rest) : b.popFrame.1 = frameTy frame := by
  simp only [popFrame, h]
  cases frame <;> rfl

theorem noteReturn_returns (b : Binder σ) (value : Inferred) :
    (b.noteReturn value).returns.tail = b.returns.tail := by
  unfold noteReturn
  split
  · rfl
  · rename_i frame rest hreturns
    dsimp only
    cases frame with
    | none => rw [hreturns]; rfl
    | some earlier =>
      dsimp only
      split
      · rfl
      · rw [hreturns]; rfl

/-- An expression leaves the frames as they are, and so does a declaration; a statement may note a
value in the frame on top. -/
theorem framesLaws (s : Setting σ) :
    FrameLaws s (fun b b' : Binder σ => b'.returns = b.returns) (fun b b' => b'.returns = b.returns)
      (fun b b' => b'.returns.tail = b.returns.tail) where
  refl _ := rfl
  trans _ _ _ h h' := h'.trans h
  modify _ _ _ _ := rfl
  load _ _ := rfl
  outerTrans _ _ _ h h' := h'.trans h
  weaken _ _ h := h
  record _ _ _ _ := rfl
  member _ _ _ := rfl
  declare _ _ _ _ := rfl
  bodyTrans _ _ _ h h' := h'.trans h
  widen _ _ h := congrArg List.tail h
  note value b := b.noteReturn_returns value
  scope _ _ _ _ h := h
  function _ _ b b₁ b' hentered hbody := by
    change b'.popFrame.2.returns = b.returns
    rw [popFrame_returns, hbody]
    exact hentered

/-- On top, the first known type of what was there and of these is left; nothing changes below. -/
def Settles (types : List Ty) (b b' : Binder σ) : Prop :=
  ∀ frame rest, b.returns = frame :: rest → ∃ frame', b'.returns = frame' :: rest ∧
    frameTy frame' = Ty.firstKnown (frameTy frame :: types)

namespace Settles

variable {types types' : List Ty} {b b' b'' : Binder σ}

theorem same (h : b'.returns = b.returns) : Settles [] b b' := fun frame _ hreturns =>
  ⟨frame, h.trans hreturns, (Ty.firstKnown_singleton _).symm⟩

theorem trans (h : Settles types b b') (h' : Settles types' b' b'') :
    Settles (types ++ types') b b'' := by
  intro frame rest hreturns
  obtain ⟨frame₁, hreturns₁, hty₁⟩ := h frame rest hreturns
  obtain ⟨frame₂, hreturns₂, hty₂⟩ := h' frame₁ rest hreturns₁
  refine ⟨frame₂, hreturns₂, ?_⟩
  rw [hty₂, hty₁, Ty.firstKnown_append, List.cons_append]

theorem andSame (h : Settles types b b') (hsame : b''.returns = b'.returns) :
    Settles types b b'' := by
  have htrans := h.trans (.same hsame)
  rwa [List.append_nil] at htrans

theorem ofSame (hsame : b'.returns = b.returns) (h : Settles types b' b'') :
    Settles types b b'' :=
  (Settles.same hsame).trans h

theorem note (b : Binder σ) (value : Inferred) : Settles [value.ty] b (b.noteReturn value) := by
  intro frame rest hreturns
  simp only [noteReturn, hreturns]
  rw [Ty.firstKnown_cons, Ty.firstKnown_singleton]
  cases frame with
  | none => exact ⟨some value, rfl, rfl⟩
  | some earlier =>
    cases hunknown : earlier.ty.isUnknown with
    | false => exact ⟨some earlier, by simp [hunknown, hreturns], by simp [frameTy, hunknown]⟩
    | true => exact ⟨some value, by simp [hunknown], by simp [frameTy, hunknown]⟩

end Settles

end Binder

/-! ## The returns that a walk meets -/

/-- A `return` that a walk meets, with the list behind it. -/
structure ReturnVisit (σ : Type) where
  values : List Expr
  depth : Nat
  before : Binder σ

namespace ReturnVisit

variable (s : Setting σ) (r : ReturnVisit σ)

/-- The type that an expression behind the `return` has there. -/
def tyOf (e? : Option Expr) : Ty :=
  e?.elim .unknown fun e => (Walk.inferExpr s e (r.depth + 1) r.before).1.ty

/-- The type of the first expression. -/
def headTy : Ty := r.tyOf s r.values.head?

/-- The type of the first expression that is not the word `global`. -/
def ty : Ty := r.tyOf s (r.values.find? Expr.isNamed)

end ReturnVisit

namespace Walk

mutual

/-- The `return`s that are met in a block, and belong to the function around it. -/
def blockReturns (s : Setting σ) : Option Block → Nat → Binder σ → List (ReturnVisit σ)
  | none, _, _ => []
  | some (.mk _ statements), depth, b =>
    if maxDepth < depth then [] else statementReturns s statements (depth + 1) b

def scopedReturns (s : Setting σ) (kind : ScopeKind) : Option Block → Nat → Binder σ →
    List (ReturnVisit σ)
  | none, _, _ => []
  | some (.mk span statements), depth, b =>
    if maxDepth < depth + 1 then []
    else statementReturns s statements (depth + 2) (b.enterScope kind span)

def statementReturns (s : Setting σ) : List Statement → Nat → Binder σ → List (ReturnVisit σ)
  | [], _, _ => []
  | .mk comments span node :: rest, depth, b =>
    if depth ≤ maxDepth then
      nodeReturns s node span depth b ++
        statementReturns s rest depth (visitStatement s node span
          (Comment.doc? s.source.lines span.start comments) depth b).2
    else statementReturns s rest depth b

def nodeReturns (s : Setting σ) : StatementNode → Span → Nat → Binder σ → List (ReturnVisit σ)
  | .return values, _, depth, b => [⟨values.getD [], depth, b⟩]
  | .do body, span, depth, b => blockReturns s body (depth + 1) (b.enterScope .block span)
  | .while condition body, _, depth, b =>
    scopedReturns s .loop body depth (inferExpr s condition (depth + 1) b).2
  | .repeat body _, span, depth, b => blockReturns s body (depth + 1) (b.enterScope .loop span)
  | .if condition body rest none, _, depth, b =>
    let b₁ := (inferExpr s condition (depth + 1) b).2
    scopedReturns s .block body depth b₁ ++
      elseIfReturns s rest depth (visitScoped s .block body depth b₁).2
  | .if condition body rest (some block), _, depth, b =>
    let b₁ := (inferExpr s condition (depth + 1) b).2
    let b₂ := (visitScoped s .block body depth b₁).2
    scopedReturns s .block body depth b₁ ++ (elseIfReturns s rest depth b₂ ++
      scopedReturns s .block block depth (visitElseIfs s rest depth b₂).2)
  | .numericFor counter start limit none body, span, depth, b =>
    let b := (inferExpr s limit (depth + 1) (inferExpr s start (depth + 1) b).2).2
    blockReturns s body (depth + 1)
      ((b.enterScope .loop span).declareCounter s span .number counter)
  | .numericFor counter start limit (some step) body, span, depth, b =>
    let b := (inferExpr s limit (depth + 1) (inferExpr s start (depth + 1) b).2).2
    let b := (inferExpr s step (depth + 1) b).2
    blockReturns s body (depth + 1)
      ((b.enterScope .loop span).declareCounter s span .number counter)
  | .genericFor names values body, span, depth, b =>
    let b := (inferList s values depth b).2
    blockReturns s body (depth + 1)
      (names.foldl (fun b name => b.declareCounter s span .unknown name)
        (b.enterScope .loop span))
  | .empty, _, _, _ | .assign _ _, _, _, _ | .call _, _, _, _ | .label, _, _, _ | .goto, _, _, _
  | .break, _, _, _ | .function _ _ _, _, _, _ | .declare _ _ _ _, _, _, _
  | .implicitGlobals _, _, _, _ => []

def elseIfReturns (s : Setting σ) : List ElseIf → Nat → Binder σ → List (ReturnVisit σ)
  | [], _, _ => []
  | .mk condition body :: rest, depth, b =>
    let b₁ := (inferExpr s condition (depth + 1) b).2
    scopedReturns s .block body depth b₁ ++
      elseIfReturns s rest depth (visitScoped s .block body depth b₁).2

end

section

variable {s : Setting σ}

/-! ### They are those of the tree -/

mutual

theorem values_block : ∀ (block : Option Block) (depth : Nat) (b : Binder σ),
    depth + Block.height? block ≤ maxDepth + 1 →
    (blockReturns s block depth b).map ReturnVisit.values = Block.returns? block
  | none, _, _, _ => rfl
  | some (.mk _ statements), depth, b, h => by
    simp only [Block.height?] at h
    rw [blockReturns, if_neg (by omega), Block.returns?, values_statements statements _ b (by omega)]

theorem values_scoped (kind : ScopeKind) : ∀ (block : Option Block) (depth : Nat) (b : Binder σ),
    depth + Block.height? block ≤ maxDepth →
    (scopedReturns s kind block depth b).map ReturnVisit.values = Block.returns? block
  | none, _, _, _ => rfl
  | some (.mk _ statements), depth, b, h => by
    simp only [Block.height?] at h
    rw [scopedReturns, if_neg (by omega), Block.returns?, values_statements statements _ _ (by omega)]

theorem values_statements : ∀ (statements : List Statement) (depth : Nat) (b : Binder σ),
    depth + Statement.heightOf statements ≤ maxDepth + 1 →
    (statementReturns s statements depth b).map ReturnVisit.values = Statement.returnsOf statements
  | [], _, _, _ => rfl
  | .mk _ span node :: rest, depth, b, h => by
    simp only [Statement.heightOf] at h
    rw [statementReturns, if_pos (by omega), List.map_append, values_node node span _ b (by omega),
      values_statements rest _ _ (by omega), Statement.returnsOf]

theorem values_node : ∀ (node : StatementNode) (span : Span) (depth : Nat) (b : Binder σ),
    depth + node.height ≤ maxDepth →
    (nodeReturns s node span depth b).map ReturnVisit.values = node.returns
  | .empty, _, _, _, _ | .assign _ _, _, _, _, _ | .call _, _, _, _, _ | .label, _, _, _, _
  | .goto, _, _, _, _ | .break, _, _, _, _ | .function _ _ _, _, _, _, _
  | .declare _ _ _ _, _, _, _, _ | .implicitGlobals _, _, _, _, _ | .return _, _, _, _, _ => rfl
  | .do body, _, depth, _, h => by
    simp only [StatementNode.height] at h
    exact values_block body (depth + 1) _ (by omega)
  | .while _ body, _, depth, _, h => by
    simp only [StatementNode.height] at h
    exact values_scoped .loop body depth _ (by omega)
  | .repeat body _, _, depth, _, h => by
    simp only [StatementNode.height] at h
    exact values_block body (depth + 1) _ (by omega)
  | .if _ body rest none, _, depth, _, h => by
    simp only [StatementNode.height] at h
    rw [nodeReturns, List.map_append, values_scoped .block body _ _ (by omega),
      values_elseIfs rest _ _ (by omega), StatementNode.returns]
  | .if _ body rest (some block), _, depth, _, h => by
    simp only [StatementNode.height] at h
    rw [nodeReturns, List.map_append, List.map_append, values_scoped .block body _ _ (by omega),
      values_elseIfs rest _ _ (by omega), values_scoped .block block _ _ (by omega),
      StatementNode.returns]
  | .numericFor _ _ _ none body, _, depth, _, h
  | .numericFor _ _ _ (some _) body, _, depth, _, h
  | .genericFor _ _ body, _, depth, _, h => by
    simp only [StatementNode.height] at h
    exact values_block body (depth + 1) _ (by omega)

theorem values_elseIfs : ∀ (rest : List ElseIf) (depth : Nat) (b : Binder σ),
    depth + ElseIf.heightOf rest ≤ maxDepth →
    (elseIfReturns s rest depth b).map ReturnVisit.values = ElseIf.returnsOf rest
  | [], _, _, _ => rfl
  | .mk _ body :: rest, depth, b, h => by
    simp only [ElseIf.heightOf] at h
    rw [elseIfReturns, List.map_append, values_scoped .block body _ _ (by omega),
      values_elseIfs rest _ _ (by omega), ElseIf.returnsOf]

end

/-! ### They settle the frame -/

open Binder (Settles framesLaws frameTy)

theorem expr_frames (e : Expr) (depth : Nat) (b : Binder σ) :
    (inferExpr s e depth b).2.returns = b.returns :=
  expr_steps (framesLaws s) e depth b

theorem list_frames (es : List Expr) (depth : Nat) (b : Binder σ) :
    (inferList s es depth b).2.returns = b.returns :=
  list_steps (framesLaws s) es depth b

/-- The first value of a list is that of its first named expression. -/
theorem head?_inferList (es : List Expr) (depth : Nat) (b : Binder σ) :
    (inferList s es depth b).1.head? =
      (es.find? Expr.isNamed).map fun e => (inferExpr s e (depth + 1) b).1 := by
  induction es with
  | nil => rfl
  | cons e rest ih => cases e <;> first | exact ih | rfl

theorem return_leaves (values : Option (List Expr)) (span : Span) (doc : Option String)
    (depth : Nat) (b : Binder σ) :
    Settles [ReturnVisit.ty s ⟨values.getD [], depth, b⟩] b
      (visitStatement s (.return values) span doc depth b).2 := by
  -- A `return` without a value leaves the frame as it is.
  have hnone (b' : Binder σ) (h : b'.returns = b.returns) : Settles [.unknown] b b' :=
    fun frame _ hreturns => ⟨frame, h.trans hreturns, by
      rw [Ty.firstKnown_cons, Ty.firstKnown_singleton]
      cases frameTy frame <;> rfl⟩
  cases values with
  | none => exact hnone b rfl
  | some values =>
    have hframes := list_frames (s := s) values depth b
    have hhead := head?_inferList (s := s) values depth b
    have hvisit : visitStatement s (.return (some values)) span doc depth =
        inferList s values depth >>= fun found =>
          found.head?.elim (pure ()) fun first => modify (·.noteReturn first) := by
      rw [visitStatement]
      congr 1
      funext found
      cases found <;> rfl
    rw [hvisit]
    change Settles _ b (((inferList s values depth b).1.head?.elim (pure ()) fun first =>
      modify (·.noteReturn first) : Walk σ Unit) (inferList s values depth b).2).2
    generalize inferList s values depth b = found at hframes hhead ⊢
    obtain ⟨found, b'⟩ := found
    have hty : ReturnVisit.ty s ⟨values, depth, b⟩ = frameTy found.head? := by
      rw [hhead]
      unfold ReturnVisit.ty ReturnVisit.tyOf
      cases values.find? Expr.isNamed <;> rfl
    rw [Option.getD_some, hty]
    cases found with
    | nil => exact hnone b' hframes
    | cons first _ => exact .ofSame hframes (.note b' first)

mutual

theorem block_leaves : ∀ (block : Option Block) (depth : Nat) (b : Binder σ),
    Settles ((blockReturns s block depth b).map (·.ty s)) b (visitBlock s block depth b).2
  | none, _, _ => .same rfl
  | some (.mk _ statements), depth, b => by
    simp only [visitBlock, blockReturns]
    split
    · exact .same rfl
    · exact statements_leave statements _ b

theorem scoped_leaves (kind : ScopeKind) : ∀ (block : Option Block) (depth : Nat) (b : Binder σ),
    Settles ((scopedReturns s kind block depth b).map (·.ty s)) b
      (visitScoped s kind block depth b).2
  | none, _, _ => .same rfl
  | some (.mk span statements), depth, b => by
    simp only [visitScoped, scopedReturns]
    split
    · exact .same rfl
    · exact statements_leave statements _ (b.enterScope kind span)

theorem statements_leave : ∀ (statements : List Statement) (depth : Nat) (b : Binder σ),
    Settles ((statementReturns s statements depth b).map (·.ty s)) b
      (visitStatements s statements depth b).2
  | [], _, _ => .same rfl
  | .mk _ span node :: rest, depth, b => by
    simp only [visitStatements, statementReturns]
    split
    · rw [List.map_append]
      exact (statement_leaves node span _ depth b).trans (statements_leave rest depth _)
    · exact statements_leave rest depth b

theorem statement_leaves : ∀ (node : StatementNode) (span : Span) (doc : Option String)
    (depth : Nat) (b : Binder σ),
    Settles ((nodeReturns s node span depth b).map (·.ty s)) b
      (visitStatement s node span doc depth b).2
  | .empty, _, _, _, _ | .label, _, _, _, _ | .goto, _, _, _, _ | .break, _, _, _, _ => .same rfl
  | .return values, span, doc, depth, b => return_leaves values span doc depth b
  | .do none, _, _, _, _ => .same rfl
  | .do (some block), span, _, depth, b => block_leaves (some block) _ (b.enterScope .block span)
  | .while condition body, _, _, depth, b =>
    .ofSame (expr_frames condition _ b) (scoped_leaves .loop body depth _)
  | .repeat body condition, span, _, depth, b =>
    (block_leaves body _ (b.enterScope .loop span)).andSame (expr_frames condition _ _)
  | .if condition body rest none, _, _, depth, b => by
    rw [nodeReturns, List.map_append]
    exact .ofSame (expr_frames condition _ b)
      ((scoped_leaves .block body depth _).trans (elseIfs_leave rest depth _))
  | .if condition body rest (some block), _, _, depth, b => by
    rw [nodeReturns, List.map_append, List.map_append]
    exact .ofSame (expr_frames condition _ b) ((scoped_leaves .block body depth _).trans
      ((elseIfs_leave rest depth _).trans (scoped_leaves .block block depth _)))
  | .numericFor counter start limit none body, span, _, depth, b => by
    have hstart := expr_frames (s := s) start (depth + 1) b
    have hlimit := expr_frames (s := s) limit (depth + 1) (inferExpr s start (depth + 1) b).2
    have hcounter := (framesLaws s).declareCounter span .number counter
      ((inferExpr s limit (depth + 1) (inferExpr s start (depth + 1) b).2).2.enterScope .loop span)
    exact .ofSame (hcounter.trans (hlimit.trans hstart)) (block_leaves body _ _)
  | .numericFor counter start limit (some step) body, span, _, depth, b => by
    have hstart := expr_frames (s := s) start (depth + 1) b
    have hlimit := expr_frames (s := s) limit (depth + 1) (inferExpr s start (depth + 1) b).2
    have hstep := expr_frames (s := s) step (depth + 1)
      (inferExpr s limit (depth + 1) (inferExpr s start (depth + 1) b).2).2
    have hcounter := (framesLaws s).declareCounter span .number counter
      ((inferExpr s step (depth + 1) (inferExpr s limit (depth + 1)
        (inferExpr s start (depth + 1) b).2).2).2.enterScope .loop span)
    exact .ofSame (hcounter.trans (hstep.trans (hlimit.trans hstart))) (block_leaves body _ _)
  | .genericFor names values body, span, _, depth, b => by
    have hcounters := (framesLaws s).declareCounters span .unknown names
      ((inferList s values depth b).2.enterScope .loop span)
    exact .ofSame (hcounters.trans (list_frames values depth b)) (block_leaves body _ _)
  | .call call, _, _, _, b => .same (expr_frames call _ b)
  | .assign targets values, span, doc, depth, b =>
    .same ((targets_steps (framesLaws s) targets _ span doc depth _).trans
      (list_frames values depth b))
  | .function reach name body, span, doc, depth, b =>
    .same (declaration_steps (framesLaws s) reach name body span doc depth b)
  | .declare _ _ names none, span, doc, _, b =>
    .same ((framesLaws s).declareLocals span doc (names.map AttributedName.ident) [] b)
  | .declare _ _ names (some values), span, doc, depth, b =>
    .same (((framesLaws s).declareLocals span doc (names.map AttributedName.ident) _ _).trans
      (list_frames values depth b))
  | .implicitGlobals none, _, _, _, _ => .same rfl
  | .implicitGlobals (some (name, _)), _, _, _, b => .same (name_steps (framesLaws s) name _ b)

theorem elseIfs_leave : ∀ (rest : List ElseIf) (depth : Nat) (b : Binder σ),
    Settles ((elseIfReturns s rest depth b).map (·.ty s)) b (visitElseIfs s rest depth b).2
  | [], _, _ => .same rfl
  | .mk condition body :: rest, depth, b => by
    rw [elseIfReturns, List.map_append]
    exact .ofSame (expr_frames condition _ b)
      ((scoped_leaves .block body depth _).trans (elseIfs_leave rest depth _))

end

end

end Walk

/-! ## Functions -/

/-- The `return`s that belong to the function. -/
def FunctionVisit.returns (s : Setting σ) (v : FunctionVisit σ) : List (ReturnVisit σ) :=
  Walk.blockReturns s v.body.block (v.depth + 1) (v.start s)

/-- What other functions return, around this one and inside it, does not matter. -/
theorem FunctionVisit.returned_eq (s : Setting σ) (v : FunctionVisit σ) :
    v.returned s = Ty.firstKnown ((v.returns s).map (·.ty s)) := by
  obtain ⟨frame, hreturns, hty⟩ :=
    Walk.block_leaves (s := s) v.body.block (v.depth + 1) (v.start s) none _ rfl
  unfold returned run
  rw [Walk.inFunction_eq]
  exact (Binder.popFrame_ty hreturns).trans hty

theorem ReturnVisit.ty_eq_headTy (s : Setting σ) {r : ReturnVisit σ}
    (h : ∀ e ∈ r.values.head?, e.isNamed = true) : r.ty s = r.headTy s := by
  unfold ty headTy
  cases hvalues : r.values with
  | nil => rfl
  | cons e rest =>
    have hnamed : e.isNamed = true := h e (by rw [hvalues]; rfl)
    rw [List.find?_cons, hnamed]
    rfl

namespace Chunk

/--
Every function of a chunk is entered once. Its return type is the first known one among the types of
its own `return`s in the order of the text, each the type of its first expression that is not the
word `global`; that is the first expression itself where no `return` starts with that word.
-/
theorem returned_eq_firstKnown (s : Setting σ) {chunk : Chunk} (world : σ)
    (hnesting : chunk.nesting ≤ maxDepth) :
    (chunk.visits s world).map FunctionVisit.body = chunk.functions ∧
      ∀ v ∈ chunk.visits s world,
        (v.returns s).map ReturnVisit.values = v.body.returns ∧
        v.returned s = Ty.firstKnown ((v.returns s).map (·.ty s)) ∧
        ((∀ values ∈ v.body.returns, ∀ e ∈ values.head?, e.isNamed = true) →
          v.returned s = Ty.firstKnown ((v.returns s).map (·.headTy s))) := by
  have henter := chunk.visits_enter s world
  refine ⟨henter.bodies hnesting, fun v hv => ?_⟩
  have hfits := henter.fits hnesting v hv
  rw [FunctionBody.height_eq] at hfits
  have hvalues : (v.returns s).map ReturnVisit.values = v.body.returns :=
    Walk.values_block v.body.block (v.depth + 1) (v.start s) (by omega)
  refine ⟨hvalues, v.returned_eq s, fun hnamed => ?_⟩
  rw [v.returned_eq s]
  congr 1
  refine List.map_congr_left fun r hr => r.ty_eq_headTy s (hnamed r.values ?_)
  rw [← hvalues]
  exact List.mem_map_of_mem hr

/-- A function with a `return` in a branch, one in a loop and one in a function of its own. -/
theorem returned_eq_firstKnown_of_loop :
    ∃ chunk, Chunk.ofChars? ("function f(a) if a then return a end " ++
        "for i = 1, 2 do return 1, {} end return function() return {} end end").toList = some chunk ∧
      chunk.nesting ≤ maxDepth ∧
      let s : Setting Unit := ⟨.ofString "", ⟨"a"⟩, true, .none⟩
      chunk.functions.length = 2 ∧ (chunk.functions.map (·.returns.length)) = [3, 1] ∧
      (chunk.visits s ()).map FunctionVisit.body = chunk.functions ∧
      ∀ v ∈ chunk.visits s (),
        (v.returns s).map ReturnVisit.values = v.body.returns ∧
        v.returned s = Ty.firstKnown ((v.returns s).map (·.ty s)) ∧
        ((∀ values ∈ v.body.returns, ∀ e ∈ values.head?, e.isNamed = true) →
          v.returned s = Ty.firstKnown ((v.returns s).map (·.headTy s))) := by
  have hparsed : (Chunk.ofChars? ("function f(a) if a then return a end " ++
      "for i = 1, 2 do return 1, {} end return function() return {} end end").toList).isSome = true := by
    decide +kernel
  have hshape : ∀ chunk ∈ Chunk.ofChars? ("function f(a) if a then return a end " ++
      "for i = 1, 2 do return 1, {} end return function() return {} end end").toList,
      chunk.nesting ≤ maxDepth ∧ chunk.functions.length = 2 ∧
        (chunk.functions.map (·.returns.length)) = [3, 1] := by
    decide +kernel
  obtain ⟨chunk, htext⟩ := Option.isSome_iff_exists.mp hparsed
  obtain ⟨hnesting, hlength, hreturns⟩ := hshape chunk htext
  exact ⟨chunk, htext, hnesting, hlength, hreturns, returned_eq_firstKnown _ () hnesting⟩

/-- Behind `return global, 5` the function returns a number, though the first expression has no
known type. -/
theorem returned_ne_firstKnown_of_global :
    ¬ ∀ (text : String) (chunk : Chunk) (s : Setting Unit),
      Chunk.ofChars? text.toList = some chunk → chunk.nesting ≤ maxDepth →
      ∀ v ∈ chunk.visits s (), v.returned s = Ty.firstKnown ((v.returns s).map (·.headTy s)) := by
  intro hall
  have hparsed : (Chunk.ofChars? "local function f() return global, 5 end".toList).isSome = true := by
    decide +kernel
  have hdiffers : ∀ chunk ∈ Chunk.ofChars? "local function f() return global, 5 end".toList,
      let s : Setting Unit := ⟨.ofString "", ⟨"a"⟩, true, .none⟩
      chunk.nesting ≤ maxDepth ∧ ∃ v ∈ chunk.visits s (),
        TyOver.isUnknown (v.returned s) = false ∧
        TyOver.isUnknown (Ty.firstKnown ((v.returns s).map (·.headTy s))) = true := by
    decide +kernel
  obtain ⟨chunk, htext⟩ := Option.isSome_iff_exists.mp hparsed
  obtain ⟨hnesting, v, hv, hknown, hunknown⟩ := hdiffers chunk htext
  rw [hall _ chunk _ htext hnesting v hv, hunknown] at hknown
  cases hknown

end Chunk

end LuaScope

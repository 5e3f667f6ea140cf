import LuaScope.Proofs.Scoping.Step

/-!
# LuaScope.Proofs.Scoping.Tree

The walk over every tree that is not nested too deep is a visit of it: what the tree declares is
what the scopes hold afterwards, and each reference that was recorded answers a use of the tree. By
induction on the tree, with one equation for each form of expression and statement.
-/

namespace LuaScope

variable {σ : Type}

namespace Walk

section

variable {s : Setting σ} {env : Env}

/-! ## Walks put together -/

namespace Visits

variable {α β : Type} {env' env'' : Env} {uses uses' : List Use} {a c : List Site}

/-- What a walk answers does not matter. -/
theorem andPure {w : Walk σ α} (h : Visits s env env' uses a w) (f : α → β) :
    Visits s env env' uses a (w >>= fun x => Pure.pure (f x)) := h

theorem andQuiet {w : Walk σ α} {k : α → Walk σ β} (h : Visits s env env' uses a w)
    (hquiet : ∀ x b, Binder.Quiet b (k x b).2) : Visits s env env' uses a (w >>= k) :=
  fun b hholds => (h b hholds).andQuiet hholds.lt_size (hquiet (w b).1 (w b).2)

/-- No symbol is made at these sites. -/
theorem idle {w : Walk σ α} (h : Visits s env env' uses [] w) : Visits s env env' uses a w :=
  h.mono (List.Subset.refl _) fun _ => Nat.zero_le _

/-- Nothing is declared. -/
theorem bare {w : Walk σ α} (h : Visits s env env uses a w) :
    Visits s env (env.declare []) uses a w := by
  rw [Env.declare_nil]
  exact h

/-- The first walk is over what stands behind. -/
theorem bindBack {w : Walk σ α} {k : α → Walk σ β} (hw : Visits s env env' uses a w)
    (hk : ∀ x, Visits s env' env'' uses' c (k x)) :
    Visits s env env'' (uses' ++ uses) (c ++ a) (w >>= k) := by
  refine (hw.bind hk).mono ?_ fun p => ?_
  · exact List.append_subset.mpr ⟨List.subset_append_right _ _, List.subset_append_left _ _⟩
  · simp only [Site.countAt, List.map_append, List.count_append, Nat.add_comm, Nat.le_refl]

/-- The first walk is over what stands between. -/
theorem bindBetween {w : Walk σ α} {k : α → Walk σ β} {d : List Site}
    (hw : Visits s env env' uses a w) (hk : ∀ x, Visits s env' env'' uses' (c ++ d) (k x)) :
    Visits s env env'' (uses ++ uses') (c ++ (a ++ d)) (w >>= k) := by
  refine (hw.bind hk).mono (List.Subset.refl _) fun p => ?_
  simp only [Site.countAt, List.map_append, List.count_append]
  omega

/-- Nothing is used or made in front. -/
theorem behind {w : Walk σ α} (h : Visits s env env' uses a w) (front : List Use)
    (sites : List Site) : Visits s env env' (front ++ uses) (sites ++ a) w := by
  refine h.mono (List.subset_append_right _ _) fun p => ?_
  simp only [Site.countAt, List.map_append, List.count_append, Nat.le_add_left]

end Visits

/-! ## Scopes -/

/-- A scope of its own for a block, in which some names are bound first. -/
theorem bound_visits {first : List Decl} {block : Option Block} {binding body : Walk σ Unit}
    {uses : List Use} {a c : List Site}
    (hbinding : Visits s (⟨[], first ++ Statement.declaresOf (blockStatements block)⟩ :: env)
      (env.enter first block) [] c binding)
    (hbody : Visits s (env.enter first block)
      ((env.enter first block).declare (Statement.declaresOf (blockStatements block))) uses a body)
    (kind : ScopeKind) (span : Span) :
    Visits s env env uses (c ++ a) (within kind span (do binding; body)) := by
  have hdone : (env.enter first block).declare (Statement.declaresOf (blockStatements block)) =
      ⟨(first ++ Statement.declaresOf (blockStatements block)).reverse,
        first ++ Statement.declaresOf (blockStatements block)⟩ :: env := by
    simp [Env.enter, Env.declare]
  rw [hdone] at hbody
  exact (hbinding.bind fun _ => hbody).within kind span

theorem scope_visits (block : Option Block) {body : Walk σ Unit} {uses : List Use}
    {a : List Site}
    (hbody : Visits s (env.enter [] block)
      ((env.enter [] block).declare (Statement.declaresOf (blockStatements block))) uses a body)
    (kind : ScopeKind) (span : Span) : Visits s env env uses a (within kind span body) := by
  have hopen : Visits s
      (⟨[], [] ++ Statement.declaresOf (blockStatements block)⟩ :: env)
      (env.enter [] block) [] [] (Pure.pure () : Walk σ Unit) := .pure ()
  exact bound_visits hopen hbody kind span

/-- A name of a loop is bound in front of its block. -/
theorem loop_visits (names : List Ident) {block : Option Block} {body : Walk σ Unit}
    {uses : List Use} (hbefore : env.Precedes (names.map .name))
    (hbody : Visits s (env.enter (names.map (⟨·, .local⟩)) block)
      ((env.enter (names.map (⟨·, .local⟩)) block).declare
        (Statement.declaresOf (blockStatements block))) uses (Block.sites? block) body)
    (ty : Ty) (span : Span) :
    Visits s env env uses (names.map .name ++ Block.sites? block) (within .loop span (do
      modify (fun b => names.foldl (fun b name => b.declareCounter s span ty name) b)
      body)) := by
  refine bound_visits ?_ hbody .loop span
  intro b hholds
  have hvisit := visit_declareCounters span ty names _ b hholds (hbefore.enterBare _)
  rwa [Env.declare, List.append_nil] at hvisit

/-- Bind the parameters of a function, and `self` in front of those of a method. -/
def bindParameters (s : Setting σ) (parameters : Parameters) (isMethod : Bool)
    (container : Option Link) : Walk σ Unit := do
  if isMethod then
    modify (Binder.declareSelf s parameters.span container)
  modify (Binder.declareParameters s parameters.span parameters.entries)

theorem bindParameters_visits {parameters : Parameters} (hbefore : env.Precedes parameters.sites)
    (isMethod : Bool) (container : Option Link) :
    Visits s env (env.declare (parameters.declares isMethod)) [] parameters.sites
      (bindParameters s parameters isMethod container) := by
  intro b hholds
  cases isMethod with
  | true =>
    have hself := visit_declareSelf hholds
      (hbefore.left (a := [.receiver parameters.span.start])) container
    have hrest := visit_declareParameters parameters.span parameters.entries _ _ hself.holds
      (hbefore.declare (a := [.receiver parameters.span.start]) (.refl _))
    rw [Env.declare_append] at hrest
    exact hself.trans hholds.lt_size hrest
  | false =>
    have hentries := visit_declareParameters (s := s) parameters.span parameters.entries _ _
      hholds (hbefore.right (a := [.receiver parameters.span.start]))
    refine hentries.mono (List.nil_subset _) fun p => ?_
    exact List.Sublist.count_le _ ((List.sublist_cons_self _ _).map _)

/-- Walk a body inside a frame of its own. -/
def inFrame (body : Walk σ Unit) : Walk σ Unit := do
  modify (·.pushFrame)
  body
  modify (·.popFrame.2)

theorem inFrame_visits {body : Walk σ Unit} {env' : Env} {uses : List Use} {a : List Site}
    (h : Visits s env env' uses a body) : Visits s env env' uses a (inFrame body) := by
  have hpush : Visits s env env [] [] (modify (·.pushFrame) : Walk σ Unit) :=
    .quiet fun _ => ⟨rfl, rfl, rfl, rfl⟩
  exact hpush.bind fun _ => h.andQuiet fun _ => Binder.quiet_popFrame

/-- The scope of a function holds its parameters and what its body declares. -/
theorem function_visits {parameters : Parameters} {isMethod : Bool} {block : Option Block}
    {body : Walk σ Unit} {uses : List Use} (hbefore : env.Precedes parameters.sites)
    (hbody : Visits s (env.enter (parameters.declares isMethod) block)
      ((env.enter (parameters.declares isMethod) block).declare
        (Statement.declaresOf (blockStatements block))) uses (Block.sites? block) body)
    (stop : Nat) (container : Option Link) :
    Visits s env env uses (parameters.sites ++ Block.sites? block)
      (inFunction s parameters stop isMethod container body) := by
  have hbound := bindParameters_visits (s := s)
    (hbefore.enterBare
      (parameters.declares isMethod ++ Statement.declaresOf (blockStatements block)))
    isMethod container
  rw [Env.declare, List.append_nil] at hbound
  have hrun : ∀ b, (inFunction s parameters stop isMethod container body b).2 =
      (within .function ⟨parameters.span.start, stop⟩
        (do bindParameters s parameters isMethod container; inFrame body) b).2 := by
    intro b
    cases isMethod <;> rfl
  intro b hholds
  rw [hrun b]
  exact bound_visits hbound (inFrame_visits hbody) .function ⟨parameters.span.start, stop⟩ b hholds

/-! ## Trees -/

theorem name_visits {ident : Ident} (hbefore : env.Precedes [.name ident]) {depth : Nat}
    (hdepth : depth ≤ maxDepth) :
    Visits s env env [⟨ident, true, env⟩] [.name ident] (inferName s ident depth) := by
  unfold inferName
  rw [if_neg (Nat.not_lt.mpr hdepth)]
  exact (path_visits [ident] hbefore).idle

theorem field_visits {base : Expr} {key : Ident} {path : List Ident}
    (hbefore : env.Precedes (Expr.field base key).sites) (hpath : base.path? = some path) :
    Visits s env env ((Expr.field base key).uses env) (Expr.field base key).sites
      (inferPath s (path ++ [key])) := by
  obtain ⟨huses, hsites⟩ := Expr.uses_of_path? env (Expr.path?_field hpath)
  rw [hsites] at hbefore
  rw [huses]
  exact (path_visits _ hbefore).idle

theorem define_visits {base : Expr} {key : Ident} {path : List Ident}
    (hbefore : env.Precedes (Expr.field base key).sites) (hpath : base.path? = some path)
    (kind : SymbolKind) (statement : Span) (value : Inferred) (doc : Option String) :
    Visits s env env ((Expr.field base key).uses env) (Expr.field base key).sites
      (modify (fun b => (b.defineMember s (path ++ [key]) kind statement value doc).2)) := by
  obtain ⟨huses, hsites⟩ := Expr.uses_of_path? env (Expr.path?_field hpath)
  rw [hsites] at hbefore ⊢
  rw [huses]
  intro b hholds
  obtain ⟨first, rest, rfl⟩ := List.exists_cons_of_ne_nil (Expr.ne_nil_of_path? hpath)
  obtain ⟨second, more, hmore⟩ :=
    List.exists_cons_of_ne_nil (List.append_ne_nil_of_right_ne_nil rest (List.cons_ne_nil key []))
  rw [List.cons_append, hmore] at hbefore ⊢
  exact visit_defineMember hholds hbefore kind statement value doc

/-! ## Statements -/

theorem names_visits {names : List AttributedName}
    (hbefore : env.Precedes (names.map (.name ·.ident))) (reach : NameReach)
    (values : List Inferred) (statement : Span) (doc : Option String) :
    Visits s env (env.declare (names.map (⟨·.ident, reach.declKind⟩))) []
      (names.map (.name ·.ident))
      (modify (Binder.declareLocals s statement doc (names.map AttributedName.ident) values)) := by
  have hkind : reach.declKind = .local ∨ reach.declKind = .global := by
    cases reach
    · exact .inl rfl
    · exact .inr rfl
  have hidents : (names.map AttributedName.ident).map Site.name = names.map (.name ·.ident) :=
    List.map_map
  intro b hholds
  rw [← hidents] at hbefore ⊢
  have hvisit := visit_declareLocals hkind statement doc _ values env b hholds hbefore
  rw [List.map_map] at hvisit
  exact hvisit

mutual

theorem expr_visits : ∀ (e : Expr) (depth : Nat) {env : Env}, depth + e.height ≤ maxDepth →
    env.Precedes e.sites → Visits s env env (e.uses env) e.sites (inferExpr s e depth)
  | .nil, depth, _, _, _ | .boolean, depth, _, _, _ | .number, depth, _, _, _
  | .literal _, depth, _, _, _ => by
    simp only [inferExpr]
    split <;> exact .pure _
  | .vararg, _, _, _, _ | .global, _, _, _, _ => .pure _
  | .name ident, depth, _, hdepth, hbefore => name_visits hbefore hdepth
  | .field base key, depth, env, hdepth, hbefore => by
    simp only [Expr.height] at hdepth
    simp only [inferExpr, if_neg (show ¬ maxDepth < depth by omega)]
    split
    · rename_i path hpath
      exact field_visits hbefore hpath
    · refine .bind (expr_visits base _ (by omega) hbefore.left) fun _ => ?_
      exact (key_visits key _).idle.andPure _
  | .subscript base key, depth, env, hdepth, hbefore => by
    simp only [Expr.height] at hdepth
    simp only [inferExpr, if_neg (show ¬ maxDepth < depth by omega)]
    refine .bind (expr_visits base _ (by omega) hbefore.left) fun _ => ?_
    exact (expr_visits key _ (by omega) hbefore.right).andPure _
  | .paren inner, depth, env, hdepth, hbefore => by
    simp only [Expr.height] at hdepth
    simp only [inferExpr, if_neg (show ¬ maxDepth < depth by omega)]
    exact expr_visits inner _ (by omega) hbefore
  | .table fields, depth, env, hdepth, hbefore => by
    simp only [Expr.height] at hdepth
    simp only [inferExpr, if_neg (show ¬ maxDepth < depth by omega)]
    exact (fields_visits fields depth [] hdepth hbefore).andPure _
  | .function (.mk parameters block stop), depth, env, hdepth, hbefore => by
    simp only [Expr.height, FunctionBody.height] at hdepth
    simp only [inferExpr, if_neg (show ¬ maxDepth < depth by omega)]
    refine (function_visits hbefore.left ?_ stop none).andPure _
    exact block_visits block _ (by omega)
      (hbefore.enter (parameters.declares_standAt false) block)
  | .call callee none arguments, depth, env, hdepth, hbefore => by
    simp only [Expr.height] at hdepth
    simp only [inferExpr, if_neg (show ¬ maxDepth < depth by omega)]
    have harguments : env.Precedes (Expr.sitesOf arguments) := hbefore.right
    split
    · exact (Visits.quiet ((Binder.quietLaws s).require _)).widen
    · exact (setmetatable_visits arguments depth (by omega) harguments).behind _ _
    · refine .bind (expr_visits _ _ (by omega) hbefore.left) fun _ => ?_
      exact (list_visits arguments depth (by omega) harguments).andPure _
    · rename_i heq
      cases heq
  | .call callee (some name) arguments, depth, env, hdepth, hbefore => by
    simp only [Expr.height] at hdepth
    simp only [inferExpr, if_neg (show ¬ maxDepth < depth by omega),
      if_neg (show ¬ maxDepth < depth + 1 by omega)]
    have harguments : ∀ value : Inferred, Visits s env env (Expr.usesOf arguments env)
        (Expr.sitesOf arguments) (do
          let _ ← inferList s arguments depth
          pure (Binder.callResult value)) := fun value =>
      (list_visits arguments depth (by omega) hbefore.right.right).andPure _
    -- The method is a member of the callee.
    have hcallee : env.Precedes (Expr.field callee name).sites := by
      rw [Expr.sites, ← List.append_assoc] at hbefore
      exact hbefore.left
    simp only [Expr.uses, Expr.sites, ← List.append_assoc]
    split
    · rename_i path hpath
      exact .bind (field_visits hcallee hpath) harguments
    · have hpair : Visits s env env ((Expr.field callee name).uses env)
          (Expr.field callee name).sites (do
            let _ ← inferExpr s callee (depth + 2)
            inferName s name (depth + 2)) :=
        .bind (expr_visits callee _ (by omega) hbefore.left) fun _ => (key_visits name _).idle
      exact hpair.bind fun _ => harguments {}
  | .binary op _ left right, depth, env, hdepth, hbefore => by
    simp only [Expr.height] at hdepth
    simp only [inferExpr, if_neg (show ¬ maxDepth < depth by omega)]
    refine .bind (expr_visits left _ (by omega) hbefore.left) fun _ => ?_
    exact (expr_visits right _ (by omega) hbefore.right).andPure _
  | .unary op _ operand, depth, env, hdepth, hbefore => by
    simp only [Expr.height] at hdepth
    simp only [inferExpr, if_neg (show ¬ maxDepth < depth by omega)]
    exact (expr_visits operand _ (by omega) hbefore).andPure _

theorem list_visits : ∀ (es : List Expr) (depth : Nat) {env : Env},
    depth + Expr.heightOf es ≤ maxDepth → env.Precedes (Expr.sitesOf es) →
    Visits s env env (Expr.usesOf es env) (Expr.sitesOf es) (inferList s es depth)
  | [], _, _, _, _ => .pure _
  | e :: rest, depth, env, hdepth, hbefore => by
    simp only [Expr.heightOf] at hdepth
    have hrest : Visits s env env _ _ (inferList s rest depth) :=
      list_visits rest depth (by omega) hbefore.right
    have hcons : Visits s env env (Expr.usesOf (e :: rest) env) (Expr.sitesOf (e :: rest)) (do
        let value ← inferExpr s e (depth + 1)
        return value :: (← inferList s rest depth)) :=
      .bind (expr_visits e _ (by omega) hbefore.left) fun _ => hrest.andPure _
    cases e <;> first | exact hrest | exact hcons

theorem fields_visits : ∀ (fields : List Field) (depth : Nat) (members : Members) {env : Env},
    depth + Field.heightOf fields ≤ maxDepth → env.Precedes (Field.sitesOf fields) →
    Visits s env env (Field.usesOf fields env) (Field.sitesOf fields)
      (inferFields s fields depth members)
  | [], _, _, _, _, _ => .pure _
  | .positional value :: rest, depth, members, env, hdepth, hbefore
  | .unnamed value :: rest, depth, members, env, hdepth, hbefore => by
    simp only [Field.heightOf] at hdepth
    simp only [inferFields]
    exact .bind (expr_visits value _ (by omega) hbefore.left) fun _ =>
      fields_visits rest _ _ (by omega) hbefore.right
  | .computed key value :: rest, depth, members, env, hdepth, hbefore => by
    simp only [Field.heightOf] at hdepth
    simp only [inferFields]
    refine .bind (expr_visits key _ (by omega) hbefore.left) fun _ => ?_
    exact .bind (expr_visits value _ (by omega) hbefore.right.left) fun _ =>
      fields_visits rest _ _ (by omega) hbefore.right.right
  | .named comments span key value :: rest, depth, members, env, hdepth, hbefore => by
    simp only [Field.heightOf] at hdepth
    simp only [inferFields]
    have hbehind : env.Precedes (value.sites ++ Field.sitesOf rest) :=
      hbefore.right (a := [.name key])
    have hmember : ∀ found : Inferred, Visits s env env (Field.usesOf rest env)
        ([.name key] ++ Field.sitesOf rest) (do
          let doc := Comment.doc? s.source.lines span.start comments
          let symbol := Binder.newSymbol s (← get) key (.ofTy found.ty .field) span found false doc
          modify (fun b => (b.addMember symbol).adoptMembers symbol.id)
          inferFields s rest depth (members.insert key.name symbol.id)) := by
      intro found b hholds
      let symbol := Binder.newSymbol s b key (.ofTy found.ty .field) span found false
        (Comment.doc? s.source.lines span.start comments)
      have hadded : Visit s env env [] [.name key] b (b.addMember symbol) :=
        visit_addMember hholds rfl
      have hadopted := hadded.andQuiet hholds.lt_size ((Binder.quietLaws s).adopt symbol.id _)
      exact hadopted.trans hholds.lt_size
        (fields_visits rest depth _ (by omega) hbehind.right _ hadopted.holds)
    exact .bindBetween (expr_visits value _ (by omega) hbehind.left) hmember

theorem setmetatable_visits : ∀ (arguments : List Expr) (depth : Nat) {env : Env},
    depth + Expr.heightOf arguments ≤ maxDepth → env.Precedes (Expr.sitesOf arguments) →
    Visits s env env (Expr.usesOf arguments env) (Expr.sitesOf arguments)
      (inferSetmetatable s arguments depth)
  | [], _, _, _, _ => .pure _
  | target :: rest, depth, env, hdepth, hbefore => by
    simp only [Expr.heightOf] at hdepth
    have hrest : Visits s env env _ _ (inferSetmetatable s rest depth) :=
      setmetatable_visits rest depth (by omega) hbefore.right
    have hcons : Visits s env env (Expr.usesOf (target :: rest) env)
        (Expr.sitesOf (target :: rest)) (do
          let target ← inferExpr s target (depth + 1)
          let prototype ← inferMetatable s rest depth
          fun b => b.attachPrototype target prototype) := by
      refine .bind (expr_visits target _ (by omega) hbefore.left) fun found => ?_
      exact (metatable_visits rest depth (by omega) hbefore.right).andQuiet
        ((Binder.quietLaws s).attachPrototype found)
    cases target <;> first | exact hrest | exact hcons

theorem metatable_visits : ∀ (arguments : List Expr) (depth : Nat) {env : Env},
    depth + Expr.heightOf arguments ≤ maxDepth → env.Precedes (Expr.sitesOf arguments) →
    Visits s env env (Expr.usesOf arguments env) (Expr.sitesOf arguments)
      (inferMetatable s arguments depth)
  | [], _, _, _, _ => .pure _
  | metatable :: rest, depth, env, hdepth, hbefore => by
    simp only [Expr.heightOf] at hdepth
    have hrest : Visits s env env _ _ (inferMetatable s rest depth) :=
      metatable_visits rest depth (by omega) hbefore.right
    have hlist : Visits s env env _ _ (inferList s rest depth) :=
      list_visits rest depth (by omega) hbefore.right
    have hcons : Visits s env env (Expr.usesOf (metatable :: rest) env)
        (Expr.sitesOf (metatable :: rest)) (do
          let value ← inferExpr s metatable (depth + 1)
          let _ ← inferList s rest depth
          pure (value.alias.map PrototypeOver.metatable)) :=
      .bind (expr_visits metatable _ (by omega) hbefore.left) fun _ => hlist.andPure _
    cases metatable with
    | global => exact hrest
    | table fields =>
      simp only [Expr.height] at hdepth
      exact .bind (fields_visits fields _ _ (by omega) hbefore.left) fun _ => hlist.andPure _
    | _ => exact hcons

theorem block_visits : ∀ (block : Option Block) (depth : Nat) {env : Env},
    depth + Block.height? block ≤ maxDepth + 1 → env.Precedes (Block.sites? block) →
    Visits s env (env.declare (Statement.declaresOf (blockStatements block)))
      (Block.uses? block env) (Block.sites? block) (visitBlock s block depth)
  | none, _, env, _, _ => by
    rw [blockStatements, Statement.declaresOf, List.flatMap_nil, Env.declare_nil]
    exact .pure _
  | some (.mk _ statements), depth, env, hdepth, hbefore => by
    simp only [Block.height?] at hdepth
    simp only [visitBlock, if_neg (show ¬ maxDepth < depth by omega)]
    exact statements_visits statements _ (by omega) hbefore

theorem scoped_visits (kind : ScopeKind) : ∀ (block : Option Block) (depth : Nat) {env : Env},
    depth + Block.height? block ≤ maxDepth → env.Precedes (Block.sites? block) →
    Visits s env env (Block.uses? block (env.enter [] block)) (Block.sites? block)
      (visitScoped s kind block depth)
  | none, _, _, _, _ => .pure _
  | some (.mk span statements), depth, env, hdepth, hbefore => by
    simp only [Block.height?] at hdepth
    simp only [visitScoped, if_neg (show ¬ maxDepth < depth + 1 by omega)]
    have hstatements := statements_visits statements (depth + 2) (by omega)
      (hbefore.enterBare (Statement.declaresOf statements))
    exact scope_visits (some (.mk span statements)) hstatements kind span

theorem statements_visits : ∀ (statements : List Statement) (depth : Nat) {env : Env},
    depth + Statement.heightOf statements ≤ maxDepth + 1 →
    env.Precedes (Statement.sitesOf statements) →
    Visits s env (env.declare (Statement.declaresOf statements))
      (Statement.usesOf statements env) (Statement.sitesOf statements)
      (visitStatements s statements depth)
  | [], _, env, _, _ => by
    rw [Statement.declaresOf, List.flatMap_nil, Env.declare_nil]
    exact .pure _
  | .mk comments span node :: rest, depth, env, hdepth, hbefore => by
    simp only [Statement.heightOf] at hdepth
    simp only [visitStatements, if_pos (show depth ≤ maxDepth by omega)]
    have hrest := statements_visits rest depth (by omega)
      (hbefore.declare node.declares_standAt)
    rw [Env.declare_append] at hrest
    exact .bind (statement_visits node span _ depth (by omega) hbefore.left) fun _ => hrest

theorem statement_visits : ∀ (node : StatementNode) (span : Span) (doc : Option String)
    (depth : Nat) {env : Env}, depth + node.height ≤ maxDepth → env.Precedes node.sites →
    Visits s env (env.declare node.declares) (node.uses env) node.sites
      (visitStatement s node span doc depth)
  | .empty, _, _, _, _, _, _ | .label, _, _, _, _, _, _ | .goto, _, _, _, _, _, _
  | .break, _, _, _, _, _, _ => by
    refine .bare ?_
    exact .pure _
  | .declare reach _ names none, span, doc, _, _, _, hbefore =>
    names_visits hbefore reach [] span doc
  | .declare reach _ names (some values), span, doc, depth, env, hdepth, hbefore => by
    simp only [StatementNode.height] at hdepth
    exact .bindBack (list_visits values depth hdepth hbefore.right) fun found =>
      names_visits hbefore.left reach found span doc
  | .implicitGlobals none, _, _, _, _, _, _ => by
    refine .bare ?_
    exact .pure _
  | .implicitGlobals (some (name, _)), _, _, depth, env, _, _ => by
    refine .bare ?_
    exact (key_visits name (depth + 2)).idle.andPure _
  | .assign targets values, span, doc, depth, env, hdepth, hbefore => by
    simp only [StatementNode.height] at hdepth
    exact .bindBack (list_visits values depth (by omega) hbefore.right) fun found =>
      targets_visits targets found span doc depth (by omega) hbefore.left
  | .function reach name (.mk parameters block stop), span, doc, depth, env, hdepth, hbefore => by
    simp only [StatementNode.height, FunctionBody.height] at hdepth
    have hbody : (env.declare
        (StatementNode.declares (.function reach name (.mk parameters block stop)))).Precedes
        (parameters.sites ++ Block.sites? block) :=
      hbefore.declare (name.declares_standAt reach _)
    have hname : Visits s env _ _ _ (fun b => b.declareFunction s reach name span parameters.names
        doc : Walk σ Binder.Defined) := fun b hholds =>
      visit_declareFunction (.mk parameters block stop) hholds hbefore.left span _ doc
    refine .bind hname fun defined => ?_
    refine .andQuiet (function_visits hbody.left ?_ stop defined.container) fun returns =>
      (Binder.quietLaws s).finishFunction defined.symbol returns
    exact block_visits block _ (by omega)
      (hbody.enter (parameters.declares_standAt name.method.isSome) block)
  | .do body, span, _, depth, env, hdepth, hbefore => by
    simp only [StatementNode.height] at hdepth
    refine .bare ?_
    simp only [visitStatement]
    split
    · exact scope_visits body (block_visits body _ (by omega) (hbefore.enterBare _)) .block span
    · rename_i hnone
      cases body with
      | none => exact .pure _
      | some block => exact absurd rfl hnone
  | .while condition body, _, _, depth, env, hdepth, hbefore => by
    simp only [StatementNode.height] at hdepth
    refine .bare ?_
    exact .bind (expr_visits condition _ (by omega) hbefore.left) fun _ =>
      scoped_visits .loop body depth (by omega) hbefore.right
  | .repeat body condition, span, _, depth, env, hdepth, hbefore => by
    simp only [StatementNode.height] at hdepth
    refine .bare ?_
    have hopen : (env.enter [] body).Precedes (Block.sites? body ++ condition.sites) :=
      hbefore.enterBare _
    refine scope_visits body (.bind (block_visits body _ (by omega) hopen.left) fun _ => ?_)
      .loop span
    exact (expr_visits condition _ (by omega)
      (hopen.declare (Block.declaresOf_standAt body))).andPure _
  | .if condition body rest none, _, _, depth, env, hdepth, hbefore => by
    simp only [StatementNode.height] at hdepth
    refine .bare ?_
    refine .bind (expr_visits condition _ (by omega) hbefore.left) fun _ => ?_
    refine .bind (scoped_visits .block body depth (by omega) hbefore.right.left) fun _ => ?_
    exact (elseIfs_visits rest depth (by omega) hbefore.right.right).andPure _
  | .if condition body rest (some block), _, _, depth, env, hdepth, hbefore => by
    simp only [StatementNode.height] at hdepth
    refine .bare ?_
    refine .bind (expr_visits condition _ (by omega) hbefore.left) fun _ => ?_
    refine .bind (scoped_visits .block body depth (by omega) hbefore.right.left) fun _ => ?_
    exact .bind (elseIfs_visits rest depth (by omega) hbefore.right.right.left) fun _ =>
      scoped_visits .block block depth (by omega) hbefore.right.right.right
  | .numericFor counter start limit none body, span, _, depth, env, hdepth, hbefore => by
    simp only [StatementNode.height] at hdepth
    have hcounter : env.Precedes ([.name counter] ++ _) := hbefore
    have hblock := block_visits body (depth + 1) (by omega)
      (hcounter.skip.skip.enter (.names .local [counter]) body)
    have hloop := loop_visits [counter] hcounter.left hblock .number span
    have hlimit := Visits.bindBetween (c := [.name counter])
      (expr_visits limit (depth + 1) (by omega) hcounter.right.right.left) fun _ => hloop
    exact .bare (.bindBetween (c := [.name counter])
      (expr_visits start (depth + 1) (by omega) hcounter.right.left) fun _ => hlimit)
  | .numericFor counter start limit (some step) body, span, _, depth, env, hdepth, hbefore => by
    simp only [StatementNode.height] at hdepth
    have hcounter : env.Precedes ([.name counter] ++ _) := hbefore
    have hblock := block_visits body (depth + 1) (by omega)
      (hcounter.skip.skip.skip.enter (.names .local [counter]) body)
    have hloop := loop_visits [counter] hcounter.left hblock .number span
    have hstep := Visits.bindBetween (c := [.name counter])
      (expr_visits step (depth + 1) (by omega) hcounter.right.right.right.left) fun _ => hloop
    have hlimit := Visits.bindBetween (c := [.name counter])
      (expr_visits limit (depth + 1) (by omega) hcounter.right.right.left) fun _ => hstep
    exact .bare (.bindBetween (c := [.name counter])
      (expr_visits start (depth + 1) (by omega) hcounter.right.left) fun _ => hlimit)
  | .genericFor names values body, span, _, depth, env, hdepth, hbefore => by
    simp only [StatementNode.height] at hdepth
    have hblock := block_visits body (depth + 1) (by omega)
      (hbefore.skip.enter (.names .local names) body)
    have hloop := loop_visits names hbefore.left hblock .unknown span
    exact .bare (.bindBetween (list_visits values depth (by omega) hbefore.right.left)
      fun _ => hloop)
  | .return none, _, _, _, _, _, _ => by
    refine .bare ?_
    exact .pure _
  | .return (some values), _, _, depth, env, hdepth, hbefore => by
    simp only [StatementNode.height] at hdepth
    refine .bare (.andQuiet (list_visits values depth hdepth hbefore) fun found b => ?_)
    cases found with
    | nil => exact .refl b
    | cons first _ => exact Binder.quiet_noteReturn b first
  | .call call, _, _, depth, env, hdepth, hbefore => by
    simp only [StatementNode.height] at hdepth
    refine .bare ?_
    exact (expr_visits call _ (by omega) hbefore).andPure _

theorem elseIfs_visits : ∀ (rest : List ElseIf) (depth : Nat) {env : Env},
    depth + ElseIf.heightOf rest ≤ maxDepth → env.Precedes (ElseIf.sitesOf rest) →
    Visits s env env (ElseIf.usesOf rest env) (ElseIf.sitesOf rest) (visitElseIfs s rest depth)
  | [], _, _, _, _ => .pure _
  | .mk condition body :: rest, depth, env, hdepth, hbefore => by
    simp only [ElseIf.heightOf] at hdepth
    refine .bind (expr_visits condition _ (by omega) hbefore.left) fun _ => ?_
    exact .bind (scoped_visits .block body depth (by omega) hbefore.right.left) fun _ =>
      elseIfs_visits rest depth (by omega) hbefore.right.right

theorem targets_visits : ∀ (targets : List Expr) (values : List Inferred) (span : Span)
    (doc : Option String) (depth : Nat) {env : Env},
    depth + Expr.heightOf targets ≤ maxDepth → env.Precedes (Expr.sitesOf targets) →
    Visits s env (env.declare (targets.flatMap Expr.assigns)) (Expr.targetUses targets env)
      (Expr.sitesOf targets) (assignTargets s targets values span doc depth)
  | [], _, _, _, _, _, _, _ => .bare (.pure _)
  | target :: rest, values, span, doc, depth, env, hdepth, hbefore => by
    simp only [Expr.heightOf] at hdepth
    have hrest : ∀ values, Visits s (env.declare target.assigns)
        (env.declare (target.assigns ++ rest.flatMap Expr.assigns))
        (Expr.targetUses rest (env.declare target.assigns)) (Expr.sitesOf rest)
        (assignTargets s rest values span doc depth) := by
      intro values
      rw [← Env.declare_append]
      exact targets_visits rest values span doc depth (by omega)
        (hbefore.declare target.assigns_standAt)
    -- Only a name is declared.
    have hother : target.assigns = [] → ∀ {α : Type} {w : Walk σ α},
        Visits s env env (target.uses env) target.sites w →
        Visits s env (env.declare ((target :: rest).flatMap Expr.assigns))
          (Expr.targetUses (target :: rest) env) (Expr.sitesOf (target :: rest)) (do
            let _ ← w
            assignTargets s rest values.tail span doc depth) := by
      intro hassigns α w htarget
      rw [hassigns, Env.declare_nil, List.nil_append] at hrest
      rw [List.flatMap_cons, hassigns, List.nil_append, Expr.targetUses, hassigns,
        Env.declare_nil]
      exact htarget.bind fun _ => hrest _
    cases target with
    | global =>
      have hsame : env.declare Expr.global.assigns = env := env.declare_nil
      rw [hsame] at hrest
      rw [Expr.targetUses, hsame]
      exact hrest values
    | name ident =>
      have hassign : Visits s env (env.declare [⟨ident, .assigned⟩]) [⟨ident, true, env⟩]
          [.name ident] (modify (Binder.assignName s ident span (values.headD {}) doc)) :=
        fun b hholds => visit_assignName hholds hbefore.left span _ doc
      exact .bind hassign fun _ => hrest _
    | field base key =>
      simp only [assignTargets]
      split
      · rename_i path hpath
        exact hother rfl (define_visits hbefore.left hpath _ span _ doc)
      · simp only [Expr.height] at hdepth
        have hbase := expr_visits base (depth + 1) (by omega) hbefore.left.left
        refine hother rfl (hbase.mono (List.subset_append_left _ _) fun p => ?_)
        simp only [Site.countAt, Expr.sites, List.map_append, List.count_append, Nat.le_add_right]
    | _ => exact hother rfl (expr_visits _ _ (by omega) hbefore.left)

end

end

end Walk

end LuaScope

import LuaScope.Proofs.Linking.Walk
import LuaScope.Proofs.Member.Unnamed
import LuaScope.Proofs.Symbol.Walked

/-!
# LuaScope.Proofs.Member.Walked

A walk over a whole chunk keeps names and members apart.

* `Walk.Parts`          — a part of the walk that keeps them apart and answers with values that list
  members alone; `Walk.expr_parts`, `Walk.statements_parts` and the others say so of each part.
* `Chunk.walked_parted` — so it is when the walk is done.
-/

namespace LuaScope

open SymbolTableOver

variable {σ : Type}

namespace Walk

/-- In a state that has come from `t` the step keeps names and members apart, and its answer is one
of `Q`. -/
def Parts {α : Type} (t : SymbolTable) (w : Walk σ α) (Q : SymbolTable → α → Prop) : Prop :=
  ∀ b : Binder σ, b.Parted → t.Retains b.table → b.Advances (w b).2 ∧ Q (w b).2.table (w b).1

/-- The value lists members alone. -/
def Listing (t : SymbolTable) (value : Inferred) : Prop := t.Admits value.ty

def Listings (t : SymbolTable) (values : List Inferred) : Prop :=
  ∀ value ∈ values, t.Admits value.ty

def Additions (t : SymbolTable) (members : Members) : Prop :=
  ∀ m ∈ members.map Prod.snd, t.Unnamed m

theorem Listings.mono {t t' : SymbolTable} {values : List Inferred} (h : Listings t values)
    (hretains : t.Retains t') : Listings t' values :=
  fun value hvalue => (h value hvalue).mono hretains

theorem Listings.headD {t : SymbolTable} {values : List Inferred} (h : Listings t values) :
    t.Admits (values.headD {}).ty := by
  cases values with
  | nil => exact admits_plain t rfl
  | cons value _ => exact h value List.mem_cons_self

theorem Listings.tail {t : SymbolTable} {values : List Inferred} (h : Listings t values) :
    Listings t values.tail :=
  fun value hvalue => h value (List.mem_of_mem_tail hvalue)

namespace Parts

variable {α β : Type} {t : SymbolTable} {Q : SymbolTable → α → Prop} {R : SymbolTable → β → Prop}

theorem pure {a : α} (h : ∀ t', t.Retains t' → Q t' a) : Parts t (Pure.pure a : Walk σ α) Q :=
  fun _ hb ht => ⟨.refl hb, h _ ht⟩

theorem skip : Parts t (Pure.pure () : Walk σ Unit) Anything := .pure fun _ _ => trivial

theorem plain {value : Inferred} (hty : value.ty.mentioned = []) :
    Parts t (Pure.pure value : Walk σ Inferred) Listing := .pure fun t' _ => admits_plain t' hty

theorem unknown : Parts t (Pure.pure {} : Walk σ Inferred) Listing := .plain rfl

theorem bind {w : Walk σ α} {k : α → Walk σ β} (hw : Parts t w Q)
    (hk : ∀ a t', t.Retains t' → Q t' a → Parts t' (k a) R) : Parts t (w >>= k) R := by
  intro b hb ht
  obtain ⟨hstep, hQ⟩ := hw b hb ht
  obtain ⟨hstep', hR⟩ :=
    hk (w b).1 _ (ht.trans hstep.retains) hQ (w b).2 hstep.parted (.refl _)
  exact ⟨hstep.trans hstep', hR⟩

/-- Of the first step's answer nothing is kept. -/
theorem andThen {w : Walk σ α} {k : α → Walk σ β} (hw : Parts t w Q)
    (hk : ∀ a t', t.Retains t' → Parts t' (k a) R) : Parts t (w >>= k) R :=
  hw.bind fun a t' ht _ => hk a t' ht

theorem change {f : Binder σ → Binder σ}
    (h : ∀ b : Binder σ, b.Parted → t.Retains b.table → b.Advances (f b)) :
    Parts t (modify f : Walk σ Unit) Anything :=
  fun b hb ht => ⟨h b hb ht, trivial⟩

end Parts

section Setting

variable {s : Setting σ} {t : SymbolTable}

theorem name_parts (ident : Ident) (depth : Nat) : Parts t (inferName s ident depth) Listing := by
  unfold inferName
  split
  · exact .unknown
  · exact fun _ hb _ => hb.inferPath [ident]

theorem within_parts (kind : ScopeKind) (span : Span) {inside : Walk σ Unit}
    (hinside : ∀ t, Parts t inside Anything) : Parts t (within kind span inside) Anything := by
  intro b hb ht
  have henter := hb.enterScope kind span
  obtain ⟨hstep, -⟩ := hinside _ (b.enterScope kind span) henter.parted (.refl _)
  exact ⟨(henter.trans hstep).trans (hstep.parted.same rfl rfl), trivial⟩

/-- A function answers with the type of what it returns. -/
theorem function_parts (parameters : Parameters) (stop : Nat) (isMethod : Bool)
    (container : Option Link) {body : Walk σ Unit} (hbody : ∀ t, Parts t body Anything) :
    Parts t (inFunction s parameters stop isMethod container body) Admits := by
  intro b hb ht
  rw [inFunction_eq]
  have henter := hb.enterFunction (s := s) parameters stop isMethod container
  obtain ⟨hstep, -⟩ := hbody _ _ henter.parted (.refl _)
  obtain ⟨hleave, hreturns⟩ := hstep.parted.leaveFunction b.scope
  exact ⟨(henter.trans hstep).trans hleave, hreturns⟩

end Setting

/-! ## The tree -/

theorem admits_binary (op : BinaryOp) {t : SymbolTable} {left right : Inferred}
    (hleft : t.Admits left.ty) (hright : t.Admits right.ty) :
    t.Admits (op.inferred left right).ty := by
  cases op
  case or =>
    unfold BinaryOp.inferred
    dsimp only
    split
    · exact hright
    · exact hleft
  case and => exact hright
  all_goals exact admits_plain t rfl

mutual

theorem expr_parts (s : Setting σ) : ∀ e depth {t}, Parts t (inferExpr s e depth) Listing
  | .nil, depth, _ | .boolean, depth, _ | .number, depth, _ | .literal _, depth, _ => by
    simp only [inferExpr]
    split
    · exact .unknown
    · exact .plain rfl
  | .vararg, _, _ | .global, _, _ => .unknown
  | .name ident, depth, _ => name_parts ident depth
  | .field base key, depth, t => by
    simp only [inferExpr]
    split
    · exact .unknown
    · split
      · exact fun _ hb _ => hb.inferPath _
      · refine .andThen (expr_parts s base _) fun _ _ _ => ?_
        exact .andThen (name_parts key _) fun _ _ _ => .unknown
  | .subscript base key, depth, t => by
    simp only [inferExpr]
    split
    · exact .unknown
    · refine .andThen (expr_parts s base _) fun _ _ _ => ?_
      exact .andThen (expr_parts s key _) fun _ _ _ => .unknown
  | .paren inner, depth, t => by
    simp only [inferExpr]
    split
    · exact .unknown
    · exact expr_parts s inner _
  | .table fields, depth, t => by
    simp only [inferExpr]
    split
    · exact .unknown
    · refine .bind (fields_parts s fields _ nofun) fun members t' _ hmembers => ?_
      exact .pure fun t'' ht m hm => ht m (hmembers m hm)
  | .function (.mk parameters block stop), depth, t => by
    simp only [inferExpr]
    split
    · exact .unknown
    · refine .bind (function_parts parameters stop false none fun _ => block_parts s block _)
        fun returns t' _ hreturns => ?_
      exact .pure fun t'' ht => hreturns.mono ht
  | .call callee method arguments, depth, t => by
    simp only [inferExpr]
    split
    · exact .unknown
    · have harguments : ∀ (value : Inferred) (t : SymbolTable), t.Admits value.ty → Parts t (do
            let _ ← inferList s arguments depth
            pure (Binder.callResult value)) Listing :=
        fun value t hvalue => .andThen (list_parts s arguments depth) fun _ _ ht =>
          .pure fun _ ht' => Admits.callResult (hvalue.mono (ht.trans ht'))
      -- `require` and `setmetatable` are read by rules of their own.
      split
      · exact fun b hb _ => hb.require _
      · exact setmetatable_parts s arguments depth
      · exact .bind (expr_parts s _ _) fun value _ _ hvalue => harguments value _ hvalue
      · split
        · exact .bind .unknown fun value _ _ hvalue => harguments value _ hvalue
        · split
          · exact .bind (Q := Listing) (fun _ hb _ => hb.inferPath _) fun value _ _ hvalue =>
              harguments value _ hvalue
          · refine .andThen (expr_parts s _ _) fun _ _ _ => ?_
            refine .andThen (name_parts _ _) fun _ _ _ => ?_
            exact .bind .unknown fun value _ _ hvalue => harguments value _ hvalue
  | .binary op _ left right, depth, t => by
    simp only [inferExpr]
    split
    · exact .unknown
    · refine .bind (expr_parts s left _) fun leftValue t' ht hleft => ?_
      refine .bind (expr_parts s right _) fun rightValue t'' ht' hright => ?_
      split
      · exact .pure fun _ ht'' => admits_binary op (hleft.mono (ht'.trans ht'')) (hright.mono ht'')
      · exact .unknown
  | .unary op _ operand, depth, t => by
    simp only [inferExpr]
    split
    · exact .unknown
    · refine .andThen (expr_parts s operand _) fun _ _ _ => .plain ?_
      cases op <;> rfl

theorem list_parts (s : Setting σ) : ∀ es depth {t}, Parts t (inferList s es depth) Listings
  | [], _, _ => .pure fun _ _ => nofun
  | e :: rest, depth, t => by
    have hcons : Parts t (do
        let value ← inferExpr s e (depth + 1)
        return value :: (← inferList s rest depth)) Listings :=
      .bind (expr_parts s e _) fun value t' _ hvalue =>
        .bind (list_parts s rest depth) fun values t'' ht hvalues =>
          .pure fun _ ht' => List.forall_mem_cons.mpr
            ⟨hvalue.mono (ht.trans ht'), hvalues.mono ht'⟩
    cases e <;> first | exact list_parts s rest depth | exact hcons

/-- The members are those so far and the entries that are added. -/
theorem fields_parts (s : Setting σ) : ∀ fields depth {members t}, Additions t members →
    Parts t (inferFields s fields depth members) Additions
  | [], _, _, _, hmembers => .pure fun _ ht m hm => ht m (hmembers m hm)
  | .positional value :: rest, depth, members, t, hmembers
  | .unnamed value :: rest, depth, members, t, hmembers => by
    simp only [inferFields]
    exact .andThen (expr_parts s value _) fun _ _ ht =>
      fields_parts s rest depth fun m hm => ht m (hmembers m hm)
  | .computed key value :: rest, depth, members, t, hmembers => by
    simp only [inferFields]
    refine .andThen (expr_parts s key _) fun _ _ ht => ?_
    exact .andThen (expr_parts s value _) fun _ _ ht' =>
      fields_parts s rest depth fun m hm => ht' m (ht m (hmembers m hm))
  | .named comments span key value :: rest, depth, members, t, hmembers => by
    simp only [inferFields]
    refine .bind (expr_parts s value _) fun found t' ht hfound => ?_
    intro b hb ht'
    obtain ⟨hfield, hnew⟩ := hb.addField (x := Binder.newSymbol s b key
      (.ofTy found.ty .field) span found false (Comment.doc? s.source.lines span.start comments))
      rfl (hfound.mono ht')
    have hmembers' : Additions _ (members.insert key.name _) := fun m hm => by
      rcases Binder.mem_ids_insert hm with rfl | hm
      · exact hnew
      · exact hfield.retains m (ht' m (ht m (hmembers m hm)))
    obtain ⟨hrest, hadded⟩ := fields_parts s rest depth hmembers' _ hfield.parted (.refl _)
    exact ⟨hfield.trans hrest, hadded⟩

theorem setmetatable_parts (s : Setting σ) :
    ∀ arguments depth {t}, Parts t (inferSetmetatable s arguments depth) Listing
  | [], _, _ => .unknown
  | target :: rest, depth, t => by
    have hcons : Parts t (do
        let target ← inferExpr s target (depth + 1)
        let prototype ← inferMetatable s rest depth
        fun b => b.attachPrototype target prototype) Listing :=
      .bind (expr_parts s target _) fun target t' _ htarget =>
        .bind (metatable_parts s rest depth) fun prototype t'' ht _ =>
          fun b hb ht' => hb.attachPrototype (htarget.mono (ht.trans ht')) prototype
    cases target <;> first | exact setmetatable_parts s rest depth | exact hcons

theorem metatable_parts (s : Setting σ) :
    ∀ arguments depth {t}, Parts t (inferMetatable s arguments depth) Anything
  | [], _, _ => .pure fun _ _ => trivial
  | metatable :: rest, depth, t => by
    have hcons : Parts t (do
        let value ← inferExpr s metatable (depth + 1)
        let _ ← inferList s rest depth
        pure (value.alias.map PrototypeOver.metatable)) Anything :=
      .andThen (expr_parts s metatable _) fun _ _ _ =>
        .andThen (list_parts s rest depth) fun _ _ _ => .pure fun _ _ => trivial
    cases metatable with
    | global => exact metatable_parts s rest depth
    | table fields =>
      refine .andThen (fields_parts s fields _ nofun) fun _ _ _ => ?_
      exact .andThen (list_parts s rest depth) fun _ _ _ => .pure fun _ _ => trivial
    | _ => exact hcons

theorem block_parts (s : Setting σ) :
    ∀ block depth {t}, Parts t (visitBlock s block depth) Anything
  | none, _, _ => .skip
  | some (.mk _ statements), depth, t => by
    simp only [visitBlock]
    split
    · exact .skip
    · exact statements_parts s statements _

theorem scoped_parts (s : Setting σ) (kind : ScopeKind) :
    ∀ block depth {t}, Parts t (visitScoped s kind block depth) Anything
  | none, _, _ => .skip
  | some (.mk _ statements), depth, t => by
    simp only [visitScoped]
    refine within_parts _ _ fun _ => ?_
    split
    · exact .skip
    · exact statements_parts s statements _

theorem statements_parts (s : Setting σ) :
    ∀ statements depth {t}, Parts t (visitStatements s statements depth) Anything
  | [], _, _ => .skip
  | .mk comments span node :: rest, depth, t => by
    simp only [visitStatements]
    split
    · exact .andThen (statement_parts s node _ _ _) fun _ _ _ => statements_parts s rest depth
    · exact statements_parts s rest depth

theorem statement_parts (s : Setting σ) :
    ∀ node span doc depth {t}, Parts t (visitStatement s node span doc depth) Anything
  | .empty, _, _, _, _ | .label, _, _, _, _ | .goto, _, _, _, _ | .break, _, _, _, _ => .skip
  | .declare _ _ names none, span, doc, _, _ =>
    .change fun _ hb _ => Binder.Parted.declareLocals span doc _ hb nofun
  | .declare _ _ names (some values), span, doc, depth, _ =>
    .bind (list_parts s values depth) fun values _ _ hvalues =>
      .change fun _ hb ht => Binder.Parted.declareLocals span doc _ hb (hvalues.mono ht)
  | .implicitGlobals none, _, _, _, _ => .skip
  | .implicitGlobals (some (name, _)), _, _, depth, _ =>
    .andThen (name_parts name _) fun _ _ _ => .skip
  | .assign targets values, span, doc, depth, _ => by
    simp only [visitStatement]
    exact .bind (list_parts s values _) fun _ _ _ hvalues =>
      targets_parts s targets span doc depth hvalues
  | .function reach name (.mk parameters block stop), span, doc, depth, _ => by
    simp only [visitStatement]
    refine .bind (Q := Anything)
      (fun _ hb _ => ⟨hb.declareFunction reach name span _ doc, trivial⟩) fun defined _ _ _ => ?_
    refine .bind (function_parts parameters stop _ defined.container
      fun _ => block_parts s block _) fun returns _ _ hreturns => ?_
    exact .change fun _ hb ht => hb.finishFunction defined.symbol (hreturns.mono ht)
  | .do body, span, _, depth, _ => by
    simp only [visitStatement]
    split
    · exact within_parts _ _ fun _ => block_parts s body _
    · exact .skip
  | .while condition body, _, _, depth, _ => by
    simp only [visitStatement]
    exact .andThen (expr_parts s condition _) fun _ _ _ => scoped_parts s _ body _
  | .repeat body condition, span, _, depth, _ => by
    simp only [visitStatement]
    refine within_parts _ _ fun _ => .andThen (block_parts s body _) fun _ _ _ => ?_
    exact .andThen (expr_parts s condition _) fun _ _ _ => .skip
  | .if condition body rest none, _, _, depth, _ => by
    refine .andThen (expr_parts s condition _) fun _ _ _ => ?_
    refine .andThen (scoped_parts s _ body depth) fun _ _ _ => ?_
    exact .andThen (elseIfs_parts s rest depth) fun _ _ _ => .skip
  | .if condition body rest (some block), _, _, depth, _ => by
    refine .andThen (expr_parts s condition _) fun _ _ _ => ?_
    refine .andThen (scoped_parts s _ body depth) fun _ _ _ => ?_
    exact .andThen (elseIfs_parts s rest depth) fun _ _ _ => scoped_parts s _ block depth
  | .numericFor counter start limit none body, span, _, depth, _ => by
    refine .andThen (expr_parts s start _) fun _ _ _ => ?_
    refine .andThen (expr_parts s limit _) fun _ _ _ => ?_
    exact within_parts .loop span fun _ =>
      .andThen (.change fun _ hb _ => hb.declarePlain counter _ span .number rfl true none)
        fun _ _ _ => block_parts s body (depth + 1)
  | .numericFor counter start limit (some step) body, span, _, depth, _ => by
    refine .andThen (expr_parts s start _) fun _ _ _ => ?_
    refine .andThen (expr_parts s limit _) fun _ _ _ => ?_
    refine .andThen (expr_parts s step _) fun _ _ _ => ?_
    exact within_parts .loop span fun _ =>
      .andThen (.change fun _ hb _ => hb.declarePlain counter _ span .number rfl true none)
        fun _ _ _ => block_parts s body (depth + 1)
  | .genericFor names values body, span, _, depth, _ => by
    simp only [visitStatement]
    refine .andThen (list_parts s values _) fun _ _ _ => ?_
    exact within_parts _ _ fun _ =>
      .andThen (.change fun _ hb _ => Binder.Parted.declareCounters span names hb)
        fun _ _ _ => block_parts s body _
  | .return none, _, _, _, _ => .skip
  | .return (some values), _, _, depth, _ => by
    refine .bind (list_parts s values depth) fun found _ _ hfound => ?_
    cases found with
    | nil => exact .skip
    | cons first _ =>
      exact .change fun _ hb ht => hb.noteReturn ((hfound first List.mem_cons_self).mono ht)
  | .call call, _, _, depth, _ => by
    simp only [visitStatement]
    exact .andThen (expr_parts s call _) fun _ _ _ => .skip

theorem elseIfs_parts (s : Setting σ) :
    ∀ rest depth {t}, Parts t (visitElseIfs s rest depth) Anything
  | [], _, _ => .skip
  | .mk condition body :: rest, depth, t => by
    simp only [visitElseIfs]
    refine .andThen (expr_parts s condition _) fun _ _ _ => ?_
    exact .andThen (scoped_parts s _ body _) fun _ _ _ => elseIfs_parts s rest depth

theorem targets_parts (s : Setting σ) : ∀ targets span doc depth {values t}, Listings t values →
    Parts t (assignTargets s targets values span doc depth) Anything
  | [], _, _, _, _, _, _ => .skip
  | target :: rest, span, doc, depth, values, t, hvalues => by
    have hrest : ∀ t', t.Retains t' →
        Parts t' (assignTargets s rest values.tail span doc depth) Anything :=
      fun _ ht => targets_parts s rest span doc depth (hvalues.tail.mono ht)
    have hother : Parts t (do
        let _ ← inferExpr s target (depth + 1)
        assignTargets s rest values.tail span doc depth) Anything :=
      .andThen (expr_parts s target _) fun _ _ ht => hrest _ ht
    cases target with
    | global => exact targets_parts s rest span doc depth hvalues
    | name ident =>
      exact .andThen (.change fun _ hb ht => hb.assignName ident span (hvalues.headD.mono ht) doc)
        fun _ _ ht => hrest _ ht
    | field base key =>
      simp only [assignTargets]
      split
      · exact .andThen (.change fun _ hb ht => hb.defineMember _ _ span (hvalues.headD.mono ht) doc)
          fun _ _ ht => hrest _ ht
      · exact .andThen (expr_parts s base _) fun _ _ ht => hrest _ ht
    | _ => exact hother

end

end Walk

/-- Names and members are apart in all that a walk leaves behind. -/
theorem Chunk.walked_parted (s : Setting σ) (chunk : Chunk) (world : σ) :
    SymbolTable.Parted (chunk.walked s world).table :=
  (Walk.statements_parts s chunk.statements 1 (.start s.source world) (.start s.source world)
    (.refl _)).1.parted.table

end LuaScope

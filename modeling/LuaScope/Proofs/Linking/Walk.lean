import LuaScope.Proofs.Linking.Step
import LuaScope.Proofs.Syntax.Passage

/-!
# LuaScope.Proofs.Linking.Walk

A walk over a tree whose paths are all written keeps its state sound, and the values it answers with
can be kept in the table it leaves behind. What was safe in front of a step is so behind it, as the
table only grows; so a step is looked at in every table that has grown from the one in front.
-/

namespace LuaScope

variable {σ : Type} {c : Regime σ}

/-- The paths among these passages are written. -/
def Regime.Covers (c : Regime σ) (passages : List Passage) : Prop :=
  ∀ path, .path path ∈ passages → c.written path

namespace Regime.Covers

variable {passages rest : List Passage}

theorem left (h : c.Covers (passages ++ rest)) : c.Covers passages :=
  fun path hpath => h path (List.mem_append_left _ hpath)

theorem right (h : c.Covers (passages ++ rest)) : c.Covers rest :=
  fun path hpath => h path (List.mem_append_right _ hpath)

theorem head {path : List Ident} (h : c.Covers (.path path :: rest)) : c.written path :=
  h path List.mem_cons_self

theorem tail {passage : Passage} (h : c.Covers (passage :: rest)) : c.Covers rest :=
  fun path hpath => h path (List.mem_cons_of_mem _ hpath)

theorem ends {name : Ident} (h : c.Covers (.path [name] :: rest)) : c.Ends name :=
  Binder.Sound.ends_of_written h.head

theorem names {names : List Ident}
    (h : c.Covers (names.map fun name => .path [name])) : ∀ name ∈ names, c.Ends name :=
  fun name hname => Binder.Sound.ends_of_written (h [name] (List.mem_map_of_mem hname))

theorem attributed {names : List AttributedName}
    (h : c.Covers (names.map fun name => .path [name.ident])) :
    ∀ name ∈ names.map AttributedName.ident, c.Ends name := by
  intro name hname
  obtain ⟨attributed, hmem, rfl⟩ := List.mem_map.mp hname
  exact Binder.Sound.ends_of_written (h _ (List.mem_map_of_mem hmem))

theorem parameters {p : Parameters} (h : c.Covers p.passages) :
    ∀ name, .name name ∈ p.entries → c.Ends name := by
  intro name hname
  refine Binder.Sound.ends_of_written (h.tail [name] ?_)
  exact List.mem_flatMap.mpr ⟨.name name, hname, List.mem_singleton_self _⟩

end Regime.Covers

namespace Walk

/-- In a sound state whose table has grown from `t` the step keeps the state sound, and its answer
is one of `Q`. -/
def Keeps {α : Type} (c : Regime σ) (t : SymbolTable) (w : Walk σ α)
    (Q : SymbolTable → α → Prop) : Prop :=
  ∀ b : Binder σ, b.Sound c → t.Extends b.table → b.Grows c (w b).2 ∧ Q (w b).2.table (w b).1

/-- The value can be kept. -/
def Value (c : Regime σ) (t : SymbolTable) (value : Inferred) : Prop := value.SafeIn c.demand t

def Values (c : Regime σ) (t : SymbolTable) (values : List Inferred) : Prop :=
  ∀ value ∈ values, value.SafeIn c.demand t

def Anything {α : Type} (_ : SymbolTable) (_ : α) : Prop := True

theorem Values.mono {t t' : SymbolTable} {values : List Inferred} (h : Values c t values)
    (hextends : t.Extends t') : Values c t' values :=
  fun value hvalue => (h value hvalue).mono hextends

theorem Values.headD {t : SymbolTable} {values : List Inferred} (h : Values c t values) :
    (values.headD {}).SafeIn c.demand t := by
  cases values with
  | nil => exact Inferred.safeIn_unknown _ _
  | cons value _ => exact h value List.mem_cons_self

theorem Values.tail {t : SymbolTable} {values : List Inferred} (h : Values c t values) :
    Values c t values.tail :=
  fun value hvalue => h value (List.mem_of_mem_tail hvalue)

namespace Keeps

variable {α β : Type} {t : SymbolTable} {Q : SymbolTable → α → Prop} {R : SymbolTable → β → Prop}

theorem pure {a : α} (h : ∀ t', t.Extends t' → Q t' a) : Keeps c t (Pure.pure a) Q :=
  fun _ hb ht => ⟨.refl hb, h _ ht⟩

theorem skip : Keeps c t (Pure.pure () : Walk σ Unit) Anything := .pure fun _ _ => trivial

/-- A value that holds no numbers. -/
theorem plain {value : Inferred} (h : ∀ t, value.SafeIn c.demand t) :
    Keeps c t (Pure.pure value) (Value c) := .pure fun t' _ => h t'

theorem unknown : Keeps c t (Pure.pure {}) (Value c) := .plain (Inferred.safeIn_unknown _)

theorem bind {w : Walk σ α} {k : α → Walk σ β} (hw : Keeps c t w Q)
    (hk : ∀ a t', t.Extends t' → Q t' a → Keeps c t' (k a) R) : Keeps c t (w >>= k) R := by
  intro b hb ht
  obtain ⟨hgrows, hQ⟩ := hw b hb ht
  obtain ⟨hgrows', hR⟩ :=
    hk (w b).1 _ (ht.trans hgrows.table) hQ (w b).2 hgrows.sound (.refl _)
  exact ⟨hgrows.trans hgrows', hR⟩

/-- Of the first step's answer nothing is kept. -/
theorem andThen {w : Walk σ α} {k : α → Walk σ β} (hw : Keeps c t w Q)
    (hk : ∀ a t', t.Extends t' → Keeps c t' (k a) R) : Keeps c t (w >>= k) R :=
  hw.bind fun a t' ht _ => hk a t' ht

theorem change {f : Binder σ → Binder σ}
    (h : ∀ b : Binder σ, b.Sound c → t.Extends b.table → b.Grows c (f b)) :
    Keeps c t (modify f : Walk σ Unit) Anything :=
  fun b hb ht => ⟨h b hb ht, trivial⟩

end Keeps

section Setting

variable {t : SymbolTable}

theorem path_sound {path : List Ident} (hwritten : c.written path) :
    Keeps c t (inferPath c.setting path) (Value c) :=
  fun _ hb _ => hb.inferPath hwritten

theorem name_sound {ident : Ident} (hwritten : c.written [ident]) (depth : Nat) :
    Keeps c t (inferName c.setting ident depth) (Value c) := by
  unfold inferName
  split
  · exact .unknown
  · exact path_sound hwritten

theorem within_sound (kind : ScopeKind) (span : Span) {inside : Walk σ Unit}
    (hinside : Keeps c t inside Anything) :
    Keeps c t (within kind span inside) Anything := by
  intro b hb ht
  have henter := hb.enterScope kind span
  obtain ⟨hgrows, -⟩ :=
    hinside (b.enterScope kind span) henter.sound (ht.trans henter.table)
  have hback := hgrows.sound.backTo
    (Nat.lt_of_lt_of_le hb.scope (henter.table.trans hgrows.table).scopes)
  exact ⟨(henter.trans hgrows).trans hback, trivial⟩

/-- A function answers with the type of what it returns. -/
theorem function_sound {parameters : Parameters} (hparameters : c.Covers parameters.passages)
    (stop : Nat) (isMethod : Bool) {container : Option Link}
    (hcontainer : ∀ link, container = some link → Link.SafeIn c.demand t link)
    {body : Walk σ Unit} (hbody : Keeps c t body Anything) :
    Keeps c t (inFunction c.setting parameters stop isMethod container body)
      fun t' returns => Ty.SafeIn c.demand t' returns := by
  intro b hb ht
  have henter := hb.enterScope .function ⟨parameters.span.start, stop⟩
  have hself : (b.enterScope .function ⟨parameters.span.start, stop⟩).Grows c
      (if isMethod then
        Binder.declareSelf c.setting parameters.span container
          (b.enterScope .function ⟨parameters.span.start, stop⟩)
      else b.enterScope .function ⟨parameters.span.start, stop⟩) := by
    split
    · exact henter.sound.declareSelf parameters.span
        fun link hlink => (hcontainer link hlink).mono (ht.trans henter.table)
    · exact .refl henter.sound
  have hentries := hself.sound.declareParameters parameters.span hparameters.parameters
  have hframe := (((henter.trans hself).trans hentries).trans hentries.sound.pushFrame)
  obtain ⟨hgrows, -⟩ := hbody _ hframe.sound (ht.trans hframe.table)
  obtain ⟨hpop, hreturns⟩ := hgrows.sound.popFrame
  have hall := (hframe.trans hgrows).trans hpop
  have hback := hpop.sound.backTo (Nat.lt_of_lt_of_le hb.scope hall.table.scopes)
  cases isMethod <;> exact ⟨hall.trans hback, hreturns⟩

end Setting

/-! ## The tree -/

theorem safeIn_unary (op : UnaryOp) (t : SymbolTable) : op.inferred.SafeIn c.demand t := by
  cases op <;> exact Inferred.safeIn_ty trivial

theorem safeIn_binary (op : BinaryOp) {t : SymbolTable} {left right : Inferred}
    (hleft : left.SafeIn c.demand t) (hright : right.SafeIn c.demand t) :
    (op.inferred left right).SafeIn c.demand t := by
  cases op
  case or =>
    unfold BinaryOp.inferred
    dsimp only
    split
    · exact hright
    · exact hleft
  case and => exact hright
  all_goals exact Inferred.safeIn_ty trivial

mutual

theorem expr_sound : ∀ e depth {t}, c.Covers e.passages →
    Keeps c t (inferExpr c.setting e depth) (Value c)
  | .nil, depth, _, _ | .boolean, depth, _, _ | .number, depth, _, _ | .literal _, depth, _, _ => by
    simp only [inferExpr]
    split
    · exact .unknown
    · exact .plain fun _ => Inferred.safeIn_ty trivial
  | .vararg, _, _, _ | .global, _, _, _ => .unknown
  | .name ident, depth, _, h => name_sound h.head depth
  | .field base key, depth, t, h => by
    simp only [Expr.passages] at h
    simp only [inferExpr]
    split
    · exact .unknown
    · cases hpath : base.path? with
      | some path =>
        rw [hpath] at h
        exact path_sound h.head
      | none =>
        rw [hpath] at h
        refine .andThen (expr_sound base _ h.left) fun _ _ _ => ?_
        exact .andThen (name_sound h.right.head _) fun _ _ _ => .unknown
  | .subscript base key, depth, t, h => by
    simp only [Expr.passages] at h
    simp only [inferExpr]
    split
    · exact .unknown
    · refine .andThen (expr_sound base _ h.left) fun _ _ _ => ?_
      exact .andThen (expr_sound key _ h.right) fun _ _ _ => .unknown
  | .paren inner, depth, t, h => by
    simp only [inferExpr]
    split
    · exact .unknown
    · exact expr_sound inner _ h
  | .table fields, depth, t, h => by
    simp only [inferExpr]
    split
    · exact .unknown
    · refine .bind (fields_sound fields _ h fun _ hentry => by cases hentry)
        fun members t' _ hmembers => ?_
      refine .pure fun t'' ht => Inferred.safeIn_ty ⟨fun _ => ⟨hmembers.mono ht, ?_⟩, ?_⟩
      · exact fun _ hproto => by cases hproto
      · exact fun _ ho => by cases ho
  | .function (.mk parameters block stop), depth, t, h => by
    simp only [Expr.passages, FunctionBody.passages] at h
    simp only [inferExpr]
    split
    · exact .unknown
    · refine .bind (function_sound h.left stop false (fun _ hlink => by cases hlink)
        (block_sound block _ h.right)) fun returns t' _ hreturns => ?_
      exact .pure fun t'' ht => Inferred.safeIn_ty (hreturns.mono ht)
  | .call callee method arguments, depth, t, h => by
    simp only [inferExpr]
    split
    · exact .unknown
    · have harguments : ∀ (value : Inferred) (t : SymbolTable),
          c.Covers (Expr.passagesOf arguments) → value.SafeIn c.demand t → Keeps c t (do
            let _ ← inferList c.setting arguments depth
            pure (Binder.callResult value)) (Value c) :=
        fun value t harguments hvalue => .andThen (list_sound arguments depth harguments)
          fun _ _ ht => .pure fun _ ht' => Binder.safeIn_callResult (hvalue.mono (ht.trans ht'))
      -- `require` and `setmetatable` are read by rules of their own.
      split
      · exact fun b hb _ => hb.require _
      · exact setmetatable_sound arguments depth h.right
      · exact .bind (expr_sound _ _ h.left) fun value _ _ hvalue =>
          harguments value _ h.right hvalue
      · rename_i callee _ _ _ _
        simp only [Expr.passages] at h
        cases hpath : callee.path? with
        | some path =>
          rw [hpath] at h
          split
          · exact .bind .unknown fun value _ _ hvalue => harguments value _ h.tail hvalue
          · exact .bind (path_sound h.head) fun value _ _ hvalue => harguments value _ h.tail hvalue
        | none =>
          rw [hpath] at h
          split
          · exact .bind .unknown fun value _ _ hvalue => harguments value _ h.right.tail hvalue
          · refine .andThen (expr_sound _ _ h.left) fun _ _ _ => ?_
            refine .andThen (name_sound h.right.head _) fun _ _ _ => ?_
            exact .bind .unknown fun value _ _ hvalue => harguments value _ h.right.tail hvalue
  | .binary op _ left right, depth, t, h => by
    simp only [Expr.passages] at h
    simp only [inferExpr]
    split
    · exact .unknown
    · refine .bind (expr_sound left _ h.left) fun leftValue t' ht hleft => ?_
      refine .bind (expr_sound right _ h.right) fun rightValue t'' ht' hright => ?_
      split
      · exact .pure fun _ ht'' => safeIn_binary op (hleft.mono (ht'.trans ht'')) (hright.mono ht'')
      · exact .unknown
  | .unary op _ operand, depth, t, h => by
    simp only [inferExpr]
    split
    · exact .unknown
    · exact .andThen (expr_sound operand _ h) fun _ _ _ => .plain (safeIn_unary op)

theorem list_sound : ∀ es depth {t}, c.Covers (Expr.passagesOf es) →
    Keeps c t (inferList c.setting es depth) (Values c)
  | [], _, _, _ => .pure fun _ _ _ hvalue => by cases hvalue
  | e :: rest, depth, t, h => by
    simp only [Expr.passagesOf] at h
    have hcons : Keeps c t (do
        let value ← inferExpr c.setting e (depth + 1)
        return value :: (← inferList c.setting rest depth)) (Values c) :=
      .bind (expr_sound e _ h.left) fun value t' _ hvalue =>
        .bind (list_sound rest depth h.right) fun values t'' ht hvalues =>
          .pure fun _ ht' => List.forall_mem_cons.mpr
            ⟨hvalue.mono (ht.trans ht'), hvalues.mono ht'⟩
    cases e <;> first | exact list_sound rest depth h | exact hcons

theorem fields_sound : ∀ fields depth {members t}, c.Covers (Field.passagesOf fields) →
    members.NamedIn t →
    Keeps c t (inferFields c.setting fields depth members) fun t' members => members.NamedIn t'
  | [], _, _, _, _, hmembers => .pure fun _ ht => hmembers.mono ht
  | .positional value :: rest, depth, members, t, h, hmembers
  | .unnamed value :: rest, depth, members, t, h, hmembers => by
    simp only [Field.passagesOf] at h
    simp only [inferFields]
    exact .andThen (expr_sound value _ h.left) fun _ _ ht =>
      fields_sound rest depth h.right (hmembers.mono ht)
  | .computed key value :: rest, depth, members, t, h, hmembers => by
    simp only [Field.passagesOf] at h
    simp only [inferFields]
    refine .andThen (expr_sound key _ h.left) fun _ _ ht => ?_
    exact .andThen (expr_sound value _ h.right.left) fun _ _ ht' =>
      fields_sound rest depth h.right.right (hmembers.mono (ht.trans ht'))
  | .named comments span key value :: rest, depth, members, t, h, hmembers => by
    simp only [Field.passagesOf] at h
    simp only [inferFields]
    refine .bind (expr_sound value _ h.tail.left) fun found t' ht hfound => ?_
    intro b hb ht'
    obtain ⟨hfield, hnames⟩ := hb.addField h.ends (hfound.mono ht') (.ofTy found.ty .field) span
      (Comment.doc? c.setting.source.lines span.start comments) rfl
    have hmembers' := Binder.Sound.namedIn_insert
      (hmembers.mono ((ht.trans ht').trans hfield.table)) hnames
    obtain ⟨hgrows, hrest⟩ :=
      fields_sound rest depth h.tail.right hmembers' _ hfield.sound (.refl _)
    exact ⟨hfield.trans hgrows, hrest⟩

theorem setmetatable_sound : ∀ arguments depth {t}, c.Covers (Expr.passagesOf arguments) →
    Keeps c t (inferSetmetatable c.setting arguments depth) (Value c)
  | [], _, _, _ => .unknown
  | target :: rest, depth, t, h => by
    simp only [Expr.passagesOf] at h
    have hcons : Keeps c t (do
        let target ← inferExpr c.setting target (depth + 1)
        let prototype ← inferMetatable c.setting rest depth
        fun b => b.attachPrototype target prototype) (Value c) :=
      .bind (expr_sound target _ h.left) fun target t' _ htarget =>
        .bind (metatable_sound rest depth h.right) fun prototype t'' ht hprototype =>
          fun b hb ht' => hb.attachPrototype (htarget.mono (ht.trans ht'))
            fun proto hproto => (hprototype proto hproto).mono ht'
    cases target <;> first | exact setmetatable_sound rest depth h | exact hcons

theorem metatable_sound : ∀ arguments depth {t}, c.Covers (Expr.passagesOf arguments) →
    Keeps c t (inferMetatable c.setting arguments depth) fun t' prototype =>
      ∀ proto, prototype = some proto → Link.SafeIn c.demand t' proto.link
  | [], _, _, _ => .pure fun _ _ _ hproto => by cases hproto
  | metatable :: rest, depth, t, h => by
    simp only [Expr.passagesOf] at h
    have hcons : Keeps c t (do
        let value ← inferExpr c.setting metatable (depth + 1)
        let _ ← inferList c.setting rest depth
        pure (value.alias.map PrototypeOver.metatable)) fun t' prototype =>
          ∀ proto, prototype = some proto → Link.SafeIn c.demand t' proto.link :=
      .bind (expr_sound metatable _ h.left) fun value t' _ hvalue =>
        .andThen (list_sound rest depth h.right) fun _ t'' ht => .pure fun _ ht' proto hproto => by
          obtain ⟨link, hlink, rfl⟩ := Option.map_eq_some_iff.mp hproto
          exact (hvalue.alias link hlink).mono (ht.trans ht')
    cases metatable with
    | global => exact metatable_sound rest depth h
    | table fields =>
      refine .bind (fields_sound fields _ h.left fun _ hentry => by cases hentry)
        fun members t' _ hmembers => ?_
      refine .andThen (list_sound rest depth h.right) fun _ t'' ht =>
        .pure fun _ ht' proto hproto => ?_
      obtain ⟨id, hid, rfl⟩ := Option.map_eq_some_iff.mp hproto
      have hnames := hmembers _ (SymbolTable.Safe.mem_of_lookup hid)
      exact ⟨fun _ => ((ht.trans ht').names hnames).lt, fun _ ho => by cases ho⟩
    | _ => exact hcons

theorem block_sound : ∀ block depth {t}, c.Covers (Block.passages? block) →
    Keeps c t (visitBlock c.setting block depth) Anything
  | none, _, _, _ => .skip
  | some (.mk _ statements), depth, t, h => by
    simp only [visitBlock]
    split
    · exact .skip
    · exact statements_sound statements _ h

theorem scoped_sound (kind : ScopeKind) : ∀ block depth {t}, c.Covers (Block.passages? block) →
    Keeps c t (visitScoped c.setting kind block depth) Anything
  | none, _, _, _ => .skip
  | some (.mk _ statements), depth, t, h => by
    simp only [visitScoped]
    refine within_sound _ _ ?_
    split
    · exact .skip
    · exact statements_sound statements _ h

theorem statements_sound : ∀ statements depth {t}, c.Covers (Statement.passagesOf statements) →
    Keeps c t (visitStatements c.setting statements depth) Anything
  | [], _, _, _ => .skip
  | .mk comments span node :: rest, depth, t, h => by
    simp only [Statement.passagesOf] at h
    simp only [visitStatements]
    split
    · exact .andThen (statement_sound node _ _ _ h.left) fun _ _ _ =>
        statements_sound rest depth h.right
    · exact statements_sound rest depth h.right

theorem statement_sound : ∀ node span doc depth {t}, c.Covers node.passages →
    Keeps c t (visitStatement c.setting node span doc depth) Anything
  | .empty, _, _, _, _, _ | .label, _, _, _, _, _ | .goto, _, _, _, _, _ | .break, _, _, _, _, _ =>
    .skip
  | .declare _ _ names none, span, doc, _, _, h =>
    .change fun _ hb _ => Binder.Sound.declareLocals span doc hb h.attributed
      fun _ hvalue => by cases hvalue
  | .declare _ _ names (some values), span, doc, depth, _, h =>
    .bind (list_sound values depth h.right) fun values _ _ hvalues =>
      .change fun _ hb ht =>
        Binder.Sound.declareLocals span doc hb h.left.attributed (hvalues.mono ht)
  | .implicitGlobals none, _, _, _, _, _ => .skip
  | .implicitGlobals (some (name, _)), _, _, depth, _, h =>
    .andThen (name_sound h.head _) fun _ _ _ => .skip
  | .assign targets values, span, doc, depth, _, h => by
    simp only [visitStatement]
    exact .bind (list_sound values _ h.right) fun _ _ _ hvalues =>
      targets_sound targets span doc depth h.left hvalues
  | .function reach name (.mk parameters block stop), span, doc, depth, _, h => by
    have hbody : c.Covers (FunctionBody.passages (.mk parameters block stop)) := h.tail
    simp only [visitStatement]
    refine .bind (Q := fun t defined => Binder.Sound.Reached c t defined)
      (fun _ hb _ => hb.declareFunction reach h.head span _ doc) fun defined _ _ hdefined => ?_
    refine .bind (function_sound hbody.left stop _ hdefined.container
      (block_sound block _ hbody.right)) fun returns _ _ hreturns => ?_
    exact .change fun _ hb ht => hb.finishFunction defined.symbol (hreturns.mono ht)
  | .do body, span, _, depth, _, h => by
    simp only [visitStatement]
    split
    · exact within_sound _ _ (block_sound body _ h)
    · exact .skip
  | .while condition body, _, _, depth, _, h => by
    simp only [visitStatement]
    exact .andThen (expr_sound condition _ h.left) fun _ _ _ => scoped_sound _ body _ h.right
  | .repeat body condition, span, _, depth, _, h => by
    simp only [visitStatement]
    refine within_sound _ _ (.andThen (block_sound body _ h.left) fun _ _ _ => ?_)
    exact .andThen (expr_sound condition _ h.right) fun _ _ _ => .skip
  | .if condition body rest none, _, _, depth, _, h => by
    refine .andThen (expr_sound condition _ h.left) fun _ _ _ => ?_
    refine .andThen (scoped_sound _ body depth h.right.left) fun _ _ _ => ?_
    exact .andThen (elseIfs_sound rest depth h.right.right) fun _ _ _ => .skip
  | .if condition body rest (some block), _, _, depth, _, h => by
    refine .andThen (expr_sound condition _ h.left) fun _ _ _ => ?_
    refine .andThen (scoped_sound _ body depth h.right.left) fun _ _ _ => ?_
    exact .andThen (elseIfs_sound rest depth h.right.right.left) fun _ _ _ =>
      scoped_sound _ block depth h.right.right.right
  | .numericFor counter start limit none body, span, _, depth, _, h => by
    refine .andThen (expr_sound start _ h.tail.left) fun _ _ _ => ?_
    refine .andThen (expr_sound limit _ h.tail.right.left) fun _ _ _ => ?_
    exact within_sound .loop span
      (.andThen (.change fun _ hb _ => hb.declareCounter h.ends span trivial) fun _ _ _ =>
        block_sound body (depth + 1) h.tail.right.right)
  | .numericFor counter start limit (some step) body, span, _, depth, _, h => by
    refine .andThen (expr_sound start _ h.tail.left) fun _ _ _ => ?_
    refine .andThen (expr_sound limit _ h.tail.right.left) fun _ _ _ => ?_
    refine .andThen (expr_sound step _ h.tail.right.right.left) fun _ _ _ => ?_
    exact within_sound .loop span
      (.andThen (.change fun _ hb _ => hb.declareCounter h.ends span trivial) fun _ _ _ =>
        block_sound body (depth + 1) h.tail.right.right.right)
  | .genericFor names values body, span, _, depth, _, h => by
    simp only [visitStatement]
    refine .andThen (list_sound values _ h.right.left) fun _ _ _ => ?_
    refine within_sound _ _ (.andThen (.change fun _ hb _ => ?_) fun _ _ _ =>
      block_sound body _ h.right.right)
    have hty : ∀ t, Ty.SafeIn c.demand t .unknown := fun _ => trivial
    exact Binder.Sound.declareCounters span hty hb h.left.names
  | .return none, _, _, _, _, _ => .skip
  | .return (some values), _, _, depth, _, h => by
    refine .bind (list_sound values depth h) fun found _ _ hfound => ?_
    cases found with
    | nil => exact .skip
    | cons first _ =>
      exact .change fun _ hb ht => hb.noteReturn ((hfound first List.mem_cons_self).mono ht)
  | .call call, _, _, depth, _, h => by
    simp only [visitStatement]
    exact .andThen (expr_sound call _ h) fun _ _ _ => .skip

theorem elseIfs_sound : ∀ rest depth {t}, c.Covers (ElseIf.passagesOf rest) →
    Keeps c t (visitElseIfs c.setting rest depth) Anything
  | [], _, _, _ => .skip
  | .mk condition body :: rest, depth, t, h => by
    simp only [ElseIf.passagesOf] at h
    simp only [visitElseIfs]
    refine .andThen (expr_sound condition _ h.left) fun _ _ _ => ?_
    exact .andThen (scoped_sound _ body _ h.right.left) fun _ _ _ =>
      elseIfs_sound rest depth h.right.right

theorem targets_sound : ∀ targets span doc depth {values t}, c.Covers (Expr.passagesOf targets) →
    Values c t values →
    Keeps c t (assignTargets c.setting targets values span doc depth) Anything
  | [], _, _, _, _, _, _, _ => .skip
  | target :: rest, span, doc, depth, values, t, h, hvalues => by
    simp only [Expr.passagesOf] at h
    have hrest : ∀ t', t.Extends t' →
        Keeps c t' (assignTargets c.setting rest values.tail span doc depth) Anything :=
      fun _ ht => targets_sound rest span doc depth h.right (hvalues.tail.mono ht)
    have hother : Keeps c t (do
        let _ ← inferExpr c.setting target (depth + 1)
        assignTargets c.setting rest values.tail span doc depth) Anything :=
      .andThen (expr_sound target _ h.left) fun _ _ ht => hrest _ ht
    cases target with
    | global => exact targets_sound rest span doc depth h.right hvalues
    | name ident =>
      exact .andThen (.change fun _ hb ht =>
        hb.assignName h.left.head span (hvalues.headD.mono ht) doc) fun _ _ ht => hrest _ ht
    | field base key =>
      simp only [Expr.passages] at h
      simp only [assignTargets]
      cases hpath : base.path? with
      | some path =>
        rw [hpath] at h
        refine .andThen (.change fun _ hb ht => ?_) fun _ _ ht => hrest _ ht
        exact (hb.defineMember h.left.head _ span (hvalues.headD.mono ht) doc).1
      | none =>
        rw [hpath] at h
        exact .andThen (expr_sound base _ h.left.left) fun _ _ ht => hrest _ ht
    | _ => exact hother

end

end Walk

end LuaScope

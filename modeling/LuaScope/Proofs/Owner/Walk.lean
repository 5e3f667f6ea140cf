import LuaScope.Proofs.Function.Visit
import LuaScope.Proofs.Owner.Step

/-!
# LuaScope.Proofs.Owner.Walk

A walk keeps ownership without circles, if it counts the members as symbols without an owner that a
function returned before they had one.

* `FunctionVisit.loose` — those members of one function.
* `Walk.Yields`         — a value that an expression gives has symbols that only the walk over the
  expression made, and nothing that was held before leads to them.
* `Walk.expr_owned`, `Walk.statement_owned` and the others — one for each kind of syntax.
-/

namespace LuaScope

variable {σ : Type} {s : Setting σ} {K H M N : Set SymbolId} {n : Nat}

/-- Members that the function returns and that have no owner when it is left. -/
def FunctionVisit.loose (s : Setting σ) (v : FunctionVisit σ) : Set SymbolId :=
  { m | m ∈ (v.returned s).listed ∧ ∃ x, (v.after s).table.symbol? m = some x ∧ x.container = none }

/-- All members that one of the functions returns without an owner are in `K`. -/
def FunctionVisit.LooseIn (s : Setting σ) (K : Set SymbolId) (visits : List (FunctionVisit σ)) :
    Prop := ∀ v ∈ visits, v.loose s ⊆ K

namespace FunctionVisit.LooseIn

variable {visits visits' : List (FunctionVisit σ)}

theorem left (h : LooseIn s K (visits ++ visits')) : LooseIn s K visits :=
  fun v hv => h v (List.mem_append_left _ hv)

theorem right (h : LooseIn s K (visits ++ visits')) : LooseIn s K visits' :=
  fun v hv => h v (List.mem_append_right _ hv)

end FunctionVisit.LooseIn

theorem Inferred.Private.before {m : Nat} {t : SymbolTable} {value : Inferred}
    (h : value.Private K m H N t) (hn : n ≤ m) : value.Private K n H N t :=
  ⟨fun id hid => Nat.le_trans hn (h.fresh id hid), h.apart, h.island, h.ty, h.alias, h.listed⟩

namespace Walk

open FunctionVisit (LooseIn)

/-- The walk goes on with symbols that it holds. -/
def Reaches (K H : Set SymbolId) (b b' : Binder σ) : Prop := ∃ H', b.Becomes K H H' b'

/-- The walk goes on with a value whose own symbols are new. -/
def Yields (K H : Set SymbolId) (b : Binder σ) (r : Inferred × Binder σ) : Prop :=
  ∃ H' N, b.Becomes K H H' r.2 ∧ r.1.Private K b.table.symbols.size H' N r.2.table

/-- The same for a list of values, each with its own symbols. -/
def YieldsAll (K H : Set SymbolId) (b : Binder σ) (r : List Inferred × Binder σ) : Prop :=
  ∃ H' N, b.Becomes K H H' r.2 ∧ Inferred.Values K b.table.symbols.size r.2.table H' N r.1

section Results

variable {b b' : Binder σ} {r : Inferred × Binder σ} {rs : List Inferred × Binder σ}

theorem Reaches.plain (h : Reaches K H b b') {ty : Ty} (hty : ty.mentioned = []) :
    Yields K H b ({ ty := ty }, b') :=
  let ⟨H', hstep⟩ := h
  ⟨H', ∅, hstep, .plain hstep.owned.island hty⟩

theorem Reaches.trans {H' : Set SymbolId} {b'' : Binder σ} (h : b.Becomes K H H' b')
    (h' : Reaches K H' b' b'') : Reaches K H b b'' :=
  let ⟨H'', hstep⟩ := h'
  ⟨H'', h.trans hstep⟩

theorem Reaches.back (h : Reaches K H b b') (outer : ScopeId) : Reaches K H b (b'.backTo outer) :=
  let ⟨H', hstep⟩ := h
  ⟨H', hstep.trans (hstep.owned.same rfl rfl)⟩

theorem Yields.reaches (h : Yields K H b r) : Reaches K H b r.2 :=
  let ⟨H', _, hstep, _⟩ := h
  ⟨H', hstep⟩

theorem YieldsAll.reaches (h : YieldsAll K H b rs) : Reaches K H b rs.2 :=
  let ⟨H', _, hstep, _⟩ := h
  ⟨H', hstep⟩

/-- Later values leave the first one alone, and know nothing of its symbols. -/
theorem YieldsAll.cons {H' : Set SymbolId} {value : Inferred} (h : b.Becomes K H H' b')
    (hvalue : value.Private K b.table.symbols.size H' N b'.table) (hrest : YieldsAll K H' b' rs) :
    YieldsAll K H b (value :: rs.1, rs.2) := by
  obtain ⟨H'', M, hstep, hvalues⟩ := hrest
  have hvalue' := hvalue.spared hstep.spares hstep.owned.island
  exact ⟨H'', N ∪ M, h.trans hstep, .cons hvalue' (hvalues.widen h.spares.size
    (fun id hid => hvalue.island.encloses.lt (.inr hid)) hvalue'.island)⟩

end Results

theorem path_yields {b : Binder σ} (hb : b.Owned K H) (path : List Ident) :
    Yields K H b (b.inferPath s path) :=
  ⟨H, ∅, hb.inferPath path⟩

theorem name_yields {b : Binder σ} (hb : b.Owned K H) (ident : Ident) (depth : Nat) :
    Yields K H b (inferName s ident depth b) := by
  unfold inferName
  split
  · exact Reaches.plain ⟨H, .refl hb⟩ rfl
  · exact path_yields hb [ident]

theorem counter_becomes {b : Binder σ} (hb : b.Owned K H) (span : Span) (counter : Ident) :
    ∃ H', b.Becomes K H H' ((b.enterScope .loop span).declareCounter s span .number counter) :=
  have hscope := hb.enterScope .loop span
  ⟨_, hscope.trans (hscope.owned.declarePlain counter .variable span .number rfl true none)⟩

theorem binary_private {t : SymbolTable} (op : BinaryOp) {left right : Inferred}
    (hleft : left.Private K n H M t) (hright : right.Private K n H N t) (hH : t.Island K H) :
    ∃ N', (op.inferred left right).Private K n H N' t := by
  cases op
  case or =>
    unfold BinaryOp.inferred
    dsimp only
    split
    · exact ⟨N, hright⟩
    · exact ⟨M, hleft⟩
  case and => exact ⟨N, hright⟩
  all_goals exact ⟨∅, .plain hH rfl⟩

mutual

theorem expr_owned (e : Expr) (depth : Nat) {b : Binder σ} {H : Set SymbolId} (hb : b.Owned K H)
    (hv : LooseIn s K (exprVisits s e depth b)) : Yields K H b (inferExpr s e depth b) := by
  by_cases hdeep : maxDepth < depth
  · rw [inferExpr_of_deep hdeep]
    exact Reaches.plain ⟨H, .refl hb⟩ rfl
  match e, hv with
  | .nil, _ | .boolean, _ | .number, _ | .literal _, _ =>
    simp only [inferExpr, if_neg hdeep]
    exact Reaches.plain ⟨H, .refl hb⟩ rfl
  | .vararg, _ | .global, _ => exact Reaches.plain ⟨H, .refl hb⟩ rfl
  | .name ident, _ => exact name_yields hb ident depth
  | .field base key, hv =>
    simp only [exprVisits, if_neg hdeep] at hv
    simp only [inferExpr, if_neg hdeep]
    cases hpath : base.path? with
    | some path => exact path_yields hb (path ++ [key])
    | none =>
      rw [hpath] at hv
      obtain ⟨H₁, hbase⟩ := (expr_owned base (depth + 1) hb hv).reaches
      exact (Reaches.trans hbase (name_yields hbase.owned key (depth + 1)).reaches).plain rfl
  | .subscript base key, hv =>
    simp only [exprVisits, if_neg hdeep] at hv
    simp only [inferExpr, if_neg hdeep]
    obtain ⟨H₁, hbase⟩ := (expr_owned base (depth + 1) hb hv.left).reaches
    exact (Reaches.trans hbase (expr_owned key (depth + 1) hbase.owned hv.right).reaches).plain rfl
  | .paren inner, hv =>
    simp only [exprVisits, if_neg hdeep] at hv
    simp only [inferExpr, if_neg hdeep]
    exact expr_owned inner (depth + 1) hb hv
  | .table fields, hv =>
    simp only [exprVisits, if_neg hdeep] at hv
    simp only [inferExpr, if_neg hdeep]
    exact fields_owned fields depth [] hb (Nat.le_refl _)
      (.plain hb.island (TyOver.mentioned_members [])) hv
  | .function (.mk parameters block stop), hv =>
    simp only [exprVisits, if_neg hdeep] at hv
    simp only [inferExpr, if_neg hdeep]
    obtain ⟨H', hafter, hmentioned, hlisted⟩ :=
      body_owned (.mk parameters block stop) false none none depth hb nofun hv
    exact ⟨H', ∅, hafter, .of_within hafter.owned.island ⟨hmentioned, nofun⟩ hlisted⟩
  | .call callee none arguments, hv =>
    simp only [exprVisits, if_neg hdeep] at hv
    split at hv
    · rename_i hliteral
      simp only [inferExpr, if_neg hdeep, hliteral]
      exact ⟨H, ∅, hb.require _⟩
    · simp only [inferExpr, if_neg hdeep]
      exact setmetatable_owned arguments depth hb hv
    · rename_i hsetmetatable _ hrequire
      rw [inferExpr_call hrequire hsetmetatable hdeep]
      obtain ⟨H₁, N, hcallee, hvalue⟩ := expr_owned _ (depth + 1) hb hv.left
      obtain ⟨H₂, harguments⟩ := (list_owned arguments depth hcallee.owned hv.right).reaches
      exact ⟨H₂, N, hcallee.trans harguments,
        (hvalue.spared harguments.spares harguments.owned.island).callResult⟩
    · rename_i hmethod
      cases hmethod
  | .call callee (some name) arguments, hv =>
    simp only [exprVisits, if_neg hdeep] at hv
    simp only [inferExpr, if_neg hdeep]
    by_cases hdeep' : maxDepth < depth + 1
    · simp only [if_pos hdeep'] at hv ⊢
      exact (list_owned arguments depth hb hv).reaches.plain rfl
    · simp only [if_neg hdeep'] at hv ⊢
      cases hpath : callee.path? with
      | some path =>
        rw [hpath] at hv
        obtain ⟨H₁, N, hcallee, hvalue⟩ := path_yields (s := s) hb (path ++ [name])
        obtain ⟨H₂, harguments⟩ := (list_owned arguments depth hcallee.owned hv).reaches
        exact ⟨H₂, N, hcallee.trans harguments,
          (hvalue.spared harguments.spares harguments.owned.island).callResult⟩
      | none =>
        rw [hpath] at hv
        obtain ⟨H₁, hcallee⟩ := (expr_owned callee (depth + 2) hb hv.left).reaches
        obtain ⟨H₂, hname⟩ := (name_yields (s := s) hcallee.owned name (depth + 2)).reaches
        have harguments := (list_owned arguments depth hname.owned hv.right).reaches
        exact (Reaches.trans (hcallee.trans hname) harguments).plain rfl
  | .binary op _ left right, hv =>
    simp only [exprVisits, if_neg hdeep] at hv
    simp only [inferExpr, if_neg hdeep]
    obtain ⟨H₁, N₁, hleft, hleftValue⟩ := expr_owned left (depth + 1) hb hv.left
    obtain ⟨H₂, N₂, hright, hrightValue⟩ := expr_owned right (depth + 1) hleft.owned hv.right
    have hisland := hright.owned.island
    have hvalues := binary_private op (hleftValue.spared hright.spares hisland)
      (hrightValue.before hleft.spares.size) hisland
    have hvalue : ∃ N, Inferred.Private K b.table.symbols.size H₂ N
        (inferExpr s right (depth + 1) (inferExpr s left (depth + 1) b).2).2.table
        (if left.isNamed then op.inferred (inferExpr s left (depth + 1) b).1
          (inferExpr s right (depth + 1) (inferExpr s left (depth + 1) b).2).1 else {}) := by
      split
      · exact hvalues
      · exact ⟨∅, .plain hisland rfl⟩
    obtain ⟨N, hvalue⟩ := hvalue
    exact ⟨H₂, N, hleft.trans hright, hvalue⟩
  | .unary op _ operand, hv =>
    simp only [exprVisits, if_neg hdeep] at hv
    simp only [inferExpr, if_neg hdeep]
    have hoperand := (expr_owned operand (depth + 1) hb hv).reaches
    cases op <;> exact hoperand.plain rfl

theorem list_owned : ∀ (es : List Expr) (depth : Nat) {b : Binder σ} {H : Set SymbolId},
    b.Owned K H → LooseIn s K (listVisits s es depth b) → YieldsAll K H b (inferList s es depth b)
  | [], _, _, H, hb, _ => ⟨H, ∅, .refl hb, .nil⟩
  | e :: rest, depth, b, H, hb, hv => by
    have hcons (hv : LooseIn s K (exprVisits s e (depth + 1) b ++
        listVisits s rest depth (inferExpr s e (depth + 1) b).2)) :
        YieldsAll K H b ((inferExpr s e (depth + 1) b).1 ::
          (inferList s rest depth (inferExpr s e (depth + 1) b).2).1,
          (inferList s rest depth (inferExpr s e (depth + 1) b).2).2) := by
      obtain ⟨H₁, N, he, hvalue⟩ := expr_owned e (depth + 1) hb hv.left
      exact .cons he hvalue (list_owned rest depth he.owned hv.right)
    cases e <;> first | exact list_owned rest depth hb hv | exact hcons hv

/-- The members so far and those that follow are known to the table alone. -/
theorem fields_owned : ∀ (fields : List Field) (depth : Nat) (members : Members) {b : Binder σ}
    {H M : Set SymbolId} {n : Nat}, b.Owned K H → n ≤ b.table.symbols.size →
    ({ ty := .table { members := members } } : Inferred).Private K n H M b.table →
    LooseIn s K (fieldVisits s fields depth b) →
    ∃ H' M', b.Becomes K H H' (inferFields s fields depth members b).2 ∧
      ({ ty := .table { members := (inferFields s fields depth members b).1 } } : Inferred).Private K
        n H' M' (inferFields s fields depth members b).2.table
  | [], _, _, _, H, M, _, hb, _, hmembers, _ => ⟨H, M, .refl hb, hmembers⟩
  | .positional value :: rest, depth, members, b, H, M, n, hb, hn, hmembers, hv
  | .unnamed value :: rest, depth, members, b, H, M, n, hb, hn, hmembers, hv => by
    obtain ⟨H₁, hvalue⟩ := (expr_owned value (depth + 1) hb hv.left).reaches
    obtain ⟨H₂, M', hrest, hmembers'⟩ := fields_owned rest depth members hvalue.owned
      (Nat.le_trans hn hvalue.spares.size)
      (hmembers.spared hvalue.spares hvalue.owned.island) hv.right
    exact ⟨H₂, M', hvalue.trans hrest, hmembers'⟩
  | .computed key value :: rest, depth, members, b, H, M, n, hb, hn, hmembers, hv => by
    obtain ⟨H₁, hkey⟩ := (expr_owned key (depth + 1) hb hv.left).reaches
    obtain ⟨H₂, hvalue⟩ := (expr_owned value (depth + 1) hkey.owned hv.right.left).reaches
    have hboth := hkey.trans hvalue
    obtain ⟨H₃, M', hrest, hmembers'⟩ := fields_owned rest depth members hboth.owned
      (Nat.le_trans hn hboth.spares.size)
      (hmembers.spared hboth.spares hboth.owned.island) hv.right.right
    exact ⟨H₃, M', hboth.trans hrest, hmembers'⟩
  | .named comments span key value :: rest, depth, members, b, H, M, n, hb, hn, hmembers, hv => by
    obtain ⟨H₁, N, hstep, hvalue⟩ := expr_owned value (depth + 1) hb hv.left
    obtain ⟨hadded, M₁, hmembers₁⟩ := hstep.addField
      (hmembers.spared hstep.spares hstep.owned.island) hvalue hn
      (fun id hid => hmembers.island.encloses.lt (.inr hid))
      (x := Binder.newSymbol s (inferExpr s value (depth + 1) b).2 key
        (.ofTy (inferExpr s value (depth + 1) b).1.ty .field) span
        (inferExpr s value (depth + 1) b).1 false (Comment.doc? s.source.lines span.start comments))
      rfl rfl rfl rfl
    obtain ⟨H₂, M', hrest, hmembers'⟩ := fields_owned rest depth _ hadded.owned
      (Nat.le_trans hn hadded.spares.size) hmembers₁ hv.right
    exact ⟨H₂, M', hadded.trans hrest, hmembers'⟩

theorem setmetatable_owned : ∀ (arguments : List Expr) (depth : Nat) {b : Binder σ}
    {H : Set SymbolId}, b.Owned K H → LooseIn s K (setmetatableVisits s arguments depth b) →
    Yields K H b (inferSetmetatable s arguments depth b)
  | [], _, _, H, hb, _ => Reaches.plain ⟨H, .refl hb⟩ rfl
  | target :: rest, depth, b, H, hb, hv => by
    have hcons (hv : LooseIn s K (exprVisits s target (depth + 1) b ++
        metatableVisits s rest depth (inferExpr s target (depth + 1) b).2)) : Yields K H b
        ((inferMetatable s rest depth (inferExpr s target (depth + 1) b).2).2.attachPrototype
          (inferExpr s target (depth + 1) b).1
          (inferMetatable s rest depth (inferExpr s target (depth + 1) b).2).1) := by
      obtain ⟨H₁, N, htarget, hvalue⟩ := expr_owned target (depth + 1) hb hv.left
      obtain ⟨H₂, hrest, hprototype⟩ := metatable_owned rest depth htarget.owned hv.right
      obtain ⟨hattached, N', hvalue'⟩ := hrest.owned.attachPrototype
        (hvalue.spared hrest.spares hrest.owned.island) hprototype
      exact ⟨H₂, N', (htarget.trans hrest).trans hattached, hvalue'⟩
    cases target <;> first | exact setmetatable_owned rest depth hb hv | exact hcons hv

theorem metatable_owned : ∀ (arguments : List Expr) (depth : Nat) {b : Binder σ}
    {H : Set SymbolId}, b.Owned K H → LooseIn s K (metatableVisits s arguments depth b) →
    ∃ H', b.Becomes K H H' (inferMetatable s arguments depth b).2 ∧
      ∀ proto, (inferMetatable s arguments depth b).1 = some proto → ∀ m ∈ proto.link.here?, m ∈ H'
  | [], _, _, H, hb, _ => ⟨H, .refl hb, nofun⟩
  | metatable :: rest, depth, b, H, hb, hv => by
    have hcons (hv : LooseIn s K (exprVisits s metatable (depth + 1) b ++
        listVisits s rest depth (inferExpr s metatable (depth + 1) b).2)) :
        ∃ H', b.Becomes K H H' (inferList s rest depth (inferExpr s metatable (depth + 1) b).2).2 ∧
          ∀ proto, (inferExpr s metatable (depth + 1) b).1.alias.map PrototypeOver.metatable =
            some proto → ∀ m ∈ proto.link.here?, m ∈ H' := by
      obtain ⟨H₁, N, hmetatable, hvalue⟩ := expr_owned metatable (depth + 1) hb hv.left
      obtain ⟨H₂, hrest⟩ := (list_owned rest depth hmetatable.owned hv.right).reaches
      refine ⟨H₂, hmetatable.trans hrest, fun proto hproto m hm => ?_⟩
      obtain ⟨link, hlink, rfl⟩ := Option.map_eq_some_iff.mp hproto
      exact hrest.spares.grows (hvalue.alias link hlink m hm)
    cases metatable with
    | global => exact metatable_owned rest depth hb hv
    | table fields =>
      obtain ⟨H₁, M, hfields, hmembers⟩ := fields_owned fields (depth + 1) [] hb (Nat.le_refl _)
        (.plain hb.island (TyOver.mentioned_members [])) hv.left
      -- The prototype is one of the entries, so these are held from here on.
      have hreleased := hfields.use hmembers.fresh (.refl (hfields.owned.release hmembers.island))
      obtain ⟨H₂, hrest⟩ := (list_owned rest depth hreleased.owned hv.right).reaches
      refine ⟨H₂, hreleased.trans hrest, fun proto hproto m hm => ?_⟩
      obtain ⟨id, hid, rfl⟩ := Option.map_eq_some_iff.mp hproto
      cases hm
      refine hrest.spares.grows (hmembers.ty _ ?_)
      rw [TyOver.mentioned_members]
      exact List.mem_map_of_mem (SymbolTable.Safe.mem_of_lookup hid)
    | _ => exact hcons hv

/-- What the function returns is held, and lists nothing that still waits for an owner. -/
theorem body_owned : ∀ (body : FunctionBody) (isMethod : Bool) (container : Option Link)
    (symbol : Option SymbolId) (depth : Nat) {b : Binder σ} {H : Set SymbolId}, b.Owned K H →
    (∀ link, container = some link → ∀ m ∈ link.here?, m ∈ H) →
    LooseIn s K (bodyVisits s body isMethod container symbol depth b) →
    let v : FunctionVisit σ := ⟨body, isMethod, container, symbol, depth, b⟩
    ∃ H', b.Becomes K H H' (v.after s) ∧ (∀ m ∈ (v.returned s).mentioned, m ∈ H') ∧
      ∀ m ∈ (v.returned s).listed, (v.after s).table.Settled K m
  | .mk parameters block stop, isMethod, container, symbol, depth, b, H, hb, hcontainer, hv => by
    obtain ⟨H₁, henter⟩ := hb.enterFunction (s := s) parameters stop isMethod hcontainer
    obtain ⟨H₂, hbody⟩ := block_owned block (depth + 1) henter.owned fun v hmem => hv v (.tail _ hmem)
    obtain ⟨hleave, hmentioned⟩ := hbody.owned.leaveFunction b.scope
    rw [← inFunction_eq s parameters stop isMethod container] at hleave hmentioned
    have hafter := (henter.trans hbody).trans hleave
    refine ⟨H₂, hafter, hmentioned, fun m hm => ?_⟩
    obtain ⟨x, hx, -⟩ := hafter.owned.island.encloses m
      (hmentioned m (TyOver.listed_subset_mentioned _ hm))
    by_cases hcontainer : x.container = none
    · exact .inl (hv _ (.head _) ⟨hm, x, hx, hcontainer⟩)
    · exact .inr ⟨x, hx, hcontainer⟩

theorem block_owned : ∀ (block : Option Block) (depth : Nat) {b : Binder σ} {H : Set SymbolId},
    b.Owned K H → LooseIn s K (blockVisits s block depth b) →
    Reaches K H b (visitBlock s block depth b).2
  | none, _, _, H, hb, _ => ⟨H, .refl hb⟩
  | some (.mk _ statements), depth, b, H, hb, hv => by
    by_cases hdeep : maxDepth < depth
    · simp only [visitBlock, if_pos hdeep]
      exact ⟨H, .refl hb⟩
    · simp only [blockVisits, if_neg hdeep] at hv
      simp only [visitBlock, if_neg hdeep]
      exact statements_owned statements (depth + 1) hb hv

theorem scoped_owned (kind : ScopeKind) : ∀ (block : Option Block) (depth : Nat) {b : Binder σ}
    {H : Set SymbolId}, b.Owned K H → LooseIn s K (scopedVisits s kind block depth b) →
    Reaches K H b (visitScoped s kind block depth b).2
  | none, _, _, H, hb, _ => ⟨H, .refl hb⟩
  | some (.mk span statements), depth, b, H, hb, hv => by
    have hscope := hb.enterScope kind span
    by_cases hdeep : maxDepth < depth + 1
    · simp only [visitScoped, if_pos hdeep]
      exact Reaches.back ⟨H, hscope⟩ b.scope
    · simp only [scopedVisits, if_neg hdeep] at hv
      simp only [visitScoped, if_neg hdeep]
      exact (Reaches.trans hscope (statements_owned statements (depth + 2) hscope.owned hv)).back _

theorem statements_owned : ∀ (statements : List Statement) (depth : Nat) {b : Binder σ}
    {H : Set SymbolId}, b.Owned K H → LooseIn s K (statementVisits s statements depth b) →
    Reaches K H b (visitStatements s statements depth b).2
  | [], _, _, H, hb, _ => ⟨H, .refl hb⟩
  | .mk comments span node :: rest, depth, b, H, hb, hv => by
    by_cases hfits : depth ≤ maxDepth
    · simp only [statementVisits, if_pos hfits] at hv
      simp only [visitStatements, if_pos hfits]
      obtain ⟨H₁, hnode⟩ := statement_owned node span _ depth hb hv.left
      exact .trans hnode (statements_owned rest depth hnode.owned hv.right)
    · simp only [statementVisits, if_neg hfits] at hv
      simp only [visitStatements, if_neg hfits]
      exact statements_owned rest depth hb hv

theorem statement_owned : ∀ (node : StatementNode) (span : Span) (doc : Option String)
    (depth : Nat) {b : Binder σ} {H : Set SymbolId}, b.Owned K H →
    LooseIn s K (nodeVisits s node span doc depth b) →
    Reaches K H b (visitStatement s node span doc depth b).2
  | .empty, _, _, _, _, H, hb, _ | .label, _, _, _, _, H, hb, _ | .goto, _, _, _, _, H, hb, _
  | .break, _, _, _, _, H, hb, _ | .implicitGlobals none, _, _, _, _, H, hb, _
  | .return none, _, _, _, _, H, hb, _ => ⟨H, .refl hb⟩
  | .declare _ _ names none, span, doc, _, b, H, hb, _ => by
    obtain ⟨H', hstep⟩ := Binder.Owned.declareLocals (s := s) span doc
      (names.map AttributedName.ident) hb (n := 0) .nil
    rw [Set.union_empty] at hstep
    exact ⟨H', hstep⟩
  | .declare _ _ names (some values), span, doc, depth, _, H, hb, hv => by
    obtain ⟨H₁, N, hlist, hvalues⟩ := list_owned values depth hb hv
    obtain ⟨H₂, hstep⟩ := Binder.Owned.declareLocals (s := s) span doc
      (names.map AttributedName.ident) hlist.owned hvalues
    exact ⟨H₂, hlist.use hvalues.fresh hstep⟩
  | .implicitGlobals (some (name, _)), _, _, depth, _, _, hb, _ =>
    (name_yields hb name (depth + 2)).reaches
  | .assign targets values, span, doc, depth, _, H, hb, hv => by
    obtain ⟨H₁, N, hlist, hvalues⟩ := list_owned values depth hb hv.left
    obtain ⟨H₂, hstep⟩ := targets_owned targets span doc depth hlist.owned hvalues hv.right
    exact ⟨H₂, hlist.use hvalues.fresh hstep⟩
  | .function reach name (.mk parameters block stop), span, doc, depth, b, H, hb, hv => by
    obtain ⟨H₁, hdeclared, hsymbol, hcontainer⟩ :=
      hb.declareFunction (s := s) reach name span parameters.names doc
    obtain ⟨H₂, hafter, hmentioned, hlisted⟩ :=
      body_owned (.mk parameters block stop) name.method.isSome _ _ depth hdeclared.owned hcontainer hv
    have hfinish := hafter.owned.finishFunction
      (fun id hid => hafter.spares.grows (hsymbol id hid)) hmentioned hlisted
    exact ⟨H₂, (hdeclared.trans hafter).trans hfinish⟩
  | .do none, _, _, _, _, H, hb, _ => ⟨H, .refl hb⟩
  | .do (some block), span, _, depth, b, H, hb, hv => by
    have hscope := hb.enterScope .block span
    exact (Reaches.trans hscope (block_owned (some block) (depth + 1) hscope.owned hv)).back _
  | .while condition body, _, _, depth, b, H, hb, hv => by
    obtain ⟨H₁, hcondition⟩ := (expr_owned condition (depth + 1) hb hv.left).reaches
    exact .trans hcondition (scoped_owned .loop body depth hcondition.owned hv.right)
  | .repeat body condition, span, _, depth, b, H, hb, hv => by
    have hscope := hb.enterScope .loop span
    obtain ⟨H₁, hbody⟩ := block_owned body (depth + 1) hscope.owned hv.left
    exact (Reaches.trans (hscope.trans hbody)
      (expr_owned condition (depth + 1) hbody.owned hv.right).reaches).back _
  | .if condition body rest none, _, _, depth, b, H, hb, hv => by
    obtain ⟨H₁, hcondition⟩ := (expr_owned condition (depth + 1) hb hv.left).reaches
    obtain ⟨H₂, hbody⟩ := scoped_owned .block body depth hcondition.owned hv.right.left
    exact .trans (hcondition.trans hbody) (elseIfs_owned rest depth hbody.owned hv.right.right)
  | .if condition body rest (some block), _, _, depth, b, H, hb, hv => by
    obtain ⟨H₁, hcondition⟩ := (expr_owned condition (depth + 1) hb hv.left).reaches
    obtain ⟨H₂, hbody⟩ := scoped_owned .block body depth hcondition.owned hv.right.left
    obtain ⟨H₃, hrest⟩ := elseIfs_owned rest depth hbody.owned hv.right.right.left
    exact .trans ((hcondition.trans hbody).trans hrest)
      (scoped_owned .block block depth hrest.owned hv.right.right.right)
  | .numericFor counter start limit none body, span, _, depth, b, H, hb, hv => by
    obtain ⟨H₁, hstart⟩ := (expr_owned start (depth + 1) hb hv.left).reaches
    obtain ⟨H₂, hlimit⟩ := (expr_owned limit (depth + 1) hstart.owned hv.right.left).reaches
    obtain ⟨H₃, hcounter⟩ := counter_becomes (s := s) hlimit.owned span counter
    exact .trans (hstart.trans hlimit) ((Reaches.trans hcounter
      (block_owned body (depth + 1) hcounter.owned hv.right.right)).back _)
  | .numericFor counter start limit (some step) body, span, _, depth, b, H, hb, hv => by
    obtain ⟨H₁, hstart⟩ := (expr_owned start (depth + 1) hb hv.left).reaches
    obtain ⟨H₂, hlimit⟩ := (expr_owned limit (depth + 1) hstart.owned hv.right.left).reaches
    obtain ⟨H₃, hstep⟩ := (expr_owned step (depth + 1) hlimit.owned hv.right.right.left).reaches
    obtain ⟨H₄, hcounter⟩ := counter_becomes (s := s) hstep.owned span counter
    exact .trans ((hstart.trans hlimit).trans hstep) ((Reaches.trans hcounter
      (block_owned body (depth + 1) hcounter.owned hv.right.right.right)).back _)
  | .genericFor names values body, span, _, depth, b, H, hb, hv => by
    obtain ⟨H₁, hvalues⟩ := (list_owned values depth hb hv.left).reaches
    have hscope := hvalues.owned.enterScope .loop span
    obtain ⟨H₂, hcounters⟩ := Binder.Owned.declareCounters (s := s) span names hscope.owned
    exact (Reaches.trans ((hvalues.trans hscope).trans hcounters)
      (block_owned body (depth + 1) hcounters.owned hv.right)).back _
  | .return (some values), _, _, depth, b, H, hb, hv => by
    obtain ⟨H₁, N, hlist, hvalues⟩ := list_owned values depth hb hv
    change Reaches K H b ((match (inferList s values depth b).1 with
      | first :: _ => modify (·.noteReturn first)
      | [] => pure () : Walk σ Unit) (inferList s values depth b).2).2
    cases hfound : (inferList s values depth b).1 with
    | nil => exact ⟨H₁, hlist⟩
    | cons first _ =>
      rw [hfound] at hvalues
      cases hvalues with
      | cons hfirst _ =>
        have hreleased := hlist.use hfirst.fresh (.refl (hlist.owned.release hfirst.island))
        exact ⟨_, hreleased.trans (hreleased.owned.noteReturn hfirst.within)⟩
  | .call call, _, _, depth, b, _, hb, hv => (expr_owned call (depth + 1) hb hv).reaches

theorem elseIfs_owned : ∀ (rest : List ElseIf) (depth : Nat) {b : Binder σ} {H : Set SymbolId},
    b.Owned K H → LooseIn s K (elseIfVisits s rest depth b) →
    Reaches K H b (visitElseIfs s rest depth b).2
  | [], _, _, H, hb, _ => ⟨H, .refl hb⟩
  | .mk condition body :: rest, depth, b, H, hb, hv => by
    obtain ⟨H₁, hcondition⟩ := (expr_owned condition (depth + 1) hb hv.left).reaches
    obtain ⟨H₂, hbody⟩ := scoped_owned .block body depth hcondition.owned hv.right.left
    exact .trans (hcondition.trans hbody) (elseIfs_owned rest depth hbody.owned hv.right.right)

/-- Each target takes its value; the values behind it are left alone. -/
theorem targets_owned : ∀ (targets : List Expr) {values : List Inferred} (span : Span)
    (doc : Option String) (depth : Nat) {b : Binder σ} {H N : Set SymbolId} {n : Nat},
    b.Owned K H → Inferred.Values K n b.table H N values →
    LooseIn s K (targetVisits s targets values span doc depth b) →
    ∃ H', b.Becomes K (H ∪ N) H' (assignTargets s targets values span doc depth b).2
  | [], _, _, _, _, _, _, _, _, hb, hvalues, _ =>
    ⟨_, .refl (hb.release (hvalues.island hb.island))⟩
  | target :: rest, values, span, doc, depth, b, H, N, n, hb, hvalues, hv => by
    obtain ⟨N₁, N₂, rfl, hvalue, htail⟩ := hvalues.split hb.island
    -- A target that is neither a name nor a path is only walked over, and its value is dropped.
    have hother (e : Expr) (hv : LooseIn s K (exprVisits s e (depth + 1) b ++
        targetVisits s rest values.tail span doc depth (inferExpr s e (depth + 1) b).2))
        (he : Yields K H b (inferExpr s e (depth + 1) b)) :
        ∃ H', b.Becomes K (H ∪ (N₁ ∪ N₂)) H'
          (assignTargets s rest values.tail span doc depth (inferExpr s e (depth + 1) b).2).2 := by
      obtain ⟨H₁, he⟩ := he.reaches
      have hunion := he.spares.union N₁
      have hreleased := he.owned.release (hvalue.spared he.spares he.owned.island).island
      obtain ⟨H₂, hrest⟩ := targets_owned rest span doc depth hreleased
        (htail.spared hunion hreleased.island) hv.right
      rw [← Set.union_assoc]
      exact ⟨H₂, Binder.Becomes.around ⟨hreleased, hunion⟩ hrest⟩
    have htaken {H₁ : Set SymbolId} {b₁ : Binder σ} (hstep : b.Becomes K (H ∪ N₁) H₁ b₁)
        (hv : LooseIn s K (targetVisits s rest values.tail span doc depth b₁)) :
        ∃ H', b.Becomes K (H ∪ (N₁ ∪ N₂)) H'
          (assignTargets s rest values.tail span doc depth b₁).2 := by
      obtain ⟨H₂, hrest⟩ := targets_owned rest span doc depth hstep.owned
        (htail.spared hstep.spares hstep.owned.island) hv
      rw [← Set.union_assoc]
      exact ⟨H₂, hstep.around hrest⟩
    cases target with
    | global => exact targets_owned rest span doc depth hb hvalues hv
    | name ident =>
      obtain ⟨H₁, hstep⟩ := hb.assignName (s := s) ident span hvalue doc
      exact htaken hstep hv
    | field base key =>
      cases hpath : base.path? with
      | some path =>
        simp only [targetVisits, hpath] at hv
        simp only [assignTargets, hpath]
        obtain ⟨H₁, hstep, -⟩ := hb.defineMember (s := s) (path ++ [key])
          (.ofTy (values.headD {}).ty .field) span hvalue doc
        exact htaken hstep hv
      | none =>
        simp only [targetVisits, hpath] at hv
        simp only [assignTargets, hpath]
        exact hother base hv (expr_owned base (depth + 1) hb hv.left)
    | _ => exact hother _ hv (expr_owned _ (depth + 1) hb hv.left)

end

end Walk

end LuaScope

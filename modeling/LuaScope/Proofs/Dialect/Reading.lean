import LuaScope.Proofs.Dialect.Told

/-!
# LuaScope.Proofs.Dialect.Reading

The tokens of a chunk tell of its features (`Chunk.placed_told`). All readers are treated at once,
by induction on the fuel they share (`Reader.Reporting`).
-/

namespace LuaScope

open Lexeme Placed

namespace Reader

variable {α β : Type} {P : Cursor → Prop} {before : List Feature}

/-- What is reported of a statement depends on where it starts and where it stops. -/
def ReportsNode (r : Reader StatementNode) : Prop :=
  ∀ (l : Lexeme) rest stop node c', r ⟨l :: rest, stop⟩ = some (node, c') →
    Cursor.Tells ⟨l :: rest, stop⟩ (features (node.placed ⟨l.span.start, c'.stop⟩)) c'

/-- Every reader with this much fuel reports the features of what it gives. -/
structure Reporting (fuel : Nat) : Prop where
  expr : ∀ limit, Reports Anywhere [] (expr fuel limit) (fun e => features e.placed)
  operators : ∀ limit left, Reports Anywhere (features left.placed) (operators fuel limit left)
    (fun e => features e.placed)
  operand : Reports Anywhere [] (operand fuel) (fun e => features e.placed)
  simple : Reports Anywhere [] (simple fuel) (fun e => features e.placed)
  suffixed : Reports Anywhere [] (suffixed fuel) (fun e => features e.placed)
  suffixes : ∀ base, Reports Anywhere (features base.placed) (suffixes fuel base)
    (fun e => features e.placed)
  callArguments : Reports Anywhere [] (callArguments fuel) (fun es => features (Expr.placedOf es))
  exprs : Reports Anywhere [] (exprs fuel) (fun es => features (Expr.placedOf es))
  tableFields : Reports Anywhere [] (tableFields fuel) (fun fs => features (Field.placedOf fs))
  fieldList : Reports Anywhere [] (fieldList fuel) (fun fs => features (Field.placedOf fs))
  tableField : Reports Anywhere [] (tableField fuel) (fun field => features field.placed)
  functionBody : Reports Anywhere [] (functionBody fuel) (fun body => features body.placed)
  block : Reports Anywhere [] (block fuel) (fun block => features (Block.placed? block))
  statements : ∀ first, Reports Anywhere [] (statements fuel first)
    (fun statements => features (Statement.placedOf statements))
  statementNode : ReportsNode (statementNode fuel)
  elseIfs : Reports Anywhere [] (elseIfs fuel) (fun rest => features (ElseIf.placedOf rest))
  otherwise : Reports Anywhere [] (otherwise fuel)
    (fun block? => (block?.map fun block => features (Block.placed? block)).getD [])
  forLoop : ∀ span, Reports Anywhere [] (forLoop fuel) (fun node => features (node.placed span))
  declaration : ∀ reach span, Reports Anywhere [] (declaration reach fuel)
    (fun node => features (node.placed span))
  declarationBehind : ∀ reach attrib span, Reports Anywhere (features (attribPlaced attrib))
    (declarationBehind reach attrib fuel) (fun node => features (node.placed span))
  simpleStatement : ∀ span, Reports Anywhere [] (simpleStatement fuel)
    (fun node => features (node.placed span))
  moreTargets : Reports Anywhere [] (moreTargets fuel) (fun es => features (Expr.placedOf es))

section Fuel

variable {fuel : Nat}

theorem expr_reports (ih : Reporting fuel) (limit : Nat) :
    Reports Anywhere [] (expr (fuel + 1) limit) (fun e => features e.placed) :=
  .bind ih.operand fun left => ih.operators limit left

theorem operators_reports (ih : Reporting fuel) (limit : Nat) (left : Expr) :
    Reports Anywhere (features left.placed) (operators (fuel + 1) limit left)
      (fun e => features e.placed) := by
  refine .peek fun next => ?_
  split
  · rename_i op hop
    split
    · refine .bind (advance_binary hop) fun span => .bind (ih.expr _).behind fun right => ?_
      have hnext := ih.operators limit (.binary op span left right)
      rwa [Expr.placed, features_inside, features_append, features_append] at hnext
    · exact .pure rfl
  · exact .pure rfl

theorem operand_reports (ih : Reporting fuel) :
    Reports Anywhere [] (operand (fuel + 1)) (fun e => features e.placed) := by
  refine .peek fun next => ?_
  split
  · rename_i op hop
    refine .bind (advance_unary hop) fun span => .bind (ih.expr _).behind fun e => .pure ?_
    simp [Expr.placed]
  · exact ih.simple.anywhere

theorem simple_reports (ih : Reporting fuel) :
    Reports Anywhere [] (simple (fuel + 1)) (fun e => features e.placed) := by
  refine .peek fun next => ?_
  split
  case h_7 => exact .bind ih.tableFields.anywhere fun fields => .pure (by simp [Expr.placed])
  case h_8 =>
    exact .bind (advance_reports rfl) fun _ => .bind ih.functionBody fun body =>
      .pure (by simp [Expr.placed])
  case h_9 => exact ih.suffixed.anywhere
  all_goals exact .bind (advance_reports rfl) fun _ => .pure (by simp [Expr.placed])

theorem suffixed_reports (ih : Reporting fuel) :
    Reports Anywhere [] (suffixed (fuel + 1)) (fun e => features e.placed) := by
  refine .peek fun next => ?_
  split
  · rename_i text
    refine .bind (advance_reports rfl) fun span => ?_
    have hbase := ih.suffixes (if text = "global" then .global else .name ⟨text, span⟩)
    have hnone : features (if text = "global" then Expr.global else .name ⟨text, span⟩).placed =
        [] := by
      split <;> simp [Expr.placed]
    rwa [hnone] at hbase
  · refine .bind (advance_reports rfl) fun _ => .bind (ih.expr 0) fun inner => ?_
    refine .bind (expect_reports rfl) fun _ => ?_
    have hbase := ih.suffixes (.paren inner)
    rwa [Expr.placed, features_inside] at hbase
  · exact .refuse

theorem suffixes_reports (ih : Reporting fuel) (base : Expr) :
    Reports Anywhere (features base.placed) (suffixes (fuel + 1) base)
      (fun e => features e.placed) := by
  have hcall : ∀ {P} method, Reports P (features base.placed) (do
      let arguments ← callArguments fuel
      suffixes fuel (.call base method arguments)) (fun e => features e.placed) := by
    intro P method
    refine .bind ih.callArguments.behind fun arguments => ?_
    have hsuffixes := ih.suffixes (.call base method arguments)
    cases method <;> simpa [Expr.placed] using hsuffixes
  refine .peek fun next => ?_
  split
  · refine .bind (advance_reports rfl) fun _ => .bind ident_reports fun key => ?_
    have hfield := ih.suffixes (.field base key)
    rwa [Expr.placed, features_inside] at hfield
  · refine .bind (advance_reports rfl) fun _ => .bind (ih.expr 0).behind fun key => ?_
    refine .bind (expect_reports rfl) fun _ => ?_
    have hsubscript := ih.suffixes (.subscript base key)
    rwa [Expr.placed, features_inside, features_append] at hsubscript
  · exact .bind (advance_reports rfl) fun _ => .bind ident_reports fun method => hcall (some method)
  · exact hcall none
  · exact hcall none
  · exact hcall none
  · exact .pure rfl

theorem callArguments_reports (ih : Reporting fuel) :
    Reports Anywhere [] (callArguments (fuel + 1)) (fun es => features (Expr.placedOf es)) := by
  refine .peek fun next => ?_
  split
  · refine .bind (advance_reports rfl) fun _ => .bind (accept_reports rfl) fun empty => ?_
    split
    · exact .pure rfl
    · exact .bind ih.exprs fun arguments => .bind (expect_reports rfl) fun _ => .pure rfl
  · refine .bind ih.tableFields.anywhere fun fields => .pure ?_
    simp [Expr.placedOf, Expr.placed]
  · exact .bind (advance_reports rfl) fun _ => .pure (by simp [Expr.placedOf, Expr.placed])
  · exact .refuse

theorem exprs_reports (ih : Reporting fuel) :
    Reports Anywhere [] (exprs (fuel + 1)) (fun es => features (Expr.placedOf es)) := by
  refine .bind (ih.expr 0) fun first => .bind (accept_reports rfl) fun more => ?_
  split
  · exact .bind ih.exprs.behind fun rest => .pure (by simp [Expr.placedOf])
  · exact .pure (by simp [Expr.placedOf])

theorem tableFields_reports (ih : Reporting fuel) :
    Reports Anywhere [] (tableFields (fuel + 1)) (fun fs => features (Field.placedOf fs)) :=
  .bind (expect_reports rfl) fun _ => .bind ih.fieldList fun _ =>
    .bind (expect_reports rfl) fun _ => .pure rfl

theorem fieldList_reports (ih : Reporting fuel) :
    Reports Anywhere [] (fieldList (fuel + 1)) (fun fs => features (Field.placedOf fs)) := by
  refine .peek fun next => ?_
  split
  · exact .pure rfl
  · refine .bind ih.tableField.anywhere fun first => ?_
    refine .bind (accept_reports rfl) fun comma => .bind (accept_reports rfl) fun semicolon => ?_
    split
    · exact .bind ih.fieldList.behind fun rest => .pure (by simp [Field.placedOf])
    · exact .pure (by simp [Field.placedOf])

theorem tableField_reports (ih : Reporting fuel) :
    Reports Anywhere [] (tableField (fuel + 1)) (fun field => features field.placed) := by
  have hpositional : ∀ {P}, Reports P [] (do return Field.positional (← expr fuel 0))
      (fun field => features field.placed) := fun {P} =>
    .bind (ih.expr 0).anywhere fun value => .pure (by simp [Field.placed])
  refine .bind comments_reports fun leading => .peek fun next => ?_
  split
  · refine .bind (advance_reports rfl) fun _ => .bind (ih.expr 0) fun key => ?_
    refine .bind (expect_reports rfl) fun _ => .bind (expect_reports rfl) fun _ => ?_
    exact .bind (ih.expr 0).behind fun value => .pure (by simp [Field.placed])
  · rename_i text
    refine peekSecond_reports (fun second => ?_) ?_
    · by_cases hsecond : some second = some (Token.mark .assign)
      · obtain rfl := Option.some.inj hsecond
        rw [if_pos rfl]
        refine advanceTwice_reports rfl rfl fun span => .bind (ih.expr 0) fun value => ?_
        split
        · exact .pure (by simp [Field.placed])
        · exact .bind stop_reports fun _ => .pure (by simp [Field.placed])
      · rw [if_neg hsecond]
        exact hpositional
    · exact hpositional
  · exact hpositional

theorem functionBody_reports (ih : Reporting fuel) :
    Reports Anywhere [] (functionBody (fuel + 1)) (fun body => features body.placed) :=
  .bind (parameters_reports fuel) fun _ => .bind ih.block fun _ =>
    .bind (expect_reports rfl) fun _ => .pure (by simp [FunctionBody.placed])

theorem block_reports (ih : Reporting fuel) :
    Reports Anywhere [] (block (fuel + 1)) (fun block => features (Block.placed? block)) := by
  refine .bind (ih.statements true) fun statements => ?_
  split
  · exact .pure (by simp [Block.placed?, Statement.placedOf])
  · exact .bind stop_reports fun stop => .pure (by simp [Block.placed?])

/-- A statement starts with the next token, and stops with the last one that was taken. -/
theorem ReportsNode.bind {r : Reader StatementNode} (hr : ReportsNode r)
    {k : Nat → StatementNode → Nat → Reader β} {after : β → List Feature}
    (hk : ∀ start node stop, Reports Anywhere (before ++ features (node.placed ⟨start, stop⟩))
      (k start node stop) after) :
    Reports P before (do
      let start ← start
      let node ← r
      let stop ← stop
      k start node stop) after := by
  intro c b c' _ hrun
  obtain ⟨⟨offset, c₁⟩, hstart, hbehind⟩ := Option.bind_eq_some_iff.mp hrun
  obtain ⟨⟨node, c₂⟩, hnode, hrest⟩ := Option.bind_eq_some_iff.mp hbehind
  obtain ⟨tokens, stop⟩ := c
  cases tokens with
  | nil => cases hstart
  | cons l rest =>
    cases hstart
    obtain ⟨more, hafter, htells⟩ := hk l.span.start node c₂.stop c₂ b c' trivial hrest
    exact ⟨_, hafter.trans (List.append_assoc _ _ _), (hr l rest stop node c₂ hnode).trans htells⟩

theorem statements_reports (ih : Reporting fuel) (first : Bool) :
    Reports Anywhere [] (statements (fuel + 1) first)
      (fun statements => features (Statement.placedOf statements)) := by
  refine .peek fun next => ?_
  split
  · exact .pure rfl
  · split
    · exact .pure rfl
    · rename_i token _
      have hrest : ∀ leading : List Comment, Reports Anywhere [] (do
          let start ← start
          let node ← statementNode fuel
          let statement := Statement.mk leading ⟨start, ← stop⟩ node
          if token = .keyword .return then return [statement]
          else return statement :: (← statements fuel false))
          (fun statements => features (Statement.placedOf statements)) := by
        intro leading
        refine ih.statementNode.bind fun start node stop => ?_
        split
        · exact .pure (by simp [Statement.placedOf])
        · exact .bind (ih.statements false).behind fun rest => .pure (by simp [Statement.placedOf])
      cases first with
      | true => exact .bind (.pure rfl) hrest
      | false => exact .bind comments_reports hrest

theorem elseIfs_reports (ih : Reporting fuel) :
    Reports Anywhere [] (elseIfs (fuel + 1)) (fun rest => features (ElseIf.placedOf rest)) := by
  refine .bind (accept_reports rfl) fun more => ?_
  split
  · refine .bind (ih.expr 0) fun condition => .bind (expect_reports rfl) fun _ => ?_
    refine .bind ih.block.behind fun body => .bind ih.elseIfs.behind fun rest => .pure ?_
    simp [ElseIf.placedOf]
  · exact .pure rfl

theorem otherwise_reports (ih : Reporting fuel) :
    Reports Anywhere [] (otherwise (fuel + 1))
      (fun block? => (block?.map fun block => features (Block.placed? block)).getD []) := by
  refine .bind (accept_reports rfl) fun more => ?_
  split
  · exact .bind ih.block fun block => .pure rfl
  · exact .pure rfl

theorem forLoop_reports (ih : Reporting fuel) (span : Span) :
    Reports Anywhere [] (forLoop (fuel + 1)) (fun node => features (node.placed span)) := by
  refine .bind ident_reports fun counter => .bind (accept_reports rfl) fun numeric => ?_
  split
  · refine .bind (ih.expr 0) fun start => .bind (expect_reports rfl) fun _ => ?_
    refine .bind (ih.expr 0).behind fun limit => .bind (accept_reports rfl) fun stepped => ?_
    have hbody : ∀ step : Option Expr, Reports Anywhere
        (features start.placed ++ features limit.placed ++
          ((step.map fun e => features e.placed).getD [])) (do
          let _ ← expectKeyword .do
          let body ← block fuel
          let _ ← expectKeyword .end
          return StatementNode.numericFor counter start limit step body)
        (fun node => features (node.placed span)) := by
      intro step
      refine .bind (expect_reports rfl) fun _ => .bind ih.block.behind fun body => ?_
      refine .bind (expect_reports rfl) fun _ => .pure ?_
      cases step <;> simp [StatementNode.placed]
    split
    · exact .bind (ih.expr 0).behind fun step => hbody (some step)
    · exact .bind (.pure (by simp)) fun step => hbody step
  · refine .bind (moreIdents_reports fuel) fun names => .bind (expect_reports rfl) fun _ => ?_
    refine .bind ih.exprs fun values => .bind (expect_reports rfl) fun _ => ?_
    refine .bind ih.block.behind fun body => .bind (expect_reports rfl) fun _ => .pure ?_
    simp [StatementNode.placed]

theorem declaration_reports (ih : Reporting fuel) (reach : NameReach) (span : Span) :
    Reports Anywhere [] (declaration reach (fuel + 1)) (fun node => features (node.placed span)) :=
  .bind attrib?_reports fun attrib => ih.declarationBehind reach attrib span

theorem declarationBehind_reports (ih : Reporting fuel) (reach : NameReach)
    (attrib : Option (Ident × Span)) (span : Span) :
    Reports Anywhere (features (attribPlaced attrib)) (declarationBehind reach attrib (fuel + 1))
      (fun node => features (node.placed span)) := by
  refine .bind attributedName_reports fun first => ?_
  refine .bind (moreAttributedNames_reports fuel) fun names => ?_
  refine .bind (accept_reports rfl) fun valued => ?_
  have hdone : ∀ values : Option (List Expr), Reports Anywhere
      (features (attribPlaced attrib) ++ features (namesPlaced [first]) ++
        features (namesPlaced names) ++
        ((values.map fun es => features (Expr.placedOf es)).getD []))
      (pure (StatementNode.declare reach attrib (first :: names) values))
      (fun node => features (node.placed span)) := by
    intro values
    refine .pure ?_
    cases values <;> simp [StatementNode.placed, namesPlaced]
  split
  · exact .bind ih.exprs.behind fun values => hdone (some values)
  · exact .bind (.pure (by simp)) fun values => hdone values

theorem simpleStatement_reports (ih : Reporting fuel) (span : Span) :
    Reports Anywhere [] (simpleStatement (fuel + 1)) (fun node => features (node.placed span)) := by
  refine .bind ih.suffixed fun first => ?_
  split
  · refine .bind ih.moreTargets.behind fun targets => .bind (expect_reports rfl) fun _ => ?_
    refine .bind ih.exprs.behind fun values => .pure ?_
    simp [StatementNode.placed, Expr.placedOf]
  · split
    · exact .pure (by simp [StatementNode.placed])
    · exact .refuse

theorem moreTargets_reports (ih : Reporting fuel) :
    Reports Anywhere [] (moreTargets (fuel + 1)) (fun es => features (Expr.placedOf es)) := by
  refine .bind (accept_reports rfl) fun more => ?_
  split
  · refine .bind ih.suffixed fun target => ?_
    split
    · exact .bind ih.moreTargets.behind fun rest => .pure (by simp [Expr.placedOf])
    · exact .refuse
  · exact .pure rfl

/-! ### Statements by their first token -/

theorem ReportsNode.refuse : ReportsNode Reader.refuse := nofun

theorem ReportsNode.of_peek {k : Option Token → Reader StatementNode}
    (hk : ∀ (l : Lexeme) rest stop node c', k (some l.token) ⟨l :: rest, stop⟩ = some (node, c') →
      Cursor.Tells ⟨l :: rest, stop⟩ (features (node.placed ⟨l.span.start, c'.stop⟩)) c') :
    ReportsNode (Reader.peek >>= k) := hk

/-- Most statements report nothing of their own, so it does not matter where they stand. -/
theorem Reports.node {r : Reader StatementNode} {l : Lexeme} {rest : List Lexeme} {stop : Nat}
    {node : StatementNode} {c' : Cursor} (h : ∀ span, Reports (NextIs (some l.token)) [] r
      (fun node => features (node.placed span)))
    (hrun : r ⟨l :: rest, stop⟩ = some (node, c')) :
    Cursor.Tells ⟨l :: rest, stop⟩ (features (node.placed ⟨l.span.start, c'.stop⟩)) c' := by
  obtain ⟨new, hafter, htells⟩ := h ⟨l.span.start, c'.stop⟩ ⟨l :: rest, stop⟩ node c' rfl hrun
  have hnew : features (node.placed ⟨l.span.start, c'.stop⟩) = new := hafter
  rwa [hnew]

theorem statementNode_reports (ih : Reporting fuel) : ReportsNode (statementNode (fuel + 1)) := by
  have hfunction : ∀ {P} span (reach : FunctionReach) (name : FunctionName), Reports P [] (do
      return StatementNode.function reach name (← functionBody fuel))
      (fun node => features (node.placed span)) := fun span reach name =>
    .bind ih.functionBody.anywhere fun body => .pure (by simp [StatementNode.placed])
  refine .of_peek fun l rest stop node c' hrun => ?_
  generalize hnext : some l.token = next at hrun
  split at hrun
  case h_2 =>
    obtain ⟨⟨name, c₁⟩, hname, hrun⟩ := Option.bind_eq_some_iff.mp hrun
    obtain ⟨⟨closing, c₂⟩, hclosing, hrun⟩ := Option.bind_eq_some_iff.mp hrun
    cases hrun
    obtain ⟨l', hrest', htoken', -⟩ := ident_eq hname
    obtain ⟨l'', hrest'', htoken'', hspan⟩ := expect_eq hclosing
    intro fs hfs
    rw [stop_of_expect hclosing, ← hspan]
    change Tell (l :: rest) _
    rw [show rest = l' :: l'' :: c'.rest from hrest'.trans (congrArg _ hrest'')]
    exact .label (Option.some.inj hnext) htoken' htoken'' hfs
  case h_4 =>
    obtain ⟨⟨name, c₁⟩, hname, hrun⟩ := Option.bind_eq_some_iff.mp hrun
    cases hrun
    obtain ⟨l', hrest', htoken', hspan⟩ := ident_eq hname
    intro fs hfs
    rw [stop_of_ident hname, ← hspan]
    change Tell (l :: rest) _
    rw [show rest = l' :: c'.rest from hrest']
    exact .goto (Option.some.inj hnext) htoken' hfs
  all_goals
    refine Reports.node (fun span => ?_) hrun
    rw [hnext]
  case h_1 => exact .bind (advance_reports rfl) fun _ => .pure (by simp [StatementNode.placed])
  case h_3 => exact .bind (advance_reports rfl) fun _ => .pure (by simp [StatementNode.placed])
  case h_5 =>
    refine .bind (advance_reports rfl) fun _ => .bind ih.block fun body => ?_
    exact .bind (expect_reports rfl) fun _ => .pure (by simp [StatementNode.placed])
  case h_6 =>
    refine .bind (advance_reports rfl) fun _ => .bind (ih.expr 0) fun condition => ?_
    refine .bind (expect_reports rfl) fun _ => .bind ih.block.behind fun body => ?_
    exact .bind (expect_reports rfl) fun _ => .pure (by simp [StatementNode.placed])
  case h_7 =>
    refine .bind (advance_reports rfl) fun _ => .bind ih.block fun body => ?_
    refine .bind (expect_reports rfl) fun _ => .bind (ih.expr 0).behind fun condition => ?_
    exact .pure (by simp [StatementNode.placed])
  case h_8 =>
    refine .bind (advance_reports rfl) fun _ => .bind (ih.expr 0) fun condition => ?_
    refine .bind (expect_reports rfl) fun _ => .bind ih.block.behind fun body => ?_
    refine .bind ih.elseIfs.behind fun rest => .bind ih.otherwise.behind fun otherwise => ?_
    refine .bind (expect_reports rfl) fun _ => .pure ?_
    cases otherwise <;> simp [StatementNode.placed]
  case h_9 => exact .bind (advance_reports rfl) fun _ => ih.forLoop span
  case h_10 =>
    refine .bind (advance_reports rfl) fun _ => .bind (functionName_reports fuel) fun name => ?_
    exact hfunction span .named name
  case h_11 =>
    refine .bind (advance_reports rfl) fun _ => .bind (accept_reports rfl) fun isFunction => ?_
    split
    · exact .bind ident_reports fun name => hfunction span .local ⟨name, [], none⟩
    · exact ih.declaration .local span
  case h_12 =>
    refine .bind (advance_reports rfl) fun _ => .peek fun next => ?_
    have hdone : ∀ values : Option (List Expr), Reports Anywhere
        ((values.map fun es => features (Expr.placedOf es)).getD []) (do
          let _ ← acceptMark .semicolon
          return StatementNode.return values) (fun node => features (node.placed span)) := by
      intro values
      refine .bind (accept_reports rfl) fun _ => .pure ?_
      cases values <;> simp [StatementNode.placed]
    split
    · exact .bind ih.exprs.anywhere fun values => hdone (some values)
    · exact .bind (.pure (by simp)) fun values => hdone values
  case h_13 =>
    refine peekSecond_reports (fun second => ?_) ?_
    · split
      · rename_i hsecond
        cases hsecond
        refine advanceTwice_reports rfl rfl fun _ => .bind ident_reports fun name => ?_
        exact hfunction span .global ⟨name, [], none⟩
      · rename_i hsecond
        cases hsecond
        refine advanceTwice_reports rfl rfl fun _ => .pure ?_
        simp [StatementNode.placed, attribPlaced]
      · refine Reports.weaken (.bind (advance_reports rfl) fun _ => ?_) fun c hc => hc.1
        refine .bind attrib_reports fun attrib => .bind (accept_reports rfl) fun all => ?_
        split
        · exact .pure (by simp [StatementNode.placed])
        · exact ih.declarationBehind .global (some attrib) span
      · refine Reports.weaken (.bind (advance_reports rfl) fun _ => ?_) fun c hc => hc.1
        exact ih.declaration .global span
      · exact (ih.simpleStatement span).anywhere
    · exact (ih.simpleStatement span).anywhere
  case h_14 => exact (ih.simpleStatement span).anywhere

end Fuel

theorem reporting : ∀ fuel, Reporting fuel
  | 0 => by constructor <;> intros <;> exact .refuse
  | fuel + 1 =>
    have ih := reporting fuel
    { expr := expr_reports ih
      operators := operators_reports ih
      operand := operand_reports ih
      simple := simple_reports ih
      suffixed := suffixed_reports ih
      suffixes := suffixes_reports ih
      callArguments := callArguments_reports ih
      exprs := exprs_reports ih
      tableFields := tableFields_reports ih
      fieldList := fieldList_reports ih
      tableField := tableField_reports ih
      functionBody := functionBody_reports ih
      block := block_reports ih
      statements := statements_reports ih
      statementNode := statementNode_reports ih
      elseIfs := elseIfs_reports ih
      otherwise := otherwise_reports ih
      forLoop := forLoop_reports ih
      declaration := declaration_reports ih
      declarationBehind := declarationBehind_reports ih
      simpleStatement := simpleStatement_reports ih
      moreTargets := moreTargets_reports ih }

end Reader

/-- The tokens of a chunk tell of its features, and of no others. -/
theorem Chunk.placed_told {cs : List Char} {chunk : Chunk} (h : Chunk.ofChars? cs = some chunk) :
    ∃ ls, Lexeme.ofChars cs = some ls ∧ Tell ls (features chunk.placed) := by
  obtain ⟨ls, hls, hlexemes⟩ := ofChars?_eq_some_iff.mp h
  obtain ⟨stop, hrun⟩ := ofLexemes?_eq_some_iff.mp hlexemes
  obtain ⟨new, hnew, htells⟩ := (Reader.reporting _).statements false _ _ _ trivial hrun
  have htold := htells [] .nil
  rw [List.append_nil, ← show features chunk.placed = new from hnew] at htold
  refine ⟨ls, hls, ?_⟩
  cases ls with
  | nil => exact htold
  | cons l rest =>
    rw [behindShebang_cons] at htold
    split at htold
    · rename_i hshebang
      exact .other (by rw [hshebang]; rfl) htold
    · exact htold

end LuaScope

import LuaScope.Proofs.Syntax.Chunk
import LuaScope.Proofs.Syntax.Outline

/-!
# LuaScope.Proofs.Syntax.Order

A chunk keeps the order of its text: `Chunk.sites_sublist` says that its sites are sites of the
tokens in their order, and `Chunk.sites_ascending` that no two of them start at one offset. All
readers are treated at once, by induction on the fuel they share (`Reader.Orders`).
-/

namespace LuaScope

namespace Reader

variable {P : Cursor → Prop} {before : List Edge}

/-! ## The parts that hold no expression -/

theorem attrib_extends : Extends P before attrib (fun a => before ++ [.name a.1]) :=
  .bind (expect_extends _) fun _ => .bind ident_extends fun _ =>
    .bind closeAttrib_extends fun _ => .pure (.refl _)

theorem attrib?_extends :
    Extends P before attrib? (fun a => before ++ (a.map (.name ·.1)).toList) := by
  refine .peek fun next => ?_
  split
  · exact .bind attrib_extends fun _ => .pure (.refl _)
  · exact .pure (by simp)

theorem attributedName_extends :
    Extends P before attributedName (fun name => before ++ [.name name.ident]) :=
  .bind ident_extends fun _ => .bind attrib?_extends fun _ => .pure (List.sublist_append_left _ _)

theorem moreAttributedNames_extends : ∀ (fuel : Nat) {P : Cursor → Prop} {before : List Edge},
    Extends P before (moreAttributedNames fuel)
      (fun names => before ++ names.map (.name ·.ident))
  | 0, _, _ => .refuse
  | fuel + 1, _, _ => by
    refine .bind (accept_extends _) fun more => ?_
    split
    · refine .bind attributedName_extends fun name => ?_
      exact .bind (moreAttributedNames_extends fuel) fun names => .pure (by simp)
    · exact .pure (by simp)

theorem moreIdents_extends : ∀ (fuel : Nat) {P : Cursor → Prop} {before : List Edge},
    Extends P before (moreIdents fuel) (fun names => before ++ names.map .name)
  | 0, _, _ => .refuse
  | fuel + 1, _, _ => by
    refine .bind (accept_extends _) fun more => ?_
    split
    · refine .bind ident_extends fun name => ?_
      exact .bind (moreIdents_extends fuel) fun names => .pure (by simp)
    · exact .pure (by simp)

theorem varargParameter_extends :
    Extends P before varargParameter (fun ps => before ++ ps.flatMap Parameter.edges) := by
  refine .bind (expect_extends _) fun _ => .peek fun next => ?_
  split
  · exact .bind ident_extends fun _ => .pure (.refl _)
  · exact .pure (by simp [Parameter.edges])

theorem parameterEntries_extends : ∀ (fuel : Nat) {P : Cursor → Prop} {before : List Edge},
    Extends P before (parameterEntries fuel) (fun ps => before ++ ps.flatMap Parameter.edges)
  | 0, _, _ => .refuse
  | fuel + 1, _, _ => by
    refine .peek fun next => ?_
    split
    · exact varargParameter_extends
    · refine .bind ident_extends fun name => .bind (accept_extends _) fun more => ?_
      split
      · exact .bind (parameterEntries_extends fuel) fun ps => .pure (by simp [Parameter.edges])
      · exact .pure (by simp [Parameter.edges])

theorem parameters_extends (fuel : Nat) :
    Extends P before (parameters fuel) (fun ps => before ++ ps.edges) := by
  refine .bind expect_opening fun opening => .peek fun next => ?_
  have hclosing : ∀ entries : List Parameter,
      Extends Anywhere (before ++ [.opening opening.start] ++ entries.flatMap Parameter.edges)
        (do
          let closing ← expectMark .rightParen
          return (⟨entries, ⟨opening.start, closing.stop⟩⟩ : Parameters))
        (fun ps => before ++ ps.edges) := by
    intro entries
    refine .bind (expect_extends _) fun _ => .pure ?_
    simp [Parameters.edges]
  split
  · exact .bind (.pure (by simp)) fun entries => hclosing entries
  · exact .bind (parameterEntries_extends fuel) hclosing

theorem dottedFields_extends : ∀ (fuel : Nat) {P : Cursor → Prop} {before : List Edge},
    Extends P before (dottedFields fuel) (fun names => before ++ names.map .name)
  | 0, _, _ => .refuse
  | fuel + 1, _, _ => by
    refine .bind (accept_extends _) fun more => ?_
    split
    · refine .bind ident_extends fun name => ?_
      exact .bind (dottedFields_extends fuel) fun names => .pure (by simp)
    · exact .pure (by simp)

theorem functionName_extends (fuel : Nat) :
    Extends P before (functionName fuel) (fun name => before ++ name.path.map .name) := by
  refine .bind ident_extends fun head => .bind (dottedFields_extends fuel) fun fields => ?_
  refine .bind (accept_extends _) fun method => ?_
  split
  · exact .bind ident_extends fun name => .pure (by simp [FunctionName.path])
  · exact .pure (by simp [FunctionName.path])

/-! ## Expressions and statements -/

/-- Every reader with this much fuel keeps the order of the text. -/
structure Orders (fuel : Nat) : Prop where
  expr : ∀ limit, Extends Anywhere [] (expr fuel limit) Expr.edges
  operators : ∀ limit left, Extends Anywhere left.edges (operators fuel limit left) Expr.edges
  operand : Extends Anywhere [] (operand fuel) Expr.edges
  simple : Extends Anywhere [] (simple fuel) Expr.edges
  suffixed : Extends Anywhere [] (suffixed fuel) Expr.edges
  suffixes : ∀ base, Extends Anywhere base.edges (suffixes fuel base) Expr.edges
  callArguments : Extends Anywhere [] (callArguments fuel) Expr.edgesOf
  exprs : Extends Anywhere [] (exprs fuel) Expr.edgesOf
  tableFields : Extends Anywhere [] (tableFields fuel) Field.edgesOf
  fieldList : Extends Anywhere [] (fieldList fuel) Field.edgesOf
  tableField : Extends Anywhere [] (tableField fuel) (fun field => Field.edgesOf [field])
  functionBody : Extends Anywhere [] (functionBody fuel) FunctionBody.edges
  block : Extends Anywhere [] (block fuel) Block.edges?
  statements : ∀ first, Extends Anywhere [] (statements fuel first) Statement.edgesOf
  statementNode : Extends Anywhere [] (statementNode fuel) StatementNode.edges
  elseIfs : Extends Anywhere [] (elseIfs fuel) ElseIf.edgesOf
  otherwise : Extends Anywhere [] (otherwise fuel)
    (fun block? => (block?.map Block.edges?).getD [])
  forLoop : Extends Anywhere [] (forLoop fuel) StatementNode.edges
  declaration : ∀ reach, Extends Anywhere [] (declaration reach fuel) StatementNode.edges
  declarationBehind : ∀ reach attrib,
    Extends Anywhere [] (declarationBehind reach attrib fuel) StatementNode.edges
  simpleStatement : Extends Anywhere [] (simpleStatement fuel) StatementNode.edges
  moreTargets : Extends Anywhere [] (moreTargets fuel) Expr.edgesOf

section Fuel

variable {fuel : Nat}

theorem expr_extends (ih : Orders fuel) (limit : Nat) :
    Extends Anywhere [] (expr (fuel + 1) limit) Expr.edges :=
  .bind ih.operand fun left => ih.operators limit left

theorem operators_extends (ih : Orders fuel) (limit : Nat) (left : Expr) :
    Extends Anywhere left.edges (operators (fuel + 1) limit left) Expr.edges := by
  refine .peek fun next => ?_
  split
  · split
    · refine .bind advance_extends fun span => .bind (ih.expr _).behind fun right => ?_
      exact ih.operators limit (.binary _ span left right)
    · exact .pure (.refl _)
  · exact .pure (.refl _)

theorem operand_extends (ih : Orders fuel) :
    Extends Anywhere [] (operand (fuel + 1)) Expr.edges := by
  refine .peek fun next => ?_
  split
  · exact .bind advance_extends fun span => .bind (ih.expr _) fun e => .pure (.refl _)
  · exact ih.simple.anywhere

theorem simple_extends (ih : Orders fuel) :
    Extends Anywhere [] (simple (fuel + 1)) Expr.edges := by
  refine .peek fun next => ?_
  split
  case h_7 => exact .bind ih.tableFields.anywhere fun fields => .pure (.refl _)
  case h_8 =>
    exact .bind advance_extends fun _ => .bind ih.functionBody fun body => .pure (.refl _)
  case h_9 => exact ih.suffixed.anywhere
  all_goals exact .bind advance_extends fun _ => .pure (.refl _)

theorem suffixed_extends (ih : Orders fuel) :
    Extends Anywhere [] (suffixed (fuel + 1)) Expr.edges := by
  refine .peek fun next => ?_
  split
  · rename_i text
    refine .bind advance_ident fun span => ?_
    have hbase := ih.suffixes (if text = "global" then .global else .name ⟨text, span⟩)
    refine hbase.less ?_
    split
    · exact List.nil_sublist _
    · exact .refl _
  · refine .bind advance_extends fun _ => .bind (ih.expr 0) fun inner => ?_
    exact .bind (expect_extends _) fun _ => ih.suffixes (.paren inner)
  · exact .refuse

theorem suffixes_extends (ih : Orders fuel) (base : Expr) :
    Extends Anywhere base.edges (suffixes (fuel + 1) base) Expr.edges := by
  have hcall : ∀ {P} method, Extends P (base.edges ++ (Option.toList method).map .name) (do
      let arguments ← callArguments fuel
      suffixes fuel (.call base method arguments)) Expr.edges := by
    intro P method
    refine .bind ih.callArguments.behind fun arguments => ?_
    have hsuffixes := ih.suffixes (.call base method arguments)
    rwa [Expr.edges, ← List.append_assoc] at hsuffixes
  have hplain : ∀ {P}, Extends P base.edges (do
      let arguments ← callArguments fuel
      suffixes fuel (.call base none arguments)) Expr.edges := by
    intro P
    have hnone := hcall (P := P) none
    rwa [Option.toList_none, List.map_nil, List.append_nil] at hnone
  refine .peek fun next => ?_
  split
  · refine .bind advance_extends fun _ => .bind ident_extends fun key => ?_
    exact ih.suffixes (.field base key)
  · refine .bind advance_extends fun _ => .bind (ih.expr 0).behind fun key => ?_
    exact .bind (expect_extends _) fun _ => ih.suffixes (.subscript base key)
  · exact .bind advance_extends fun _ => .bind ident_extends fun method => hcall (some method)
  · exact hplain
  · exact hplain
  · exact hplain
  · exact .pure (.refl _)

theorem callArguments_extends (ih : Orders fuel) :
    Extends Anywhere [] (callArguments (fuel + 1)) Expr.edgesOf := by
  refine .peek fun next => ?_
  split
  · refine .bind advance_extends fun _ => .bind (accept_extends _) fun empty => ?_
    split
    · exact .pure (.refl _)
    · exact .bind ih.exprs fun arguments => .bind (expect_extends _) fun _ => .pure (.refl _)
  · refine .bind ih.tableFields.anywhere fun fields => .pure ?_
    simp [Expr.edgesOf, Expr.edges]
  · exact .bind advance_extends fun _ => .pure (by simp [Expr.edgesOf, Expr.edges])
  · exact .refuse

theorem exprs_extends (ih : Orders fuel) :
    Extends Anywhere [] (exprs (fuel + 1)) Expr.edgesOf := by
  refine .bind (ih.expr 0) fun first => .bind (accept_extends _) fun more => ?_
  split
  · exact .bind ih.exprs.behind fun rest => .pure (.refl _)
  · exact .pure (by simp [Expr.edgesOf])

theorem tableFields_extends (ih : Orders fuel) :
    Extends Anywhere [] (tableFields (fuel + 1)) Field.edgesOf :=
  .bind (expect_extends _) fun _ => .bind ih.fieldList fun _ =>
    .bind (expect_extends _) fun _ => .pure (.refl _)

theorem fieldList_extends (ih : Orders fuel) :
    Extends Anywhere [] (fieldList (fuel + 1)) Field.edgesOf := by
  refine .peek fun next => ?_
  split
  · exact .pure (.refl _)
  · refine .bind ih.tableField.anywhere fun first => ?_
    refine .bind (accept_extends _) fun comma => .bind (accept_extends _) fun semicolon => ?_
    split
    · refine .bind ih.fieldList.behind fun rest => .pure ?_
      cases first <;> simp [Field.edgesOf]
    · exact .pure (.refl _)

theorem tableField_extends (ih : Orders fuel) :
    Extends Anywhere [] (tableField (fuel + 1)) (fun field => Field.edgesOf [field]) := by
  have hpositional : ∀ {P}, Extends P [] (do return Field.positional (← expr fuel 0))
      (fun field => Field.edgesOf [field]) := fun {P} =>
    .bind (ih.expr 0).anywhere fun value => .pure (by simp [Field.edgesOf])
  refine .bind comments_extends fun leading => .peek fun next => ?_
  split
  · refine .bind advance_extends fun _ => .bind (ih.expr 0) fun key => ?_
    refine .bind (expect_extends _) fun _ => .bind (expect_extends _) fun _ => ?_
    exact .bind (ih.expr 0).behind fun value => .pure (by simp [Field.edgesOf])
  · rename_i text
    refine .peekSecond fun second => ?_
    split
    · refine .bind advance_ident fun span => ?_
      refine .bind advance_extends fun _ => .bind (ih.expr 0).behind fun value => ?_
      split
      · exact .pure (by simp [Field.edgesOf])
      · exact .bind stop_extends fun _ => .pure (by simp [Field.edgesOf])
    · exact hpositional
  · exact hpositional

theorem functionBody_extends (ih : Orders fuel) :
    Extends Anywhere [] (functionBody (fuel + 1)) FunctionBody.edges :=
  .bind (parameters_extends fuel) fun _ => .bind ih.block.behind fun _ =>
    .bind (expect_stop _) fun _ => .pure (by simp [FunctionBody.edges])

theorem block_extends (ih : Orders fuel) :
    Extends Anywhere [] (block (fuel + 1)) Block.edges? := by
  refine .bind (ih.statements true) fun statements => ?_
  split
  · exact .pure (.refl _)
  · refine .bind stop_extends fun stop c block c' _ hrun => ?_
    cases hrun
    exact .repeat_mark _ _ c

theorem statements_extends (ih : Orders fuel) (first : Bool) :
    Extends Anywhere [] (statements (fuel + 1) first) Statement.edgesOf := by
  refine .peek fun next => ?_
  split
  · exact .pure (.refl _)
  · split
    · exact .pure (.refl _)
    · have hrest : ∀ {P} (leading : List Comment) (token : Token), Extends P [] (do
          let start ← start
          let node ← statementNode fuel
          let statement := Statement.mk leading ⟨start, ← stop⟩ node
          if token = .keyword .return then return [statement]
          else return statement :: (← statements fuel false)) Statement.edgesOf := by
        intro P leading token
        refine .start (fun start => (statementNode_restarts fuel).bind) fun start => ?_
        refine .bind ih.statementNode.behind fun node => .bind stop_extends fun stop => ?_
        split
        · exact .pure (by simp [Statement.edgesOf])
        · exact .bind (ih.statements false).behind fun rest =>
            .pure (by simp [Statement.edgesOf])
      cases first with
      | true => exact .bind (.pure (.refl _)) fun leading => hrest leading _
      | false => exact .bind comments_extends fun leading => hrest leading _

theorem elseIfs_extends (ih : Orders fuel) :
    Extends Anywhere [] (elseIfs (fuel + 1)) ElseIf.edgesOf := by
  refine .bind (accept_extends _) fun more => ?_
  split
  · refine .bind (ih.expr 0) fun condition => .bind (expect_extends _) fun _ => ?_
    refine .bind ih.block.behind fun body => .bind ih.elseIfs.behind fun rest => .pure ?_
    simp [ElseIf.edgesOf]
  · exact .pure (.refl _)

theorem otherwise_extends (ih : Orders fuel) :
    Extends Anywhere [] (otherwise (fuel + 1))
      (fun block? => (block?.map Block.edges?).getD []) := by
  refine .bind (accept_extends _) fun more => ?_
  split
  · exact .bind ih.block fun block => .pure (.refl _)
  · exact .pure (.refl _)

theorem forLoop_extends (ih : Orders fuel) :
    Extends Anywhere [] (forLoop (fuel + 1)) StatementNode.edges := by
  refine .bind ident_extends fun counter => .bind (accept_extends _) fun numeric => ?_
  split
  · refine .bind (ih.expr 0).behind fun start => .bind (expect_extends _) fun _ => ?_
    refine .bind (ih.expr 0).behind fun limit => .bind (accept_extends _) fun stepped => ?_
    have hbody : ∀ step, Extends Anywhere
        ([] ++ [.name counter] ++ start.edges ++ limit.edges ++ ((step.map Expr.edges).getD [])) (do
          let _ ← expectKeyword .do
          let body ← block fuel
          let _ ← expectKeyword .end
          return StatementNode.numericFor counter start limit step body)
        StatementNode.edges := by
      intro step
      refine .bind (expect_extends _) fun _ => .bind ih.block.behind fun body => ?_
      refine .bind (expect_extends _) fun _ => .pure ?_
      cases step <;> simp [StatementNode.edges]
    split
    · exact .bind (ih.expr 0).behind fun step => hbody (some step)
    · exact .bind (.pure (by simp)) fun step => hbody step
  · refine .bind (moreIdents_extends fuel) fun names => .bind (expect_extends _) fun _ => ?_
    refine .bind ih.exprs.behind fun values => .bind (expect_extends _) fun _ => ?_
    refine .bind ih.block.behind fun body => .bind (expect_extends _) fun _ => .pure ?_
    simp [StatementNode.edges]

theorem declaration_extends (ih : Orders fuel) (reach : NameReach) :
    Extends Anywhere [] (declaration reach (fuel + 1)) StatementNode.edges := by
  refine .bind (attrib?_extends.mono fun _ => List.nil_sublist _) fun attrib => ?_
  exact ih.declarationBehind reach attrib

theorem declarationBehind_extends (ih : Orders fuel) (reach : NameReach)
    (attrib : Option (Ident × Span)) :
    Extends Anywhere [] (declarationBehind reach attrib (fuel + 1)) StatementNode.edges := by
  refine .bind attributedName_extends fun first => ?_
  refine .bind (moreAttributedNames_extends fuel) fun names => ?_
  refine .bind (accept_extends _) fun valued => ?_
  have hdone : ∀ values : Option (List Expr), Extends Anywhere
      ([] ++ [.name first.ident] ++ names.map (.name ·.ident) ++
        ((values.map Expr.edgesOf).getD []))
      (pure (StatementNode.declare reach attrib (first :: names) values)) StatementNode.edges := by
    intro values
    refine .pure ?_
    cases values <;> simp [StatementNode.edges]
  split
  · exact .bind ih.exprs.behind fun values => hdone (some values)
  · exact .bind (.pure (by simp)) fun values => hdone values

theorem simpleStatement_extends (ih : Orders fuel) :
    Extends Anywhere [] (simpleStatement (fuel + 1)) StatementNode.edges := by
  refine .bind ih.suffixed fun first => ?_
  split
  · refine .bind ih.moreTargets.behind fun targets => .bind (expect_extends _) fun _ => ?_
    exact .bind ih.exprs.behind fun values =>
      .pure (by simp [StatementNode.edges, Expr.edgesOf])
  · split
    · exact .pure (.refl _)
    · exact .refuse

theorem moreTargets_extends (ih : Orders fuel) :
    Extends Anywhere [] (moreTargets (fuel + 1)) Expr.edgesOf := by
  refine .bind (accept_extends _) fun more => ?_
  split
  · refine .bind ih.suffixed fun target => ?_
    split
    · exact .bind ih.moreTargets.behind fun rest => .pure (.refl _)
    · exact .refuse
  · exact .pure (.refl _)

/-- By the token that stands first, as the reader does. -/
theorem statementNode_extends (ih : Orders fuel) :
    Extends Anywhere [] (statementNode (fuel + 1)) StatementNode.edges := by
  have hfunction : ∀ (reach : FunctionReach) (name : FunctionName),
      Extends Anywhere ([] ++ name.path.map .name) (do
        return StatementNode.function reach name (← functionBody fuel)) StatementNode.edges :=
    fun reach name => .bind ih.functionBody.behind fun body => .pure (.refl _)
  have hnamed : ∀ (reach : FunctionReach) (name : Ident),
      Extends Anywhere ([] ++ [.name name]) (do
        return StatementNode.function reach ⟨name, [], none⟩ (← functionBody fuel))
        StatementNode.edges := fun reach name => hfunction reach ⟨name, [], none⟩
  refine .peek fun next => ?_
  split
  · exact .bind advance_extends fun _ => .pure (.refl _)
  · refine .bind advance_extends fun _ => ?_
    refine .bind (ident_extends.mono fun _ => List.nil_sublist _) fun _ => ?_
    exact .bind (expect_extends _) fun _ => .pure (.refl _)
  · exact .bind advance_extends fun _ => .pure (.refl _)
  · refine .bind advance_extends fun _ => ?_
    exact .bind (ident_extends.mono fun _ => List.nil_sublist _) fun _ => .pure (.refl _)
  · refine .bind advance_extends fun _ => .bind ih.block fun body => ?_
    exact .bind (expect_extends _) fun _ => .pure (.refl _)
  · refine .bind advance_extends fun _ => .bind (ih.expr 0) fun condition => ?_
    refine .bind (expect_extends _) fun _ => .bind ih.block.behind fun body => ?_
    exact .bind (expect_extends _) fun _ => .pure (.refl _)
  · refine .bind advance_extends fun _ => .bind ih.block fun body => ?_
    refine .bind (expect_extends _) fun _ => .bind (ih.expr 0).behind fun condition => ?_
    exact .pure (.refl _)
  · refine .bind advance_extends fun _ => .bind (ih.expr 0) fun condition => ?_
    refine .bind (expect_extends _) fun _ => .bind ih.block.behind fun body => ?_
    refine .bind ih.elseIfs.behind fun rest => .bind ih.otherwise.behind fun otherwise => ?_
    refine .bind (expect_extends _) fun _ => .pure ?_
    cases otherwise <;> simp [StatementNode.edges]
  · exact .bind advance_extends fun _ => ih.forLoop
  · refine .bind advance_extends fun _ => .bind (functionName_extends fuel) fun name => ?_
    exact hfunction .named name
  · refine .bind advance_extends fun _ => .bind (accept_extends _) fun isFunction => ?_
    split
    · exact .bind ident_extends fun name => hnamed .local name
    · exact ih.declaration .local
  · refine .bind advance_extends fun _ => .peek fun next => ?_
    have hdone : ∀ values : Option (List Expr), Extends Anywhere
        ((values.map Expr.edgesOf).getD []) (do
          let _ ← acceptMark .semicolon
          return StatementNode.return values) StatementNode.edges := by
      intro values
      refine .bind (accept_extends _) fun _ => .pure ?_
      cases values <;> simp [StatementNode.edges]
    split
    · exact .bind ih.exprs.anywhere fun values => hdone (some values)
    · exact .bind (.pure (by simp)) fun values => hdone values
  · refine .peekSecond fun second => ?_
    split
    · refine .bind advance_extends fun _ => .bind advance_extends fun _ => ?_
      exact .bind ident_extends fun name => hnamed .global name
    · exact .bind advance_extends fun _ => .bind advance_extends fun _ => .pure (.refl _)
    · refine .bind advance_extends fun _ => .bind attrib_extends fun attrib => ?_
      refine .bind (accept_extends _) fun all => ?_
      split
      · exact .pure (.refl _)
      · exact (ih.declarationBehind .global (some attrib)).behind.mono
          fun node => List.sublist_append_right _ _
    · exact .bind advance_extends fun _ => ih.declaration .global
    · exact ih.simpleStatement.anywhere
  · exact ih.simpleStatement.anywhere

end Fuel

theorem orders : ∀ fuel, Orders fuel
  | 0 => by constructor <;> intros <;> exact .refuse
  | fuel + 1 =>
    have ih := orders fuel
    { expr := expr_extends ih
      operators := operators_extends ih
      operand := operand_extends ih
      simple := simple_extends ih
      suffixed := suffixed_extends ih
      suffixes := suffixes_extends ih
      callArguments := callArguments_extends ih
      exprs := exprs_extends ih
      tableFields := tableFields_extends ih
      fieldList := fieldList_extends ih
      tableField := tableField_extends ih
      functionBody := functionBody_extends ih
      block := block_extends ih
      statements := statements_extends ih
      statementNode := statementNode_extends ih
      elseIfs := elseIfs_extends ih
      otherwise := otherwise_extends ih
      forLoop := forLoop_extends ih
      declaration := declaration_extends ih
      declarationBehind := declarationBehind_extends ih
      simpleStatement := simpleStatement_extends ih
      moreTargets := moreTargets_extends ih }

end Reader

/-! ## Chunks -/

/-- Sites in the order of their starts, no two at one offset. -/
def Ascending (sites : List Site) : Prop := sites.Pairwise (fun a b => a.start < b.start)

theorem Lexeme.start_of_site? {l : Lexeme} {site : Site} (h : Lexeme.site? l = some site) :
    site.start = l.span.start := by
  unfold Lexeme.site? at h
  split at h <;> cases h <;> rfl

theorem Lexeme.sites_ascending {ls : List Lexeme} (h : ls.Pairwise Lexeme.StartsBefore) :
    Ascending (Lexeme.sites ls) := by
  refine h.filterMap _ fun a a' hlt b hb b' hb' => ?_
  rw [Lexeme.start_of_site? hb, Lexeme.start_of_site? hb']
  exact hlt

/-- The site of a name is that of a token. -/
theorem Lexeme.exists_of_mem_sites {ls : List Lexeme} {ident : Ident}
    (h : .name ident ∈ Lexeme.sites ls) :
    ∃ l ∈ ls, l.token = .name ident.name ∧ l.span = ident.span := by
  obtain ⟨l, hl, hsite⟩ := List.mem_filterMap.mp h
  refine ⟨l, hl, ?_⟩
  unfold Lexeme.site? at hsite
  split at hsite
  · rename_i htoken
    cases hsite
    exact ⟨htoken, rfl⟩
  · cases hsite
  · cases hsite

namespace Chunk

theorem sites_sublist {cs : List Char} {chunk : Chunk} (h : Chunk.ofChars? cs = some chunk) :
    ∃ ls, Lexeme.ofChars cs = some ls ∧ chunk.sites.Sublist (Lexeme.sites ls) := by
  obtain ⟨ls, hls, hlexemes⟩ := ofChars?_eq_some_iff.mp h
  obtain ⟨stop, hrun⟩ := ofLexemes?_eq_some_iff.mp hlexemes
  have hread := ((Reader.orders _).statements false _ _ _ trivial hrun).sites
  rw [Edge.sites_nil, List.nil_append, Statement.sites_edgesOf] at hread
  refine ⟨ls, hls, ((List.sublist_append_left _ _).trans hread).trans ?_⟩
  exact (behindShebang_suffix ls).sublist.filterMap _

theorem sites_ascending {cs : List Char} {chunk : Chunk} (h : Chunk.ofChars? cs = some chunk) :
    Ascending chunk.sites := by
  obtain ⟨ls, hls, hsub⟩ := sites_sublist h
  exact (Lexeme.sites_ascending (Lexeme.ofChars_ascending hls)).sublist hsub

/-- The sites of the tree stand inside the text. -/
theorem start_le_of_mem_sites {cs : List Char} {chunk : Chunk} (h : Chunk.ofChars? cs = some chunk)
    {site : Site} (hmem : site ∈ chunk.sites) : site.start ≤ byteLength cs := by
  obtain ⟨ls, hls, hsub⟩ := sites_sublist h
  obtain ⟨l, hl, hsite⟩ := List.mem_filterMap.mp (hsub.subset hmem)
  rw [Lexeme.start_of_site? hsite]
  exact Lexeme.ofChars_start_le hls l hl

/-- A name of the tree is what the text holds at its span. -/
theorem slice_of_mem_sites {cs : List Char} {chunk : Chunk} {ident : Ident}
    (h : Chunk.ofChars? cs = some chunk) (hmem : .name ident ∈ chunk.sites) :
    takeBytes (dropBytes cs ident.span.start) (ident.span.stop - ident.span.start) =
        ident.name.toList ∧ ∀ c ∈ ident.name.toList, isNameChar c = true := by
  obtain ⟨ls, hls, hsub⟩ := sites_sublist h
  obtain ⟨l, hl, htoken, hspan⟩ := Lexeme.exists_of_mem_sites (hsub.subset hmem)
  have hstands := Lexeme.ofChars_slice hls l hl ident.name htoken
  rwa [hspan] at hstands

end Chunk

end LuaScope

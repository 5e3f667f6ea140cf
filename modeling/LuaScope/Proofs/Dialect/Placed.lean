import LuaScope.Syntax.Dialect

/-!
# LuaScope.Proofs.Dialect.Placed

The constructs of a tree that not every version of Lua has, in the order of the text and each with
the number of nodes around it. The comparison `<` stands among them, as only the tree tells it from
the mark that opens an attribute.

* `Chunk.placed`      — all of them, however deep they stand.
* `Chunk.usages_perm` — the uses that are listed for a chunk are those down to the depth limit, each
  once.
-/

namespace LuaScope

/-- A part of a tree whose token stands for a construct, or looks like one that does. -/
inductive Feature where
  | use (usage : Usage)
  /-- The operator `<`. -/
  | less (span : Span)
deriving Repr, DecidableEq

namespace Feature

def usage? : Feature → Option Usage
  | .use usage => some usage
  | .less _ => none

def span : Feature → Span
  | .use usage => usage.span
  | .less span => span

theorem span_of_usage? {f : Feature} {u : Usage} (h : f.usage? = some u) : f.span = u.span := by
  cases f with
  | use usage => exact congrArg Usage.span (Option.some.inj h)
  | less span => cases h

end Feature

/-- A feature with this many nodes around it, the node of the chunk not counted. -/
structure Placed where
  depth : Nat
  feature : Feature
deriving Repr, DecidableEq

namespace Placed

/-- The same inside one node more. -/
def inside (ps : List Placed) : List Placed := ps.map fun p => { p with depth := p.depth + 1 }

def features (ps : List Placed) : List Feature := ps.map Placed.feature

/-- The uses down to the depth limit, where `outer` nodes more stand around. -/
def shown (outer : Nat) (ps : List Placed) : List Usage :=
  ps.filterMap fun p => if outer + p.depth ≤ maxDepth then p.feature.usage? else none

variable {ps qs : List Placed} {outer : Nat}

@[simp] theorem inside_nil : inside [] = [] := rfl

@[simp] theorem inside_append (ps qs : List Placed) :
    inside (ps ++ qs) = inside ps ++ inside qs := List.map_append

@[simp] theorem features_nil : features [] = [] := rfl

@[simp] theorem features_cons (p : Placed) (ps : List Placed) :
    features (p :: ps) = p.feature :: features ps := rfl

@[simp] theorem features_append (ps qs : List Placed) :
    features (ps ++ qs) = features ps ++ features qs := List.map_append

@[simp] theorem features_inside (ps : List Placed) : features (inside ps) = features ps := by
  rw [features, features, inside, List.map_map]
  rfl

@[simp] theorem shown_nil : shown outer [] = [] := rfl

@[simp] theorem shown_append (outer : Nat) (ps qs : List Placed) :
    shown outer (ps ++ qs) = shown outer ps ++ shown outer qs := List.filterMap_append

@[simp] theorem shown_inside (outer : Nat) (ps : List Placed) :
    shown outer (inside ps) = shown (outer + 1) ps := by
  rw [shown, shown, inside, List.filterMap_map]
  congr 1
  funext p
  simp only [Function.comp_apply, Nat.add_right_comm outer 1, Nat.add_assoc]

end Placed

open Placed

/-! ## Single tokens and attributes -/

def BinaryOp.placed (op : BinaryOp) (span : Span) : List Placed :=
  match op.integerSymbol? with
  | some symbol => [⟨0, .use ⟨.integerOperator symbol, span⟩⟩]
  | none => if op = .less then [⟨0, .less span⟩] else []

def UnaryOp.placed (op : UnaryOp) (span : Span) : List Placed :=
  match op.integerSymbol? with
  | some symbol => [⟨0, .use ⟨.integerOperator symbol, span⟩⟩]
  | none => []

/-- An attribute is a node of its own. -/
def attribPlaced : Option (Ident × Span) → List Placed
  | some (_, span) => inside [⟨0, .use ⟨.attrib, span⟩⟩]
  | none => []

def namesPlaced (names : List AttributedName) : List Placed :=
  names.flatMap fun name => attribPlaced name.attrib

/-! ## The nodes of a tree

Where one node stands for several, as an assignment does with its list of targets and its list of
values, each of them counts.
-/

mutual

def Expr.placed : Expr → List Placed
  | .nil | .boolean | .number | .literal _ | .vararg | .name _ | .global => []
  | .field base _ => inside base.placed
  | .subscript base key => inside (base.placed ++ key.placed)
  | .call callee none arguments => inside (callee.placed ++ inside (Expr.placedOf arguments))
  | .call callee (some _) arguments =>
    inside (inside callee.placed ++ inside (Expr.placedOf arguments))
  | .paren inner => inside inner.placed
  | .table fields => inside (Field.placedOf fields)
  | .function body => body.placed
  | .binary op span left right => inside (left.placed ++ op.placed span ++ right.placed)
  | .unary op span operand => inside (op.placed span ++ operand.placed)

def Expr.placedOf : List Expr → List Placed
  | [] => []
  | e :: rest => e.placed ++ Expr.placedOf rest

def Field.placed : Field → List Placed
  | .positional value | .named _ _ _ value | .unnamed value => inside value.placed
  | .computed key value => inside (key.placed ++ value.placed)

def Field.placedOf : List Field → List Placed
  | [] => []
  | field :: rest => field.placed ++ Field.placedOf rest

/-- A function, with the node that it stands for. -/
def FunctionBody.placed : FunctionBody → List Placed
  | .mk _ block _ => inside (Block.placed? block)

def Block.placed? : Option Block → List Placed
  | none => []
  | some (.mk _ statements) => inside (Statement.placedOf statements)

def Statement.placedOf : List Statement → List Placed
  | [] => []
  | .mk _ span node :: rest => node.placed span ++ Statement.placedOf rest

/-- A statement that stands at this span. -/
def StatementNode.placed : StatementNode → Span → List Placed
  | .empty, _ | .break, _ => []
  | .label, span | .goto, span => inside [⟨0, .use ⟨.gotoOrLabel, span⟩⟩]
  | .assign targets values, _ =>
    inside (inside (Expr.placedOf targets) ++ inside (Expr.placedOf values))
  | .call call, _ => call.placed
  | .do body, _ => inside (Block.placed? body)
  | .while condition body, _ => inside (condition.placed ++ Block.placed? body)
  | .repeat body condition, _ => inside (Block.placed? body ++ condition.placed)
  | .if condition body rest none, _ =>
    inside (condition.placed ++ Block.placed? body ++ ElseIf.placedOf rest)
  | .if condition body rest (some block), _ =>
    inside (condition.placed ++ Block.placed? body ++ ElseIf.placedOf rest ++
      inside (Block.placed? block))
  | .numericFor _ start limit none body, _ =>
    inside (inside (start.placed ++ limit.placed) ++ Block.placed? body)
  | .numericFor _ start limit (some step) body, _ =>
    inside (inside (start.placed ++ limit.placed ++ step.placed) ++ Block.placed? body)
  | .genericFor _ values body, _ =>
    inside (inside (inside (Expr.placedOf values)) ++ Block.placed? body)
  | .function _ _ body, _ => body.placed
  | .declare _ attrib names none, _ => inside (inside (attribPlaced attrib ++ namesPlaced names))
  | .declare _ attrib names (some values), _ =>
    inside (inside (inside (attribPlaced attrib ++ namesPlaced names) ++
      inside (Expr.placedOf values)))
  | .implicitGlobals attrib, _ => inside (attribPlaced attrib)
  | .return none, _ => []
  | .return (some values), _ => inside (inside (Expr.placedOf values))

def ElseIf.placedOf : List ElseIf → List Placed
  | [] => []
  | .mk condition body :: rest =>
    inside (condition.placed ++ Block.placed? body) ++ ElseIf.placedOf rest

end

/-- All features of a chunk in the order of its text. -/
def Chunk.placed (chunk : Chunk) : List Placed := Statement.placedOf chunk.statements

/-! ## The listed uses are those that stand not too deep -/

theorem shown_use (construct : Construct) (span : Span) (outer : Nat) :
    shown outer [⟨0, .use ⟨construct, span⟩⟩] = Usage.at outer construct span := by
  unfold Usage.at shown
  split <;> simp [*, Feature.usage?]

theorem shown_less (span : Span) (outer : Nat) : shown outer [⟨0, .less span⟩] = [] := by
  simp [shown, Feature.usage?]

theorem BinaryOp.shown_placed (op : BinaryOp) (span : Span) (outer : Nat) :
    shown outer (op.placed span) = Usage.ofOperator outer op.integerSymbol? span := by
  unfold BinaryOp.placed
  cases op.integerSymbol? with
  | some symbol => exact shown_use _ span outer
  | none =>
    by_cases hless : op = .less
    · simp only [if_pos hless, shown_less, Usage.ofOperator]
    · simp only [if_neg hless, shown_nil, Usage.ofOperator]

theorem UnaryOp.shown_placed (op : UnaryOp) (span : Span) (outer : Nat) :
    shown outer (op.placed span) = Usage.ofOperator outer op.integerSymbol? span := by
  unfold UnaryOp.placed
  cases op.integerSymbol? with
  | some symbol => exact shown_use _ span outer
  | none => rfl

theorem shown_attribPlaced (attrib : Option (Ident × Span)) (outer : Nat) :
    shown outer (attribPlaced attrib) = Usage.ofAttrib (outer + 1) attrib := by
  cases attrib with
  | none => rfl
  | some attrib => rw [attribPlaced, shown_inside, shown_use, Usage.ofAttrib]

theorem shown_namesPlaced (names : List AttributedName) (outer : Nat) :
    shown outer (namesPlaced names) = Usage.ofNames (outer + 1) names := by
  induction names with
  | nil => rfl
  | cons name names ih =>
    rw [namesPlaced, List.flatMap_cons, shown_append, shown_attribPlaced, Usage.ofNames,
      List.flatMap_cons]
    exact congrArg _ ih

mutual

/-- An operator is listed in front of what stands inside its operands, and placed between them. -/
theorem Expr.usages_perm : ∀ (e : Expr) (outer : Nat),
    (e.usages (outer + 1)).Perm (shown outer e.placed)
  | .nil, _ | .boolean, _ | .number, _ | .literal _, _ | .vararg, _ | .name _, _
  | .global, _ => .nil
  | .field base _, outer => by
    rw [Expr.usages, Expr.placed, shown_inside]
    exact base.usages_perm _
  | .subscript base key, outer => by
    rw [Expr.usages, Expr.placed, shown_inside, shown_append]
    exact (base.usages_perm _).append (key.usages_perm _)
  | .call callee none arguments, outer => by
    rw [Expr.usages, Expr.placed, shown_inside, shown_append, shown_inside]
    exact (callee.usages_perm _).append (Expr.listUsages_perm arguments _)
  | .call callee (some _) arguments, outer => by
    rw [Expr.usages, Expr.placed, shown_inside, shown_append, shown_inside, shown_inside]
    exact (callee.usages_perm _).append (Expr.listUsages_perm arguments _)
  | .paren inner, outer => by
    rw [Expr.usages, Expr.placed, shown_inside]
    exact inner.usages_perm _
  | .table fields, outer => by
    rw [Expr.usages, Expr.placed, shown_inside]
    exact Field.listUsages_perm fields _
  | .function body, outer => by
    rw [Expr.usages, Expr.placed]
    exact body.usages_perm outer
  | .binary op span left right, outer => by
    rw [Expr.usages, Expr.placed, shown_inside, shown_append, shown_append, op.shown_placed]
    have hleft := left.usages_perm (outer + 1)
    have hright := right.usages_perm (outer + 1)
    refine (((hleft.append hright).append_left _).trans ?_)
    rw [← List.append_assoc]
    exact List.perm_append_comm.append_right _
  | .unary op span operand, outer => by
    rw [Expr.usages, Expr.placed, shown_inside, shown_append, op.shown_placed]
    exact (operand.usages_perm _).append_left _

theorem Expr.listUsages_perm : ∀ (es : List Expr) (outer : Nat),
    (Expr.listUsages es (outer + 1)).Perm (shown outer (Expr.placedOf es))
  | [], _ => .nil
  | e :: rest, outer => by
    rw [Expr.listUsages, Expr.placedOf, shown_append]
    exact (e.usages_perm outer).append (Expr.listUsages_perm rest outer)

theorem Field.usages_perm : ∀ (field : Field) (outer : Nat),
    (field.usages (outer + 1)).Perm (shown outer field.placed)
  | .positional value, _ | .named _ _ _ value, _ | .unnamed value, _ => by
    rw [Field.usages, Field.placed, shown_inside]
    exact value.usages_perm _
  | .computed key value, _ => by
    rw [Field.usages, Field.placed, shown_inside, shown_append]
    exact (key.usages_perm _).append (value.usages_perm _)

theorem Field.listUsages_perm : ∀ (fields : List Field) (outer : Nat),
    (Field.listUsages fields (outer + 1)).Perm (shown outer (Field.placedOf fields))
  | [], _ => .nil
  | field :: rest, outer => by
    rw [Field.listUsages, Field.placedOf, shown_append]
    exact (field.usages_perm outer).append (Field.listUsages_perm rest outer)

theorem FunctionBody.usages_perm : ∀ (body : FunctionBody) (outer : Nat),
    (body.usages (outer + 1)).Perm (shown outer body.placed)
  | .mk _ block _, outer => by
    rw [FunctionBody.usages, FunctionBody.placed, shown_inside]
    exact Block.optUsages_perm block _

theorem Block.optUsages_perm : ∀ (block : Option Block) (outer : Nat),
    (Block.optUsages block (outer + 1)).Perm (shown outer (Block.placed? block))
  | none, _ => .nil
  | some (.mk _ statements), outer => by
    rw [Block.optUsages, Block.placed?, shown_inside]
    exact Statement.listUsages_perm statements _

theorem Statement.listUsages_perm : ∀ (statements : List Statement) (outer : Nat),
    (Statement.listUsages statements (outer + 1)).Perm (shown outer (Statement.placedOf statements))
  | [], _ => .nil
  | .mk _ span node :: rest, outer => by
    rw [Statement.listUsages, Statement.placedOf, shown_append]
    exact (node.usages_perm span outer).append (Statement.listUsages_perm rest outer)

theorem StatementNode.usages_perm : ∀ (node : StatementNode) (span : Span) (outer : Nat),
    (node.usages span (outer + 1)).Perm (shown outer (node.placed span))
  | .empty, _, _ | .break, _, _ | .return none, _, _ => .nil
  | .label, span, outer | .goto, span, outer => by
    rw [StatementNode.usages, StatementNode.placed, shown_inside, shown_use]
  | .assign targets values, _, outer => by
    rw [StatementNode.usages, StatementNode.placed, shown_inside, shown_append, shown_inside,
      shown_inside]
    exact (Expr.listUsages_perm targets _).append (Expr.listUsages_perm values _)
  | .call call, _, outer => call.usages_perm outer
  | .do body, _, outer => by
    rw [StatementNode.usages, StatementNode.placed, shown_inside]
    exact Block.optUsages_perm body _
  | .while condition body, _, outer => by
    rw [StatementNode.usages, StatementNode.placed, shown_inside, shown_append]
    exact (condition.usages_perm _).append (Block.optUsages_perm body _)
  | .repeat body condition, _, outer => by
    rw [StatementNode.usages, StatementNode.placed, shown_inside, shown_append]
    exact (Block.optUsages_perm body _).append (condition.usages_perm _)
  | .if condition body rest none, _, outer => by
    simp only [StatementNode.usages, StatementNode.placed, shown_inside, shown_append,
      List.append_nil]
    exact ((condition.usages_perm _).append (Block.optUsages_perm body _)).append
      (ElseIf.listUsages_perm rest _)
  | .if condition body rest (some block), _, outer => by
    simp only [StatementNode.usages, StatementNode.placed, shown_inside, shown_append]
    exact (((condition.usages_perm _).append (Block.optUsages_perm body _)).append
      (ElseIf.listUsages_perm rest _)).append (Block.optUsages_perm block _)
  | .numericFor _ start limit none body, _, outer => by
    simp only [StatementNode.usages, StatementNode.placed, shown_inside, shown_append,
      List.append_nil]
    exact ((start.usages_perm _).append (limit.usages_perm _)).append (Block.optUsages_perm body _)
  | .numericFor _ start limit (some step) body, _, outer => by
    simp only [StatementNode.usages, StatementNode.placed, shown_inside, shown_append]
    exact (((start.usages_perm _).append (limit.usages_perm _)).append
      (step.usages_perm _)).append (Block.optUsages_perm body _)
  | .genericFor _ values body, _, outer => by
    simp only [StatementNode.usages, StatementNode.placed, shown_inside, shown_append]
    exact (Expr.listUsages_perm values _).append (Block.optUsages_perm body _)
  | .function _ _ body, _, outer => body.usages_perm outer
  | .declare _ attrib names none, _, outer => by
    simp only [StatementNode.usages, StatementNode.placed, shown_inside, shown_append,
      shown_attribPlaced, shown_namesPlaced]
    exact .refl _
  | .declare _ attrib names (some values), _, outer => by
    simp only [StatementNode.usages, StatementNode.placed, shown_inside, shown_append,
      shown_attribPlaced, shown_namesPlaced]
    exact (Expr.listUsages_perm values _).append_left _
  | .implicitGlobals attrib, _, outer => by
    rw [StatementNode.usages, StatementNode.placed, shown_inside, shown_attribPlaced]
  | .return (some values), _, outer => by
    rw [StatementNode.usages, StatementNode.placed, shown_inside, shown_inside]
    exact Expr.listUsages_perm values _

theorem ElseIf.listUsages_perm : ∀ (rest : List ElseIf) (outer : Nat),
    (ElseIf.listUsages rest (outer + 1)).Perm (shown outer (ElseIf.placedOf rest))
  | [], _ => .nil
  | .mk condition body :: rest, outer => by
    rw [ElseIf.listUsages, ElseIf.placedOf, shown_append, shown_inside, shown_append]
    exact ((condition.usages_perm _).append (Block.optUsages_perm body _)).append
      (ElseIf.listUsages_perm rest _)

end

/-- The uses that a chunk lists are those down to the depth limit, each as often as it stands. -/
theorem Chunk.usages_perm (chunk : Chunk) : chunk.usages.Perm (shown 0 chunk.placed) :=
  Statement.listUsages_perm chunk.statements 0

end LuaScope

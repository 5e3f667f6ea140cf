import LuaScope.Binding.Walk

/-!
# LuaScope.Proofs.Function.Node

The functions of a tree, and the `return` statements that belong to each.

* `Chunk.functions`      — every function of a chunk, each in front of those inside it.
* `FunctionBody.returns` — the lists behind the `return`s of a function itself: those in its blocks,
  branches and loops, but not those of functions inside it.
-/

namespace LuaScope

/-! ## Own returns -/

mutual

def Block.returns? : Option Block → List (List Expr)
  | none => []
  | some (.mk _ statements) => Statement.returnsOf statements

def Statement.returnsOf : List Statement → List (List Expr)
  | [] => []
  | .mk _ _ node :: rest => node.returns ++ Statement.returnsOf rest

def StatementNode.returns : StatementNode → List (List Expr)
  | .return values => [values.getD []]
  | .do body => Block.returns? body
  | .while _ body => Block.returns? body
  | .repeat body _ => Block.returns? body
  | .if _ body rest none => Block.returns? body ++ ElseIf.returnsOf rest
  | .if _ body rest (some block) =>
    Block.returns? body ++ (ElseIf.returnsOf rest ++ Block.returns? block)
  | .numericFor _ _ _ _ body => Block.returns? body
  | .genericFor _ _ body => Block.returns? body
  | .empty | .assign _ _ | .call _ | .label | .goto | .break | .function _ _ _
  | .declare _ _ _ _ | .implicitGlobals _ => []

def ElseIf.returnsOf : List ElseIf → List (List Expr)
  | [] => []
  | .mk _ body :: rest => Block.returns? body ++ ElseIf.returnsOf rest

end

def FunctionBody.returns (body : FunctionBody) : List (List Expr) := Block.returns? body.block

/-! ## Functions -/

mutual

def Expr.functions : Expr → List FunctionBody
  | .nil | .boolean | .number | .literal _ | .vararg | .global | .name _ => []
  | .field base _ => base.functions
  | .subscript base key => base.functions ++ key.functions
  | .call callee _ arguments => callee.functions ++ Expr.functionsOf arguments
  | .paren inner => inner.functions
  | .table fields => Field.functionsOf fields
  | .function body => body.functions
  | .binary _ _ left right => left.functions ++ right.functions
  | .unary _ _ operand => operand.functions

def Expr.functionsOf : List Expr → List FunctionBody
  | [] => []
  | e :: rest => e.functions ++ Expr.functionsOf rest

def Field.functionsOf : List Field → List FunctionBody
  | [] => []
  | .positional value :: rest => value.functions ++ Field.functionsOf rest
  | .named _ _ _ value :: rest => value.functions ++ Field.functionsOf rest
  | .unnamed value :: rest => value.functions ++ Field.functionsOf rest
  | .computed key value :: rest => key.functions ++ (value.functions ++ Field.functionsOf rest)

def FunctionBody.functions : FunctionBody → List FunctionBody
  | .mk parameters block stop => .mk parameters block stop :: Block.functions? block

def Block.functions? : Option Block → List FunctionBody
  | none => []
  | some (.mk _ statements) => Statement.functionsOf statements

def Statement.functionsOf : List Statement → List FunctionBody
  | [] => []
  | .mk _ _ node :: rest => node.functions ++ Statement.functionsOf rest

/-- The values of an assignment are looked at in front of its targets. -/
def StatementNode.functions : StatementNode → List FunctionBody
  | .empty | .label | .goto | .break | .implicitGlobals _ => []
  | .assign targets values => Expr.functionsOf values ++ Expr.functionsOf targets
  | .call call => call.functions
  | .do body => Block.functions? body
  | .while condition body => condition.functions ++ Block.functions? body
  | .repeat body condition => Block.functions? body ++ condition.functions
  | .if condition body rest none =>
    condition.functions ++ (Block.functions? body ++ ElseIf.functionsOf rest)
  | .if condition body rest (some block) =>
    condition.functions ++
      (Block.functions? body ++ (ElseIf.functionsOf rest ++ Block.functions? block))
  | .numericFor _ start limit none body =>
    start.functions ++ (limit.functions ++ Block.functions? body)
  | .numericFor _ start limit (some step) body =>
    start.functions ++ (limit.functions ++ (step.functions ++ Block.functions? body))
  | .genericFor _ values body => Expr.functionsOf values ++ Block.functions? body
  | .function _ _ body => body.functions
  | .declare _ _ _ none => []
  | .declare _ _ _ (some values) => Expr.functionsOf values
  | .return none => []
  | .return (some values) => Expr.functionsOf values

def ElseIf.functionsOf : List ElseIf → List FunctionBody
  | [] => []
  | .mk condition body :: rest =>
    condition.functions ++ (Block.functions? body ++ ElseIf.functionsOf rest)

end

def Chunk.functions (chunk : Chunk) : List FunctionBody := Statement.functionsOf chunk.statements

/-- A plain path holds no function. -/
theorem Expr.functions_of_path? : ∀ {e : Expr} {path : List Ident}, e.path? = some path →
    e.functions = []
  | .name _, _, _ => rfl
  | .field _ _, _, h => by
    obtain ⟨_, hbase, -⟩ := Option.map_eq_some_iff.mp h
    rw [Expr.functions]
    exact Expr.functions_of_path? hbase

/-- An argument that is nothing but a literal holds no function. -/
theorem Expr.functionsOf_of_literalArgument {arguments : List Expr} {name : String}
    (h : literalArgument arguments = some name) : Expr.functionsOf arguments = [] := by
  have hnamed : ∀ es : List Expr,
      Expr.functionsOf es = Expr.functionsOf (es.filter Expr.isNamed) := by
    intro es
    induction es with
    | nil => rfl
    | cons e rest ih =>
      cases e with
      | global => exact ih
      | _ => simp only [Expr.functionsOf, List.filter, Expr.isNamed, ih]
  rw [hnamed]
  unfold literalArgument at h
  split at h
  · rename_i hfilter
    rw [hfilter]
    rfl
  · cases h

end LuaScope

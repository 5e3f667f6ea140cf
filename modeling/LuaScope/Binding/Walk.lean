import LuaScope.Binding.State
import LuaScope.Syntax.Dialect
import LuaScope.Syntax.DocComment

/-!
# LuaScope.Binding.Walk

One walk over a chunk in source order. It opens scopes, declares symbols, records references and
infers a type for every expression, so that an initial value is resolved before the name it is
given to is bound. `depth` counts the nesting; nothing deeper than `maxDepth` is looked at.
-/

namespace LuaScope

abbrev Walk (σ : Type) := StateM (Binder σ)

namespace Parameters

/-- Parameter names as a function type lists them. -/
def names (p : Parameters) : List String :=
  p.entries.map (fun
    | .name ident => ident.name
    | .vararg => "...")

end Parameters

/-- The literal that is the only argument of a call. -/
def literalArgument (arguments : List Expr) : Option String :=
  match arguments.filter Expr.isNamed with
  | [.literal content] => content
  | _ => none

def BinaryOp.inferred (op : BinaryOp) (left right : Inferred) : Inferred :=
  match op with
  | .concat => { ty := .string }
  | .equal | .notEqual | .less | .greater | .lessEqual | .greaterEqual => { ty := .boolean }
  | .or => if left.ty.isVacant then right else left
  | .and => right
  | _ => { ty := .number }

def UnaryOp.inferred : UnaryOp → Inferred
  | .not => { ty := .boolean }
  | _ => { ty := .number }

namespace Walk

variable {σ : Type}

def inferPath (s : Setting σ) (path : List Ident) : Walk σ Inferred :=
  fun b => b.inferPath s path

def inferName (s : Setting σ) (ident : Ident) (depth : Nat) : Walk σ Inferred :=
  if maxDepth < depth then pure {} else inferPath s [ident]

def within (kind : ScopeKind) (span : Span) (inside : Walk σ Unit) : Walk σ Unit := do
  let saved := (← get).scope
  modify (·.enterScope kind span)
  inside
  modify (·.backTo saved)

/-- Bind the parameters in a new scope, walk the body and answer the return type. -/
def inFunction (s : Setting σ) (parameters : Parameters) (stop : Nat) (isMethod : Bool)
    (container : Option Link) (body : Walk σ Unit) : Walk σ Ty := do
  let saved := (← get).scope
  modify (·.enterScope .function ⟨parameters.span.start, stop⟩)
  if isMethod then
    modify (Binder.declareSelf s parameters.span container)
  modify (Binder.declareParameters s parameters.span parameters.entries)
  modify (·.pushFrame)
  body
  let returns ← modifyGet (·.popFrame)
  modify (·.backTo saved)
  pure returns

mutual

def inferExpr (s : Setting σ) : Expr → Nat → Walk σ Inferred
  | .nil, depth => if maxDepth < depth then pure {} else pure { ty := .nil }
  | .boolean, depth => if maxDepth < depth then pure {} else pure { ty := .boolean }
  | .number, depth => if maxDepth < depth then pure {} else pure { ty := .number }
  | .literal _, depth => if maxDepth < depth then pure {} else pure { ty := .string }
  | .vararg, _ | .global, _ => pure {}
  | .name ident, depth => inferName s ident depth
  | .field base key, depth =>
    if maxDepth < depth then pure {}
    else
      match base.path? with
      | some path => inferPath s (path ++ [key])
      | none => do
        let _ ← inferExpr s base (depth + 1)
        let _ ← inferName s key (depth + 1)
        pure {}
  | .subscript base key, depth =>
    if maxDepth < depth then pure {}
    else do
      let _ ← inferExpr s base (depth + 1)
      let _ ← inferExpr s key (depth + 1)
      pure {}
  | .paren inner, depth => if maxDepth < depth then pure {} else inferExpr s inner (depth + 1)
  | .table fields, depth =>
    if maxDepth < depth then pure {}
    else do
      let members ← inferFields s fields depth []
      pure { ty := .table { members := members } }
  | .function (.mk parameters block stop), depth =>
    if maxDepth < depth then pure {}
    else do
      let returns ←
        inFunction s parameters stop false none (visitBlock s block (depth + 1))
      pure { ty := .function parameters.names returns false }
  | .call callee method arguments, depth =>
    if maxDepth < depth then pure {}
    else
      match callee, method, literalArgument arguments with
      | .name ⟨"require", _⟩, none, some name => fun b => b.require s name
      | .name ⟨"setmetatable", _⟩, none, _ => inferSetmetatable s arguments depth
      | _, none, _ => do
        let value ← inferExpr s callee (depth + 1)
        let _ ← inferList s arguments depth
        pure (Binder.callResult value)
      | _, some name, _ => do
        let value ←
          if maxDepth < depth + 1 then pure {}
          else
            match callee.path? with
            | some path => inferPath s (path ++ [name])
            | none => do
              let _ ← inferExpr s callee (depth + 2)
              let _ ← inferName s name (depth + 2)
              pure {}
        let _ ← inferList s arguments depth
        pure (Binder.callResult value)
  | .binary op _ left right, depth =>
    if maxDepth < depth then pure {}
    else do
      let leftValue ← inferExpr s left (depth + 1)
      let rightValue ← inferExpr s right (depth + 1)
      pure (if left.isNamed then op.inferred leftValue rightValue else {})
  | .unary op _ operand, depth =>
    if maxDepth < depth then pure {}
    else do
      let _ ← inferExpr s operand (depth + 1)
      pure op.inferred

/-- Values of a list that stands at this depth; `global` is left out. -/
def inferList (s : Setting σ) : List Expr → Nat → Walk σ (List Inferred)
  | [], _ => pure []
  | .global :: rest, depth => inferList s rest depth
  | e :: rest, depth => do
    let value ← inferExpr s e (depth + 1)
    return value :: (← inferList s rest depth)

/-- Keyed entries become members; of others only the names in them are recorded. -/
def inferFields (s : Setting σ) : List Field → Nat → Members → Walk σ Members
  | [], _, members => pure members
  | .positional value :: rest, depth, members => do
    let _ ← inferExpr s value (depth + 1)
    inferFields s rest depth members
  | .unnamed value :: rest, depth, members => do
    let _ ← inferExpr s value (depth + 1)
    inferFields s rest depth members
  | .computed key value :: rest, depth, members => do
    let _ ← inferExpr s key (depth + 1)
    let _ ← inferExpr s value (depth + 1)
    inferFields s rest depth members
  | .named comments span key value :: rest, depth, members => do
    let value ← inferExpr s value (depth + 1)
    let doc := Comment.doc? s.source.lines span.start comments
    let symbol := Binder.newSymbol s (← get) key (.ofTy value.ty .field) span value false doc
    modify (fun b => (b.addMember symbol).adoptMembers symbol.id)
    inferFields s rest depth (members.insert key.name symbol.id)

/-- `setmetatable(t, mt, ...)`: the callee itself is no reference. -/
def inferSetmetatable (s : Setting σ) : List Expr → Nat → Walk σ Inferred
  | [], _ => pure {}
  | .global :: rest, depth => inferSetmetatable s rest depth
  | target :: rest, depth => do
    let target ← inferExpr s target (depth + 1)
    let prototype ← inferMetatable s rest depth
    fun b => b.attachPrototype target prototype

/-- The prototype that the second argument gives, with the arguments behind it. -/
def inferMetatable (s : Setting σ) : List Expr → Nat → Walk σ (Option Prototype)
  | [], _ => pure none
  | .global :: rest, depth => inferMetatable s rest depth
  | .table fields :: rest, depth => do
    let members ← inferFields s fields (depth + 1) []
    let _ ← inferList s rest depth
    pure ((members.get? "__index").map (fun id => .base (.here id)))
  | metatable :: rest, depth => do
    let value ← inferExpr s metatable (depth + 1)
    let _ ← inferList s rest depth
    pure (value.alias.map .metatable)

/-- Visit the statements of a block, if there is one. -/
def visitBlock (s : Setting σ) : Option Block → Nat → Walk σ Unit
  | none, _ => pure ()
  | some (.mk _ statements), depth =>
    if maxDepth < depth then pure () else visitStatements s statements (depth + 1)

/-- Visit a block in a scope of its own, which spans the block. -/
def visitScoped (s : Setting σ) (kind : ScopeKind) : Option Block → Nat → Walk σ Unit
  | none, _ => pure ()
  | some (.mk span statements), depth =>
    within kind span
      (if maxDepth < depth + 1 then pure () else visitStatements s statements (depth + 2))

def visitStatements (s : Setting σ) : List Statement → Nat → Walk σ Unit
  | [], _ => pure ()
  | .mk comments span node :: rest, depth => do
    if depth ≤ maxDepth then
      visitStatement s node span (Comment.doc? s.source.lines span.start comments) depth
    visitStatements s rest depth

def visitStatement (s : Setting σ) : StatementNode → Span → Option String → Nat → Walk σ Unit
  | .empty, _, _, _ | .label, _, _, _ | .goto, _, _, _ | .break, _, _, _ => pure ()
  | .declare _ _ names values, span, doc, depth => do
    let values ← match values with
      | some values => inferList s values depth
      | none => pure []
    modify (Binder.declareLocals s span doc (names.map AttributedName.ident) values)
  | .implicitGlobals attrib, _, _, depth =>
    match attrib with
    | some (name, _) => do
      let _ ← inferName s name (depth + 2)
    | none => pure ()
  | .assign targets values, span, doc, depth => do
    let values ← inferList s values depth
    assignTargets s targets values span doc depth
  | .function reach name (.mk parameters block stop), span, doc, depth => do
    let defined ← fun b => b.declareFunction s reach name span parameters.names doc
    let returns ←
      inFunction s parameters stop name.method.isSome defined.container
        (visitBlock s block (depth + 1))
    modify (·.finishFunction defined.symbol returns)
  | .do body, span, _, depth =>
    if body.isSome then within .block span (visitBlock s body (depth + 1)) else pure ()
  | .while condition body, _, _, depth => do
    let _ ← inferExpr s condition (depth + 1)
    visitScoped s .loop body depth
  | .repeat body condition, span, _, depth =>
    within .loop span (do
      visitBlock s body (depth + 1)
      let _ ← inferExpr s condition (depth + 1))
  | .if condition body rest otherwise, _, _, depth => do
    let _ ← inferExpr s condition (depth + 1)
    visitScoped s .block body depth
    visitElseIfs s rest depth
    match otherwise with
    | some block => visitScoped s .block block depth
    | none => pure ()
  | .numericFor counter start limit step body, span, _, depth => do
    let _ ← inferExpr s start (depth + 1)
    let _ ← inferExpr s limit (depth + 1)
    match step with
    | some e => let _ ← inferExpr s e (depth + 1)
    | none => pure ()
    within .loop span (do
      modify (Binder.declareCounter s span .number counter)
      visitBlock s body (depth + 1))
  | .genericFor names values body, span, _, depth => do
    let _ ← inferList s values depth
    within .loop span (do
      modify (fun b => names.foldl (fun b name => b.declareCounter s span .unknown name) b)
      visitBlock s body (depth + 1))
  | .return values, _, _, depth =>
    match values with
    | none => pure ()
    | some values => do
      match ← inferList s values depth with
      | first :: _ => modify (·.noteReturn first)
      | [] => pure ()
  | .call call, _, _, depth => do
    let _ ← inferExpr s call (depth + 1)

def visitElseIfs (s : Setting σ) : List ElseIf → Nat → Walk σ Unit
  | [], _ => pure ()
  | .mk condition body :: rest, depth => do
    let _ ← inferExpr s condition (depth + 1)
    visitScoped s .block body depth
    visitElseIfs s rest depth

def assignTargets (s : Setting σ) :
    List Expr → List Inferred → Span → Option String → Nat → Walk σ Unit
  | [], _, _, _, _ => pure ()
  | .global :: rest, values, span, doc, depth => assignTargets s rest values span doc depth
  | .name ident :: rest, values, span, doc, depth => do
    modify (Binder.assignName s ident span (values.headD {}) doc)
    assignTargets s rest values.tail span doc depth
  | .field base key :: rest, values, span, doc, depth => do
    match base.path? with
    | some path =>
      let value := values.headD {}
      modify (fun b =>
        (b.defineMember s (path ++ [key]) (.ofTy value.ty .field) span value doc).2)
    | none => let _ ← inferExpr s base (depth + 1)
    assignTargets s rest values.tail span doc depth
  | other :: rest, values, span, doc, depth => do
    let _ ← inferExpr s other (depth + 1)
    assignTargets s rest values.tail span doc depth

end

end Walk

end LuaScope

import LuaScope.Proofs.Call.Bracket
import LuaScope.Proofs.Syntax.Passage

/-!
# LuaScope.Proofs.Call.Site

The calls of a tree, and how the tokens of its text hold them: the names of the callee, then either
arguments in parentheses or a single table or string.
-/

namespace LuaScope

/-- A call or method call of a tree. -/
structure CallNode where
  callee : Expr
  method : Option Ident
  arguments : List Expr

/-- Names with dots between them. -/
def dotted : List Ident → List Char
  | [] => []
  | name :: rest => name.name.toList ++ rest.flatMap fun next => '.' :: next.name.toList

namespace CallNode

/-- The names of the callee, if it is a plain path. -/
def path? (call : CallNode) : Option (List Ident) :=
  call.callee.path?.map (· ++ call.method.toList)

/-- The callee written without blanks. -/
def spelling (call : CallNode) : List Char :=
  dotted (call.callee.path?.getD []) ++ call.method.elim [] fun name => ':' :: name.name.toList

end CallNode

theorem mem_dotted {names : List Ident} {c : Char} (h : c ∈ dotted names) :
    c = '.' ∨ ∃ name ∈ names, c ∈ name.name.toList := by
  cases names with
  | nil => cases h
  | cons name rest =>
    rcases List.mem_append.mp h with h | h
    · exact .inr ⟨name, List.mem_cons_self, h⟩
    · obtain ⟨next, hnext, h⟩ := List.mem_flatMap.mp h
      exact (List.mem_cons.mp h).imp_right fun h => ⟨next, List.mem_cons_of_mem _ hnext, h⟩

/-- A written callee holds its names, dots and colons. -/
theorem CallNode.mem_spelling {call : CallNode} {path : List Ident} (hpath : call.path? = some path)
    {c : Char} (h : c ∈ call.spelling) :
    isSeparator c = true ∨ ∃ name ∈ path, c ∈ name.name.toList := by
  obtain ⟨names, hnames, rfl⟩ := Option.map_eq_some_iff.mp hpath
  rw [spelling, hnames, Option.getD_some] at h
  rcases List.mem_append.mp h with h | h
  · rcases mem_dotted h with rfl | ⟨name, hname, h⟩
    · exact .inl rfl
    · exact .inr ⟨name, List.mem_append_left _ hname, h⟩
  · cases hmethod : call.method with
    | none =>
      rw [hmethod] at h
      cases h
    | some method =>
      rw [hmethod] at h
      rcases List.mem_cons.mp h with rfl | h
      · exact .inl rfl
      · exact .inr ⟨method, by simp, h⟩

/-! ## Calls of a tree -/

mutual

def Expr.calls : Expr → List CallNode
  | .nil | .boolean | .number | .literal _ | .vararg | .name _ | .global => []
  | .field base _ => base.calls
  | .subscript base key => base.calls ++ key.calls
  | .call callee method arguments =>
    ⟨callee, method, arguments⟩ :: (callee.calls ++ Expr.callsOf arguments)
  | .paren inner => inner.calls
  | .table fields => Field.callsOf fields
  | .function body => body.calls
  | .binary _ _ left right => left.calls ++ right.calls
  | .unary _ _ operand => operand.calls

def Expr.callsOf : List Expr → List CallNode
  | [] => []
  | e :: rest => e.calls ++ Expr.callsOf rest

def Field.callsOf : List Field → List CallNode
  | [] => []
  | .positional value :: rest => value.calls ++ Field.callsOf rest
  | .named _ _ _ value :: rest => value.calls ++ Field.callsOf rest
  | .unnamed value :: rest => value.calls ++ Field.callsOf rest
  | .computed key value :: rest => key.calls ++ (value.calls ++ Field.callsOf rest)

def FunctionBody.calls : FunctionBody → List CallNode
  | .mk _ block _ => Block.calls? block

def Block.calls? : Option Block → List CallNode
  | none => []
  | some (.mk _ statements) => Statement.callsOf statements

def Statement.callsOf : List Statement → List CallNode
  | [] => []
  | .mk _ _ node :: rest => node.calls ++ Statement.callsOf rest

def StatementNode.calls : StatementNode → List CallNode
  | .empty | .label | .goto | .break | .implicitGlobals _ => []
  | .assign targets values => Expr.callsOf targets ++ Expr.callsOf values
  | .call call => call.calls
  | .do body => Block.calls? body
  | .while condition body => condition.calls ++ Block.calls? body
  | .repeat body condition => Block.calls? body ++ condition.calls
  | .if condition body rest none => condition.calls ++ (Block.calls? body ++ ElseIf.callsOf rest)
  | .if condition body rest (some block) =>
    condition.calls ++ (Block.calls? body ++ (ElseIf.callsOf rest ++ Block.calls? block))
  | .numericFor _ start limit none body => start.calls ++ (limit.calls ++ Block.calls? body)
  | .numericFor _ start limit (some step) body =>
    start.calls ++ (limit.calls ++ (step.calls ++ Block.calls? body))
  | .genericFor _ values body => Expr.callsOf values ++ Block.calls? body
  | .function _ _ body => body.calls
  | .declare _ _ _ none => []
  | .declare _ _ _ (some values) => Expr.callsOf values
  | .return none => []
  | .return (some values) => Expr.callsOf values

def ElseIf.callsOf : List ElseIf → List CallNode
  | [] => []
  | .mk condition body :: rest => condition.calls ++ (Block.calls? body ++ ElseIf.callsOf rest)

end

def Chunk.calls (chunk : Chunk) : List CallNode := Statement.callsOf chunk.statements

/-! ## Arguments in parentheses -/

/-- The tokens are read as the expression, in front of those behind them. -/
def Reads (tokens behind : List Lexeme) (e : Expr) : Prop :=
  ∃ fuel stop stop', Reader.expr fuel 0 ⟨tokens ++ behind, stop⟩ = some (e, ⟨behind, stop'⟩)

structure Argument where
  tokens : List Lexeme
  /-- From the parenthesis or comma in front of the argument to the one behind it. -/
  extent : Span

/-- The tokens are those of arguments with commas between them and a closing parenthesis behind
them; what stands in front of the arguments ends at `start`. -/
inductive Separated : Nat → List Lexeme → List Argument → List Expr → Prop
  | last {start : Nat} {tokens behind : List Lexeme} {closing : Lexeme} {e : Expr}
    (hreads : Reads tokens (closing :: behind) e) (hclosing : closing.token = .mark .rightParen) :
    Separated start (tokens ++ closing :: behind) [⟨tokens, ⟨start, closing.span.start⟩⟩] [e]
  | more {start : Nat} {tokens behind : List Lexeme} {comma : Lexeme} {e : Expr}
    {arguments : List Argument} {es : List Expr} (hreads : Reads tokens (comma :: behind) e)
    (hcomma : comma.token = .mark .comma) (hrest : Separated comma.span.stop behind arguments es) :
    Separated start (tokens ++ comma :: behind) (⟨tokens, ⟨start, comma.span.start⟩⟩ :: arguments)
      (e :: es)

/-- The tokens start with the arguments of a call: with parentheses around them, or with a table or
string that is the only one. -/
inductive Argued : List Lexeme → List Expr → Prop
  | none {opening closing : Lexeme} {behind : List Lexeme}
    (hopening : opening.token = .mark .leftParen) (hclosing : closing.token = .mark .rightParen) :
    Argued (opening :: closing :: behind) []
  | separated {opening : Lexeme} {behind : List Lexeme} {arguments : List Argument} {es : List Expr}
    (hopening : opening.token = .mark .leftParen)
    (hseparated : Separated opening.span.stop behind arguments es) : Argued (opening :: behind) es
  | bare {l : Lexeme} {behind : List Lexeme} {es : List Expr}
    (hbare : l.token = .mark .leftBrace ∨ ∃ content, l.token = .literal content) :
    Argued (l :: behind) es

/-- The tokens hold the call: its arguments stand behind the names of its callee, if that is a
path. -/
def Laid (ls : List Lexeme) (call : CallNode) : Prop :=
  ∀ path, call.path? = some path → ∃ used behind, Spells used path ∧ used ++ behind <:+ ls ∧
    Argued behind call.arguments

def AllLaid (ls : List Lexeme) (calls : List CallNode) : Prop := ∀ call ∈ calls, Laid ls call

theorem allLaid_nil {ls : List Lexeme} : AllLaid ls [] := nofun

theorem allLaid_cons {ls : List Lexeme} {call : CallNode} {calls : List CallNode} :
    AllLaid ls (call :: calls) ↔ Laid ls call ∧ AllLaid ls calls := List.forall_mem_cons

theorem allLaid_append {ls : List Lexeme} {a b : List CallNode} :
    AllLaid ls (a ++ b) ↔ AllLaid ls a ∧ AllLaid ls b := List.forall_mem_append

end LuaScope

import LuaScope.Proofs.Syntax.Order
import LuaScope.Syntax.Dialect

/-!
# LuaScope.Proofs.Scoping.Lexical

Lua's rules of scope, read off a syntax tree alone: which names each scope declares, what is
declared in front of each use of a name, and which declaration the use is bound to.

* `Chunk.uses`  — all uses of names in a chunk, each with the scopes around it.
* `Use.binding` — the local that the rules of Lua bind a use to.
* `Use.link`    — the declaration that a use is linked to when names that are never declared may
  still be linked to what an enclosing scope declares later.
-/

namespace LuaScope

/-! ## Declarations and scopes -/

inductive DeclKind where
  /-- A `local`, a parameter, an implied `self` or a loop variable. -/
  | local
  /-- A name that `global` declares. -/
  | global
  /-- The name of a `global function`. -/
  | globalFunction
  /-- The name of a `function`, which assigns to it. -/
  | function
  /-- A name on the left of an assignment. -/
  | assigned
deriving DecidableEq

/-- The assigning kinds do not change what a name is bound to. -/
def DeclKind.isBinding : DeclKind → Bool
  | .local | .global | .globalFunction => true
  | .function | .assigned => false

def FunctionReach.declKind : FunctionReach → DeclKind
  | .local => .local
  | .global => .globalFunction
  | .named => .function

def NameReach.declKind : NameReach → DeclKind
  | .local => .local
  | .global => .global

structure Decl where
  ident : Ident
  kind : DeclKind
deriving DecidableEq

/-- One scope, seen from a place inside it. -/
structure View where
  /-- What was declared in front of the place, the last one first. -/
  declared : List Decl
  /-- Everything the scope declares, in the order of the text. -/
  all : List Decl

/-- The scopes around a place, from the inside out. -/
abbrev Env := List View

/-- Declare names in the innermost scope. -/
def Env.declare (decls : List Decl) : Env → Env
  | [] => []
  | v :: outer => ⟨decls.reverse ++ v.declared, v.all⟩ :: outer

/-- Names that the target of an assignment declares, if nothing else did. -/
def Expr.assigns : Expr → List Decl
  | .name ident => [⟨ident, .assigned⟩]
  | _ => []

/-- What a statement declares in the scope it stands in, once it was passed. -/
def StatementNode.declares : StatementNode → List Decl
  | .declare reach _ names _ => names.map (⟨·.ident, reach.declKind⟩)
  | .function reach ⟨head, [], none⟩ _ => [⟨head, reach.declKind⟩]
  | .assign targets _ => targets.flatMap Expr.assigns
  | _ => []

def Statement.node : Statement → StatementNode
  | .mk _ _ node => node

def Statement.declaresOf (statements : List Statement) : List Decl :=
  statements.flatMap (·.node.declares)

/-- The implied `self` of a method. -/
def Parameters.receiver (p : Parameters) : Decl :=
  ⟨⟨"self", ⟨p.span.start, p.span.start⟩⟩, .local⟩

def Parameter.declares : Parameter → List Decl
  | .name ident => [⟨ident, .local⟩]
  | .vararg => []

def Parameters.declares (p : Parameters) (isMethod : Bool) : List Decl :=
  (if isMethod then [p.receiver] else []) ++ p.entries.flatMap Parameter.declares

/-- Open a scope for a block, which declares these names first. -/
def Env.enter (first : List Decl) (block : Option Block) (env : Env) : Env :=
  ⟨first.reverse, first ++ Statement.declaresOf (blockStatements block)⟩ :: env

/-! ## Uses -/

/-- An occurrence of a name that declares nothing by itself. -/
structure Use where
  ident : Ident
  /-- A name that stands alone or first in a path; the names behind it are those of members. -/
  isVariable : Bool
  env : Env

/-- A path is a use of its first name as a variable and of the others as members. -/
def pathUses (env : Env) : List Ident → List Use
  | [] => []
  | first :: rest => ⟨first, true, env⟩ :: rest.map (⟨·, false, env⟩)

/-- The name of a declared function is a use too, unless it is a local. -/
def FunctionName.uses (name : FunctionName) (reach : FunctionReach) (env : Env) : List Use :=
  match name, reach with
  | ⟨_, [], none⟩, .local => []
  | name, _ => pathUses env name.path

mutual

def Expr.uses : Expr → Env → List Use
  | .nil, _ | .boolean, _ | .number, _ | .literal _, _ | .vararg, _ | .global, _ => []
  | .name ident, env => [⟨ident, true, env⟩]
  | .field base key, env => base.uses env ++ [⟨key, false, env⟩]
  | .subscript base key, env => base.uses env ++ key.uses env
  | .call callee method arguments, env =>
    callee.uses env ++ (method.toList.map (⟨·, false, env⟩) ++ Expr.usesOf arguments env)
  | .paren inner, env => inner.uses env
  | .table fields, env => Field.usesOf fields env
  | .function body, env => body.uses false env
  | .binary _ _ left right, env => left.uses env ++ right.uses env
  | .unary _ _ operand, env => operand.uses env

def Expr.usesOf : List Expr → Env → List Use
  | [], _ => []
  | e :: rest, env => e.uses env ++ Expr.usesOf rest env

def Field.usesOf : List Field → Env → List Use
  | [], _ => []
  | .positional value :: rest, env => value.uses env ++ Field.usesOf rest env
  | .named _ _ _ value :: rest, env => value.uses env ++ Field.usesOf rest env
  | .unnamed value :: rest, env => value.uses env ++ Field.usesOf rest env
  | .computed key value :: rest, env => key.uses env ++ (value.uses env ++ Field.usesOf rest env)

/-- Parameters are declared in the scope of the body. -/
def FunctionBody.uses : FunctionBody → Bool → Env → List Use
  | .mk parameters block _, isMethod, env =>
    Block.uses? block (env.enter (parameters.declares isMethod) block)

/-- Uses in a block whose scope is open already. -/
def Block.uses? : Option Block → Env → List Use
  | none, _ => []
  | some (.mk _ statements), env => Statement.usesOf statements env

/-- What a statement declares is seen from the statements behind it. -/
def Statement.usesOf : List Statement → Env → List Use
  | [], _ => []
  | .mk _ _ node :: rest, env =>
    node.uses env ++ Statement.usesOf rest (env.declare node.declares)

def StatementNode.uses : StatementNode → Env → List Use
  | .empty, _ | .label, _ | .goto, _ | .break, _ => []
  | .assign targets values, env => Expr.targetUses targets env ++ Expr.usesOf values env
  | .call call, env => call.uses env
  | .do body, env => Block.uses? body (env.enter [] body)
  | .while condition body, env => condition.uses env ++ Block.uses? body (env.enter [] body)
  -- The condition of a `repeat` sees what its block declares.
  | .repeat body condition, env =>
    Block.uses? body (env.enter [] body) ++
      condition.uses ((env.enter [] body).declare (Statement.declaresOf (blockStatements body)))
  | .if condition body rest none, env =>
    condition.uses env ++ (Block.uses? body (env.enter [] body) ++ ElseIf.usesOf rest env)
  | .if condition body rest (some block), env =>
    condition.uses env ++ (Block.uses? body (env.enter [] body) ++
      (ElseIf.usesOf rest env ++ Block.uses? block (env.enter [] block)))
  | .numericFor counter start limit none body, env =>
    start.uses env ++ (limit.uses env ++ Block.uses? body (env.enter [⟨counter, .local⟩] body))
  | .numericFor counter start limit (some step) body, env =>
    start.uses env ++ (limit.uses env ++ (step.uses env ++
      Block.uses? body (env.enter [⟨counter, .local⟩] body)))
  | .genericFor names values body, env =>
    Expr.usesOf values env ++ Block.uses? body (env.enter (names.map (⟨·, .local⟩)) body)
  -- A function is declared in front of its body.
  | .function reach name body, env =>
    let env' := env.declare (StatementNode.declares (.function reach name body))
    name.uses reach env' ++ body.uses name.method.isSome env'
  | .declare _ _ _ none, _ => []
  | .declare _ _ _ (some values), env => Expr.usesOf values env
  | .implicitGlobals none, _ => []
  | .implicitGlobals (some (name, _)), env => [⟨name, false, env⟩]
  | .return none, _ => []
  | .return (some values), env => Expr.usesOf values env

/-- Targets of an assignment; what one declares is seen from those behind it. -/
def Expr.targetUses : List Expr → Env → List Use
  | [], _ => []
  | target :: rest, env => target.uses env ++ Expr.targetUses rest (env.declare target.assigns)

def ElseIf.usesOf : List ElseIf → Env → List Use
  | [], _ => []
  | .mk condition body :: rest, env =>
    condition.uses env ++ (Block.uses? body (env.enter [] body) ++ ElseIf.usesOf rest env)

end

/-- The scope of a chunk, where it starts. -/
def Chunk.env (chunk : Chunk) : Env := [⟨[], Statement.declaresOf chunk.statements⟩]

def Chunk.uses (chunk : Chunk) : List Use := Statement.usesOf chunk.statements chunk.env

/-! ## Nesting -/

mutual

/-- Levels of the tree below an expression. -/
def Expr.height : Expr → Nat
  | .nil | .boolean | .number | .literal _ | .vararg | .global | .name _ => 0
  | .field base _ => base.height + 1
  | .subscript base key => max (base.height + 1) (key.height + 1)
  | .call callee none arguments => max (callee.height + 1) (Expr.heightOf arguments)
  | .call callee (some _) arguments => max (callee.height + 2) (Expr.heightOf arguments)
  | .paren inner => inner.height + 1
  | .table fields => Field.heightOf fields
  | .function body => body.height
  | .binary _ _ left right => max (left.height + 1) (right.height + 1)
  | .unary _ _ operand => operand.height + 1

def Expr.heightOf : List Expr → Nat
  | [] => 0
  | e :: rest => max (e.height + 1) (Expr.heightOf rest)

def Field.heightOf : List Field → Nat
  | [] => 0
  | .positional value :: rest => max (value.height + 1) (Field.heightOf rest)
  | .named _ _ _ value :: rest => max (value.height + 1) (Field.heightOf rest)
  | .unnamed value :: rest => max (value.height + 1) (Field.heightOf rest)
  | .computed key value :: rest =>
    max (key.height + 1) (max (value.height + 1) (Field.heightOf rest))

def FunctionBody.height : FunctionBody → Nat
  | .mk _ block _ => Block.height? block

/-- A block is a level of its own. -/
def Block.height? : Option Block → Nat
  | none => 0
  | some (.mk _ statements) => Statement.heightOf statements + 1

def Statement.heightOf : List Statement → Nat
  | [] => 0
  | .mk _ _ node :: rest => max (node.height + 1) (Statement.heightOf rest)

def StatementNode.height : StatementNode → Nat
  | .empty | .label | .goto | .break => 0
  | .assign targets values => max (Expr.heightOf targets) (Expr.heightOf values)
  | .call call => call.height + 1
  | .do body => Block.height? body
  | .while condition body => max (condition.height + 1) (Block.height? body)
  | .repeat body condition => max (Block.height? body) (condition.height + 1)
  | .if condition body rest none =>
    max (condition.height + 1) (max (Block.height? body) (ElseIf.heightOf rest))
  | .if condition body rest (some block) =>
    max (condition.height + 1)
      (max (Block.height? body) (max (ElseIf.heightOf rest) (Block.height? block)))
  | .numericFor _ start limit none body =>
    max (start.height + 1) (max (limit.height + 1) (Block.height? body))
  | .numericFor _ start limit (some step) body =>
    max (start.height + 1)
      (max (limit.height + 1) (max (step.height + 1) (Block.height? body)))
  | .genericFor _ values body => max (Expr.heightOf values) (Block.height? body)
  | .function _ _ body => body.height
  | .declare _ _ _ none => 0
  | .declare _ _ _ (some values) => Expr.heightOf values
  | .implicitGlobals none => 0
  | .implicitGlobals (some _) => 2
  | .return none => 0
  | .return (some values) => Expr.heightOf values

def ElseIf.heightOf : List ElseIf → Nat
  | [] => 0
  | .mk condition body :: rest =>
    max (condition.height + 1) (max (Block.height? body) (ElseIf.heightOf rest))

end

/-- Levels of a whole chunk. -/
def Chunk.nesting (chunk : Chunk) : Nat := Statement.heightOf chunk.statements

/-! ## What a use is bound to -/

/-- Does the declaration bind this name? -/
def Decl.binds (name : String) (d : Decl) : Bool := d.kind.isBinding && d.ident.name == name

/-- The innermost declaration in front of a place that binds the name. -/
def Env.binding? (env : Env) (name : String) : Option Decl :=
  (env.flatMap View.declared).find? (·.binds name)

/-- The local that a use is bound to; a use of a global has none. -/
def Use.binding (u : Use) : Option Decl :=
  (u.env.binding? u.ident.name).filter (·.kind = .local)

/-! ## What a use is linked to -/

/-- A declaration that took effect. Names that `global` declares count as locals here. -/
structure Entry where
  name : String
  span : Span
  isLocal : Bool
deriving DecidableEq

/-- Entries of one scope, the last one first. -/
abbrev Level := List Entry

def Decl.entry (d : Decl) : Entry :=
  ⟨d.ident.name, d.ident.span, d.kind = .local || d.kind = .global⟩

/-- An assignment takes effect for a name without an entry, where it is free to define one; the
declaration of a function does so everywhere. -/
def Decl.takesEffect (free : Bool) (known : List Entry) (d : Decl) : Bool :=
  match d.kind with
  | .local | .global => true
  | .globalFunction | .function => !known.any (·.name == d.ident.name)
  | .assigned => free && !known.any (·.name == d.ident.name)

def Level.add (free : Bool) (outer : List Entry) (d : Decl) (level : Level) : Level :=
  if d.takesEffect free (level ++ outer) then d.entry :: level else level

/-- The entries that declarations make, the last one first in both lists. -/
def Level.ofDecls (free : Bool) (outer : List Entry) (decls : List Decl) : Level :=
  decls.foldr (Level.add free outer) []

namespace Env

/-- The entries made in front of a place. Assignments define names in the outermost scope, and in
the others if that is allowed. -/
def levels (allow : Bool) : Env → List Level
  | [] => []
  | v :: outer =>
    Level.ofDecls (allow || outer.isEmpty) (levels allow outer).flatten v.declared ::
      levels allow outer

/-- The entries of the same scopes when each of them is complete. -/
def finalLevels (allow : Bool) : Env → List Level
  | [] => []
  | v :: outer =>
    Level.ofDecls (allow || outer.isEmpty) (levels allow outer).flatten v.all.reverse ::
      finalLevels allow outer

end Env

/-- The last entry for a name that starts at or before an offset. -/
def Level.upTo (name : String) (offset : Nat) (level : Level) : Option Entry :=
  ((level.reverse.filter (·.name == name)).takeWhile (·.span.start ≤ offset)).getLast?

/-- A look into complete scopes: each of them answers with its last entry up to the offset, or else
with its first one; the outermost scope answers with its first global instead. -/
def lookBack (name : String) (offset : Nat) : List Level → Option Entry
  | [] => none
  | [root] =>
    (root.upTo name offset).or (root.reverse.find? (fun e => e.name == name && !e.isLocal))
  | level :: outer =>
    ((level.upTo name offset).or (level.reverse.find? (·.name == name))).or
      (lookBack name offset outer)

/-- The name without the blanks that Lua takes for a part of it. -/
def withoutBlanks (name : String) : String :=
  String.ofList (name.toList.filter (fun c => !isBlank c))

/-- The entry in front of a use, or else what a look back from the end of the text finds under its
name without blanks. -/
def Use.link (allow : Bool) (u : Use) : Option Entry :=
  match (u.env.levels allow).flatten.find? (·.name == u.ident.name) with
  | some e => some e
  | none =>
    let name := withoutBlanks u.ident.name
    if name = "" then none else lookBack name u.ident.span.start (u.env.finalLevels allow)

/-- The local that a use of a global is linked to all the same. -/
def Use.capturedBy (allow : Bool) (u : Use) : Option Entry :=
  if u.binding = none then (u.link allow).filter (·.isLocal) else none

theorem Use.capturedBy_eq_some {allow : Bool} {u : Use} {e : Entry} :
    u.capturedBy allow = some e ↔
      u.binding = none ∧ u.link allow = some e ∧ e.isLocal = true := by
  unfold capturedBy
  split
  · rename_i hglobal
    rw [Option.filter_eq_some_iff]
    exact ⟨fun h => ⟨hglobal, h⟩, And.right⟩
  · rename_i hlocal
    exact ⟨nofun, fun h => absurd h.1 hlocal⟩

/-! ## A bound use is linked to its local -/

namespace Level

variable {free : Bool} {outer : List Entry} {name : String}

/-- What does not bind a name leaves alone what the name leads to. -/
theorem find?_add {level : Level} {d : Decl} {e : Entry}
    (hfind : (level ++ outer).find? (·.name == name) = some e) (hd : d.binds name = false) :
    (level.add free outer d ++ outer).find? (·.name == name) = some e := by
  unfold add
  split
  · rename_i heffect
    cases hname : d.ident.name == name with
    | false =>
      rw [List.cons_append, List.find?_cons_of_neg (by simpa [Decl.entry] using hname)]
      exact hfind
    | true =>
      -- Only a name that is not known yet is assigned to, and this one is.
      have hknown : (level ++ outer).any (·.name == d.ident.name) = true := by
        have he := List.find?_some hfind
        rw [beq_iff_eq.mp hname, List.any_eq_true]
        exact ⟨e, List.mem_of_find?_eq_some hfind, he⟩
      have hkind : d.kind.isBinding = false := by simpa [Decl.binds, hname] using hd
      unfold Decl.takesEffect at heffect
      rw [hknown] at heffect
      split at heffect <;> simp_all [DeclKind.isBinding]
  · exact hfind

theorem find?_ofDecls {e : Entry} (hfind : outer.find? (·.name == name) = some e) :
    ∀ decls : List Decl, decls.find? (·.binds name) = none →
      (ofDecls free outer decls ++ outer).find? (·.name == name) = some e
  | [], _ => hfind
  | d :: rest, hnone => by
    rw [List.find?_cons] at hnone
    split at hnone
    · cases hnone
    · rename_i hd
      exact find?_add (find?_ofDecls hfind rest hnone) hd

theorem find?_of_binding {d : Decl} (hlocal : d.kind = .local) :
    ∀ decls : List Decl, decls.find? (·.binds name) = some d →
      (ofDecls free outer decls ++ outer).find? (·.name == name) = some d.entry
  | first :: rest, hfind => by
    rw [List.find?_cons] at hfind
    split at hfind
    · rename_i hbinds
      cases hfind
      have heffect : ∀ known, d.takesEffect free known = true := by
        intro known
        simp [Decl.takesEffect, hlocal]
      have hname : d.ident.name == name := by
        simpa [Decl.binds, hlocal, DeclKind.isBinding] using hbinds
      simp only [ofDecls, List.foldr_cons, add, heffect, if_true, List.cons_append]
      exact List.find?_cons_of_pos hname
    · rename_i hd
      exact find?_add (find?_of_binding hlocal rest hfind) hd

end Level

/-- By induction on the scopes: the entries of those inside the one that binds the name were made
when the name was known. -/
theorem Env.find?_levels {allow : Bool} {name : String} {d : Decl} (hlocal : d.kind = .local) :
    ∀ env : Env, env.binding? name = some d →
      (env.levels allow).flatten.find? (·.name == name) = some d.entry
  | v :: outer, hbinding => by
    unfold Env.binding? at hbinding
    rw [List.flatMap_cons, List.find?_append] at hbinding
    rw [Env.levels, List.flatten_cons]
    cases hfind : v.declared.find? (·.binds name) with
    | some d' =>
      rw [hfind] at hbinding
      cases hbinding
      exact Level.find?_of_binding hlocal _ hfind
    | none =>
      rw [hfind] at hbinding
      exact Level.find?_ofDecls (Env.find?_levels hlocal outer hbinding) _ hfind

/-- A use that is bound to a local is linked to it. -/
theorem Use.find?_levels_of_binding {u : Use} {d : Decl} (h : u.binding = some d) (allow : Bool) :
    (u.env.levels allow).flatten.find? (·.name == u.ident.name) = some d.entry ∧
      d.entry.isLocal = true := by
  obtain ⟨hbinding, hlocal⟩ := Option.filter_eq_some_iff.mp h
  have hlocal : d.kind = .local := by simpa using hlocal
  exact ⟨Env.find?_levels hlocal _ hbinding, by simp [Decl.entry, hlocal]⟩

end LuaScope

import LuaScope.Index.Member
import LuaScope.Syntax.Tree

/-!
# LuaScope.Binding.State

The state of a walk that binds names, and its single steps: recording a reference, walking a
dotted path, declaring a name, adding a member, refining a type. Each step is a function of the
state alone.
-/

namespace LuaScope

/-- Value of an expression: its type, and the symbol it names if it is a plain path. -/
structure Inferred where
  ty : Ty := .unknown
  «alias» : Option Link := none

instance : Inhabited Inferred := ⟨{}⟩

/-- A source of the indices of required modules, with a state `σ` of its own. -/
abbrev Loader (σ : Type) := String → σ → Option Index × σ

def Loader.none : Loader Unit := fun _ s => (Option.none, s)

/-- What a walk is given and never changes. -/
structure Setting (σ : Type) where
  source : Source
  document : DocumentId
  /-- An assignment to an undeclared name inside a nested scope defines it. -/
  allowDefined : Bool
  loader : Loader σ

structure Binder (σ : Type) where
  table : SymbolTable
  references : Array Reference
  scope : ScopeId
  /-- For each function around this place, innermost first and the chunk last, its first useful
  `return`. -/
  returns : List (Option Inferred)
  world : σ

namespace Setting

variable {σ : Type}

def text (s : Setting σ) (span : Span) : List Char := s.source.slice span

def range (s : Setting σ) (span : Span) : Range := s.source.range span

/-- Source from the first segment to the segment `last`, blanks left out. -/
def pathText (s : Setting σ) (first last : Ident) : String :=
  String.ofList ((s.text ⟨first.span.start, last.span.stop⟩).filter (fun c => !isBlank c))

end Setting

namespace Binder

variable {σ : Type}

def start (source : Source) (world : σ) : Binder σ :=
  { table := .new source.size, references := #[], scope := SymbolTableOver.rootId,
    returns := [none], world := world }

def home (b : Binder σ) : Home := .here b.table

/-! ## Scopes and frames -/

/-- Open a scope inside the current one and go there. -/
def enterScope (b : Binder σ) (kind : ScopeKind) (span : Span) : Binder σ :=
  { b with table := b.table.addScope b.scope kind span, scope := b.table.nextScopeId }

def backTo (b : Binder σ) (scope : ScopeId) : Binder σ := { b with scope := scope }

def pushFrame (b : Binder σ) : Binder σ := { b with returns := none :: b.returns }

/-- Leave a function and answer its return type. -/
def popFrame (b : Binder σ) : Ty × Binder σ :=
  match b.returns with
  | [] => (.unknown, b)
  | frame :: rest =>
    let ty := match frame with
      | some value => value.ty
      | none => .unknown
    (ty, { b with returns := rest })

/-- Note the first value of a `return`, unless an earlier one already gave a type. -/
def noteReturn (b : Binder σ) (value : Inferred) : Binder σ :=
  match b.returns with
  | [] => b
  | frame :: rest =>
    let settled := match frame with
      | some earlier => !earlier.ty.isUnknown
      | none => false
    if settled then b else { b with returns := some value :: rest }

/-! ## References -/

/-- The symbols that the segments of a path lead to, on what is known so far. -/
def walkFrom (at? : Option Located) : List Ident → List (Option Link)
  | [] => []
  | segment :: rest =>
    let next := at?.bind (·.extendedMember segment.name)
    next.map Located.toLink :: walkFrom next rest

def walkPath (b : Binder σ) : List Ident → List (Option Link)
  | [] => []
  | first :: rest =>
    let root := (b.table.lookup b.scope first.name first.span.start).map b.home.locate
    root.map Located.toLink :: walkFrom root rest

/-- Record a reference to the segment `last` of a path that starts with `first`. -/
def record (s : Setting σ) (first last : Ident) (target : Option Link) (b : Binder σ) : Binder σ :=
  let reference : Reference :=
    { text := s.pathText first last, range := s.range last.span, span := last.span,
      scope := b.scope, anchor := first.span.start, target := target }
  { b with references := b.references.push reference }

/-- Record one reference for each segment that has a link. -/
def recordAll (s : Setting σ) (first : Ident) :
    List Ident → List (Option Link) → Binder σ → Binder σ
  | segment :: segments, link :: links, b =>
    recordAll s first segments links (b.record s first segment link)
  | _, _, b => b

/-- A path in an expression: every segment is a reference, the last one is the value. -/
def inferPath (s : Setting σ) (path : List Ident) (b : Binder σ) : Inferred × Binder σ :=
  match path with
  | [] => ({}, b)
  | first :: _ =>
    let links := b.walkPath path
    let b := recordAll s first path links b
    match links.getLast? with
    | some (some link) => ({ ty := (b.home.follow link).valueType, «alias» := some link }, b)
    | _ => ({}, b)

/-! ## Symbols -/

/-- The symbol that a declaration of `name` in the current scope would add. -/
def newSymbol (s : Setting σ) (b : Binder σ) (name : Ident) (kind : SymbolKind) (statement : Span)
    (value : Inferred) (isLocal : Bool) (doc : Option String) : Symbol :=
  { id := b.table.nextSymbolId, name := name.name, kind := kind, document := s.document,
    range := s.range name.span, span := name.span, fullRange := s.range statement,
    scope := b.scope, container := none, isLocal := isLocal, ty := value.ty, «alias» := value.alias,
    doc := doc }

def declare (b : Binder σ) (symbol : Symbol) : Binder σ :=
  { b with table := b.table.declare symbol }

def addMember (b : Binder σ) (symbol : Symbol) : Binder σ :=
  { b with table := b.table.addMember symbol }

def modifySymbol (b : Binder σ) (id : SymbolId) (f : Symbol → Symbol) : Binder σ :=
  { b with table := b.table.modifySymbol id f }

def tyOf (b : Binder σ) (id : SymbolId) : Ty := (b.home.locate id).ty

/-- Give a member to this owner unless it has one. -/
def ownedBy (owner : SymbolId) (symbol : Symbol) : Symbol :=
  if symbol.container.isNone then { symbol with container := some owner } else symbol

/-- Let the members of a table that was just bound know their owner. -/
def adoptMembers (owner : SymbolId) (b : Binder σ) : Binder σ :=
  match b.tyOf owner with
  | .table t =>
    if t.isForeign then b
    else t.members.foldl (fun b member => b.modifySymbol member.2 (ownedBy owner)) b
  | _ => b

/-- Declare a symbol that may hold a table of its own. -/
def bind (symbol : Symbol) (b : Binder σ) : Binder σ :=
  (b.declare symbol).adoptMembers symbol.id

/-- The symbol with the type of a value, if it had none. -/
def refined (value : Inferred) (symbol : Symbol) : Symbol :=
  { symbol with
    kind := .ofTy value.ty symbol.kind
    ty := value.ty
    «alias» := if symbol.alias.isNone then value.alias else symbol.alias }

/-- Give an untyped symbol the type of a later assignment. -/
def refine (id : SymbolId) (value : Inferred) (b : Binder σ) : Binder σ :=
  if !(b.tyOf id).isUnknown || value.ty.isUnknown then b
  else (b.modifySymbol id (refined value)).adoptMembers id

/-- Turn a symbol that holds nothing else into a table. -/
def asTable (symbol : Symbol) : Symbol :=
  if symbol.ty.isVacant then { symbol with ty := .table {} } else symbol

def mapTable (f : Table → Table) (symbol : Symbol) : Symbol :=
  match symbol.ty with
  | .table t => { symbol with ty := .table (f t) }
  | _ => symbol

/-- The symbol of this document that holds the table behind a link and may be extended. -/
def ownTable? (b : Binder σ) (link : Link) : Option SymbolId :=
  let target := (b.home.follow link).resolveAlias
  if !target.isLocal then none
  else
    match b.tyOf target.id with
    | .table t => if t.isForeign then none else some target.id
    | .unknown | .nil => some target.id
    | _ => none

/-- Add a member to the table behind a link, if that table belongs to this document. -/
def insertMember (container : Link) (symbol : Symbol) (b : Binder σ) :
    Option (SymbolId × Binder σ) :=
  match b.ownTable? container with
  | none => none
  | some target =>
    let b := b.modifySymbol target asTable
    let b := b.addMember { symbol with container := some target }
    let b := b.modifySymbol target
      (mapTable (fun t => { t with members := t.members.insert symbol.name symbol.id }))
    some (symbol.id, b)

/-- Attach a prototype to the table behind a link, if that table belongs to this document. -/
def setPrototype (link : Link) (prototype : Prototype) (b : Binder σ) : Option (Binder σ) :=
  let target := (b.home.follow link).resolveAlias
  if !target.isLocal then none
  else
    let b := b.modifySymbol target.id asTable
    match b.tyOf target.id with
    | .table t =>
      if t.isForeign then none
      else
        some (b.modifySymbol target.id (mapTable (fun t => { t with prototype := some prototype })))
    | _ => none

/-! ## Definitions -/

/-- What a dotted definition reached: the member's symbol if it is one of this document, and the
table that was named in front of it. -/
structure Defined where
  symbol : Option SymbolId := none
  container : Option Link := none

/--
Handle `a.b.c = v` and `function a.b.c()`: the segments in front are references; the last one is a
reference too if the table has or inherits such a member, and a new member otherwise.
-/
def defineMember (s : Setting σ) (path : List Ident) (kind : SymbolKind) (statement : Span)
    (value : Inferred) (doc : Option String) (b : Binder σ) : Defined × Binder σ :=
  match path.head?, path.getLast? with
  | some first, some last =>
    let links := b.walkPath path
    let b := recordAll s first path links.dropLast b
    let container := links.dropLast.getLast?.join
    match links.getLast?.join with
    | some existing =>
      let b := b.record s first last (some existing)
      if existing.isLocal then
        ({ symbol := some existing.id, container := container }, b.refine existing.id value)
      else ({ container := container }, b)
    | none =>
      match container with
      | none => ({}, b.record s first last none)
      | some link =>
        match b.insertMember link (newSymbol s b last kind statement value false doc) with
        | some (id, b) => ({ symbol := some id, container := container }, b.adoptMembers id)
        | none => ({ container := container }, b.record s first last none)
  | _, _ => ({}, b)

/-- Handle `x = v`: a known name is a reference, an unknown one defines a global, if it may. -/
def assignName (s : Setting σ) (name : Ident) (statement : Span) (value : Inferred)
    (doc : Option String) (b : Binder σ) : Binder σ :=
  match b.table.lookup b.scope name.name name.span.start with
  | some id => (b.record s name name (some (.here id))).refine id value
  | none =>
    if b.scope = SymbolTableOver.rootId || s.allowDefined then
      b.bind (newSymbol s b name (.ofTy value.ty .variable) statement value false doc)
    else b.record s name name none

/-- Declare the names of a `local` statement, each with its value. -/
def declareLocals (s : Setting σ) (statement : Span) (doc : Option String) :
    List Ident → List Inferred → Binder σ → Binder σ
  | [], _, b => b
  | name :: names, values, b =>
    let value := values.headD {}
    let symbol := newSymbol s b name (.ofTy value.ty .variable) statement value true doc
    declareLocals s statement doc names values.tail (b.bind symbol)

def declareCounter (s : Setting σ) (statement : Span) (ty : Ty) (name : Ident) (b : Binder σ) :
    Binder σ :=
  b.declare (newSymbol s b name .variable statement { ty := ty } true none)

/-- Bind the name of a function declaration, before its body is walked. -/
def declareFunction (s : Setting σ) (reach : FunctionReach) (name : FunctionName)
    (statement : Span) (params : List String) (doc : Option String) (b : Binder σ) :
    Defined × Binder σ :=
  let isMethod := name.method.isSome
  let value : Inferred := { ty := .function params .unknown isMethod }
  if !name.fields.isEmpty || isMethod then
    let kind := if isMethod then SymbolKind.method else .function
    defineMember s name.path kind statement value doc b
  else
    let declared (isLocal : Bool) : Defined × Binder σ :=
      let symbol := newSymbol s b name.head .function statement value isLocal doc
      ({ symbol := some symbol.id }, b.declare symbol)
    if reach = .local then declared true
    else
      match b.table.lookup b.scope name.head.name name.head.span.start with
      | some id =>
        let b := b.record s name.head name.head (some (.here id))
        ({ symbol := some id }, b.modifySymbol id (fun symbol => { symbol with ty := value.ty }))
      | none => declared false

/-- A function type with this return type; other types stay. -/
def withReturns (returns : Ty) (symbol : Symbol) : Symbol :=
  match symbol.ty with
  | .function params _ isMethod => { symbol with ty := .function params returns isMethod }
  | _ => symbol

/-- Note the return type of a function whose body was walked. -/
def finishFunction (id? : Option SymbolId) (returns : Ty) (b : Binder σ) : Binder σ :=
  match id? with
  | some id => b.modifySymbol id (withReturns returns)
  | none => b

/-- Declare the implied `self` of a method; it stands for the table the method belongs to. -/
def declareSelf (s : Setting σ) (parameters : Span) (container : Option Link) (b : Binder σ) :
    Binder σ :=
  let ty := match container with
    | some link => (b.home.follow link).valueType
    | none => .unknown
  b.declare
    { id := b.table.nextSymbolId, name := "self", kind := .parameter, document := s.document,
      range := s.range parameters, span := ⟨parameters.start, parameters.start⟩,
      fullRange := s.range parameters, scope := b.scope, container := none, isLocal := true,
      ty := ty, «alias» := container, doc := none }

def declareParameters (s : Setting σ) (parameters : Span) :
    List Parameter → Binder σ → Binder σ
  | [], b => b
  | .vararg :: rest, b => declareParameters s parameters rest b
  | .name name :: rest, b =>
    declareParameters s parameters rest
      (b.declare (newSymbol s b name .parameter parameters {} true none))

/-! ## Calls -/

/-- Ask the loader for a module; one that exports no table counts as unknown. -/
def require (s : Setting σ) (name : String) (b : Binder σ) : Inferred × Binder σ :=
  let (index?, world) := s.loader name b.world
  let b := { b with world := world }
  match index? with
  | some index =>
    if index.exportsTable then ({ ty := .module name index }, b) else ({}, b)
  | none => ({}, b)

/-- The value of `setmetatable(target, metatable)`; a named target is changed in place. -/
def attachPrototype (target : Inferred) (prototype : Option Prototype) (b : Binder σ) :
    Inferred × Binder σ :=
  match prototype with
  | none => (target, b)
  | some prototype =>
    match target.alias.bind (fun link => (b.setPrototype link prototype).map (link, ·)) with
    | some (link, b) => ({ ty := (b.home.follow link).valueType, «alias» := some link }, b)
    | none =>
      match target.ty with
      | .table t =>
        if t.isForeign then ({ ty := target.ty }, b)
        else ({ ty := .table { t with prototype := some prototype } }, b)
      | .unknown | .nil => ({ ty := .table { prototype := some prototype } }, b)
      | other => ({ ty := other }, b)

def callResult (callee : Inferred) : Inferred :=
  match callee.ty with
  | .function _ returns _ => { ty := returns }
  | _ => {}

/-! ## The end of the walk -/

/-- A second chance for a reference to a global that is assigned later in the text. -/
def resolveLate (b : Binder σ) (r : Reference) : Reference :=
  if r.target.isSome then r
  else
    match splitPath r.text with
    | [] => r
    | root :: rest =>
      let start := (b.table.lookup r.scope root r.anchor).map b.home.locate
      let found := rest.foldl (fun at? name => at?.bind (·.extendedMember name)) start
      { r with target := found.map Located.toLink }

def resolvePending (b : Binder σ) : Binder σ :=
  { b with references := b.references.map b.resolveLate }

def exports (b : Binder σ) : Ty :=
  match b.returns.getLast?.join with
  | some { «alias» := some link, .. } => (b.home.follow link).valueType
  | some value => value.ty
  | none => .unknown

end Binder

end LuaScope

import LuaScope.Binding.Walk
import LuaScope.Proofs.Scoping.Place
import LuaScope.Proofs.Syntax.Passage
import Mathlib.Data.List.Pairwise

/-!
# LuaScope.Proofs.Naming.Mention

The mentions of names in a tree: each path of it, with what the path stands for in the program.

* `Chunk.mentions`     — all mentions in a chunk; every name of the tree is in one of them, once.
* `Chunk.mentions_written` — the path of a mention is spelled by consecutive tokens of the text.
-/

namespace LuaScope

/-- What a path stands for in the program. -/
inductive Standing where
  /-- A variable, and the members that are named behind it. -/
  | variable
  /-- The name of a member of what is no path, such as `x` in `f().x`. -/
  | key
  /-- Such a name on the left of an assignment. -/
  | assignedKey
  /-- The callee of a call that is read by a rule of its own. -/
  | builtin
  /-- A name that is made here: that of a local, a parameter or an entry of a table. -/
  | declared
  /-- The attribute of all globals that are not declared. -/
  | attribute
deriving DecidableEq

/-- References are recorded at such a path. -/
def Standing.isRecorded : Standing → Bool
  | .variable | .key | .attribute => true
  | .assignedKey | .builtin | .declared => false

/-- References are recorded or symbols are made at such a path. -/
def Standing.isNoted : Standing → Bool
  | .variable | .key | .attribute | .declared => true
  | .assignedKey | .builtin => false

structure Mention where
  path : List Ident
  standing : Standing

/-- The names that are made for declarations. -/
def declaredMentions (names : List Ident) : List Mention :=
  names.map fun name => ⟨[name], .declared⟩

/-- The name of a callee whose calls are read by a rule of their own: `setmetatable`, and `require`
of a literal. -/
def Expr.builtin? (arguments : List Expr) : Expr → Option Ident
  | .name ⟨"require", span⟩ =>
    if (literalArgument arguments).isSome then some ⟨"require", span⟩ else none
  | .name ⟨"setmetatable", span⟩ => some ⟨"setmetatable", span⟩
  | _ => none

/-- What is mentioned where `key` is named behind a base with these mentions. -/
def Expr.memberMentions (base : Expr) (front : List Mention) (key : Ident) (standing : Standing) :
    List Mention :=
  match base.path? with
  | some path => [⟨path ++ [key], .variable⟩]
  | none => front ++ [⟨[key], standing⟩]

/-! ## Mentions of a tree, in the order of the text -/

def Parameter.idents : Parameter → List Ident
  | .name ident => [ident]
  | .vararg => []

def Parameters.mentions (p : Parameters) : List Mention :=
  declaredMentions (p.entries.flatMap Parameter.idents)

/-- The name of a function that is no local may be one that is known. -/
def FunctionName.mention (reach : FunctionReach) (name : FunctionName) : Mention :=
  match reach, name with
  | .local, ⟨head, [], none⟩ => ⟨[head], .declared⟩
  | _, name => ⟨name.path, .variable⟩

mutual

def Expr.mentions : Expr → List Mention
  | .nil | .boolean | .number | .literal _ | .vararg | .global => []
  | .name ident => [⟨[ident], .variable⟩]
  | .field base key => base.memberMentions base.mentions key .key
  | .subscript base key => base.mentions ++ key.mentions
  | .call callee none arguments =>
    match callee.builtin? arguments with
    | some name => ⟨[name], .builtin⟩ :: Expr.mentionsOf arguments
    | none => callee.mentions ++ Expr.mentionsOf arguments
  | .call callee (some method) arguments =>
    callee.memberMentions callee.mentions method .key ++ Expr.mentionsOf arguments
  | .paren inner => inner.mentions
  | .table fields => Field.mentionsOf fields
  | .function body => body.mentions
  | .binary _ _ left right => left.mentions ++ right.mentions
  | .unary _ _ operand => operand.mentions

def Expr.mentionsOf : List Expr → List Mention
  | [] => []
  | e :: rest => e.mentions ++ Expr.mentionsOf rest

def Field.mentionsOf : List Field → List Mention
  | [] => []
  | .positional value :: rest => value.mentions ++ Field.mentionsOf rest
  | .named _ _ key value :: rest => ⟨[key], .declared⟩ :: (value.mentions ++ Field.mentionsOf rest)
  | .unnamed value :: rest => value.mentions ++ Field.mentionsOf rest
  | .computed key value :: rest => key.mentions ++ (value.mentions ++ Field.mentionsOf rest)

def FunctionBody.mentions : FunctionBody → List Mention
  | .mk parameters block _ => parameters.mentions ++ Block.mentions? block

def Block.mentions? : Option Block → List Mention
  | none => []
  | some (.mk _ statements) => Statement.mentionsOf statements

def Statement.mentionsOf : List Statement → List Mention
  | [] => []
  | .mk _ _ node :: rest => node.mentions ++ Statement.mentionsOf rest

def StatementNode.mentions : StatementNode → List Mention
  | .empty | .label | .goto | .break => []
  | .assign targets values => Expr.targetMentions targets ++ Expr.mentionsOf values
  | .call call => call.mentions
  | .do body => Block.mentions? body
  | .while condition body => condition.mentions ++ Block.mentions? body
  | .repeat body condition => Block.mentions? body ++ condition.mentions
  | .if condition body rest none =>
    condition.mentions ++ (Block.mentions? body ++ ElseIf.mentionsOf rest)
  | .if condition body rest (some block) =>
    condition.mentions ++
      (Block.mentions? body ++ (ElseIf.mentionsOf rest ++ Block.mentions? block))
  | .numericFor counter start limit none body =>
    declaredMentions [counter] ++ (start.mentions ++ (limit.mentions ++ Block.mentions? body))
  | .numericFor counter start limit (some step) body =>
    declaredMentions [counter] ++
      (start.mentions ++ (limit.mentions ++ (step.mentions ++ Block.mentions? body)))
  | .genericFor names values body =>
    declaredMentions names ++ (Expr.mentionsOf values ++ Block.mentions? body)
  | .function reach name body => name.mention reach :: body.mentions
  | .declare _ _ names none => declaredMentions (names.map AttributedName.ident)
  | .declare _ _ names (some values) =>
    declaredMentions (names.map AttributedName.ident) ++ Expr.mentionsOf values
  | .implicitGlobals none => []
  | .implicitGlobals (some (name, _)) => [⟨[name], .attribute⟩]
  | .return none => []
  | .return (some values) => Expr.mentionsOf values

def Expr.targetMentions : List Expr → List Mention
  | [] => []
  | .field base key :: rest =>
    base.memberMentions base.mentions key .assignedKey ++ Expr.targetMentions rest
  | target :: rest => target.mentions ++ Expr.targetMentions rest

def ElseIf.mentionsOf : List ElseIf → List Mention
  | [] => []
  | .mk condition body :: rest =>
    condition.mentions ++ (Block.mentions? body ++ ElseIf.mentionsOf rest)

end

def Chunk.mentions (chunk : Chunk) : List Mention := Statement.mentionsOf chunk.statements

/-- An argument that is nothing but a literal mentions no name. -/
theorem Expr.mentionsOf_of_literalArgument {arguments : List Expr} {name : String}
    (h : literalArgument arguments = some name) : Expr.mentionsOf arguments = [] := by
  have hnamed : ∀ es : List Expr,
      Expr.mentionsOf es = Expr.mentionsOf (es.filter Expr.isNamed) := by
    intro es
    induction es with
    | nil => rfl
    | cons e rest ih =>
      cases e with
      | global => exact ih
      | _ => simp only [Expr.mentionsOf, List.filter, Expr.isNamed, ih]
  rw [hnamed]
  unfold literalArgument at h
  split at h
  · rename_i hfilter
    rw [hfilter]
    rfl
  · cases h

/-! ## The names of a tree -/

def Site.ident? : Site → Option Ident
  | .name ident => some ident
  | .receiver _ => none

def Passage.path? : Passage → Option (List Ident)
  | .path idents => some idents
  | .receiver _ => none

/-- The mentions are those of a tree with these sites and passages. -/
structure Mention.Cover (mentions : List Mention) (sites : List Site) (passages : List Passage) :
    Prop where
  idents : mentions.flatMap Mention.path = sites.filterMap Site.ident?
  paths : mentions.map Mention.path = passages.filterMap Passage.path?

namespace Mention.Cover

variable {ms ms' : List Mention} {sites sites' : List Site} {passages passages' : List Passage}

theorem nil : Cover [] [] [] := ⟨rfl, rfl⟩

theorem append (h : Cover ms sites passages) (h' : Cover ms' sites' passages') :
    Cover (ms ++ ms') (sites ++ sites') (passages ++ passages') where
  idents := by rw [List.flatMap_append, List.filterMap_append, h.idents, h'.idents]
  paths := by rw [List.map_append, List.filterMap_append, h.paths, h'.paths]

theorem path (path : List Ident) (standing : Standing) :
    Cover [⟨path, standing⟩] (path.map .name) [.path path] where
  idents := by
    have hidents : Site.ident? ∘ Site.name = some := rfl
    rw [List.filterMap_map, hidents, List.filterMap_some, List.flatMap_singleton]
  paths := rfl

theorem declared (names : List Ident) :
    Cover (declaredMentions names) (names.map .name) (names.map fun name => .path [name]) := by
  induction names with
  | nil => exact .nil
  | cons name names ih => exact (path [name] .declared).append ih

theorem member {base : Expr} (h : Cover base.mentions base.sites base.passages) (key : Ident)
    (standing : Standing) : Cover (base.memberMentions base.mentions key standing)
      (Expr.field base key).sites (Expr.field base key).passages := by
  cases hpath : base.path? with
  | some path =>
    simp only [Expr.memberMentions, Expr.passages, hpath]
    rw [(Expr.uses_of_path? [] (Expr.path?_field hpath)).2]
    exact Cover.path (path ++ [key]) .variable
  | none =>
    simp only [Expr.memberMentions, Expr.passages, hpath]
    exact h.append (Cover.path [key] standing)

theorem attributed (names : List AttributedName) :
    Cover (declaredMentions (names.map AttributedName.ident)) (names.map (.name ·.ident))
      (names.map fun name => .path [name.ident]) := by
  have hdeclared := declared (names.map AttributedName.ident)
  rwa [List.map_map, List.map_map] at hdeclared

theorem parameters (p : Parameters) : Cover p.mentions p.sites p.passages := by
  have hentries : Cover (declaredMentions (p.entries.flatMap Parameter.idents))
      (p.entries.flatMap Parameter.sites) (p.entries.flatMap Parameter.passages) := by
    induction p.entries with
    | nil => exact .nil
    | cons entry entries ih =>
      cases entry with
      | name ident => exact (path [ident] .declared).append ih
      | vararg => exact ih
  exact ⟨hentries.idents, hentries.paths⟩

end Mention.Cover

theorem FunctionName.mention_path (reach : FunctionReach) (name : FunctionName) :
    (name.mention reach).path = name.path := by
  unfold mention
  split <;> rfl

theorem FunctionName.mention_isNoted (reach : FunctionReach) (name : FunctionName) :
    (name.mention reach).standing.isNoted = true := by
  unfold mention
  split <;> rfl

theorem Expr.eq_of_builtin? {arguments : List Expr} {callee : Expr} {name : Ident}
    (h : callee.builtin? arguments = some name) : callee = .name name := by
  unfold builtin? at h
  split at h
  · split at h <;> cases h
    rfl
  · cases h
    rfl
  · cases h

theorem Expr.builtin?_eq_none {arguments : List Expr} {callee : Expr}
    (hrequire : ∀ span name, callee = .name ⟨"require", span⟩ →
      literalArgument arguments = some name → False)
    (hsetmetatable : ∀ span, callee = .name ⟨"setmetatable", span⟩ → False) :
    callee.builtin? arguments = none := by
  unfold builtin?
  split
  · split
    · rename_i hliteral
      obtain ⟨name, hname⟩ := Option.isSome_iff_exists.mp hliteral
      exact (hrequire _ name rfl hname).elim
    · rfl
  · exact (hsetmetatable _ rfl).elim
  · rfl

/-- The method of a call is a member of the callee. -/
theorem Expr.sites_method (callee : Expr) (method : Ident) (arguments : List Expr) :
    (Expr.call callee (some method) arguments).sites =
      (Expr.field callee method).sites ++ Expr.sitesOf arguments := by
  simp only [Expr.sites, Option.toList, List.map_cons, List.map_nil, List.append_assoc]

theorem Expr.passages_method (callee : Expr) (method : Ident) (arguments : List Expr) :
    (Expr.call callee (some method) arguments).passages =
      (Expr.field callee method).passages ++ Expr.passagesOf arguments := by
  cases hpath : callee.path? with
  | some path => simp only [Expr.passages, hpath, List.singleton_append]
  | none => simp only [Expr.passages, hpath, List.append_assoc, List.singleton_append]

open Mention in
mutual

theorem Expr.mentions_cover : ∀ e : Expr, Cover e.mentions e.sites e.passages
  | .nil | .boolean | .number | .literal _ | .vararg | .global => .nil
  | .name ident => .path [ident] .variable
  | .field base key => base.mentions_cover.member key .key
  | .subscript base key => base.mentions_cover.append key.mentions_cover
  | .call callee none arguments => by
    cases hbuiltin : callee.builtin? arguments with
    | some name =>
      obtain rfl := Expr.eq_of_builtin? hbuiltin
      simp only [Expr.mentions, hbuiltin]
      exact (Cover.path [name] .builtin).append (Expr.mentionsOf_cover arguments)
    | none =>
      simp only [Expr.mentions, hbuiltin]
      exact callee.mentions_cover.append (Expr.mentionsOf_cover arguments)
  | .call callee (some method) arguments => by
    rw [Expr.sites_method, Expr.passages_method]
    exact (callee.mentions_cover.member method .key).append (Expr.mentionsOf_cover arguments)
  | .paren inner => inner.mentions_cover
  | .table fields => Field.mentionsOf_cover fields
  | .function body => body.mentions_cover
  | .binary _ _ left right => left.mentions_cover.append right.mentions_cover
  | .unary _ _ operand => operand.mentions_cover

theorem Expr.mentionsOf_cover : ∀ es : List Expr,
    Cover (Expr.mentionsOf es) (Expr.sitesOf es) (Expr.passagesOf es)
  | [] => .nil
  | e :: rest => e.mentions_cover.append (Expr.mentionsOf_cover rest)

theorem Field.mentionsOf_cover : ∀ fields : List Field,
    Cover (Field.mentionsOf fields) (Field.sitesOf fields) (Field.passagesOf fields)
  | [] => .nil
  | .positional value :: rest | .unnamed value :: rest =>
    value.mentions_cover.append (Field.mentionsOf_cover rest)
  | .named _ _ key value :: rest =>
    (Cover.path [key] .declared).append (value.mentions_cover.append (Field.mentionsOf_cover rest))
  | .computed key value :: rest =>
    key.mentions_cover.append (value.mentions_cover.append (Field.mentionsOf_cover rest))

theorem FunctionBody.mentions_cover : ∀ body : FunctionBody,
    Cover body.mentions body.sites body.passages
  | .mk parameters block _ => (Cover.parameters parameters).append (Block.mentions?_cover block)

theorem Block.mentions?_cover : ∀ block : Option Block,
    Cover (Block.mentions? block) (Block.sites? block) (Block.passages? block)
  | none => .nil
  | some (.mk _ statements) => Statement.mentionsOf_cover statements

theorem Statement.mentionsOf_cover : ∀ statements : List Statement,
    Cover (Statement.mentionsOf statements) (Statement.sitesOf statements)
      (Statement.passagesOf statements)
  | [] => .nil
  | .mk _ _ node :: rest => node.mentions_cover.append (Statement.mentionsOf_cover rest)

theorem StatementNode.mentions_cover : ∀ node : StatementNode,
    Cover node.mentions node.sites node.passages
  | .empty | .label | .goto | .break => .nil
  | .assign targets values =>
    (Expr.targetMentions_cover targets).append (Expr.mentionsOf_cover values)
  | .call call => call.mentions_cover
  | .do body => Block.mentions?_cover body
  | .while condition body => condition.mentions_cover.append (Block.mentions?_cover body)
  | .repeat body condition => (Block.mentions?_cover body).append condition.mentions_cover
  | .if condition body rest none =>
    condition.mentions_cover.append
      ((Block.mentions?_cover body).append (ElseIf.mentionsOf_cover rest))
  | .if condition body rest (some block) =>
    condition.mentions_cover.append ((Block.mentions?_cover body).append
      ((ElseIf.mentionsOf_cover rest).append (Block.mentions?_cover block)))
  | .numericFor counter start limit none body =>
    (Cover.declared [counter]).append (start.mentions_cover.append
      (limit.mentions_cover.append (Block.mentions?_cover body)))
  | .numericFor counter start limit (some step) body =>
    (Cover.declared [counter]).append (start.mentions_cover.append
      (limit.mentions_cover.append (step.mentions_cover.append (Block.mentions?_cover body))))
  | .genericFor names values body =>
    (Cover.declared names).append
      ((Expr.mentionsOf_cover values).append (Block.mentions?_cover body))
  | .function reach name body => by
    have hname : Cover [name.mention reach] (name.path.map .name) [.path name.path] := by
      rw [← name.mention_path reach]
      exact .path _ _
    exact hname.append body.mentions_cover
  | .declare _ _ names none => Cover.attributed names
  | .declare _ _ names (some values) =>
    (Cover.attributed names).append (Expr.mentionsOf_cover values)
  | .implicitGlobals none => .nil
  | .implicitGlobals (some (name, _)) => .path [name] .attribute
  | .return none => .nil
  | .return (some values) => Expr.mentionsOf_cover values

theorem Expr.targetMentions_cover : ∀ targets : List Expr,
    Cover (Expr.targetMentions targets) (Expr.sitesOf targets) (Expr.passagesOf targets)
  | [] => .nil
  | target :: rest => by
    have hother : Cover (target.mentions ++ Expr.targetMentions rest)
        (Expr.sitesOf (target :: rest)) (Expr.passagesOf (target :: rest)) :=
      target.mentions_cover.append (Expr.targetMentions_cover rest)
    cases target with
    | field base key =>
      exact (base.mentions_cover.member key .assignedKey).append (Expr.targetMentions_cover rest)
    | _ => exact hother

theorem ElseIf.mentionsOf_cover : ∀ rest : List ElseIf,
    Cover (ElseIf.mentionsOf rest) (ElseIf.sitesOf rest) (ElseIf.passagesOf rest)
  | [] => .nil
  | .mk condition body :: rest =>
    condition.mentions_cover.append
      ((Block.mentions?_cover body).append (ElseIf.mentionsOf_cover rest))

end

namespace Chunk

variable {chunk : Chunk} {cs : List Char}

theorem mentions_cover (chunk : Chunk) :
    Mention.Cover chunk.mentions chunk.sites chunk.passages :=
  Statement.mentionsOf_cover chunk.statements

/-- The path of a mention is spelled in the text. -/
theorem mentions_written {ls : List Lexeme} (h : Chunk.ofLexemes? ls = some chunk) {m : Mention}
    (hm : m ∈ chunk.mentions) : Written ls (.path m.path) := by
  have hpath : m.path ∈ chunk.passages.filterMap Passage.path? := by
    rw [← chunk.mentions_cover.paths]
    exact List.mem_map_of_mem hm
  obtain ⟨passage, hpassage, hsame⟩ := List.mem_filterMap.mp hpath
  cases passage with
  | path idents =>
    cases hsame
    exact chunk.passages_written h _ hpassage
  | receiver => cases hsame

/-- A mentioned name stands at a site of its own. -/
theorem site_of_mention {m : Mention} (hm : m ∈ chunk.mentions) {ident : Ident}
    (hident : ident ∈ m.path) : .name ident ∈ chunk.sites := by
  have hmem : ident ∈ chunk.sites.filterMap Site.ident? := by
    rw [← chunk.mentions_cover.idents]
    exact List.mem_flatMap.mpr ⟨m, hm, hident⟩
  obtain ⟨site, hsite, hsame⟩ := List.mem_filterMap.mp hmem
  cases site with
  | name => cases hsame; exact hsite
  | receiver => cases hsame

/-- A name is mentioned once. -/
theorem mention_eq_of_start_eq (h : Chunk.ofChars? cs = some chunk) {m m' : Mention}
    (hm : m ∈ chunk.mentions) (hm' : m' ∈ chunk.mentions) {ident ident' : Ident}
    (hident : ident ∈ m.path) (hident' : ident' ∈ m'.path)
    (hstart : ident.span.start = ident'.span.start) : m = m' ∧ ident = ident' := by
  have hsites := (Chunk.sites_ascending h).nodup_starts
  have hsame : Site.name ident = .name ident' :=
    List.inj_on_of_nodup_map hsites (site_of_mention hm hident) (site_of_mention hm' hident')
      hstart
  cases hsame
  refine ⟨by_contra fun hne => ?_, rfl⟩
  have hnodup : (chunk.mentions.flatMap Mention.path).Nodup := by
    rw [chunk.mentions_cover.idents]
    refine List.Nodup.filterMap (fun site site' ident h h' => ?_) hsites.of_map
    cases site <;> cases site' <;> cases h <;> cases h'
    rfl
  have hsymm : Std.Symm (Function.onFun List.Disjoint Mention.path) :=
    ⟨fun _ _ h _ hmem hmem' => h hmem' hmem⟩
  exact (List.nodup_flatMap.mp hnodup).2.forall hm hm' hne hident hident'

end Chunk

end LuaScope

import LuaScope.Proofs.Scoping.Lexical
import Mathlib.Data.List.Nodup

/-!
# LuaScope.Proofs.Scoping.Place

Where the uses and declarations of a tree stand in its text.

* `Env.Precedes`     — the names that are declared around a tree stand in front of its sites.
* `Chunk.uses_within` — each site of a chunk is the place of at most one use.
-/

namespace LuaScope

/-! ## Declarations in front of a tree -/

def Decl.start (d : Decl) : Nat := d.ident.span.start

/-- Where the declared names start, those of the outermost scope first. -/
def Env.starts : Env → List Nat
  | [] => []
  | v :: outer => starts outer ++ v.declared.reverse.map Decl.start

/-- The declared names and these sites stand one behind the other. -/
def Env.Precedes (env : Env) (sites : List Site) : Prop :=
  (env.starts ++ sites.map Site.start).Pairwise (· < ·)

/-- The declarations stand at some of the sites, in their order. -/
def StandAt (decls : List Decl) (sites : List Site) : Prop :=
  (decls.map Decl.start).Sublist (sites.map Site.start)

namespace Env

variable {env : Env} {a b : List Site} {decls : List Decl}

theorem starts_declare (hne : env ≠ []) (decls : List Decl) :
    (env.declare decls).starts = env.starts ++ decls.map Decl.start := by
  cases env with
  | nil => exact absurd rfl hne
  | cons v outer => simp [declare, starts]

theorem starts_enter (env : Env) (first : List Decl) (block : Option Block) :
    (env.enter first block).starts = env.starts ++ first.map Decl.start := by
  simp [enter, starts]

namespace Precedes

theorem left (h : env.Precedes (a ++ b)) : env.Precedes a := by
  unfold Precedes at h ⊢
  rw [List.map_append] at h
  exact h.sublist ((List.sublist_append_left _ _).append_left _)

theorem right (h : env.Precedes (a ++ b)) : env.Precedes b := by
  unfold Precedes at h ⊢
  rw [List.map_append] at h
  exact h.sublist ((List.sublist_append_right _ _).append_left _)

theorem skip {c : List Site} (h : env.Precedes (a ++ (b ++ c))) : env.Precedes (a ++ c) := by
  unfold Precedes at h ⊢
  simp only [List.map_append] at h ⊢
  exact h.sublist (((List.sublist_append_right _ _).append_left _).append_left _)

theorem behind (h : env.Precedes (a ++ b)) (hdecls : StandAt decls a) :
    (env.starts ++ decls.map Decl.start ++ b.map Site.start).Pairwise (· < ·) := by
  unfold Precedes at h
  rw [List.map_append] at h
  rw [List.append_assoc]
  exact h.sublist ((hdecls.append_right _).append_left _)

theorem declare (h : env.Precedes (a ++ b)) (hdecls : StandAt decls a) :
    (env.declare decls).Precedes b := by
  by_cases hne : env = []
  · subst hne
    exact h.right
  · unfold Precedes
    rw [starts_declare hne]
    exact h.behind hdecls

theorem enter (h : env.Precedes (a ++ b)) (hdecls : StandAt decls a) (block : Option Block) :
    (env.enter decls block).Precedes b := by
  unfold Precedes
  rw [starts_enter]
  exact h.behind hdecls

/-- Nothing is declared in a new scope yet. -/
theorem enterBare (h : env.Precedes a) (all : List Decl) : Precedes (⟨[], all⟩ :: env) a := by
  unfold Precedes at h ⊢
  simpa [starts] using h

end Precedes

/-- Entries are made by what was declared. -/
theorem start_mem_of_mem_ofDecls {free : Bool} {known : List Entry} {e : Entry} :
    ∀ decls : List Decl, e ∈ Level.ofDecls free known decls → e.span.start ∈ decls.map Decl.start
  | [], he => by cases he
  | d :: rest, he => by
    simp only [Level.ofDecls, List.foldr_cons, Level.add] at he
    split at he
    · rcases List.mem_cons.mp he with rfl | he
      · exact .head _
      · exact .tail _ (start_mem_of_mem_ofDecls rest he)
    · exact .tail _ (start_mem_of_mem_ofDecls rest he)

theorem start_mem_of_mem_levels {allow : Bool} {e : Entry} :
    ∀ env : Env, e ∈ (env.levels allow).flatten → e.span.start ∈ env.starts
  | [], he => by cases he
  | v :: outer, he => by
    rw [levels, List.flatten_cons, List.mem_append] at he
    rw [starts, List.mem_append, List.map_reverse, List.mem_reverse]
    rcases he with he | he
    · exact .inr (start_mem_of_mem_ofDecls _ he)
    · exact .inl (start_mem_of_mem_levels outer he)

theorem start_lt_of_mem_levels {allow : Bool} {e : Entry} {site : Site}
    (h : env.Precedes a) (hsite : site ∈ a) (he : e ∈ (env.levels allow).flatten) :
    e.span.start < site.start :=
  (List.pairwise_append.mp h).2.2 _ (start_mem_of_mem_levels env he) _
    (List.mem_map_of_mem hsite)

theorem finalLevels_declare (allow : Bool) (env : Env) (decls : List Decl) :
    (env.declare decls).finalLevels allow = env.finalLevels allow := by
  cases env <;> rfl

theorem declare_append (env : Env) (first second : List Decl) :
    (env.declare first).declare second = env.declare (first ++ second) := by
  cases env with
  | nil => rfl
  | cons v outer => simp [declare]

theorem declare_nil (env : Env) : env.declare [] = env := by
  cases env <;> rfl

end Env

/-! ## Declarations stand at sites of their statements -/

namespace StandAt

variable {decls decls' : List Decl} {a b : List Site}

theorem append (h : StandAt decls a) (h' : StandAt decls' b) :
    StandAt (decls ++ decls') (a ++ b) := by
  unfold StandAt
  rw [List.map_append, List.map_append]
  exact List.Sublist.append h h'

theorem nil : StandAt [] a := List.nil_sublist _

theorem appendRight (h : StandAt decls a) (b : List Site) : StandAt decls (a ++ b) := by
  have happend := h.append (nil : StandAt [] b)
  rwa [List.append_nil] at happend

/-- Names that are declared as one kind stand where they stand. -/
theorem names (kind : DeclKind) (names : List Ident) :
    StandAt (names.map (⟨·, kind⟩)) (names.map .name) := by
  unfold StandAt
  rw [List.map_map, List.map_map]
  exact .refl _

end StandAt

theorem Parameters.declares_standAt (p : Parameters) (isMethod : Bool) :
    StandAt (p.declares isMethod) p.sites := by
  have hentries : ∀ entries : List Parameter,
      StandAt (entries.flatMap Parameter.declares) (entries.flatMap Parameter.sites) := by
    intro entries
    induction entries with
    | nil => exact .nil
    | cons entry entries ih =>
      rw [List.flatMap_cons, List.flatMap_cons]
      cases entry with
      | name ident => exact StandAt.append (StandAt.names .local [ident]) ih
      | vararg => exact ih
  cases isMethod with
  | true =>
    have hreceiver : StandAt [p.receiver] [.receiver p.span.start] := .refl _
    exact hreceiver.append (hentries p.entries)
  | false => exact (hentries p.entries).trans (List.sublist_cons_self _ _)

theorem Expr.assigns_standAt (e : Expr) : StandAt e.assigns e.sites := by
  cases e with
  | name ident => exact .names .assigned [ident]
  | _ => exact .nil

theorem FunctionName.declares_standAt (name : FunctionName) (reach : FunctionReach)
    (body : FunctionBody) :
    StandAt (StatementNode.declares (.function reach name body)) (name.path.map .name) := by
  obtain ⟨head, fields, method⟩ := name
  match fields, method with
  | [], none => exact .names reach.declKind [head]
  | [], some _ => exact .nil
  | _ :: _, _ => exact .nil

theorem StatementNode.declares_standAt (node : StatementNode) :
    StandAt node.declares node.sites := by
  have htargets : ∀ targets : List Expr,
      StandAt (targets.flatMap Expr.assigns) (Expr.sitesOf targets) := by
    intro targets
    induction targets with
    | nil => exact .nil
    | cons target targets ih =>
      rw [List.flatMap_cons, Expr.sitesOf]
      exact target.assigns_standAt.append ih
  cases node with
  | declare reach attrib names values =>
    have hnames : StandAt (names.map (⟨·.ident, reach.declKind⟩)) (names.map (.name ·.ident)) := by
      unfold StandAt
      rw [List.map_map, List.map_map]
      exact .refl _
    cases values with
    | none => exact hnames
    | some values => exact hnames.appendRight _
  | function reach name body => exact (name.declares_standAt reach body).appendRight _
  | assign targets values => exact (htargets targets).appendRight _
  | _ => exact .nil

theorem Statement.declaresOf_standAt : ∀ statements : List Statement,
    StandAt (Statement.declaresOf statements) (Statement.sitesOf statements)
  | [] => .nil
  | .mk _ _ node :: rest => node.declares_standAt.append (Statement.declaresOf_standAt rest)

theorem Block.declaresOf_standAt : ∀ block : Option Block,
    StandAt (Statement.declaresOf (blockStatements block)) (Block.sites? block)
  | none => .nil
  | some (.mk _ statements) => Statement.declaresOf_standAt statements

/-! ## Uses stand at sites of their own -/

def Use.site (u : Use) : Site := .name u.ident

/-- No site has more uses than it stands in the list. -/
def Within (uses : List Use) (sites : List Site) : Prop :=
  ∀ site, (uses.map Use.site).count site ≤ sites.count site

namespace Within

variable {uses uses' : List Use} {a b : List Site}

theorem nil : Within [] a := fun _ => Nat.zero_le _

theorem append (h : Within uses a) (h' : Within uses' b) : Within (uses ++ uses') (a ++ b) := by
  intro site
  rw [List.map_append, List.count_append, List.count_append]
  exact Nat.add_le_add (h site) (h' site)

/-- Nothing is used at the first sites. -/
theorem behind (a : List Site) (h : Within uses b) : Within uses (a ++ b) := append nil h

theorem members (names : List Ident) (env : Env) :
    Within (names.map (⟨·, false, env⟩)) (names.map .name) := by
  intro site
  rw [List.map_map]
  exact Nat.le_refl _

theorem single (ident : Ident) (isVariable : Bool) (env : Env) :
    Within [⟨ident, isVariable, env⟩] [.name ident] := fun _ => Nat.le_refl _

end Within

theorem pathUses_within (env : Env) (path : List Ident) :
    Within (pathUses env path) (path.map .name) := by
  cases path with
  | nil => exact .nil
  | cons first rest => exact (Within.single first true env).append (.members rest env)

theorem FunctionName.uses_within (name : FunctionName) (reach : FunctionReach) (env : Env) :
    Within (name.uses reach env) (name.path.map .name) := by
  unfold uses
  split
  · exact .nil
  · exact pathUses_within env _

mutual

theorem Expr.uses_within : ∀ (e : Expr) (env : Env), Within (e.uses env) e.sites
  | .nil, _ | .boolean, _ | .number, _ | .literal _, _ | .vararg, _ | .global, _ => .nil
  | .name ident, env => .single ident true env
  | .field base key, env => (base.uses_within env).append (.single key false env)
  | .subscript base key, env => (base.uses_within env).append (key.uses_within env)
  | .call callee method arguments, env =>
    (callee.uses_within env).append
      ((Within.members method.toList env).append (Expr.usesOf_within arguments env))
  | .paren inner, env => inner.uses_within env
  | .table fields, env => Field.usesOf_within fields env
  | .function body, env => body.uses_within false env
  | .binary _ _ left right, env => (left.uses_within env).append (right.uses_within env)
  | .unary _ _ operand, env => operand.uses_within env

theorem Expr.usesOf_within :
    ∀ (es : List Expr) (env : Env), Within (Expr.usesOf es env) (Expr.sitesOf es)
  | [], _ => .nil
  | e :: rest, env => (e.uses_within env).append (Expr.usesOf_within rest env)

theorem Field.usesOf_within :
    ∀ (fields : List Field) (env : Env), Within (Field.usesOf fields env) (Field.sitesOf fields)
  | [], _ => .nil
  | .positional value :: rest, env | .unnamed value :: rest, env =>
    (value.uses_within env).append (Field.usesOf_within rest env)
  | .named _ _ key value :: rest, env =>
    ((value.uses_within env).append (Field.usesOf_within rest env)).behind [.name key]
  | .computed key value :: rest, env =>
    (key.uses_within env).append
      ((value.uses_within env).append (Field.usesOf_within rest env))

theorem FunctionBody.uses_within :
    ∀ (body : FunctionBody) (isMethod : Bool) (env : Env),
      Within (body.uses isMethod env) body.sites
  | .mk parameters block _, _, _ => (Block.uses?_within block _).behind parameters.sites

theorem Block.uses?_within :
    ∀ (block : Option Block) (env : Env), Within (Block.uses? block env) (Block.sites? block)
  | none, _ => .nil
  | some (.mk _ statements), env => Statement.usesOf_within statements env

theorem Statement.usesOf_within :
    ∀ (statements : List Statement) (env : Env),
      Within (Statement.usesOf statements env) (Statement.sitesOf statements)
  | [], _ => .nil
  | .mk _ _ node :: rest, env =>
    (node.uses_within env).append (Statement.usesOf_within rest _)

theorem StatementNode.uses_within :
    ∀ (node : StatementNode) (env : Env), Within (node.uses env) node.sites
  | .empty, _ | .label, _ | .goto, _ | .break, _ => .nil
  | .assign targets values, env =>
    (Expr.targetUses_within targets env).append (Expr.usesOf_within values env)
  | .call call, env => call.uses_within env
  | .do body, _ => Block.uses?_within body _
  | .while condition body, env => (condition.uses_within env).append (Block.uses?_within body _)
  | .repeat body condition, _ => (Block.uses?_within body _).append (condition.uses_within _)
  | .if condition body rest none, env =>
    (condition.uses_within env).append
      ((Block.uses?_within body _).append (ElseIf.usesOf_within rest env))
  | .if condition body rest (some block), env =>
    (condition.uses_within env).append ((Block.uses?_within body _).append
      ((ElseIf.usesOf_within rest env).append (Block.uses?_within block _)))
  | .numericFor counter start limit none body, env =>
    ((start.uses_within env).append
      ((limit.uses_within env).append (Block.uses?_within body _))).behind [.name counter]
  | .numericFor counter start limit (some step) body, env =>
    ((start.uses_within env).append ((limit.uses_within env).append
      ((step.uses_within env).append (Block.uses?_within body _)))).behind [.name counter]
  | .genericFor _ values body, env =>
    ((Expr.usesOf_within values env).append (Block.uses?_within body _)).behind _
  | .function reach name body, _ =>
    (name.uses_within reach _).append (body.uses_within name.method.isSome _)
  | .declare _ _ _ none, _ => .nil
  | .declare _ _ _ (some values), env => (Expr.usesOf_within values env).behind _
  | .implicitGlobals none, _ => .nil
  | .implicitGlobals (some (name, _)), env => .single name false env
  | .return none, _ => .nil
  | .return (some values), env => Expr.usesOf_within values env

theorem Expr.targetUses_within :
    ∀ (targets : List Expr) (env : Env), Within (Expr.targetUses targets env) (Expr.sitesOf targets)
  | [], _ => .nil
  | target :: rest, env =>
    (target.uses_within env).append (Expr.targetUses_within rest _)

theorem ElseIf.usesOf_within :
    ∀ (rest : List ElseIf) (env : Env), Within (ElseIf.usesOf rest env) (ElseIf.sitesOf rest)
  | [], _ => .nil
  | .mk condition body :: rest, env =>
    (condition.uses_within env).append
      ((Block.uses?_within body _).append (ElseIf.usesOf_within rest env))

end

theorem Chunk.uses_within (chunk : Chunk) : Within chunk.uses chunk.sites :=
  Statement.usesOf_within chunk.statements _

theorem Ascending.nodup_starts {sites : List Site} (h : Ascending sites) :
    (sites.map Site.start).Nodup :=
  (List.pairwise_map.mpr h).imp Nat.ne_of_lt

/-- A use stands at a site. -/
theorem Within.site_mem {uses : List Use} {sites : List Site} (h : Within uses sites) {u : Use}
    (hu : u ∈ uses) : u.site ∈ sites := by
  have hpos : 0 < (uses.map Use.site).count u.site :=
    List.count_pos_iff.mpr (List.mem_map_of_mem hu)
  exact List.count_pos_iff.mp (Nat.lt_of_lt_of_le hpos (h u.site))

/-- Two uses that start at one offset are one. -/
theorem Within.eq_of_start_eq {uses : List Use} {sites : List Site} (h : Within uses sites)
    (hsites : Ascending sites) {u u' : Use} (hu : u ∈ uses) (hu' : u' ∈ uses)
    (hstart : u.ident.span.start = u'.ident.span.start) : u = u' := by
  have hinj := List.inj_on_of_nodup_map hsites.nodup_starts
  have hnodup : (uses.map Use.site).Nodup := by
    rw [List.nodup_iff_count]
    exact fun site => Nat.le_trans (h site)
      (List.nodup_iff_count.mp (List.Nodup.of_map _ hsites.nodup_starts) site)
  exact List.inj_on_of_nodup_map hnodup hu hu' (hinj (h.site_mem hu) (h.site_mem hu') hstart)

/-! ## Paths -/

theorem pathUses_append (env : Env) {path : List Ident} (hne : path ≠ []) (rest : List Ident) :
    pathUses env (path ++ rest) = pathUses env path ++ rest.map (⟨·, false, env⟩) := by
  cases path with
  | nil => exact absurd rfl hne
  | cons first path => simp [pathUses]

theorem Expr.ne_nil_of_path? : ∀ {e : Expr} {path : List Ident}, e.path? = some path → path ≠ []
  | .name _, _, h => by cases h; nofun
  | .field base key, _, h => by
    obtain ⟨path, _, rfl⟩ := Option.map_eq_some_iff.mp h
    exact List.append_ne_nil_of_right_ne_nil path (List.cons_ne_nil key [])

theorem Expr.path?_field {base : Expr} {path : List Ident} {key : Ident}
    (h : base.path? = some path) : (Expr.field base key).path? = some (path ++ [key]) := by
  simp [Expr.path?, h]

theorem Expr.uses_of_path? :
    ∀ {e : Expr} {path : List Ident} (env : Env), e.path? = some path →
      e.uses env = pathUses env path ∧ e.sites = path.map .name
  | .name _, _, _, h => by cases h; exact ⟨rfl, rfl⟩
  | .field base key, _, env, h => by
    obtain ⟨path, hpath, rfl⟩ := Option.map_eq_some_iff.mp h
    obtain ⟨huses, hsites⟩ := Expr.uses_of_path? env hpath
    rw [Expr.uses, Expr.sites, huses, hsites,
      pathUses_append env (Expr.ne_nil_of_path? hpath), List.map_append]
    exact ⟨rfl, rfl⟩

end LuaScope

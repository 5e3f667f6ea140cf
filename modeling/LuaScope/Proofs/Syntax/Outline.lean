import LuaScope.Proofs.Syntax.Site

/-!
# LuaScope.Proofs.Syntax.Outline

The edges of a tree: its names, and where its statements, blocks and functions start and stop, in
the order of the text. What a reader does to the edges says both where names stand and how the parts
of a tree lie in one another.

* `Edge.Fits`        — edges stand between two offsets, one behind another.
* `Expr.sites_edges` — the sites of a tree are those of its edges.
* `Reader.Extends`   — the edges of what a reader gives were those of tokens, in their order.
-/

namespace LuaScope

inductive Edge where
  | name (ident : Ident)
  /-- The parameters of a function start here. -/
  | opening (offset : Nat)
  /-- A statement, a block or a function starts or stops here. -/
  | mark (offset : Nat)

namespace Edge

def start : Edge → Nat
  | .name ident => ident.span.start
  | .opening offset | .mark offset => offset

def stop : Edge → Nat
  | .name ident => ident.span.stop
  | .opening offset | .mark offset => offset

/-- A name covers text. -/
def Covers : Edge → Prop
  | .name ident => ident.span.start < ident.span.stop
  | .opening _ | .mark _ => True

def site? : Edge → Option Site
  | .name ident => some (.name ident)
  | .opening offset => some (.receiver offset)
  | .mark _ => none

def sites (es : List Edge) : List Site := es.filterMap site?

/-- The edges stand one behind another, from `lo` on and up to `hi`. -/
def Fits : List Edge → Nat → Nat → Prop
  | [], lo, hi => lo ≤ hi
  | e :: es, lo, hi => lo ≤ e.start ∧ e.Covers ∧ Fits es e.stop hi

variable {e : Edge} {es es' : List Edge} {lo lo' mid hi hi' : Nat}

theorem start_le_stop (h : e.Covers) : e.start ≤ e.stop := by
  cases e with
  | name ident => exact Nat.le_of_lt h
  | opening offset | mark offset => exact Nat.le_refl _

@[simp] theorem fits_nil : Fits [] lo hi ↔ lo ≤ hi := Iff.rfl

@[simp] theorem fits_cons :
    Fits (e :: es) lo hi ↔ lo ≤ e.start ∧ e.Covers ∧ Fits es e.stop hi := Iff.rfl

namespace Fits

theorem le (h : Fits es lo hi) : lo ≤ hi := by
  induction es generalizing lo with
  | nil => exact h
  | cons e es ih => exact Nat.le_trans h.1 (Nat.le_trans (start_le_stop h.2.1) (ih h.2.2))

theorem widen (h : Fits es lo hi) (hlo : lo' ≤ lo) (hhi : hi ≤ hi') : Fits es lo' hi' := by
  induction es generalizing lo lo' with
  | nil => exact Nat.le_trans hlo (Nat.le_trans h hhi)
  | cons e es ih => exact ⟨Nat.le_trans hlo h.1, h.2.1, ih h.2.2 (Nat.le_refl _)⟩

theorem append (h : Fits es lo mid) (h' : Fits es' mid hi) : Fits (es ++ es') lo hi := by
  induction es generalizing lo with
  | nil => exact h'.widen h (Nat.le_refl _)
  | cons e es ih => exact ⟨h.1, h.2.1, ih h.2.2⟩

theorem split (h : Fits (es ++ es') lo hi) : ∃ mid, Fits es lo mid ∧ Fits es' mid hi := by
  induction es generalizing lo with
  | nil => exact ⟨lo, Nat.le_refl _, h⟩
  | cons e es ih =>
    obtain ⟨mid, hes, hes'⟩ := ih h.2.2
    exact ⟨mid, ⟨h.1, h.2.1, hes⟩, hes'⟩

theorem sublist (h : Fits es lo hi) (hsub : es'.Sublist es) : Fits es' lo hi := by
  induction hsub generalizing lo with
  | slnil => exact h
  | cons e _ ih =>
    exact (ih h.2.2).widen (Nat.le_trans h.1 (start_le_stop h.2.1)) (Nat.le_refl _)
  | cons_cons e _ ih => exact ⟨h.1, h.2.1, ih h.2.2⟩

end Fits

end Edge

/-! ## Edges of a tree, in the order of the text -/

def Parameter.edges : Parameter → List Edge
  | .name ident => [.name ident]
  | .vararg => []

def Parameters.edges (p : Parameters) : List Edge :=
  .opening p.span.start :: p.entries.flatMap Parameter.edges

mutual

def Expr.edges : Expr → List Edge
  | .nil | .boolean | .number | .literal _ | .vararg | .global => []
  | .name ident => [.name ident]
  | .field base key => base.edges ++ [.name key]
  | .subscript base key => base.edges ++ key.edges
  | .call callee method arguments =>
    callee.edges ++ (method.toList.map .name ++ Expr.edgesOf arguments)
  | .paren inner => inner.edges
  | .table fields => Field.edgesOf fields
  | .function body => body.edges
  | .binary _ _ left right => left.edges ++ right.edges
  | .unary _ _ operand => operand.edges

def Expr.edgesOf : List Expr → List Edge
  | [] => []
  | e :: rest => e.edges ++ Expr.edgesOf rest

def Field.edgesOf : List Field → List Edge
  | [] => []
  | .positional value :: rest => value.edges ++ Field.edgesOf rest
  | .named _ _ key value :: rest => .name key :: (value.edges ++ Field.edgesOf rest)
  | .unnamed value :: rest => value.edges ++ Field.edgesOf rest
  | .computed key value :: rest => key.edges ++ (value.edges ++ Field.edgesOf rest)

def FunctionBody.edges : FunctionBody → List Edge
  | .mk parameters block stop => parameters.edges ++ (Block.edges? block ++ [.mark stop])

def Block.edges? : Option Block → List Edge
  | none => []
  | some (.mk span statements) =>
    .mark span.start :: (Statement.edgesOf statements ++ [.mark span.stop])

def Statement.edgesOf : List Statement → List Edge
  | [] => []
  | .mk _ span node :: rest =>
    .mark span.start :: (node.edges ++ (.mark span.stop :: Statement.edgesOf rest))

def StatementNode.edges : StatementNode → List Edge
  | .empty | .label | .goto | .break => []
  | .assign targets values => Expr.edgesOf targets ++ Expr.edgesOf values
  | .call call => call.edges
  | .do body => Block.edges? body
  | .while condition body => condition.edges ++ Block.edges? body
  | .repeat body condition => Block.edges? body ++ condition.edges
  | .if condition body rest none =>
    condition.edges ++ (Block.edges? body ++ ElseIf.edgesOf rest)
  | .if condition body rest (some block) =>
    condition.edges ++ (Block.edges? body ++ (ElseIf.edgesOf rest ++ Block.edges? block))
  | .numericFor counter start limit none body =>
    .name counter :: (start.edges ++ (limit.edges ++ Block.edges? body))
  | .numericFor counter start limit (some step) body =>
    .name counter :: (start.edges ++ (limit.edges ++ (step.edges ++ Block.edges? body)))
  | .genericFor names values body => names.map .name ++ (Expr.edgesOf values ++ Block.edges? body)
  | .function _ name body => name.path.map .name ++ body.edges
  | .declare _ _ names none => names.map (.name ·.ident)
  | .declare _ _ names (some values) =>
    names.map (.name ·.ident) ++ Expr.edgesOf values
  | .implicitGlobals none => []
  | .implicitGlobals (some (name, _)) => [.name name]
  | .return none => []
  | .return (some values) => Expr.edgesOf values

def ElseIf.edgesOf : List ElseIf → List Edge
  | [] => []
  | .mk condition body :: rest => condition.edges ++ (Block.edges? body ++ ElseIf.edgesOf rest)

end

def Chunk.edges (chunk : Chunk) : List Edge := Statement.edgesOf chunk.statements

/-! ### Their sites -/

namespace Edge

@[simp] theorem sites_nil : sites [] = [] := rfl

@[simp] theorem sites_name (ident : Ident) (es : List Edge) :
    sites (.name ident :: es) = .name ident :: sites es := rfl

@[simp] theorem sites_opening (offset : Nat) (es : List Edge) :
    sites (.opening offset :: es) = .receiver offset :: sites es := rfl

@[simp] theorem sites_mark (offset : Nat) (es : List Edge) :
    sites (.mark offset :: es) = sites es := rfl

@[simp] theorem sites_append (es es' : List Edge) : sites (es ++ es') = sites es ++ sites es' :=
  List.filterMap_append

@[simp] theorem sites_names (idents : List Ident) :
    sites (idents.map .name) = idents.map .name := by
  induction idents with
  | nil => rfl
  | cons ident idents ih => exact congrArg (_ :: ·) ih

@[simp] theorem sites_attributed (names : List AttributedName) :
    sites (names.map (.name ·.ident)) = names.map (.name ·.ident) := by
  induction names with
  | nil => rfl
  | cons name names ih => exact congrArg (_ :: ·) ih

end Edge

theorem Parameters.sites_edges (p : Parameters) : Edge.sites p.edges = p.sites := by
  refine congrArg (_ :: ·) ?_
  induction p.entries with
  | nil => rfl
  | cons entry entries ih =>
    rw [List.flatMap_cons, List.flatMap_cons]
    cases entry with
    | name ident => exact congrArg (_ :: ·) ih
    | vararg => exact ih

mutual

theorem Expr.sites_edges : ∀ e : Expr, Edge.sites e.edges = e.sites
  | .nil | .boolean | .number | .literal _ | .vararg | .global | .name _ => rfl
  | .field base _ => by simp [Expr.edges, Expr.sites, base.sites_edges]
  | .subscript base key => by simp [Expr.edges, Expr.sites, base.sites_edges, key.sites_edges]
  | .call callee method arguments => by
    simp [Expr.edges, Expr.sites, callee.sites_edges, Expr.sites_edgesOf arguments]
  | .paren inner => inner.sites_edges
  | .table fields => Field.sites_edgesOf fields
  | .function body => body.sites_edges
  | .binary _ _ left right => by simp [Expr.edges, Expr.sites, left.sites_edges, right.sites_edges]
  | .unary _ _ operand => operand.sites_edges

theorem Expr.sites_edgesOf : ∀ es : List Expr, Edge.sites (Expr.edgesOf es) = Expr.sitesOf es
  | [] => rfl
  | e :: rest => by simp [Expr.edgesOf, Expr.sitesOf, e.sites_edges, Expr.sites_edgesOf rest]

theorem Field.sites_edgesOf : ∀ fields : List Field,
    Edge.sites (Field.edgesOf fields) = Field.sitesOf fields
  | [] => rfl
  | .positional value :: rest | .named _ _ _ value :: rest | .unnamed value :: rest => by
    simp [Field.edgesOf, Field.sitesOf, value.sites_edges, Field.sites_edgesOf rest]
  | .computed key value :: rest => by
    simp [Field.edgesOf, Field.sitesOf, key.sites_edges, value.sites_edges,
      Field.sites_edgesOf rest]

theorem FunctionBody.sites_edges : ∀ body : FunctionBody, Edge.sites body.edges = body.sites
  | .mk parameters block _ => by
    simp [FunctionBody.edges, FunctionBody.sites, parameters.sites_edges, Block.sites_edges? block]

theorem Block.sites_edges? : ∀ block : Option Block,
    Edge.sites (Block.edges? block) = Block.sites? block
  | some (.mk _ statements) => by
    simp [Block.edges?, Block.sites?, Statement.sites_edgesOf statements]
  | none => rfl

theorem Statement.sites_edgesOf : ∀ statements : List Statement,
    Edge.sites (Statement.edgesOf statements) = Statement.sitesOf statements
  | .mk _ _ node :: rest => by
    simp [Statement.edgesOf, Statement.sitesOf, node.sites_edges, Statement.sites_edgesOf rest]
  | [] => rfl

theorem StatementNode.sites_edges : ∀ node : StatementNode, Edge.sites node.edges = node.sites
  | .empty | .label | .goto | .break | .implicitGlobals none | .return none => rfl
  | .implicitGlobals (some (_, _)) => rfl
  | .assign targets values => by
    simp [StatementNode.edges, StatementNode.sites, Expr.sites_edgesOf targets,
      Expr.sites_edgesOf values]
  | .call call => call.sites_edges
  | .do body => Block.sites_edges? body
  | .while condition body | .repeat body condition => by
    simp [StatementNode.edges, StatementNode.sites, condition.sites_edges, Block.sites_edges? body]
  | .if condition body rest none => by
    simp [StatementNode.edges, StatementNode.sites, condition.sites_edges, Block.sites_edges? body,
      ElseIf.sites_edgesOf rest]
  | .if condition body rest (some block) => by
    simp [StatementNode.edges, StatementNode.sites, condition.sites_edges, Block.sites_edges? body,
      ElseIf.sites_edgesOf rest, Block.sites_edges? block]
  | .numericFor _ start limit none body => by
    simp [StatementNode.edges, StatementNode.sites, start.sites_edges, limit.sites_edges,
      Block.sites_edges? body]
  | .numericFor _ start limit (some step) body => by
    simp [StatementNode.edges, StatementNode.sites, start.sites_edges, limit.sites_edges,
      step.sites_edges, Block.sites_edges? body]
  | .genericFor _ values body => by
    simp [StatementNode.edges, StatementNode.sites, Expr.sites_edgesOf values,
      Block.sites_edges? body]
  | .function _ _ body => by simp [StatementNode.edges, StatementNode.sites, body.sites_edges]
  | .declare _ _ _ none => by simp [StatementNode.edges, StatementNode.sites]
  | .declare _ _ _ (some values) => by
    simp [StatementNode.edges, StatementNode.sites, Expr.sites_edgesOf values]
  | .return (some values) => Expr.sites_edgesOf values

theorem ElseIf.sites_edgesOf : ∀ rest : List ElseIf,
    Edge.sites (ElseIf.edgesOf rest) = ElseIf.sitesOf rest
  | [] => rfl
  | .mk condition body :: rest => by
    simp [ElseIf.edgesOf, ElseIf.sitesOf, condition.sites_edges, Block.sites_edges? body,
      ElseIf.sites_edgesOf rest]

end

/-! ## What readers do -/

/-- What is still to be read stands behind what was read. -/
def Cursor.Tidy (c : Cursor) : Prop := Lexeme.LinedUp c.stop c.rest

/-- From `before` at one cursor to `after` at another: sites are sites of tokens in their order, and
edges that stood up to the one cursor stand up to the other. -/
structure Edge.Follows (before : List Edge) (c : Cursor) (after : List Edge) (c' : Cursor) :
    Prop where
  sites : (sites after ++ c'.sites).Sublist (Edge.sites before ++ c.sites)
  tidy : c.Tidy → c'.Tidy
  fits : c.Tidy → ∀ lo, Fits before lo c.stop → Fits after lo c'.stop

namespace Edge.Follows

variable {before mid after : List Edge} {c c' c'' : Cursor}

theorem of_sublist (h : after.Sublist before) (c : Cursor) : Follows before c after c where
  sites := (h.filterMap _).append_right _
  tidy htidy := htidy
  fits _ _ hfits := hfits.sublist h

theorem trans (h : Follows before c mid c') (h' : Follows mid c' after c'') :
    Follows before c after c'' where
  sites := h'.sites.trans h.sites
  tidy htidy := h'.tidy (h.tidy htidy)
  fits htidy lo hfits := h'.fits (h.tidy htidy) lo (h.fits htidy lo hfits)

theorem frame (x : List Edge) (h : Follows before c after c') :
    Follows (x ++ before) c (x ++ after) c' where
  sites := by
    rw [sites_append, sites_append, List.append_assoc, List.append_assoc]
    exact h.sites.append_left _
  tidy := h.tidy
  fits htidy lo hfits := by
    obtain ⟨mid, hx, hbefore⟩ := hfits.split
    exact hx.append (h.fits htidy mid hbefore)

/-- A block starts where its first statement does. -/
theorem repeat_mark (offset : Nat) (es : List Edge) (c : Cursor) :
    Follows (.mark offset :: es) c (.mark offset :: .mark offset :: es) c where
  sites := .refl _
  tidy htidy := htidy
  fits _ _ hfits := ⟨hfits.1, trivial, Nat.le_refl _, hfits.2⟩

end Edge.Follows

namespace Reader

variable {α β : Type} {P : Cursor → Prop} {before : List Edge}

/-- Run on a cursor with `P`, where `before` was read so far, the reader goes on to `after`. -/
def Extends (P : Cursor → Prop) (before : List Edge) (r : Reader α) (after : α → List Edge) :
    Prop :=
  ∀ c a c', P c → r c = some (a, c') → Edge.Follows before c (after a) c'

namespace Extends

theorem pure {a : α} {after : α → List Edge} (h : (after a).Sublist before) :
    Extends P before (Pure.pure a) after := by
  intro c a' c' _ hrun
  cases hrun
  exact .of_sublist h c

theorem refuse {after : α → List Edge} : Extends P before (Reader.refuse : Reader α) after := by
  intro c a c' _ hrun
  cases hrun

theorem bind {r : Reader α} {k : α → Reader β} {mid : α → List Edge} {after : β → List Edge}
    (hr : Extends P before r mid) (hk : ∀ a, Extends Anywhere (mid a) (k a) after) :
    Extends P before (r >>= k) after := by
  intro c b c' hc hrun
  obtain ⟨⟨a, c₁⟩, hfirst, hrest⟩ := Option.bind_eq_some_iff.mp hrun
  exact (hr c a c₁ hc hfirst).trans (hk a c₁ b c' trivial hrest)

theorem peek {k : Option Token → Reader β} {after : β → List Edge}
    (hk : ∀ t, Extends (NextIs t) before (k t) after) :
    Extends P before (Reader.peek >>= k) after := by
  intro c b c' _ hrun
  exact hk _ c b c' rfl hrun

theorem peekSecond {k : Option Token → Reader β} {after : β → List Edge}
    (hk : ∀ t, Extends P before (k t) after) :
    Extends P before (Reader.peekSecond >>= k) after := by
  intro c b c' hc hrun
  exact hk _ c b c' hc hrun

theorem anywhere {r : Reader α} {after : α → List Edge} (h : Extends Anywhere before r after) :
    Extends P before r after := fun c a c' _ => h c a c' trivial

theorem frame {r : Reader α} {after : α → List Edge} (x : List Edge)
    (h : Extends P before r after) : Extends P (x ++ before) r (fun a => x ++ after a) :=
  fun c a c' hc hrun => (h c a c' hc hrun).frame x

/-- A reader that was described from nothing, behind what was read so far. -/
theorem behind {r : Reader α} {after : α → List Edge} (h : Extends Anywhere [] r after) :
    Extends P before r (fun a => before ++ after a) := by
  have hframe := (h.frame before).anywhere (P := P)
  rwa [List.append_nil] at hframe

theorem mono {r : Reader α} {after after' : α → List Edge} (h : Extends P before r after)
    (hsub : ∀ a, (after' a).Sublist (after a)) : Extends P before r after' :=
  fun c a c' hc hrun => (h c a c' hc hrun).trans (.of_sublist (hsub a) c')

theorem less {r : Reader α} {before' : List Edge} {after : α → List Edge}
    (h : Extends P before' r after) (hsub : before'.Sublist before) : Extends P before r after :=
  fun c a c' hc hrun => (Edge.Follows.of_sublist hsub c).trans (h c a c' hc hrun)

end Extends

/-! ### The start of a statement -/

/-- The reader takes a token before it asks where the last one stopped. -/
def Restarts (r : Reader α) : Prop := ∀ rest stop stop', r ⟨rest, stop⟩ = r ⟨rest, stop'⟩

namespace Restarts

theorem bind {r : Reader α} {k : α → Reader β} (h : Restarts r) : Restarts (r >>= k) :=
  fun rest stop stop' =>
    congrArg (Option.bind · fun p : α × Cursor => k p.1 p.2) (h rest stop stop')

theorem peek {k : Option Token → Reader β} (h : ∀ t, Restarts (k t)) :
    Restarts (Reader.peek >>= k) := fun rest => h (rest.head?.map Lexeme.token) rest

theorem peekSecond {k : Option Token → Reader β} (h : ∀ t, Restarts (k t)) :
    Restarts (Reader.peekSecond >>= k) := fun rest => h (rest.tail.head?.map Lexeme.token) rest

theorem advance : Restarts Reader.advance := fun rest _ _ => by cases rest <;> rfl

theorem refuse : Restarts (Reader.refuse : Reader α) := fun _ _ _ => rfl

end Restarts

theorem suffixed_restarts : ∀ fuel, Restarts (suffixed fuel)
  | 0 => .refuse
  | fuel + 1 => by
    refine .peek fun next => ?_
    split
    · exact .bind .advance
    · exact .bind .advance
    · exact .refuse

theorem statementNode_restarts : ∀ fuel, Restarts (statementNode fuel)
  | 0 => .refuse
  | fuel + 1 => by
    have hsimple : Restarts (simpleStatement fuel) := by
      cases fuel with
      | zero => exact .refuse
      | succ fuel => exact .bind (suffixed_restarts fuel)
    refine .peek fun next => ?_
    split
    case h_13 =>
      refine .peekSecond fun second => ?_
      split <;> first | exact .bind .advance | exact hsimple
    case h_14 => exact hsimple
    all_goals exact .bind .advance

/-- What starts with the next token is read as if the last one had stopped there. -/
theorem Extends.start {k : Nat → Reader β} {after : β → List Edge}
    (hrestarts : ∀ offset, Restarts (k offset))
    (hk : ∀ offset, Extends Anywhere (before ++ [.mark offset]) (k offset) after) :
    Extends P before (Reader.start >>= k) after := by
  intro c b c' _ hrun
  obtain ⟨⟨offset, c₁⟩, hstart, hrest⟩ := Option.bind_eq_some_iff.mp hrun
  obtain ⟨tokens, stop⟩ := c
  cases tokens with
  | nil => cases hstart
  | cons l rest =>
    cases hstart
    have hfollows := hk l.span.start _ b c' trivial
      ((hrestarts _ _ l.span.start stop).trans hrest)
    have htidy : Cursor.Tidy ⟨l :: rest, stop⟩ → Cursor.Tidy ⟨l :: rest, l.span.start⟩ :=
      fun htidy => ⟨Nat.le_refl _, htidy.2⟩
    refine ⟨?_, fun h => hfollows.tidy (htidy h), fun h lo hbefore => ?_⟩
    · have hsites := hfollows.sites
      rwa [Edge.sites_append, Edge.sites_mark, Edge.sites_nil, List.append_nil] at hsites
    · exact hfollows.fits (htidy h) lo (hbefore.append ⟨h.1, trivial, Nat.le_refl _⟩)

/-! ### Single tokens -/

/-- The token that is taken may give an edge, if it stands within the token. -/
theorem advance_edges (edges : Span → List Edge)
    (hsites : ∀ l : Lexeme, ∀ rest stop, P ⟨l :: rest, stop⟩ →
      (Edge.sites (edges l.span)).Sublist l.site?.toList)
    (hfits : ∀ l : Lexeme, ∀ rest stop, P ⟨l :: rest, stop⟩ → l.span.start ≤ l.span.stop →
      (l.token ≠ .mark .assign → l.span.start < l.span.stop) →
      Edge.Fits (edges l.span) l.span.start l.span.stop) :
    Extends P before advance (fun span => before ++ edges span) := by
  intro c span c' hc hrun
  obtain ⟨tokens, stop⟩ := c
  cases tokens with
  | nil => cases hrun
  | cons l rest =>
    cases hrun
    refine ⟨?_, fun htidy => htidy.2.2.2, fun htidy lo hbefore => ?_⟩
    · rw [Edge.sites_append, List.append_assoc]
      refine List.Sublist.append_left ?_ _
      have hcons : Cursor.sites ⟨l :: rest, stop⟩ = l.site?.toList ++ Lexeme.sites rest := by
        simp only [Cursor.sites, Lexeme.sites, List.filterMap_cons]
        cases l.site? <;> rfl
      rw [hcons]
      exact (hsites l rest stop hc).append_right _
    · obtain ⟨hstart, hle, hcovers, -⟩ := htidy
      exact hbefore.append
        ((hfits l rest stop hc hle hcovers).widen hstart (Nat.le_refl _))

theorem advance_extends : Extends P before advance (fun _ => before) := by
  have hnone : Extends P before advance (fun _ => before ++ []) :=
    advance_edges (fun _ => []) (fun _ _ _ _ => List.nil_sublist _) fun _ _ _ _ hle _ => hle
  simpa only [List.append_nil] using hnone

/-- The token that is taken ends here. -/
theorem advance_stop : Extends P before advance (fun span => before ++ [.mark span.stop]) :=
  advance_edges (fun span => [.mark span.stop]) (fun _ _ _ _ => List.nil_sublist _)
    fun _ _ _ _ hle _ => ⟨hle, trivial, Nat.le_refl _⟩

/-- The name that was looked at is taken. -/
theorem advance_ident {text : String} : Extends (NextIs (some (.name text))) before advance
    (fun span => before ++ [.name ⟨text, span⟩]) := by
  have htoken : ∀ (l : Lexeme) rest stop, NextIs (some (.name text)) ⟨l :: rest, stop⟩ →
      l.token = .name text := fun l rest stop hnext => Option.some.inj hnext
  refine advance_edges (fun span => [.name ⟨text, span⟩])
    (fun l rest stop hnext => ?_) fun l rest stop hnext _ hcovers => ?_
  · rw [Lexeme.site?, htoken l rest stop hnext]
    exact .refl _
  · exact ⟨Nat.le_refl _, hcovers (by simp [htoken l rest stop hnext]),
      Nat.le_refl _⟩

theorem expect_extends (t : Token) : Extends P before (expect t) (fun _ => before) := by
  refine .peek fun next => ?_
  split
  · exact advance_extends
  · exact .refuse

theorem expect_stop (t : Token) :
    Extends P before (expect t) (fun span => before ++ [.mark span.stop]) := by
  refine .peek fun next => ?_
  split
  · exact advance_stop
  · exact .refuse

/-- The opening parenthesis gives the site of an implied `self`. -/
theorem expect_opening :
    Extends P before (expectMark .leftParen) (fun span => before ++ [.opening span.start]) := by
  refine .peek fun next => ?_
  split
  · rename_i hnext
    subst hnext
    refine advance_edges (fun span => [.opening span.start])
      (fun l rest stop hnext => ?_) fun _ _ _ _ hle _ => ⟨Nat.le_refl _, trivial, hle⟩
    have htoken : l.token = .mark .leftParen := Option.some.inj hnext
    rw [Lexeme.site?, htoken]
    exact .refl _
  · exact .refuse

theorem accept_extends (t : Token) : Extends P before (accept t) (fun _ => before) := by
  refine .peek fun next => ?_
  split
  · exact .bind advance_extends fun _ => .pure (.refl _)
  · exact .pure (.refl _)

theorem ident_extends : Extends P before ident (fun name => before ++ [.name name]) := by
  refine .peek fun next => ?_
  split
  · exact .bind advance_ident fun _ => .pure (.refl _)
  · exact .refuse

theorem comments_extends : Extends P before comments (fun _ => before) := by
  intro c a c' _ hrun
  unfold comments at hrun
  split at hrun <;> cases hrun <;> exact .of_sublist (.refl _) _

theorem stop_extends : Extends P before stop (fun offset => before ++ [.mark offset]) := by
  intro c a c' _ hrun
  cases hrun
  refine ⟨?_, fun htidy => htidy, fun _ lo hbefore => ?_⟩
  · have hsites : Edge.sites (before ++ [.mark c.stop]) = Edge.sites before := by
      rw [Edge.sites_append, Edge.sites_mark, Edge.sites_nil, List.append_nil]
    exact hsites ▸ .refl _
  · exact hbefore.append ⟨Nat.le_refl _, trivial, Nat.le_refl _⟩

theorem closeAttrib_extends : Extends P before closeAttrib (fun _ => before) := by
  intro c a c' _ hrun
  obtain ⟨tokens, stop⟩ := c
  unfold closeAttrib at hrun
  split at hrun
  · rename_i span comments rest hrest
    obtain rfl : tokens = _ := hrest
    cases hrun
    exact ⟨.refl _, fun htidy => htidy.2.2.2,
      fun htidy lo hbefore => hbefore.widen (Nat.le_refl _) (Nat.le_trans htidy.1 htidy.2.1)⟩
  · rename_i span comments rest hrest
    obtain rfl : tokens = _ := hrest
    cases hrun
    refine ⟨.refl _, fun htidy => ?_, fun htidy lo hbefore => ?_⟩
    · have hcovers := htidy.2.2.1 (by simp)
      exact ⟨Nat.le_refl _, hcovers, fun hne => absurd rfl hne, htidy.2.2.2⟩
    · exact hbefore.widen (Nat.le_refl _) (Nat.le_succ_of_le htidy.1)
  · cases hrun

end Reader

end LuaScope

import LuaScope.Binding.Walk
import LuaScope.Proofs.Binding.Walk
import LuaScope.Proofs.Scoping.Place
import LuaScope.Proofs.Scoping.Table

/-!
# LuaScope.Proofs.Scoping.Visit

What the walk over a part of a tree owes to the rules of scope, and how such walks are put
together.

* `Answers`       — a reference leads where the declarations in front of a use say, and a later
  look into the scopes around it sees what they declare in all.
* `Walk.Visits`   — a walk declares what its part of the tree declares, and each reference that it
  records answers a use of that part.
* `Visits.bind`, `Visits.within` — one walk behind the other, and a walk in a scope of its own.
-/

namespace LuaScope

variable {σ : Type}

/-! ## The part of the state that a walk leaves alone -/

/-- The walk is back in its scope, which has the same parent, and of the others only the children
changed. -/
structure Binder.Frame (b b' : Binder σ) : Prop where
  scope : b'.scope = b.scope
  size : b.table.scopes.size ≤ b'.table.scopes.size
  entries : ∃ extra, b'.table.entries = b.table.entries ++ extra
  scopes : ∀ (i : Nat) s, i ≠ b.scope → b.table.scopes[i]? = some s →
    ∃ s', b'.table.scopes[i]? = some s' ∧ s.Agrees s'
  parent : ∀ s, b.table.scopes[b.scope]? = some s →
    ∃ s', b'.table.scopes[b.scope]? = some s' ∧ s'.parent = s.parent

namespace Binder.Frame

variable {b b' b'' : Binder σ}

theorem of_scopes_eq (hscope : b'.scope = b.scope)
    (hentries : ∃ extra, b'.table.entries = b.table.entries ++ extra)
    (hscopes : b'.table.scopes = b.table.scopes) : Frame b b' := by
  refine ⟨hscope, Nat.le_of_eq (by rw [hscopes]), hentries, fun i s _ hs => ?_, fun s hs => ?_⟩
  · exact ⟨s, by rw [hscopes, hs], rfl, rfl⟩
  · exact ⟨s, by rw [hscopes, hs], rfl⟩

theorem trans (h : Frame b b') (h' : Frame b' b'') : Frame b b'' := by
  refine ⟨h'.scope.trans h.scope, Nat.le_trans h.size h'.size, ?_, fun i s hi hs => ?_,
    fun s hs => ?_⟩
  · obtain ⟨extra, hextra⟩ := h.entries
    obtain ⟨extra', hextra'⟩ := h'.entries
    exact ⟨extra ++ extra', by rw [hextra', hextra, List.append_assoc]⟩
  · obtain ⟨s', hs', hagrees⟩ := h.scopes i s hi hs
    obtain ⟨s'', hs'', hagrees'⟩ := h'.scopes i s' (by rw [h.scope]; exact hi) hs'
    exact ⟨s'', hs'', hagrees.trans hagrees'⟩
  · obtain ⟨s', hs', hparent⟩ := h.parent s hs
    obtain ⟨s'', hs'', hparent'⟩ := h'.parent s' (by rw [h.scope]; exact hs')
    exact ⟨s'', by rw [← h.scope]; exact hs'', hparent'.trans hparent⟩

theorem keeps (h : Frame b b') : b.table.Keeps b'.table := by
  obtain ⟨_, hextra⟩ := h.entries
  exact .of_append hextra

end Binder.Frame

/-! ## Answers -/

/-- The target is the symbol of this entry; without an entry there is none. -/
def SymbolTable.Leads (t : SymbolTable) (target : Option Link) (e? : Option Entry) : Prop :=
  ∃ found : Option SymbolId, target = found.map .here ∧ t.Finds found e?

/-- The table is what this one becomes, whose scopes from `first` on are complete. -/
structure SymbolTable.Completes (first : Nat) (t complete : SymbolTable) : Prop where
  keeps : t.Keeps complete
  scopes : ∀ (i : Nat) s, first ≤ i → t.scopes[i]? = some s →
    ∃ s', complete.scopes[i]? = some s' ∧ s.Agrees s'

/--
The reference, recorded on the way from `b` to `b'` in the scopes `env`, answers this use. A use as
a variable leads to the entry in front of it. When the scopes around the walk are complete, so are
those around the use.
-/
structure Answers (s : Setting σ) (env : Env) (b b' : Binder σ) (r : Reference) (u : Use) :
    Prop where
  span : r.span = u.ident.span
  text : u.isVariable = true → r.text = s.pathText u.ident u.ident
  anchor : u.isVariable = true → r.anchor = u.ident.span.start
  target : u.isVariable = true → b'.table.Leads r.target
    ((u.env.levels s.allowDefined).flatten.find? (·.name == u.ident.name))
  complete : u.isVariable = true → ∀ t, b'.table.Completes b.table.scopes.size t →
    Holds t b.scope (env.finalLevels s.allowDefined) →
      Holds t r.scope (u.env.finalLevels s.allowDefined)

namespace Answers

variable {s : Setting σ} {env env' : Env} {b b' b'' : Binder σ} {r : Reference} {u : Use}

/-- The walk began earlier. -/
theorem before (h : Answers s env' b' b'' r u) (hframe : b.Frame b')
    (hfinal : env'.finalLevels s.allowDefined = env.finalLevels s.allowDefined) :
    Answers s env b b'' r u where
  span := h.span
  text := h.text
  anchor := h.anchor
  target := h.target
  complete := by
    intro hvariable t hcomplete hholds
    refine h.complete hvariable t ⟨hcomplete.keeps, fun i s hi => ?_⟩ ?_
    · exact hcomplete.scopes i s (Nat.le_trans hframe.size hi)
    · rw [hframe.scope, hfinal]
      exact hholds

/-- The walk goes on. -/
theorem after (h : Answers s env b b' r u) (hscope : b'.scope = b.scope)
    (hlt : (b.scope : Nat) < b.table.scopes.size) (hframe : b'.Frame b'') :
    Answers s env b b'' r u where
  span := h.span
  text := h.text
  anchor := h.anchor
  target := by
    intro hvariable
    obtain ⟨found, hfound, hfinds⟩ := h.target hvariable
    exact ⟨found, hfound, hfinds.mono hframe.keeps⟩
  complete := by
    intro hvariable t hcomplete
    refine h.complete hvariable t ⟨fun id e he => ?_, fun i sc hi hsc => ?_⟩
    · exact hcomplete.keeps id e (hframe.keeps id e he)
    · have hne : i ≠ b'.scope := by
        rw [hscope]
        exact Nat.ne_of_gt (Nat.lt_of_lt_of_le hlt hi)
      obtain ⟨s', hs', hagrees⟩ := hframe.scopes i sc hne hsc
      obtain ⟨s'', hs'', hagrees'⟩ := hcomplete.scopes i s' hi hs'
      exact ⟨s'', hs'', hagrees.trans hagrees'⟩

end Answers

/-! ## Visits -/

/-- How many symbols stand at an offset. -/
def SymbolOver.countAt {ρ : Type} (p : Nat) (t : SymbolTableOver ρ) : Nat :=
  (t.entries.map (·.span.start)).count p

def Site.countAt (p : Nat) (sites : List Site) : Nat := (sites.map Site.start).count p

/-- From `b` to `b'` the scopes change from `env` to `env'`, references answer `uses`, and symbols
are made at `sites`. -/
structure Visit (s : Setting σ) (env env' : Env) (uses : List Use) (sites : List Site)
    (b b' : Binder σ) : Prop where
  frame : b.Frame b'
  holds : Holds b'.table b'.scope (env'.levels s.allowDefined)
  final : env'.finalLevels s.allowDefined = env.finalLevels s.allowDefined
  references : ∃ new, b'.references.toList = b.references.toList ++ new ∧
    ∀ r ∈ new, ∃ u ∈ uses, Answers s env b b' r u
  symbols : ∀ p, SymbolOver.countAt p b'.table ≤ SymbolOver.countAt p b.table + Site.countAt p sites

/-- Run where the scopes hold what `env` says, the walk is such a visit. -/
def Walk.Visits {α : Type} (s : Setting σ) (env env' : Env) (uses : List Use) (sites : List Site)
    (w : Walk σ α) : Prop :=
  ∀ b, Holds b.table b.scope (env.levels s.allowDefined) → Visit s env env' uses sites b (w b).2

namespace Visit

variable {s : Setting σ} {env env' env'' : Env} {uses uses' : List Use} {a c : List Site}
  {b b' b'' : Binder σ}

theorem trans (hlt : (b.scope : Nat) < b.table.scopes.size) (h : Visit s env env' uses a b b')
    (h' : Visit s env' env'' uses' c b' b'') :
    Visit s env env'' (uses ++ uses') (a ++ c) b b'' where
  frame := h.frame.trans h'.frame
  holds := h'.holds
  final := h'.final.trans h.final
  references := by
    obtain ⟨new, hnew, hanswers⟩ := h.references
    obtain ⟨new', hnew', hanswers'⟩ := h'.references
    refine ⟨new ++ new', by rw [hnew', hnew, List.append_assoc], fun r hr => ?_⟩
    rcases List.mem_append.mp hr with hr | hr
    · obtain ⟨u, hu, hanswer⟩ := hanswers r hr
      exact ⟨u, List.mem_append_left _ hu, hanswer.after h.frame.scope hlt h'.frame⟩
    · obtain ⟨u, hu, hanswer⟩ := hanswers' r hr
      exact ⟨u, List.mem_append_right _ hu, hanswer.before h.frame h.final⟩
  symbols := by
    intro p
    have hfirst := h.symbols p
    have hsecond := h'.symbols p
    simp only [Site.countAt, List.map_append, List.count_append] at hfirst hsecond ⊢
    omega

theorem mono (h : Visit s env env' uses a b b') (huses : uses ⊆ uses')
    (hsites : ∀ p, Site.countAt p a ≤ Site.countAt p c) : Visit s env env' uses' c b b' where
  frame := h.frame
  holds := h.holds
  final := h.final
  references := by
    obtain ⟨new, hnew, hanswers⟩ := h.references
    refine ⟨new, hnew, fun r hr => ?_⟩
    obtain ⟨u, hu, hanswer⟩ := hanswers r hr
    exact ⟨u, huses hu, hanswer⟩
  symbols := fun p => Nat.le_trans (h.symbols p) (Nat.add_le_add_left (hsites p) _)

/-- A change that neither opens a scope nor records a reference, and that makes symbols without a
name in any scope. -/
theorem of_quiet (hholds : Holds b.table b.scope (env.levels s.allowDefined))
    (hscope : b'.scope = b.scope) (hscopes : b'.table.scopes = b.table.scopes)
    (hreferences : b'.references = b.references) {extra : List Entry}
    (hentries : b'.table.entries = b.table.entries ++ extra)
    (hextra : extra.map (·.span.start) = a.map Site.start) : Visit s env env [] a b b' := by
  have hframe : b.Frame b' := .of_scopes_eq hscope ⟨extra, hentries⟩ hscopes
  refine ⟨hframe, ?_, rfl, ⟨[], by rw [hreferences, List.append_nil], nofun⟩, fun p => ?_⟩
  · rw [hscope]
    exact hholds.mono hframe.keeps fun i sc _ hsc => ⟨sc, by rw [hscopes, hsc], rfl, rfl⟩
  · unfold SymbolOver.countAt Site.countAt
    rw [hentries, List.map_append, List.count_append, hextra]

end Visit

namespace Walk.Visits

variable {α β : Type} {s : Setting σ} {env env' env'' : Env} {uses uses' : List Use}
  {a c : List Site}

theorem bind {w : Walk σ α} {k : α → Walk σ β} (hw : Visits s env env' uses a w)
    (hk : ∀ x, Visits s env' env'' uses' c (k x)) :
    Visits s env env'' (uses ++ uses') (a ++ c) (w >>= k) := by
  intro b hholds
  have hfirst := hw b hholds
  exact hfirst.trans hholds.lt_size (hk (w b).1 (w b).2 hfirst.holds)

theorem mono {w : Walk σ α} (h : Visits s env env' uses a w) (huses : uses ⊆ uses')
    (hsites : ∀ p, Site.countAt p a ≤ Site.countAt p c) : Visits s env env' uses' c w :=
  fun b hholds => (h b hholds).mono huses hsites

theorem pure (x : α) : Visits s env env [] [] (Pure.pure x : Walk σ α) := fun _ hholds =>
  Visit.of_quiet hholds rfl rfl rfl (List.append_nil _).symm rfl

/-- Nothing is used or made at further sites. -/
theorem widen {w : Walk σ α} (h : Visits s env env' [] [] w) : Visits s env env' uses a w :=
  h.mono (List.nil_subset _) fun _ => Nat.zero_le _

/-- A walk in a scope of its own, which declares all that the scope declares. -/
theorem within {all : List Decl} {inside : Walk σ Unit}
    (h : Visits s (⟨[], all⟩ :: env) (⟨all.reverse, all⟩ :: env) uses a inside)
    (kind : ScopeKind) (span : Span) : Visits s env env uses a (Walk.within kind span inside) := by
  intro b hholds
  have hlt := hholds.lt_size
  have hopened := hholds.addScope kind span
  have hvisit := h (b.enterScope kind span) hopened
  -- Of the scopes that were there only children changed.
  have hagrees : ∀ (i : Nat) sc, b.table.scopes[i]? = some sc →
      ∃ sc', (inside (b.enterScope kind span)).2.table.scopes[i]? = some sc' ∧ sc.Agrees sc' := by
    intro i sc hsc
    obtain ⟨sc', hsc', hfirst⟩ := b.table.getElem?_addScope b.scope kind span hsc
    have hold : i ≠ b.table.nextScopeId :=
      Nat.ne_of_lt (Array.getElem?_eq_some_iff.mp hsc).1
    obtain ⟨sc'', hsc'', hsecond⟩ := hvisit.frame.scopes i sc' hold hsc'
    exact ⟨sc'', hsc'', hfirst.trans hsecond⟩
  have hsize : b.table.scopes.size ≤ (b.enterScope kind span).table.scopes.size := by
    simp [Binder.enterScope, SymbolTableOver.addScope]
  have hkeeps : b.table.Keeps (inside (b.enterScope kind span)).2.table := hvisit.frame.keeps
  refine ⟨⟨rfl, Nat.le_trans hsize hvisit.frame.size, hvisit.frame.entries,
    fun i sc _ => hagrees i sc, fun sc hsc => ?_⟩, ?_, rfl, ?_, hvisit.symbols⟩
  · obtain ⟨sc', hsc', hagree⟩ := hagrees _ sc hsc
    exact ⟨sc', hsc', hagree.1⟩
  · exact hholds.mono hkeeps fun i sc _ => hagrees i sc
  · obtain ⟨new, hnew, hanswers⟩ := hvisit.references
    refine ⟨new, hnew, fun r hr => ?_⟩
    obtain ⟨u, hu, hanswer⟩ := hanswers r hr
    refine ⟨u, hu, hanswer.span, hanswer.text, hanswer.anchor, hanswer.target, ?_⟩
    intro hvariable t hcomplete houter
    refine hanswer.complete hvariable t ⟨hcomplete.keeps, fun i sc hi => ?_⟩ ?_
    · exact hcomplete.scopes i sc (Nat.le_trans hsize hi)
    · -- The scope is complete when the walk leaves it.
      have hdone := hvisit.holds
      rw [hvisit.frame.scope] at hdone
      obtain ⟨sc, hsc, hlists⟩ := hdone.lists
      obtain ⟨sc', hsc', hparent⟩ :=
        hvisit.frame.parent _ (b.table.getElem?_addScope_new hlt kind span)
      rw [hsc] at hsc'
      cases hsc'
      obtain ⟨sc', hsc', hagree⟩ := hcomplete.scopes _ sc (Nat.le_refl _) hsc
      exact .inner hsc' (hagree.1.trans hparent) hlt (hlists.mono hcomplete.keeps hagree.2) houter

end Walk.Visits

end LuaScope

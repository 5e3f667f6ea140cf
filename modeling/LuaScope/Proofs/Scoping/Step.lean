import LuaScope.Proofs.Scoping.Visit

/-!
# LuaScope.Proofs.Scoping.Step

The single steps of a walk as visits: recording the segments of a path, declaring names, assigning
to a name and defining a member.
-/

namespace LuaScope

variable {σ : Type}

/-! ## Steps that change types alone -/

/-- Scopes, references and what the symbols declare are the same. -/
structure Binder.Quiet (b b' : Binder σ) : Prop where
  scope : b'.scope = b.scope
  references : b'.references = b.references
  scopes : b'.table.scopes = b.table.scopes
  entries : b'.table.entries = b.table.entries

namespace Binder

theorem Quiet.refl (b : Binder σ) : Quiet b b := ⟨rfl, rfl, rfl, rfl⟩

theorem Quiet.trans {b b' b'' : Binder σ} (h : Quiet b b') (h' : Quiet b' b'') : Quiet b b'' :=
  ⟨h'.scope.trans h.scope, h'.references.trans h.references, h'.scopes.trans h.scopes,
    h'.entries.trans h.entries⟩

theorem entries_modifySymbol (b : Binder σ) (id : SymbolId) {f : Symbol → Symbol}
    (hf : SymbolOver.Keeps f) : (b.modifySymbol id f).table.entries = b.table.entries := by
  have hentry : ∀ x : Symbol, (f x).entry = x.entry := by
    intro x
    simp only [SymbolOver.entry, hf.name, hf.span, hf.isLocal]
  refine List.ext_getElem? fun i => ?_
  simp only [SymbolTableOver.entries_getElem?, SymbolTableOver.symbol?, modifySymbol,
    SymbolTableOver.modifySymbol, Array.getElem?_modify]
  split
  · cases b.table.symbols[i]? with
    | none => rfl
    | some x => exact congrArg some (hentry x)
  · rfl

theorem quietLaws (s : Setting σ) : TypeLaws s (Quiet (σ := σ)) where
  refl := .refl
  trans _ _ _ := .trans
  modify id _ b hf := ⟨rfl, rfl, rfl, b.entries_modifySymbol id hf⟩
  load _ _ := ⟨rfl, rfl, rfl, rfl⟩

theorem quiet_noteReturn (b : Binder σ) (value : Inferred) : Quiet b (b.noteReturn value) := by
  unfold noteReturn
  split
  · exact .refl b
  · dsimp only
    split_ifs <;> exact ⟨rfl, rfl, rfl, rfl⟩

theorem quiet_popFrame (b : Binder σ) : Quiet b b.popFrame.2 := by
  unfold popFrame
  split <;> exact ⟨rfl, rfl, rfl, rfl⟩

end Binder

section Quiet

variable {s : Setting σ} {env env' : Env} {uses : List Use} {sites : List Site}
  {b b' b'' : Binder σ}

theorem Visit.quiet (hholds : Holds b.table b.scope (env.levels s.allowDefined))
    (h : b.Quiet b') : Visit s env env [] [] b b' :=
  .of_quiet hholds h.scope h.scopes h.references (by rw [h.entries, List.append_nil]) rfl

theorem Visit.andQuiet (hlt : (b.scope : Nat) < b.table.scopes.size)
    (h : Visit s env env' uses sites b b') (hquiet : b'.Quiet b'') :
    Visit s env env' uses sites b b'' := by
  have htrans := h.trans hlt (.quiet h.holds hquiet)
  rwa [List.append_nil, List.append_nil] at htrans

theorem Walk.Visits.quiet {α : Type} {w : Walk σ α} (h : ∀ b, Binder.Quiet b (w b).2) :
    Walk.Visits s env env [] [] w := fun b hholds => .quiet hholds (h b)

end Quiet

/-! ## References -/

section References

variable {s : Setting σ} {env : Env} {b : Binder σ}

theorem frame_record (first last : Ident) (target : Option Link) :
    b.Frame (b.record s first last target) :=
  .of_scopes_eq rfl ⟨[], (List.append_nil _).symm⟩ rfl

theorem visit_record (hholds : Holds b.table b.scope (env.levels s.allowDefined))
    {first last : Ident} {target : Option Link} {u : Use}
    (h : ∀ r : Reference,
      r = { text := s.pathText first last, range := s.range last.span, span := last.span,
            scope := b.scope, anchor := first.span.start, target := target } →
      Answers s env b (b.record s first last target) r u) :
    Visit s env env [u] [] b (b.record s first last target) where
  frame := frame_record first last target
  holds := hholds
  final := rfl
  references := by
    refine ⟨_, Array.toList_push, fun r hr => ⟨u, .head _, h r ?_⟩⟩
    exact List.mem_singleton.mp hr
  symbols := fun p => Nat.le_add_right _ _

/-- Nothing is asked of the reference to a member. -/
theorem visit_recordMember (hholds : Holds b.table b.scope (env.levels s.allowDefined))
    (env' : Env) (first last : Ident) (target : Option Link) :
    Visit s env env [⟨last, false, env'⟩] [] b (b.record s first last target) := by
  refine visit_record hholds fun r hr => ?_
  subst hr
  exact ⟨rfl, nofun, nofun, nofun, nofun⟩

/-- What a lookup in front of all sites of a tree finds. -/
theorem lookup_before {sites : List Site} {ident : Ident}
    (hholds : Holds b.table b.scope (env.levels s.allowDefined)) (hbefore : env.Precedes sites)
    (hsite : .name ident ∈ sites) :
    b.table.Finds (b.table.lookup b.scope ident.name ident.span.start)
      ((env.levels s.allowDefined).flatten.find? (·.name == ident.name)) := by
  rw [← lookBack_eq ident.name ident.span.start]
  · exact SymbolTableOver.lookup_finds hholds ident.name ident.span.start
  · exact fun e he => Nat.le_of_lt (Env.start_lt_of_mem_levels hbefore hsite he)

/-- A reference to a variable that is looked up where it is recorded. -/
theorem visit_recordVariable {sites : List Site} {ident : Ident}
    (hholds : Holds b.table b.scope (env.levels s.allowDefined)) (hbefore : env.Precedes sites)
    (hsite : .name ident ∈ sites) (env' : Env)
    (hlevels : env'.levels s.allowDefined = env.levels s.allowDefined)
    (hfinal : env'.finalLevels s.allowDefined = env.finalLevels s.allowDefined) :
    Visit s env env [⟨ident, true, env'⟩] [] b (b.record s ident ident
      ((b.table.lookup b.scope ident.name ident.span.start).map .here)) := by
  refine visit_record hholds fun r hr => ?_
  subst hr
  refine ⟨rfl, fun _ => rfl, fun _ => rfl, fun _ => ?_, fun _ t _ hcomplete => ?_⟩
  · rw [hlevels]
    exact ⟨_, rfl, lookup_before hholds hbefore hsite⟩
  · rw [hfinal]
    exact hcomplete

theorem visit_recordMembers (first : Ident) :
    ∀ (segments : List Ident) (links : List (Option Link)) (b : Binder σ),
      Holds b.table b.scope (env.levels s.allowDefined) →
      Visit s env env (segments.map (⟨·, false, env⟩)) [] b (b.recordAll s first segments links)
  | [], _, b, hholds => .quiet hholds (.refl b)
  | _ :: _, [], b, hholds =>
    (Visit.quiet hholds (.refl b)).mono (List.nil_subset _) fun _ => Nat.le_refl _
  | segment :: segments, link :: links, _, hholds =>
    (visit_recordMember hholds env first segment link).trans hholds.lt_size
      (visit_recordMembers first segments links _ hholds)

theorem length_walkFrom (at? : Option Located) (path : List Ident) :
    (Binder.walkFrom at? path).length = path.length := by
  induction path generalizing at? with
  | nil => rfl
  | cons segment rest ih => exact congrArg (· + 1) (ih _)

/-- The links of a path start with what a lookup of its first name finds. -/
theorem walkPath_cons (b : Binder σ) (first : Ident) (rest : List Ident) :
    ∃ links, links.length = rest.length ∧ b.walkPath (first :: rest) =
      (b.table.lookup b.scope first.name first.span.start).map .here :: links := by
  refine ⟨Binder.walkFrom
    ((b.table.lookup b.scope first.name first.span.start).map b.home.locate) rest,
    length_walkFrom _ rest, ?_⟩
  unfold Binder.walkPath
  simp only [Option.map_map]
  rfl

/-- The references of a path, or of a part of it in front. -/
theorem visit_recordPath {sites : List Site} {first : Ident}
    (hholds : Holds b.table b.scope (env.levels s.allowDefined)) (hbefore : env.Precedes sites)
    (hsite : .name first ∈ sites) (rest : List Ident) (links : List (Option Link)) :
    Visit s env env (pathUses env (first :: rest)) [] b
      (b.recordAll s first (first :: rest)
        ((b.table.lookup b.scope first.name first.span.start).map .here :: links)) :=
  (visit_recordVariable hholds hbefore hsite env rfl rfl).trans hholds.lt_size
    (visit_recordMembers first rest links _ hholds)

theorem Walk.path_visits (path : List Ident) (hbefore : env.Precedes (path.map .name)) :
    Walk.Visits s env env (pathUses env path) [] (Walk.inferPath s path) := by
  intro b hholds
  cases path with
  | nil => exact .quiet hholds (.refl b)
  | cons first rest =>
    obtain ⟨links, _, hlinks⟩ := walkPath_cons b first rest
    have hvisit := visit_recordPath hholds hbefore (.head _) rest links
    simp only [Walk.inferPath, Binder.inferPath, hlinks]
    split <;> exact hvisit

/-- The key of an element whose base is no path counts as a member. -/
theorem Walk.key_visits (key : Ident) (depth : Nat) :
    Walk.Visits s env env [⟨key, false, env⟩] [] (Walk.inferName s key depth) := by
  intro b hholds
  simp only [Walk.inferName]
  split
  · exact (Visit.quiet hholds (.refl b)).mono (List.nil_subset _) fun _ => Nat.le_refl _
  · obtain ⟨links, _, hlinks⟩ := walkPath_cons b key []
    have hvisit := visit_recordMember hholds env key key
      ((b.table.lookup b.scope key.name key.span.start).map .here)
    have hrecord : ∀ links, b.recordAll s key [key]
        ((b.table.lookup b.scope key.name key.span.start).map .here :: links) =
        b.record s key key ((b.table.lookup b.scope key.name key.span.start).map .here) := by
      intro links
      cases links <;> rfl
    simp only [Walk.inferPath, Binder.inferPath, hlinks, hrecord]
    split <;> exact hvisit

end References

/-! ## Declarations -/

/-- Only names that are bound at once take effect when they are known. -/
theorem Decl.takesEffect_of_known (free : Bool) {known : List Entry} {d : Decl} {e : Entry}
    (hkind : d.kind ≠ .local ∧ d.kind ≠ .global)
    (hfind : known.find? (·.name == d.ident.name) = some e) : d.takesEffect free known = false := by
  have he := List.find?_some hfind
  have hany : known.any (·.name == d.ident.name) = true :=
    List.any_eq_true.mpr ⟨e, List.mem_of_find?_eq_some hfind, he⟩
  unfold takesEffect
  rw [hany]
  split <;> simp_all

theorem Decl.takesEffect_of_unknown {free : Bool} {known : List Entry} {d : Decl}
    (hfree : d.kind = .assigned → free = true)
    (hfind : known.find? (·.name == d.ident.name) = none) : d.takesEffect free known = true := by
  have hany : known.any (·.name == d.ident.name) = false := by
    rw [List.any_eq_false]
    exact List.find?_eq_none.mp hfind
  unfold takesEffect
  rw [hany]
  split <;> simp_all

namespace Env

variable {allow : Bool} {d : Decl}

theorem levels_declare_of_idle {env : Env}
    (heffect : d.takesEffect (allow || env.tail.isEmpty) (env.levels allow).flatten = false) :
    (env.declare [d]).levels allow = env.levels allow := by
  cases env with
  | nil => rfl
  | cons v outer =>
    rw [levels, List.flatten_cons] at heffect
    simp only [declare, levels, List.reverse_singleton, List.singleton_append, Level.ofDecls,
      List.foldr_cons, Level.add, List.tail_cons] at heffect ⊢
    rw [heffect, if_neg Bool.false_ne_true]

theorem levels_declare_of_takesEffect {env : Env} (hne : env ≠ [])
    (heffect : d.takesEffect (allow || env.tail.isEmpty) (env.levels allow).flatten = true) :
    ∃ level outer, env.levels allow = level :: outer ∧
      (env.declare [d]).levels allow = (d.entry :: level) :: outer := by
  cases env with
  | nil => exact absurd rfl hne
  | cons v outer =>
    refine ⟨_, _, rfl, ?_⟩
    rw [levels, List.flatten_cons] at heffect
    simp only [declare, levels, List.reverse_singleton, List.singleton_append, Level.ofDecls,
      List.foldr_cons, Level.add, List.tail_cons] at heffect ⊢
    rw [heffect, if_pos rfl]

end Env

section Declarations

variable {s : Setting σ} {env : Env} {b : Binder σ}

theorem Holds.env_ne_nil {allow : Bool}
    (hholds : Holds b.table b.scope (env.levels allow)) : env ≠ [] := by
  intro hnil
  exact hholds.ne_nil (by rw [hnil]; rfl)

/-- Making a symbol for a declaration that takes effect. -/
theorem visit_declare {d : Decl} {x : Symbol} {site : Site}
    (hholds : Holds b.table b.scope (env.levels s.allowDefined))
    (heffect : d.takesEffect (s.allowDefined || env.tail.isEmpty)
      (env.levels s.allowDefined).flatten = true)
    (hid : x.id = b.table.nextSymbolId) (hscope : x.scope = b.scope) (hentry : x.entry = d.entry)
    (hsite : site.start = d.start) (hbefore : env.Precedes [site]) :
    Visit s env (env.declare [d]) [] [site] b (b.declare x) := by
  obtain ⟨level, outer, hlevels, hdeclared⟩ :=
    Env.levels_declare_of_takesEffect hholds.env_ne_nil heffect
  have hstart : ∀ e ∈ level, e.span.start ≤ x.span.start := by
    intro e he
    have hmem : e ∈ (env.levels s.allowDefined).flatten := by
      rw [hlevels]
      exact List.mem_append_left _ he
    have hlt := Env.start_lt_of_mem_levels hbefore (.head _) hmem
    have hspan : x.span = d.ident.span := congrArg Entry.span hentry
    rw [hspan]
    exact Nat.le_of_lt (hlt.trans_eq hsite)
  have hentries := b.table.entries_declare x
  refine ⟨⟨rfl, ?_, ⟨_, hentries⟩, ?_, ?_⟩, ?_, Env.finalLevels_declare _ _ _,
    ⟨[], (List.append_nil _).symm, nofun⟩, ?_⟩
  · exact Nat.le_of_eq (Array.size_modify).symm
  · intro i sc hi hsc
    exact ⟨sc, by
      rw [← hsc]
      exact b.table.getElem?_declare x (by rw [hscope]; exact hi), rfl, rfl⟩
  · intro sc hsc
    rw [← hscope] at hsc ⊢
    exact ⟨_, b.table.getElem?_declare_self x hsc, rfl⟩
  · rw [hlevels, ← hscope] at hholds
    rw [hdeclared, ← hentry]
    have hnew := hholds.declare hid hstart
    rw [hscope] at hnew
    exact hnew
  · intro p
    have hspan : x.entry.span.start = site.start := by
      rw [hentry, hsite]
      rfl
    unfold SymbolOver.countAt Site.countAt
    simp only [Binder.declare, hentries, List.map_append, List.count_append, List.map_cons,
      List.map_nil, hspan]
    exact Nat.le_refl _

/-- The same walk, for scopes that hold the same. -/
theorem Visit.congr {env' env'' : Env} {uses : List Use} {sites : List Site} {b' : Binder σ}
    (h : Visit s env env' uses sites b b')
    (hlevels : env''.levels s.allowDefined = env'.levels s.allowDefined)
    (hfinal : env''.finalLevels s.allowDefined = env'.finalLevels s.allowDefined) :
    Visit s env env'' uses sites b b' :=
  ⟨h.frame, by rw [hlevels]; exact h.holds, hfinal.trans h.final, h.references, h.symbols⟩

/-- Making a symbol that is local at once. -/
theorem visit_local {ident : Ident} {kind : DeclKind} (hkind : kind = .local ∨ kind = .global)
    (hholds : Holds b.table b.scope (env.levels s.allowDefined))
    (hbefore : env.Precedes [.name ident]) (as : SymbolKind) (statement : Span) (value : Inferred)
    (doc : Option String) :
    Visit s env (env.declare [⟨ident, kind⟩]) [] [.name ident] b
      (b.declare (Binder.newSymbol s b ident as statement value true doc)) := by
  refine visit_declare hholds ?_ rfl rfl ?_ rfl hbefore
  · rcases hkind with rfl | rfl <;> rfl
  · rcases hkind with rfl | rfl <;> rfl

theorem visit_declareLocals {kind : DeclKind} (hkind : kind = .local ∨ kind = .global)
    (statement : Span) (doc : Option String) :
    ∀ (names : List Ident) (values : List Inferred) (env : Env) (b : Binder σ),
      Holds b.table b.scope (env.levels s.allowDefined) → env.Precedes (names.map .name) →
      Visit s env (env.declare (names.map (⟨·, kind⟩))) [] (names.map .name) b
        (b.declareLocals s statement doc names values)
  | [], _, env, b, hholds, _ => by
    rw [List.map_nil, Env.declare_nil]
    exact .quiet hholds (.refl b)
  | name :: names, values, env, b, hholds, hbefore => by
    have hlt := hholds.lt_size
    have hfirst := visit_local hkind hholds (Env.Precedes.left (a := [.name name]) hbefore)
      (.ofTy (values.headD {}).ty .variable) statement (values.headD {}) doc
    have hadopted := hfirst.andQuiet hlt ((Binder.quietLaws s).adopt b.table.nextSymbolId _)
    have hrest := visit_declareLocals hkind statement doc names values.tail _ _ hadopted.holds
      (hbefore.declare (a := [.name name]) (.names kind [name]))
    rw [Env.declare_append] at hrest
    exact hadopted.trans hlt hrest

theorem visit_declareCounters (statement : Span) (ty : Ty) :
    ∀ (names : List Ident) (env : Env) (b : Binder σ),
      Holds b.table b.scope (env.levels s.allowDefined) → env.Precedes (names.map .name) →
      Visit s env (env.declare (names.map (⟨·, .local⟩))) [] (names.map .name) b
        (names.foldl (fun b name => b.declareCounter s statement ty name) b)
  | [], env, b, hholds, _ => by
    rw [List.map_nil, Env.declare_nil]
    exact .quiet hholds (.refl b)
  | name :: names, env, b, hholds, hbefore => by
    have hfirst := visit_local (.inl rfl) hholds (Env.Precedes.left (a := [.name name]) hbefore)
      .variable statement { ty := ty } none
    have hrest := visit_declareCounters statement ty names _ _ hfirst.holds
      (hbefore.declare (a := [.name name]) (.names .local [name]))
    rw [Env.declare_append] at hrest
    exact hfirst.trans hholds.lt_size hrest

theorem visit_declareParameters (parameters : Span) :
    ∀ (entries : List Parameter) (env : Env) (b : Binder σ),
      Holds b.table b.scope (env.levels s.allowDefined) →
      env.Precedes (entries.flatMap Parameter.sites) →
      Visit s env (env.declare (entries.flatMap Parameter.declares)) []
        (entries.flatMap Parameter.sites) b (b.declareParameters s parameters entries)
  | [], env, b, hholds, _ => by
    rw [List.flatMap_nil, Env.declare_nil]
    exact .quiet hholds (.refl b)
  | .vararg :: rest, env, b, hholds, hbefore =>
    visit_declareParameters parameters rest env b hholds hbefore
  | .name name :: rest, env, b, hholds, hbefore => by
    have hfirst := visit_local (.inl rfl) hholds (Env.Precedes.left (a := [.name name]) hbefore)
      .parameter parameters {} none
    have hrest := visit_declareParameters parameters rest _ _ hfirst.holds
      (hbefore.declare (a := [.name name]) (.names .local [name]))
    rw [Env.declare_append] at hrest
    exact hfirst.trans hholds.lt_size hrest

theorem visit_declareSelf {parameters : Parameters}
    (hholds : Holds b.table b.scope (env.levels s.allowDefined))
    (hbefore : env.Precedes [.receiver parameters.span.start]) (container : Option Link) :
    Visit s env (env.declare [parameters.receiver]) [] [.receiver parameters.span.start] b
      (b.declareSelf s parameters.span container) :=
  visit_declare hholds rfl rfl rfl rfl rfl hbefore

/-! ### Assigned names and functions -/

/-- The outermost scope, and no other, is the root scope. -/
theorem isEmpty_tail_of_root (hholds : Holds b.table b.scope (env.levels s.allowDefined)) :
    env.tail.isEmpty = decide (b.scope = SymbolTableOver.rootId) := by
  cases env with
  | nil => exact absurd rfl hholds.env_ne_nil
  | cons v outer =>
    have hroot := hholds.eq_root_iff
    have hempty : Env.levels s.allowDefined outer = [] ↔ outer = [] := by
      cases outer with
      | nil => exact ⟨fun _ => rfl, fun _ => rfl⟩
      | cons => exact ⟨nofun, nofun⟩
    rw [hempty] at hroot
    rw [List.tail_cons, Bool.eq_iff_iff, List.isEmpty_iff, decide_eq_true_iff]
    exact hroot.symm

theorem visit_assignName {ident : Ident}
    (hholds : Holds b.table b.scope (env.levels s.allowDefined))
    (hbefore : env.Precedes [.name ident]) (statement : Span) (value : Inferred)
    (doc : Option String) :
    Visit s env (env.declare [⟨ident, .assigned⟩]) [⟨ident, true, env⟩] [.name ident] b
      (b.assignName s ident statement value doc) := by
  have hlt := hholds.lt_size
  have hlookup := lookup_before hholds hbefore (.head _)
  have hrecord := visit_recordVariable hholds hbefore (.head _) env rfl rfl
  have hfinal := Env.finalLevels_declare s.allowDefined env [⟨ident, .assigned⟩]
  unfold Binder.assignName
  cases hfind : (env.levels s.allowDefined).flatten.find? (·.name == ident.name) with
  | some e =>
    rw [hfind] at hlookup
    obtain ⟨id, hid, _⟩ := SymbolTableOver.finds_some.mp hlookup
    rw [hid] at hrecord ⊢
    have hidle := Decl.takesEffect_of_known (d := ⟨ident, .assigned⟩)
      (s.allowDefined || env.tail.isEmpty) ⟨nofun, nofun⟩ hfind
    have hvisit := (hrecord.andQuiet hlt ((Binder.quietLaws s).refine id value _)).congr
      (Env.levels_declare_of_idle hidle) hfinal
    exact hvisit.mono (List.Subset.refl _) fun _ => Nat.zero_le _
  | none =>
    rw [hfind] at hlookup
    rw [SymbolTableOver.finds_none.mp hlookup] at hrecord ⊢
    simp only
    have hfree : (s.allowDefined || env.tail.isEmpty) =
        (decide (b.scope = SymbolTableOver.rootId) || s.allowDefined) := by
      rw [isEmpty_tail_of_root hholds, Bool.or_comm]
    split
    · rename_i hroot
      have heffect : Decl.takesEffect (s.allowDefined || env.tail.isEmpty)
          (env.levels s.allowDefined).flatten ⟨ident, .assigned⟩ = true :=
        Decl.takesEffect_of_unknown (fun _ => hfree.trans hroot) hfind
      have hmade := visit_declare hholds heffect
        (x := Binder.newSymbol s b ident (.ofTy value.ty .variable) statement value false doc)
        rfl rfl rfl rfl hbefore
      exact (hmade.andQuiet hlt ((Binder.quietLaws s).adopt _ _)).mono (List.nil_subset _)
        fun _ => Nat.le_refl _
    · rename_i hroot
      have hidle : Decl.takesEffect (s.allowDefined || env.tail.isEmpty)
          (env.levels s.allowDefined).flatten ⟨ident, .assigned⟩ = false := by
        rw [hfree, Bool.eq_false_iff.mpr hroot]
        rfl
      exact (hrecord.congr (Env.levels_declare_of_idle hidle) hfinal).mono (List.Subset.refl _)
        fun _ => Nat.zero_le _

/-! ### Members -/

theorem Site.countAt_le_of_mem {site : Site} {sites : List Site} (h : site ∈ sites) (p : Nat) :
    Site.countAt p [site] ≤ Site.countAt p sites := by
  obtain ⟨front, rest, rfl⟩ := List.append_of_mem h
  simp only [Site.countAt, List.map_append, List.map_cons, List.map_nil, List.count_append,
    List.count_cons, List.count_nil]
  omega

/-- A member is a symbol that no scope lists. -/
theorem visit_addMember (hholds : Holds b.table b.scope (env.levels s.allowDefined)) {x : Symbol}
    {site : Site} (hsite : x.span.start = site.start) :
    Visit s env env [] [site] b (b.addMember x) := by
  have hentries : (b.addMember x).table.entries = b.table.entries ++ [x.entry] := by
    simp [Binder.addMember, SymbolTableOver.addMember, SymbolTableOver.entries]
  exact .of_quiet hholds rfl rfl rfl hentries (by simp [SymbolOver.entry, hsite])

theorem visit_insertMember {link : Link} {x : Symbol} {id : SymbolId} {b' : Binder σ}
    (site : Site) (hholds : Holds b.table b.scope (env.levels s.allowDefined))
    (hsite : x.span.start = site.start) (h : b.insertMember link x = some (id, b')) :
    Visit s env env [] [site] b b' := by
  unfold Binder.insertMember at h
  split at h
  · cases h
  · rename_i target _
    cases h
    have hlt := hholds.lt_size
    have htable : Visit s env env [] [] b (b.modifySymbol target Binder.asTable) :=
      .quiet hholds ((Binder.quietLaws s).modify target _ b Binder.keeps_asTable)
    have hmade := visit_addMember htable.holds (x := { x with container := some target }) hsite
    exact (htable.trans hlt hmade).andQuiet hlt
      ((Binder.quietLaws s).modify target _ _ (Binder.keeps_mapTable _))

theorem visit_defineMember {first second : Ident} {more : List Ident}
    (hholds : Holds b.table b.scope (env.levels s.allowDefined))
    (hbefore : env.Precedes ((first :: second :: more).map .name)) (kind : SymbolKind)
    (statement : Span) (value : Inferred) (doc : Option String) :
    Visit s env env (pathUses env (first :: second :: more))
      ((first :: second :: more).map .name) b
      (b.defineMember s (first :: second :: more) kind statement value doc).2 := by
  obtain ⟨last, hlast⟩ : ∃ last, (second :: more).getLast? = some last := ⟨_, List.getLast?_cons⟩
  have hmem : last ∈ second :: more := List.mem_of_getLast? hlast
  have hlt := hholds.lt_size
  -- The segments in front are recorded, and the last one at most once.
  obtain ⟨links, hlength, hlinks⟩ := walkPath_cons b first (second :: more)
  obtain ⟨link, links, rfl⟩ := List.exists_cons_of_length_eq_add_one hlength
  have hfront := visit_recordPath hholds hbefore (.head _) (second :: more)
    (link :: links).dropLast
  have hmembers : ∀ target, Visit s env env (pathUses env (first :: second :: more))
      ((first :: second :: more).map .name) b
      (Binder.record s first last target (b.recordAll s first (first :: second :: more)
        ((b.table.lookup b.scope first.name first.span.start).map .here ::
          (link :: links).dropLast))) := by
    intro target
    refine (hfront.trans hlt (visit_recordMember hfront.holds env first last target)).mono ?_
      fun _ => Nat.zero_le _
    refine List.append_subset.mpr ⟨List.Subset.refl _, ?_⟩
    intro u hu
    rw [List.mem_singleton.mp hu]
    exact .tail _ (List.mem_map.mpr ⟨last, hmem, rfl⟩)
  unfold Binder.defineMember
  simp only [List.head?_cons, List.getLast?_cons_cons, hlast, hlinks, List.dropLast_cons_cons]
  split
  · rename_i existing _
    split
    · exact (hmembers _).andQuiet hlt ((Binder.quietLaws s).refine _ value _)
    · exact hmembers _
  · split
    · exact hmembers none
    · rename_i container _
      split
      · rename_i id b' hinsert
        have hmade := visit_insertMember (.name last) hfront.holds rfl hinsert
        refine ((hfront.trans hlt hmade).andQuiet hlt ((Binder.quietLaws s).adopt id _)).mono ?_ ?_
        · rw [List.append_nil]
          exact List.Subset.refl _
        · exact fun p => Site.countAt_le_of_mem (List.mem_map_of_mem (.tail _ hmem)) p
      · exact hmembers none

/-! ### Functions -/

/-- A name alone is declared, unless it is known and no local. -/
theorem visit_declareName {head : Ident} {reach : FunctionReach}
    (hholds : Holds b.table b.scope (env.levels s.allowDefined))
    (hbefore : env.Precedes [.name head]) (statement : Span) (params : List String)
    (doc : Option String) :
    Visit s env (env.declare [⟨head, reach.declKind⟩])
      (FunctionName.uses ⟨head, [], none⟩ reach (env.declare [⟨head, reach.declKind⟩]))
      [.name head] b
      (b.declareFunction s reach ⟨head, [], none⟩ statement params doc).2 := by
  have hlt := hholds.lt_size
  have hlookup := lookup_before hholds hbefore (.head _)
  have hfinal := Env.finalLevels_declare s.allowDefined env [⟨head, reach.declKind⟩]
  have hother : reach ≠ .local → Visit s env (env.declare [⟨head, reach.declKind⟩])
      [⟨head, true, env.declare [⟨head, reach.declKind⟩]⟩] [.name head] b
      (b.declareFunction s reach ⟨head, [], none⟩ statement params doc).2 := by
    intro hreach
    have hkind : reach.declKind ≠ .local ∧ reach.declKind ≠ .global ∧
        reach.declKind ≠ .assigned := by
      cases reach <;> simp_all [FunctionReach.declKind]
    unfold Binder.declareFunction
    simp only [List.isEmpty_nil, Bool.not_true, Option.isSome_none, Bool.or_self,
      Bool.false_eq_true, if_false, if_neg hreach]
    cases hfind : (env.levels s.allowDefined).flatten.find? (·.name == head.name) with
    | some e =>
      have hidle := Decl.takesEffect_of_known (d := ⟨head, reach.declKind⟩)
        (s.allowDefined || env.tail.isEmpty) ⟨hkind.1, hkind.2.1⟩ hfind
      have hlevels := Env.levels_declare_of_idle hidle
      have hrecord := visit_recordVariable hholds hbefore (.head _) _ hlevels hfinal
      rw [hfind] at hlookup
      obtain ⟨id, hid, _⟩ := SymbolTableOver.finds_some.mp hlookup
      rw [hid] at hrecord ⊢
      have hquiet := (Binder.quietLaws s).modify id
        (fun x => { x with ty := .function params .unknown false })
        (b.record s head head (some (.here id))) (by constructor <;> intro x <;> rfl)
      exact ((hrecord.andQuiet hlt hquiet).congr hlevels hfinal).mono (List.Subset.refl _)
        fun _ => Nat.zero_le _
    | none =>
      rw [hfind] at hlookup
      rw [SymbolTableOver.finds_none.mp hlookup]
      have heffect : Decl.takesEffect (s.allowDefined || env.tail.isEmpty)
          (env.levels s.allowDefined).flatten ⟨head, reach.declKind⟩ = true :=
        Decl.takesEffect_of_unknown (fun hassigned => absurd hassigned hkind.2.2) hfind
      refine (visit_declare hholds heffect rfl rfl ?_ rfl hbefore).mono (List.nil_subset _)
        fun _ => Nat.le_refl _
      simp [SymbolOver.entry, Binder.newSymbol, Decl.entry, hkind.1, hkind.2.1]
  cases reach with
  | «local» => exact visit_local (.inl rfl) hholds hbefore .function statement _ doc
  | «global» => exact hother (by decide)
  | named => exact hother (by decide)

theorem visit_declareFunction {reach : FunctionReach} {name : FunctionName} (body : FunctionBody)
    (hholds : Holds b.table b.scope (env.levels s.allowDefined))
    (hbefore : env.Precedes (name.path.map .name)) (statement : Span) (params : List String)
    (doc : Option String) :
    Visit s env (env.declare (StatementNode.declares (.function reach name body)))
      (name.uses reach (env.declare (StatementNode.declares (.function reach name body))))
      (name.path.map .name) b (b.declareFunction s reach name statement params doc).2 := by
  have hmember : ∀ second more, name.path = name.head :: second :: more →
      StatementNode.declares (.function reach name body) = [] →
      name.uses reach env = pathUses env name.path →
      (!name.fields.isEmpty || name.method.isSome) = true →
      Visit s env (env.declare (StatementNode.declares (.function reach name body)))
        (name.uses reach (env.declare (StatementNode.declares (.function reach name body))))
        (name.path.map .name) b (b.declareFunction s reach name statement params doc).2 := by
    intro second more hpath hdeclares huses hdotted
    rw [hdeclares, Env.declare_nil, huses]
    unfold Binder.declareFunction
    simp only [hdotted, if_true]
    rw [hpath] at hbefore ⊢
    exact visit_defineMember hholds hbefore _ statement _ doc
  obtain ⟨head, fields, method⟩ := name
  match fields, method with
  | [], none => exact visit_declareName hholds hbefore statement params doc
  | [], some method => exact hmember method [] rfl rfl (by cases reach <;> rfl) rfl
  | field :: fields, method =>
    exact hmember field (fields ++ method.toList) rfl rfl (by cases reach <;> rfl) rfl

end Declarations

end LuaScope

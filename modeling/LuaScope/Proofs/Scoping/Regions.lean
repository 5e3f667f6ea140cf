import LuaScope.Proofs.Scoping.Growth

/-!
# LuaScope.Proofs.Scoping.Regions

What a walk over a tree binds stands between the edges of the tree, and is found again from there: by
induction on the tree, with one equation for each form of expression and statement.

* `Binder.Stays`    — a step that makes no scope.
* `Walk.Settles`    — between whatever bounds the edges of a tree stand, the walk adds nothing but
  what stands there.
* `Walk.statements_settles` and the others — the walk over every tree settles.
-/

namespace LuaScope

variable {σ : Type}

/-! ## Steps without a scope -/

/-- Where these names start. -/
def Ident.starts (names : List Ident) : Set Nat := {offset | ∃ name ∈ names, offset = name.span.start}

theorem Ident.starts_subset {names names' : List Ident} (h : names ⊆ names') :
    starts names ⊆ starts names' := fun _ ⟨name, hname, heq⟩ => ⟨name, h hname, heq⟩

/-- Names that stand between two bounds start there. -/
theorem Edge.Fits.starts {names : List Ident} {lo hi : Nat} (h : Edge.Fits (names.map .name) lo hi) :
    Ident.starts names ⊆ Set.Ico lo hi := by
  induction names generalizing lo with
  | nil => exact fun _ ⟨_, hname, _⟩ => absurd hname List.not_mem_nil
  | cons first names ih =>
    obtain ⟨hlo, hcovers, hrest⟩ := h
    rintro _ ⟨name, hname, rfl⟩
    rcases List.mem_cons.mp hname with rfl | hname
    · exact ⟨hlo, Nat.lt_of_lt_of_le hcovers hrest.le⟩
    · obtain ⟨hge, hlt⟩ := ih hrest ⟨name, hname, rfl⟩
      exact ⟨Nat.le_trans hlo (Nat.le_trans (Nat.le_of_lt hcovers) hge), hlt⟩

namespace Binder

/-- The step makes no scope. -/
abbrev Stays (declares : Prop) (places : Set Nat) (b b' : Binder σ) : Prop :=
  b.Branches declares places 0 0 [] b'

variable {declares : Prop} {places places' : Set Nat} {b b' b'' : Binder σ}

theorem Stays.trans (hplaced : b.Placed) (h : b.Stays declares places b')
    (h' : b'.Stays declares places b'') : b.Stays declares places b'' := by
  have hboth := h.andFlat hplaced h' fun offset _ => .inr (Nat.zero_le offset)
  rwa [Set.union_self] at hboth

theorem Stays.subset (h : b.Stays declares places b') (hplaces : places ⊆ places') :
    b.Stays declares places' b' := h.mono id hplaces (Nat.le_refl _) (Nat.le_refl _)

theorem Stays.quiet (hplaced : b.Placed) (h : b.Quiet b') : b.Stays declares places b' :=
  Stays.subset (Branches.quiet hplaced h 0 0) (Set.empty_subset _)

variable {s : Setting σ}

theorem stays_record (hplaced : b.Placed) {path : List Ident} {first : Ident}
    (hfirst : path.head? = some first) (last : Ident) (target : Option Link) :
    b.Stays declares (Ident.starts path) (b.record s first last target) :=
  Stays.subset (Branches.record hplaced s first last target)
    (Set.singleton_subset_iff.mpr ⟨first, List.mem_of_head? hfirst, rfl⟩)

theorem stays_recordAll {path : List Ident} {first : Ident} (hfirst : path.head? = some first) :
    ∀ (segments : List Ident) (links : List (Option Link)) {b : Binder σ}, b.Placed →
      b.Stays declares (Ident.starts path) (b.recordAll s first segments links)
  | [], _, b, hplaced => .quiet hplaced (.refl b)
  | _ :: _, [], b, hplaced => .quiet hplaced (.refl b)
  | segment :: segments, link :: links, b, hplaced => by
    have hrecord : b.Stays declares (Ident.starts path) (b.record s first segment link) :=
      stays_record hplaced hfirst segment link
    exact hrecord.trans hplaced (stays_recordAll hfirst segments links (hrecord.placed hplaced))

theorem stays_inferPath (hplaced : b.Placed) (path : List Ident) :
    b.Stays declares (Ident.starts path) (b.inferPath s path).2 := by
  unfold inferPath
  split
  · exact .quiet hplaced (.refl b)
  · rename_i first rest
    have hall : b.Stays declares (Ident.starts (first :: rest)) (b.recordAll s first (first :: rest)
        (b.walkPath (first :: rest))) := stays_recordAll rfl _ _ hplaced
    dsimp only
    split <;> exact hall

theorem stays_insertMember (s : Setting σ) {container : Link} {x : Symbol} {id : SymbolId}
    (hplaced : b.Placed) (h : b.insertMember container x = some (id, b')) :
    b.Stays declares places b' := by
  unfold insertMember at h
  split at h
  · cases h
  · rename_i target _
    cases h
    have htable : b.Stays declares places (b.modifySymbol target asTable) :=
      .quiet hplaced ((quietLaws s).modify target _ b keeps_asTable)
    have hplaced₁ := htable.placed hplaced
    have hmade : Stays declares places (b.modifySymbol target asTable) _ :=
      Stays.subset (Branches.addMember hplaced₁ { x with container := some target })
        (Set.empty_subset _)
    exact htable.trans hplaced
      (hmade.andQuiet hplaced₁ ((quietLaws s).modify target _ _ (keeps_mapTable _)))

theorem stays_defineMember (hplaced : b.Placed) (path : List Ident) (kind : SymbolKind)
    (statement : Span) (value : Inferred) (doc : Option String) :
    b.Stays declares (Ident.starts path) (b.defineMember s path kind statement value doc).2 := by
  unfold defineMember
  split
  · rename_i first last hfirst _
    have hfront : b.Stays declares (Ident.starts path) (b.recordAll s first path
        (b.walkPath path).dropLast) := stays_recordAll hfirst path _ hplaced
    dsimp only
    generalize recordAll s first path (b.walkPath path).dropLast b = b₁ at hfront ⊢
    have hplaced₁ := hfront.placed hplaced
    have hrecord : ∀ target, b.Stays declares (Ident.starts path) (b₁.record s first last target) :=
      fun target => hfront.trans hplaced (stays_record hplaced₁ hfirst last target)
    split
    · split
      · exact (hrecord _).andQuiet hplaced ((quietLaws s).refine _ value _)
      · exact hrecord _
    · split
      · exact hrecord none
      · split
        · rename_i hinsert
          exact (hfront.trans hplaced (stays_insertMember s hplaced₁ hinsert)).andQuiet hplaced
            ((quietLaws s).adopt _ _)
        · exact hrecord none
  · exact .quiet hplaced (.refl b)

theorem stays_newSymbol (hplaced : b.Placed) (name : Ident) (kind : SymbolKind) (statement : Span)
    (value : Inferred) (isLocal : Bool) (doc : Option String) :
    b.Stays True (Ident.starts [name])
      (b.declare (newSymbol s b name kind statement value isLocal doc)) := by
  refine Stays.subset (Branches.declare hplaced rfl rfl) ?_
  rintro _ ⟨rfl, -⟩
  exact ⟨name, List.mem_singleton_self name, rfl⟩

theorem stays_bind (hplaced : b.Placed) (name : Ident) (kind : SymbolKind) (statement : Span)
    (value : Inferred) (isLocal : Bool) (doc : Option String) :
    b.Stays True (Ident.starts [name])
      (b.bind (newSymbol s b name kind statement value isLocal doc)) :=
  (stays_newSymbol hplaced name kind statement value isLocal doc).andQuiet hplaced
    ((quietLaws s).adopt _ _)

theorem stays_assignName (hplaced : b.Placed) (name : Ident) (statement : Span) (value : Inferred)
    (doc : Option String) :
    b.Stays True (Ident.starts [name]) (b.assignName s name statement value doc) := by
  have hrecord : ∀ target, b.Stays True (Ident.starts [name]) (b.record s name name target) :=
    stays_record hplaced rfl name
  unfold assignName
  split
  · exact (hrecord _).andQuiet hplaced ((quietLaws s).refine _ value _)
  · split
    · exact stays_bind hplaced name _ statement value false doc
    · exact hrecord none

theorem stays_declareCounters (statement : Span) (ty : Ty) {all : List Ident} :
    ∀ (names : List Ident) {b : Binder σ}, names ⊆ all → b.Placed →
      b.Stays True (Ident.starts all)
        (names.foldl (fun b name => b.declareCounter s statement ty name) b)
  | [], b, _, hplaced => .quiet hplaced (.refl b)
  | name :: names, b, hall, hplaced => by
    obtain ⟨hname, hnames⟩ := List.cons_subset.mp hall
    have hfirst := (stays_newSymbol (s := s) hplaced name .variable statement { ty := ty } true
      none).subset (Ident.starts_subset (List.cons_subset.mpr ⟨hname, List.nil_subset _⟩))
    exact hfirst.trans hplaced
      (stays_declareCounters statement ty names hnames (hfirst.placed hplaced))

/-- The name of an implied `self` covers no text. -/
theorem stays_declareSelf (hplaced : b.Placed) (parameters : Span) (container : Option Link) :
    b.Stays True places (b.declareSelf s parameters container) := by
  refine Stays.subset (Branches.declare hplaced rfl rfl) ?_
  rintro _ ⟨-, hcovers⟩
  exact absurd hcovers (Nat.lt_irrefl _)

theorem stays_declareFunction (hplaced : b.Placed) (reach : FunctionReach) (name : FunctionName)
    (statement : Span) (params : List String) (doc : Option String) :
    b.Stays True (Ident.starts name.path)
      (b.declareFunction s reach name statement params doc).2 := by
  have hhead : Ident.starts [name.head] ⊆ Ident.starts name.path :=
    Ident.starts_subset (List.cons_subset.mpr ⟨.head _, List.nil_subset _⟩)
  unfold declareFunction
  dsimp only
  split
  · exact stays_defineMember hplaced name.path _ statement _ doc
  · split
    · exact (stays_newSymbol hplaced name.head _ statement _ true doc).subset hhead
    · split
      · rename_i id _
        have hrecord : b.Stays True (Ident.starts name.path) (b.record s name.head name.head
            (some (.here id))) := stays_record hplaced rfl name.head _
        exact hrecord.andQuiet hplaced
          ((quietLaws s).modify id _ _ (by constructor <;> intro x <;> rfl))
      · exact (stays_newSymbol hplaced name.head _ statement _ false doc).subset hhead

end Binder

/-! ## Walks -/

theorem Expr.edges_of_path? :
    ∀ {e : Expr} {path : List Ident}, e.path? = some path → e.edges = path.map .name
  | .name _, _, h => by
    cases h
    rfl
  | .field base key, _, h => by
    obtain ⟨path, hpath, rfl⟩ := Option.map_eq_some_iff.mp h
    rw [Expr.edges, Expr.edges_of_path? hpath, List.map_append]
    rfl

namespace Walk

/-- Run in a scope that is there, the walk adds nothing but what stands between the edges, whatever
bounds these stand between. -/
def Settles {α : Type} (declares : Prop) (es : List Edge) (w : Walk σ α) : Prop :=
  ∀ (b : Binder σ) (lo hi : Nat), b.Placed → Edge.Fits es lo hi →
    ∃ new, b.Branches declares (Set.Ico lo hi) lo hi new (w b).2

section

variable {s : Setting σ} {declares : Prop}

namespace Settles

variable {α β : Type} {es es' : List Edge}

theorem stays {w : Walk σ α} {places : Set Nat}
    (h : ∀ b : Binder σ, b.Placed → b.Stays declares places (w b).2)
    (hplaces : ∀ lo hi, Edge.Fits es lo hi → places ⊆ Set.Ico lo hi) : Settles declares es w :=
  fun b lo hi hplaced hfits => ⟨[], ((h b hplaced).subset (hplaces lo hi hfits)).flat lo hi⟩

theorem quiet {w : Walk σ α} (h : ∀ b, Binder.Quiet b (w b).2) : Settles declares es w :=
  .stays (fun b hplaced => Binder.Branches.quiet hplaced (h b) 0 0) fun _ _ _ => Set.empty_subset _

theorem pure (x : α) : Settles declares es (Pure.pure x : Walk σ α) := .quiet .refl

theorem mono {w : Walk σ α} (h : Settles declares es w) (hsub : es.Sublist es') :
    Settles declares es' w := fun b lo hi hplaced hfits => h b lo hi hplaced (hfits.sublist hsub)

/-- What declares nothing stands wherever something may be declared. -/
theorem any {w : Walk σ α} (h : Settles False es w) : Settles declares es w := by
  intro b lo hi hplaced hfits
  obtain ⟨new, hbranches⟩ := h b lo hi hplaced hfits
  exact ⟨new, hbranches.mono False.elim (Set.Subset.refl _) (Nat.le_refl _) (Nat.le_refl _)⟩

theorem bind {w : Walk σ α} {k : α → Walk σ β} (hw : Settles declares es w)
    (hk : ∀ x, Settles declares es' (k x)) : Settles declares (es ++ es') (w >>= k) := by
  intro b lo hi hplaced hfits
  obtain ⟨mid, hfirst, hrest⟩ := hfits.split
  obtain ⟨new, hbranches⟩ := hw b lo mid hplaced hfirst
  obtain ⟨more, hbranches'⟩ := hk (w b).1 (w b).2 mid hi (hbranches.placed hplaced) hrest
  refine ⟨new ++ more, (hbranches.trans hplaced hbranches' (fun _ h => .inl h.2)
    fun _ h => .inr h.1).mono id ?_ ?_ ?_⟩
  · exact Set.union_subset (Set.Ico_subset_Ico_right hrest.le) (Set.Ico_subset_Ico_left hfirst.le)
  · exact Nat.le_min.mpr ⟨Nat.le_refl _, hfirst.le⟩
  · exact Nat.max_le.mpr ⟨hrest.le, Nat.le_refl _⟩

/-- The first walk is over what stands behind. -/
theorem bindBack {w : Walk σ α} {k : α → Walk σ β} (hw : Settles declares es' w)
    (hk : ∀ x, Settles declares es (k x)) : Settles declares (es ++ es') (w >>= k) := by
  intro b lo hi hplaced hfits
  obtain ⟨mid, hfirst, hrest⟩ := hfits.split
  obtain ⟨new, hbranches⟩ := hw b mid hi hplaced hrest
  obtain ⟨more, hbranches'⟩ := hk (w b).1 (w b).2 lo mid (hbranches.placed hplaced) hfirst
  refine ⟨new ++ more, (hbranches.trans hplaced hbranches' (fun _ h => .inr h.1)
    fun _ h => .inl h.2).mono id ?_ ?_ ?_⟩
  · exact Set.union_subset (Set.Ico_subset_Ico_left hfirst.le) (Set.Ico_subset_Ico_right hrest.le)
  · exact Nat.le_min.mpr ⟨hfirst.le, Nat.le_refl _⟩
  · exact Nat.max_le.mpr ⟨Nat.le_refl _, hrest.le⟩

theorem andQuiet {w : Walk σ α} {k : α → Walk σ β} (h : Settles declares es w)
    (hk : ∀ x b, Binder.Quiet b (k x b).2) : Settles declares es (w >>= k) := by
  have hboth : Settles declares (es ++ []) (w >>= k) := h.bind fun x => quiet (hk x)
  rwa [List.append_nil] at hboth

/-- What a walk answers does not matter. -/
theorem andPure {w : Walk σ α} (h : Settles declares es w) (f : α → β) :
    Settles declares es (w >>= fun x => Pure.pure (f x)) := h

end Settles

/-- A part of a statement stands between the ends of the statement. -/
theorem sublist_between (front back : Edge) (es : List Edge) :
    es.Sublist (front :: (es ++ [back])) :=
  (List.sublist_append_left es _).trans (List.sublist_cons_self _ _)

variable {es : List Edge}

theorem path_settles (path : List Ident) :
    Settles declares (path.map .name) (inferPath s path : Walk σ Inferred) :=
  .stays (fun _ hplaced => Binder.stays_inferPath hplaced path) fun _ _ => Edge.Fits.starts

theorem name_settles (ident : Ident) (depth : Nat) :
    Settles declares [.name ident] (inferName s ident depth : Walk σ Inferred) := by
  unfold inferName
  split
  · exact .pure _
  · exact path_settles [ident]

theorem locals_settles (statement : Span) (doc : Option String) :
    ∀ (names : List Ident) (values : List Inferred), Settles True (names.map .name)
      (modify (Binder.declareLocals s statement doc names values) : Walk σ Unit)
  | [], _ => .pure ()
  | name :: names, values => by
    have hname : Settles True [.name name] (modify (fun b => b.bind (Binder.newSymbol s b name
        (.ofTy (values.headD {}).ty .variable) statement (values.headD {}) true doc)) :
        Walk σ Unit) :=
      .stays (fun _ hplaced => Binder.stays_bind hplaced name _ statement _ true doc)
        fun _ _ => @Edge.Fits.starts [name] _ _
    exact hname.bind fun _ => locals_settles statement doc names values.tail

theorem parameters_settles (parameters : Span) :
    ∀ entries : List Parameter, Settles True (entries.flatMap Parameter.edges)
      (modify (Binder.declareParameters s parameters entries) : Walk σ Unit)
  | [] => .pure ()
  | .vararg :: rest => parameters_settles parameters rest
  | .name name :: rest => by
    have hname : Settles True [.name name] (modify (fun b => b.declare (Binder.newSymbol s b name
        .parameter parameters {} true none)) : Walk σ Unit) :=
      .stays (fun _ hplaced => Binder.stays_newSymbol hplaced name .parameter parameters {} true none)
        fun _ _ => @Edge.Fits.starts [name] _ _
    exact hname.bind fun _ => parameters_settles parameters rest

/-- A walk in a scope that spans it. -/
theorem within_settles {inside : Walk σ Unit} (h : Settles True es inside) (kind : ScopeKind)
    (span : Span) : Settles declares (.mark span.start :: (es ++ [.mark span.stop]))
      (within kind span inside) := by
  intro b lo hi hplaced hfits
  obtain ⟨hlo, -, hinside⟩ := hfits
  obtain ⟨mid, hes, hstop, -, hhi⟩ := hinside.split
  obtain ⟨inner, hbranches⟩ := h (b.enterScope kind span) span.start mid
    (hplaced.enterScope kind span) hes
  refine ⟨_, (hbranches.enter hplaced fun offset hoffset => ?_).mono id ?_ hlo hhi⟩
  · exact Span.contains_iff.mpr ⟨hoffset.1, Nat.le_trans (Nat.le_of_lt hoffset.2) hstop⟩
  · exact Set.Ico_subset_Ico hlo (Nat.le_trans hstop hhi)

/-- The scope of a function starts where its parameters do. -/
theorem function_settles {body : Walk σ Unit} (parameters : Parameters)
    (hbody : Settles True es body)
    (stop : Nat) (isMethod : Bool) (container : Option Link) :
    Settles declares (parameters.edges ++ (es ++ [.mark stop]))
      (inFunction s parameters stop isMethod container body) := by
  have hself : Settles True [] (do
      if isMethod then modify (Binder.declareSelf s parameters.span container) : Walk σ Unit) := by
    cases isMethod with
    | true =>
      exact .stays (fun _ hplaced => Binder.stays_declareSelf hplaced parameters.span container)
        fun _ _ _ => Set.empty_subset _
    | false => exact .pure _
  have hentries : Settles True (parameters.entries.flatMap Parameter.edges)
      (modify (Binder.declareParameters s parameters.span parameters.entries) : Walk σ Unit) :=
    parameters_settles parameters.span parameters.entries
  have hframe : Settles True es (do modify (·.pushFrame); body; modify (·.popFrame.2) :
      Walk σ Unit) := by
    have hpush : Settles True [] (modify (·.pushFrame) : Walk σ Unit) :=
      .quiet fun _ => ⟨rfl, rfl, rfl, rfl⟩
    exact hpush.bind fun _ => hbody.andQuiet fun _ => Binder.quiet_popFrame
  have hall := (hself.bind fun _ => hentries).bind fun _ => hframe
  have hinside : Settles declares _ _ :=
    within_settles hall .function ⟨parameters.span.start, stop⟩
  rw [List.nil_append, List.append_assoc] at hinside
  intro b lo hi hplaced hfits
  cases isMethod <;> exact hinside b lo hi hplaced hfits

/-- What is walked in front of a loop stands between the names of the loop and its block. -/
theorem loop_settles {α : Type} {header : Walk σ α} {body : Walk σ Unit} {front : List Edge}
    (names : List Ident) (hheader : Settles False front header) (hbody : Settles True es body)
    (ty : Ty) (span : Span) :
    Settles declares (.mark span.start :: ((names.map .name ++ (front ++ es)) ++ [.mark span.stop]))
      (do
        let _ ← header
        within .loop span (do
          modify (fun b => names.foldl (fun b name => b.declareCounter s span ty name) b)
          body)) := by
  intro b lo hi hplaced hfits
  obtain ⟨hlo, -, hinside⟩ := hfits
  obtain ⟨mid, hparts, hstop, -, hhi⟩ := hinside.split
  obtain ⟨first, hnames, hparts⟩ := hparts.split
  obtain ⟨second, hfront, hes⟩ := hparts.split
  obtain ⟨new, hbranches⟩ := hheader b first second hplaced hfront
  have hopened := (hbranches.placed hplaced).enterScope .loop span
  have hcounters := Binder.stays_declareCounters (s := s) span ty names (List.Subset.refl _) hopened
  obtain ⟨inner, hbranches'⟩ := hbody _ second mid (hcounters.placed hopened) hes
  have hstarts := hnames.starts
  change lo ≤ span.start at hlo
  change mid ≤ span.stop at hstop
  change span.stop ≤ hi at hhi
  have hstart : span.start ≤ first := hnames.le
  have hmiddle : first ≤ second := hfront.le
  have hrest : second ≤ mid := hes.le
  have hbefore : ∀ offset ∈ Ident.starts names, span.start ≤ offset ∧ offset < first :=
    fun offset hoffset => hnames.starts hoffset
  have hloop : Binder.Branches declares _ _ _ _ b _ :=
    hbranches.loop hplaced (hcounters.ofFlat hopened hbranches' fun offset hoffset =>
      .inl (Nat.lt_of_lt_of_le (hbefore offset hoffset).2 hmiddle)) ?_ hstart (Nat.le_trans hrest hstop)
  · refine ⟨_, hloop.mono id ?_ hlo hhi⟩
    rintro offset (⟨hge, hlt⟩ | hoffset | ⟨hge, hlt⟩)
    · exact ⟨by omega, by omega⟩
    · obtain ⟨hge, hlt⟩ := hbefore offset hoffset
      exact ⟨by omega, by omega⟩
    · exact ⟨by omega, by omega⟩
  · rintro offset (hoffset | ⟨hge, hlt⟩)
    · obtain ⟨hge, hlt⟩ := hbefore offset hoffset
      exact ⟨.inl hlt, Span.contains_iff.mpr ⟨hge, by omega⟩⟩
    · exact ⟨.inr hge, Span.contains_iff.mpr ⟨by omega, by omega⟩⟩

theorem define_settles {base : Expr} {key : Ident} {path : List Ident} (h : base.path? = some path)
    (kind : SymbolKind) (statement : Span) (value : Inferred) (doc : Option String) :
    Settles declares (base.edges ++ [.name key])
      (modify fun b => (b.defineMember s (path ++ [key]) kind statement value doc).2) := by
  have hedges : (path ++ [key]).map Edge.name = base.edges ++ [.name key] := by
    rw [Expr.edges_of_path? h, List.map_append]
    rfl
  rw [← hedges]
  exact .stays (fun _ hplaced => Binder.stays_defineMember hplaced _ kind statement value doc)
    fun _ _ => Edge.Fits.starts

/-- A path is one reference for each of its names. -/
theorem member_settles {base : Expr} {key : Ident} {path : List Ident} (h : base.path? = some path) :
    Settles declares (base.edges ++ [.name key]) (inferPath s (path ++ [key])) := by
  have hpath : Settles declares ((path ++ [key]).map .name) (inferPath s (path ++ [key])) :=
    path_settles _
  rwa [List.map_append, ← Expr.edges_of_path? h] at hpath

mutual

theorem expr_settles : ∀ (e : Expr) (depth : Nat), Settles False e.edges (inferExpr s e depth)
  | .nil, depth | .boolean, depth | .number, depth | .literal _, depth => by
    simp only [inferExpr]
    split <;> exact .pure _
  | .vararg, _ | .global, _ => .pure _
  | .name ident, depth => name_settles ident depth
  | .field base key, depth => by
    simp only [inferExpr]
    split
    · exact .pure _
    · split
      · rename_i path hpath
        exact member_settles hpath
      · exact .bind (expr_settles base _) fun _ => (name_settles key _).andPure _
  | .subscript base key, depth => by
    simp only [inferExpr]
    split
    · exact .pure _
    · exact .bind (expr_settles base _) fun _ => (expr_settles key _).andPure _
  | .paren inner, depth => by
    simp only [inferExpr]
    split
    · exact .pure _
    · exact expr_settles inner _
  | .table fields, depth => by
    simp only [inferExpr]
    split
    · exact .pure _
    · exact (fields_settles fields depth []).andPure _
  | .function (.mk parameters block stop), depth => by
    simp only [inferExpr]
    split
    · exact .pure _
    · exact (function_settles parameters (block_settles block _) stop false none).andPure _
  | .call callee none arguments, depth => by
    simp only [inferExpr]
    split
    · exact .pure _
    · split
      · exact .quiet ((Binder.quietLaws s).require _)
      · exact (setmetatable_settles arguments depth).mono (List.sublist_append_right _ _)
      · exact .bind (expr_settles _ _) fun _ => (list_settles arguments depth).andPure _
      · rename_i hmethod
        cases hmethod
  | .call callee (some name) arguments, depth => by
    have harguments : ∀ value : Inferred, Settles False (Expr.edgesOf arguments) (do
        let _ ← inferList s arguments depth
        pure (Binder.callResult value)) := fun value => (list_settles arguments depth).andPure _
    have hedges : (Expr.call callee (some name) arguments).edges =
        (callee.edges ++ [.name name]) ++ Expr.edgesOf arguments := by
      rw [Expr.edges, List.append_assoc]
      rfl
    rw [hedges]
    simp only [inferExpr]
    split
    · exact .pure _
    · split
      · exact .bind (.pure _) harguments
      · split
        · rename_i path hpath
          exact (member_settles hpath).bind harguments
        · have hmember : Settles False (callee.edges ++ [.name name]) (do
              let _ ← inferExpr s callee (depth + 2)
              inferName s name (depth + 2)) :=
            .bind (expr_settles callee _) fun _ => name_settles name _
          exact hmember.bind fun _ => harguments {}
  | .binary op _ left right, depth => by
    simp only [inferExpr]
    split
    · exact .pure _
    · exact .bind (expr_settles left _) fun _ => (expr_settles right _).andPure _
  | .unary op _ operand, depth => by
    simp only [inferExpr]
    split
    · exact .pure _
    · exact (expr_settles operand _).andPure _

theorem list_settles : ∀ (es : List Expr) (depth : Nat),
    Settles False (Expr.edgesOf es) (inferList s es depth)
  | [], _ => .pure _
  | e :: rest, depth => by
    have hrest : Settles False (Expr.edgesOf rest) (inferList s rest depth) :=
      list_settles rest depth
    have hcons : Settles False (Expr.edgesOf (e :: rest)) (do
        let value ← inferExpr s e (depth + 1)
        return value :: (← inferList s rest depth)) :=
      .bind (expr_settles e _) fun _ => hrest.andPure _
    cases e <;> first | exact hrest | exact hcons

theorem fields_settles : ∀ (fields : List Field) (depth : Nat) (members : Members),
    Settles False (Field.edgesOf fields) (inferFields s fields depth members)
  | [], _, _ => .pure _
  | .positional value :: rest, depth, members | .unnamed value :: rest, depth, members => by
    simp only [inferFields]
    exact .bind (expr_settles value _) fun _ => fields_settles rest depth members
  | .computed key value :: rest, depth, members => by
    simp only [inferFields]
    refine .bind (expr_settles key _) fun _ => ?_
    exact .bind (expr_settles value _) fun _ => fields_settles rest depth members
  | .named comments span key value :: rest, depth, members => by
    simp only [inferFields]
    refine Settles.mono (.bind (expr_settles value _) fun found => ?_) (List.sublist_cons_self _ _)
    intro b lo hi hplaced hfits
    let x := Binder.newSymbol s b key (.ofTy found.ty .field) span found false
      (Comment.doc? s.source.lines span.start comments)
    have hmember : b.Stays False ∅ ((b.addMember x).adoptMembers x.id) :=
      (Binder.Branches.addMember hplaced x).andQuiet hplaced ((Binder.quietLaws s).adopt x.id _)
    obtain ⟨new, hbranches⟩ := fields_settles rest depth (members.insert key.name x.id) _ lo hi
      (hmember.placed hplaced) hfits
    have hboth := hmember.ofFlat hplaced hbranches nofun
    rw [Set.empty_union] at hboth
    exact ⟨new, hboth⟩

theorem setmetatable_settles : ∀ (arguments : List Expr) (depth : Nat),
    Settles False (Expr.edgesOf arguments) (inferSetmetatable s arguments depth)
  | [], _ => .pure _
  | target :: rest, depth => by
    have hrest : Settles False (Expr.edgesOf rest) (inferSetmetatable s rest depth) :=
      setmetatable_settles rest depth
    have hcons : Settles False (Expr.edgesOf (target :: rest)) (do
        let target ← inferExpr s target (depth + 1)
        let prototype ← inferMetatable s rest depth
        fun b => b.attachPrototype target prototype) :=
      .bind (expr_settles target _) fun found =>
        (metatable_settles rest depth).andQuiet ((Binder.quietLaws s).attachPrototype found)
    cases target <;> first | exact hrest | exact hcons

theorem metatable_settles : ∀ (arguments : List Expr) (depth : Nat),
    Settles False (Expr.edgesOf arguments) (inferMetatable s arguments depth)
  | [], _ => .pure _
  | metatable :: rest, depth => by
    have hrest : Settles False (Expr.edgesOf rest) (inferMetatable s rest depth) :=
      metatable_settles rest depth
    have hlist : Settles False (Expr.edgesOf rest) (inferList s rest depth) :=
      list_settles rest depth
    have hcons : Settles False (Expr.edgesOf (metatable :: rest)) (do
        let value ← inferExpr s metatable (depth + 1)
        let _ ← inferList s rest depth
        pure (value.alias.map PrototypeOver.metatable)) :=
      .bind (expr_settles metatable _) fun _ => hlist.andPure _
    cases metatable with
    | global => exact hrest
    | table fields => exact .bind (fields_settles fields _ _) fun _ => hlist.andPure _
    | _ => exact hcons

theorem block_settles : ∀ (block : Option Block) (depth : Nat),
    Settles True (Block.edges? block) (visitBlock s block depth)
  | none, _ => .pure _
  | some (.mk _ statements), depth => by
    simp only [visitBlock]
    split
    · exact .pure _
    · exact (statements_settles statements _).mono (sublist_between _ _ _)

theorem scoped_settles (kind : ScopeKind) : ∀ (block : Option Block) (depth : Nat),
    Settles True (Block.edges? block) (visitScoped s kind block depth)
  | none, _ => .pure _
  | some (.mk span statements), depth => by
    simp only [visitScoped]
    refine within_settles ?_ kind span
    split
    · exact .pure _
    · exact statements_settles statements _

theorem statements_settles : ∀ (statements : List Statement) (depth : Nat),
    Settles True (Statement.edgesOf statements) (visitStatements s statements depth)
  | [], _ => .pure _
  | .mk comments span node :: rest, depth => by
    have hedges : Statement.edgesOf (.mk comments span node :: rest) =
        (.mark span.start :: (node.edges ++ [.mark span.stop])) ++ Statement.edgesOf rest := by
      simp [Statement.edgesOf]
    rw [hedges]
    simp only [visitStatements]
    split
    · exact .bind (statement_settles node span _ depth) fun _ => statements_settles rest depth
    · exact .bind (.pure ()) fun _ => statements_settles rest depth

/-- A statement stands between its ends. -/
theorem statement_settles : ∀ (node : StatementNode) (span : Span) (doc : Option String)
    (depth : Nat), Settles True (.mark span.start :: (node.edges ++ [.mark span.stop]))
      (visitStatement s node span doc depth)
  | .empty, _, _, _ | .label, _, _, _ | .goto, _, _, _ | .break, _, _, _ => .pure _
  | .declare _ _ names none, span, doc, _ => by
    have hnames := locals_settles (s := s) span doc (names.map AttributedName.ident) []
    rw [List.map_map] at hnames
    exact hnames.mono (sublist_between _ _ _)
  | .declare _ _ names (some values), span, doc, depth => by
    refine Settles.mono (.bindBack (list_settles values depth).any fun found => ?_)
      (sublist_between _ _ _)
    have hnames := locals_settles (s := s) span doc (names.map AttributedName.ident) found
    rwa [List.map_map] at hnames
  | .implicitGlobals none, _, _, _ => .pure _
  | .implicitGlobals (some (name, _)), _, _, depth =>
    ((name_settles name _).andPure _).mono (sublist_between _ _ _)
  | .assign targets values, span, doc, depth =>
    Settles.mono (.bindBack (list_settles values depth).any fun found =>
      targets_settles targets found span doc depth) (sublist_between _ _ _)
  | .function reach name (.mk parameters block stop), span, doc, depth => by
    have hname : Settles True (name.path.map .name) (fun b => b.declareFunction s reach name span
        parameters.names doc : Walk σ Binder.Defined) :=
      .stays (fun _ hplaced => Binder.stays_declareFunction hplaced reach name span _ doc)
        fun _ _ => Edge.Fits.starts
    refine Settles.mono (hname.bind fun defined => ?_) (sublist_between _ _ _)
    exact .andQuiet (function_settles parameters (block_settles block _) stop _ defined.container)
      fun returns => (Binder.quietLaws s).finishFunction defined.symbol returns
  | .do body, span, _, depth => by
    simp only [visitStatement]
    split
    · exact within_settles (block_settles body _) .block span
    · exact .pure _
  | .while condition body, _, _, depth =>
    Settles.mono (.bind (expr_settles condition _).any fun _ => scoped_settles .loop body depth)
      (sublist_between _ _ _)
  | .repeat body condition, span, _, depth =>
    within_settles (.bind (block_settles body _) fun _ => ((expr_settles condition _).any).andPure _)
      .loop span
  | .if condition body rest none, _, _, depth => by
    refine Settles.mono (.bind (expr_settles condition _).any fun _ => ?_) (sublist_between _ _ _)
    refine .bind (scoped_settles .block body depth) fun _ => ?_
    exact (elseIfs_settles rest depth).andPure _
  | .if condition body rest (some block), _, _, depth => by
    refine Settles.mono (.bind (expr_settles condition _).any fun _ => ?_) (sublist_between _ _ _)
    refine .bind (scoped_settles .block body depth) fun _ => ?_
    exact .bind (elseIfs_settles rest depth) fun _ => scoped_settles .block block depth
  | .numericFor counter start limit none body, span, _, depth => by
    have hheader : Settles False (start.edges ++ limit.edges) (do
        let _ ← inferExpr s start (depth + 1)
        inferExpr s limit (depth + 1)) := .bind (expr_settles start _) fun _ => expr_settles limit _
    have hedges : (StatementNode.numericFor counter start limit none body).edges =
        [counter].map .name ++ ((start.edges ++ limit.edges) ++ Block.edges? body) := by
      simp [StatementNode.edges]
    rw [hedges]
    exact loop_settles [counter] hheader (block_settles body (depth + 1)) .number span
  | .numericFor counter start limit (some step) body, span, _, depth => by
    have hheader : Settles False (start.edges ++ (limit.edges ++ step.edges)) (do
        let _ ← inferExpr s start (depth + 1)
        let _ ← inferExpr s limit (depth + 1)
        inferExpr s step (depth + 1)) :=
      .bind (expr_settles start _) fun _ => .bind (expr_settles limit _) fun _ => expr_settles step _
    have hedges : (StatementNode.numericFor counter start limit (some step) body).edges =
        [counter].map .name ++
          ((start.edges ++ (limit.edges ++ step.edges)) ++ Block.edges? body) := by
      simp [StatementNode.edges]
    rw [hedges]
    exact loop_settles [counter] hheader (block_settles body (depth + 1)) .number span
  | .genericFor names values body, span, _, depth =>
    loop_settles names (list_settles values depth) (block_settles body (depth + 1)) .unknown span
  | .return none, _, _, _ => .pure _
  | .return (some values), _, _, depth => by
    refine Settles.mono (.andQuiet (list_settles values depth).any fun found b => ?_)
      (sublist_between _ _ _)
    cases found with
    | nil => exact .refl b
    | cons first _ => exact Binder.quiet_noteReturn b first
  | .call call, _, _, depth =>
    (((expr_settles call _).any).andPure _).mono (sublist_between _ _ _)

theorem elseIfs_settles : ∀ (rest : List ElseIf) (depth : Nat),
    Settles True (ElseIf.edgesOf rest) (visitElseIfs s rest depth)
  | [], _ => .pure _
  | .mk condition body :: rest, depth => by
    simp only [visitElseIfs]
    refine .bind (expr_settles condition _).any fun _ => ?_
    exact .bind (scoped_settles .block body depth) fun _ => elseIfs_settles rest depth

theorem targets_settles : ∀ (targets : List Expr) (values : List Inferred) (span : Span)
    (doc : Option String) (depth : Nat),
    Settles True (Expr.edgesOf targets) (assignTargets s targets values span doc depth)
  | [], _, _, _, _ => .pure _
  | target :: rest, values, span, doc, depth => by
    have hrest := fun values => targets_settles rest values span doc depth
    cases target with
    | global => exact hrest values
    | name ident =>
      have hassign : Settles True [.name ident]
          (modify (Binder.assignName s ident span (values.headD {}) doc)) :=
        .stays (fun _ hplaced => Binder.stays_assignName hplaced ident span _ doc)
          fun _ _ => @Edge.Fits.starts [ident] _ _
      exact hassign.bind fun _ => hrest values.tail
    | field base key =>
      simp only [assignTargets]
      split
      · rename_i path hpath
        exact (define_settles hpath _ span _ doc).bind fun _ => hrest values.tail
      · have hbase : Settles True (base.edges ++ [.name key])
            (do let _ ← inferExpr s base (depth + 1)) :=
          ((expr_settles base _).any).mono (List.sublist_append_left _ _)
        exact hbase.bind fun _ => hrest values.tail
    | _ => exact ((expr_settles _ (depth + 1)).any).bind fun _ => hrest values.tail

end

end

end Walk

end LuaScope

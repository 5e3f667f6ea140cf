import LuaScope.Proofs.Binding.Build

/-!
# LuaScope.Proofs.Binding.Answers

A build asks its loader for the same names in the same order, whatever the loader answers; and all
that it makes of a text depends on the answers alone, not on the state that the loader keeps.

* `Walk.Piece`     — a part of a walk, for the state of any loader.
* `Walk.Asks`      — the part asks for these names, and is a function of the answers besides.
* `Index.build_eq_ofAnswers` — hence every build is the build from the answers to `Index.asked`.
-/

namespace LuaScope

variable {σ τ : Type}

/-! ## Loaders -/

namespace Loader

/-- Ask for each of the names in turn. -/
def askAll (loader : Loader σ) : List String → σ → List (Option Index) × σ
  | [], world => ([], world)
  | name :: names, world =>
    let (answer, world) := loader name world
    let (answers, world) := askAll loader names world
    (answer :: answers, world)

/-- Finds nothing, and keeps the names it was asked for. -/
def recording : Loader (List String) := fun name names => (Option.none, names ++ [name])

/-- Gives the answers that it was handed, one after the other. -/
def replaying : Loader (List (Option Index)) :=
  fun _ answers => (answers.headD Option.none, answers.tail)

theorem askAll_append (loader : Loader σ) (front behind : List String) (world : σ) :
    loader.askAll (front ++ behind) world =
      ((loader.askAll front world).1 ++
          (loader.askAll behind (loader.askAll front world).2).1,
        (loader.askAll behind (loader.askAll front world).2).2) := by
  induction front generalizing world with
  | nil => rfl
  | cons name front ih =>
    simp only [List.cons_append, askAll]
    rw [ih]

theorem length_askAll (loader : Loader σ) (names : List String) (world : σ) :
    (loader.askAll names world).1.length = names.length := by
  induction names generalizing world with
  | nil => rfl
  | cons name names ih =>
    simp only [askAll, List.length_cons]
    rw [ih]

theorem askAll_recording (names before : List String) :
    (recording.askAll names before).2 = before ++ names := by
  induction names generalizing before with
  | nil => exact (List.append_nil before).symm
  | cons name names ih =>
    simp only [askAll, recording]
    rw [ih, List.append_assoc]
    rfl

theorem askAll_replaying {names : List String} {answers : List (Option Index)}
    (h : answers.length = names.length) : (replaying.askAll names answers).1 = answers := by
  induction names generalizing answers with
  | nil => exact (List.length_eq_zero_iff.mp h).symm
  | cons name names ih =>
    cases answers with
    | nil => cases h
    | cons answer answers =>
      have hrest := ih (Nat.succ.inj h)
      simp only [askAll, replaying, List.headD_cons, List.tail_cons]
      exact congrArg (answer :: ·) hrest

end Loader

/-! ## States beside the loader's -/

/-- The same setting with another loader. -/
def Setting.with (s : Setting τ) (loader : Loader σ) : Setting σ :=
  { source := s.source, document := s.document, allowDefined := s.allowDefined, loader := loader }

namespace Binder

/-- The same state of a walk over another state of the loader. -/
def withWorld (b : Binder τ) (world : σ) : Binder σ :=
  { table := b.table, references := b.references, scope := b.scope, returns := b.returns,
    world := world }

section WithWorld

variable (s : Setting τ) (loader : Loader σ) (b : Binder τ) (w : σ)

@[simp] theorem table_withWorld : (b.withWorld w).table = b.table := rfl

@[simp] theorem scope_withWorld : (b.withWorld w).scope = b.scope := rfl

@[simp] theorem home_withWorld : (b.withWorld w).home = b.home := rfl

@[simp] theorem tyOf_withWorld (id : SymbolId) : (b.withWorld w).tyOf id = b.tyOf id := rfl

@[simp] theorem modifySymbol_withWorld (id : SymbolId) (f : Symbol → Symbol) :
    (b.withWorld w).modifySymbol id f = (b.modifySymbol id f).withWorld w := rfl

@[simp] theorem declare_withWorld (symbol : Symbol) :
    (b.withWorld w).declare symbol = (b.declare symbol).withWorld w := rfl

@[simp] theorem addMember_withWorld (symbol : Symbol) :
    (b.withWorld w).addMember symbol = (b.addMember symbol).withWorld w := rfl

@[simp] theorem newSymbol_withWorld (name : Ident) (kind : SymbolKind) (statement : Span)
    (value : Inferred) (isLocal : Bool) (doc : Option String) :
    newSymbol (s.with loader) (b.withWorld w) name kind statement value isLocal doc =
      newSymbol s b name kind statement value isLocal doc := rfl

@[simp] theorem record_withWorld (first last : Ident) (target : Option Link) :
    (b.withWorld w).record (s.with loader) first last target =
      (b.record s first last target).withWorld w :=
  rfl

@[simp] theorem walkPath_withWorld (path : List Ident) :
    (b.withWorld w).walkPath path = b.walkPath path := by
  cases path <;> rfl

@[simp] theorem ownTable?_withWorld (link : Link) :
    (b.withWorld w).ownTable? link = b.ownTable? link := rfl

@[simp] theorem recordAll_withWorld (first : Ident) (segments : List Ident)
    (links : List (Option Link)) :
    recordAll (s.with loader) first segments links (b.withWorld w) =
      (recordAll s first segments links b).withWorld w := by
  induction segments generalizing links b with
  | nil => rfl
  | cons segment segments ih =>
    cases links with
    | nil => rfl
    | cons link links =>
      simp only [recordAll, record_withWorld]
      exact ih _ links

@[simp] theorem inferPath_withWorld (path : List Ident) :
    (b.withWorld w).inferPath (s.with loader) path =
      ((b.inferPath s path).1, (b.inferPath s path).2.withWorld w) := by
  cases path with
  | nil => rfl
  | cons first rest =>
    simp only [inferPath, walkPath_withWorld, recordAll_withWorld, home_withWorld]
    split <;> rfl

@[simp] theorem adoptMembers_withWorld (owner : SymbolId) :
    (b.withWorld w).adoptMembers owner = (b.adoptMembers owner).withWorld w := by
  have hfold : ∀ (members : Members) (b : Binder τ),
      members.foldl (fun b member => b.modifySymbol member.2 (ownedBy owner)) (b.withWorld w) =
        (members.foldl (fun b member => b.modifySymbol member.2 (ownedBy owner)) b).withWorld
          w := by
    intro members
    induction members with
    | nil => exact fun _ => rfl
    | cons member members ih => exact fun b => ih (b.modifySymbol member.2 (ownedBy owner))
  unfold adoptMembers
  rw [tyOf_withWorld]
  split
  · split
    · rfl
    · exact hfold _ b
  · rfl

@[simp] theorem bind_withWorld (symbol : Symbol) :
    (b.withWorld w).bind symbol = (b.bind symbol).withWorld w := by
  simp only [bind, declare_withWorld, adoptMembers_withWorld]

@[simp] theorem refine_withWorld (id : SymbolId) (value : Inferred) :
    (b.withWorld w).refine id value = (b.refine id value).withWorld w := by
  unfold Binder.refine
  rw [tyOf_withWorld, modifySymbol_withWorld, adoptMembers_withWorld]
  split <;> rfl

theorem insertMember_withWorld (container : Link) (symbol : Symbol) :
    (b.withWorld w).insertMember container symbol =
      (b.insertMember container symbol).map fun r => (r.1, r.2.withWorld w) := by
  unfold insertMember
  rw [ownTable?_withWorld]
  split <;> rfl

theorem setPrototype_withWorld (link : Link) (prototype : Prototype) :
    (b.withWorld w).setPrototype link prototype =
      (b.setPrototype link prototype).map (·.withWorld w) := by
  unfold setPrototype
  simp only [home_withWorld, modifySymbol_withWorld, tyOf_withWorld]
  by_cases hlocal : (b.home.follow link).resolveAlias.isLocal
  · simp only [hlocal, Bool.not_true, Bool.false_eq_true, if_false]
    split
    · split <;> rfl
    · rfl
  · simp [hlocal]

@[simp] theorem defineMember_withWorld (path : List Ident) (kind : SymbolKind) (statement : Span)
    (value : Inferred) (doc : Option String) :
    (b.withWorld w).defineMember (s.with loader) path kind statement value doc =
      ((b.defineMember s path kind statement value doc).1,
        (b.defineMember s path kind statement value doc).2.withWorld w) := by
  unfold defineMember
  split
  · simp only [walkPath_withWorld, recordAll_withWorld, record_withWorld, refine_withWorld,
      newSymbol_withWorld, insertMember_withWorld]
    split
    · split <;> rfl
    · split
      · rfl
      · cases insertMember _ _ _ <;> simp
  · rfl

@[simp] theorem assignName_withWorld (name : Ident) (statement : Span) (value : Inferred)
    (doc : Option String) :
    (b.withWorld w).assignName (s.with loader) name statement value doc =
      (b.assignName s name statement value doc).withWorld w := by
  unfold assignName
  simp only [table_withWorld, scope_withWorld, record_withWorld, refine_withWorld,
    newSymbol_withWorld, bind_withWorld]
  split
  · rfl
  · exact (apply_ite (Binder.withWorld · w) _ _ _).symm

@[simp] theorem declareLocals_withWorld (statement : Span) (doc : Option String)
    (names : List Ident) (values : List Inferred) :
    (b.withWorld w).declareLocals (s.with loader) statement doc names values =
      (b.declareLocals s statement doc names values).withWorld w := by
  induction names generalizing values b with
  | nil => rfl
  | cons name names ih =>
    simp only [declareLocals, newSymbol_withWorld, bind_withWorld]
    exact ih _ _

@[simp] theorem declareCounter_withWorld (statement : Span) (ty : Ty) (name : Ident) :
    (b.withWorld w).declareCounter (s.with loader) statement ty name =
      (b.declareCounter s statement ty name).withWorld w := rfl

@[simp] theorem declareFunction_withWorld (reach : FunctionReach) (name : FunctionName)
    (statement : Span) (params : List String) (doc : Option String) :
    (b.withWorld w).declareFunction (s.with loader) reach name statement params doc =
      ((b.declareFunction s reach name statement params doc).1,
        (b.declareFunction s reach name statement params doc).2.withWorld w) := by
  unfold declareFunction
  simp only [defineMember_withWorld, newSymbol_withWorld, declare_withWorld, table_withWorld,
    scope_withWorld, record_withWorld, modifySymbol_withWorld]
  split
  · rfl
  · split
    · rfl
    · split <;> rfl

@[simp] theorem finishFunction_withWorld (id? : Option SymbolId) (returns : Ty) :
    (b.withWorld w).finishFunction id? returns = (b.finishFunction id? returns).withWorld w := by
  cases id? <;> rfl

@[simp] theorem declareSelf_withWorld (parameters : Span) (container : Option Link) :
    (b.withWorld w).declareSelf (s.with loader) parameters container =
      (b.declareSelf s parameters container).withWorld w := rfl

@[simp] theorem declareParameters_withWorld (parameters : Span) (entries : List Parameter) :
    (b.withWorld w).declareParameters (s.with loader) parameters entries =
      (b.declareParameters s parameters entries).withWorld w := by
  induction entries generalizing b with
  | nil => rfl
  | cons entry rest ih =>
    cases entry with
    | vararg => exact ih b
    | name name => exact ih (b.declare (newSymbol s b name .parameter parameters {} true none))

@[simp] theorem noteReturn_withWorld (value : Inferred) :
    (b.withWorld w).noteReturn value = (b.noteReturn value).withWorld w := by
  unfold noteReturn
  simp only [withWorld]
  split
  · rfl
  · split <;> split <;> rfl

@[simp] theorem popFrame_withWorld :
    (b.withWorld w).popFrame = ((b.popFrame).1, (b.popFrame).2.withWorld w) := by
  unfold popFrame
  simp only [withWorld]
  split <;> rfl

@[simp] theorem attachPrototype_withWorld (target : Inferred) (prototype : Option Prototype) :
    (b.withWorld w).attachPrototype target prototype =
      ((b.attachPrototype target prototype).1,
        (b.attachPrototype target prototype).2.withWorld w) := by
  unfold attachPrototype
  cases prototype with
  | none => rfl
  | some prototype =>
    cases halias : target.alias with
    | none =>
      simp only [Option.bind_none]
      split
      · split <;> rfl
      · rfl
      · rfl
      · rfl
    | some link =>
      simp only [Option.bind_some, setPrototype_withWorld]
      cases b.setPrototype link prototype with
      | none =>
        simp only [Option.map_none]
        split
        · split <;> rfl
        · rfl
        · rfl
        · rfl
      | some b' => rfl

end WithWorld

end Binder

/-! ## Parts of a walk -/

namespace Walk

variable {α β ι : Type}

/-- A part of a walk, whatever state the loader has. -/
abbrev Piece (α : Type) := ∀ σ : Type, Setting σ → Walk σ α

/-- The part asks for these names, and what it does besides depends on the answers alone. -/
def Asks (names : List String) (w : Piece α) : Prop :=
  ∀ s : Setting Unit, ∃ f : Binder Unit → List (Option Index) → α × Binder Unit,
    ∀ (σ : Type) (loader : Loader σ) (b : Binder Unit) (world : σ),
      w σ (s.with loader) (b.withWorld world) =
        ((f b (loader.askAll names world).1).1,
          (f b (loader.askAll names world).1).2.withWorld (loader.askAll names world).2)

namespace Asks

variable {front behind : List String} {w : Piece α} {k : α → Piece β}

/-- A part that asks for nothing leaves the state of the loader alone. -/
theorem idle (h : ∀ (s : Setting Unit) (σ : Type) (loader : Loader σ) (b : Binder Unit) (world : σ),
    w σ (s.with loader) (b.withWorld world) = ((w Unit s b).1, (w Unit s b).2.withWorld world)) :
    Asks [] w :=
  fun s => ⟨fun b _ => w Unit s b, fun σ loader b world => h s σ loader b world⟩

/-- The first of the answers are those to the names of the first part. -/
theorem bind (hw : Asks front w) (hk : ∀ a, Asks behind (k a)) :
    Asks (front ++ behind) fun σ s => w σ s >>= fun a => k a σ s := by
  intro s
  obtain ⟨f, hf⟩ := hw s
  obtain ⟨g, hg⟩ := Classical.axiomOfChoice fun a => hk a s
  refine ⟨fun b answers =>
    let r := f b (answers.take front.length)
    g r.1 r.2 (answers.drop front.length), fun σ loader b world => ?_⟩
  have hrun : (w σ (s.with loader) >>= fun a => k a σ (s.with loader)) (b.withWorld world) =
      k (w σ (s.with loader) (b.withWorld world)).1 σ (s.with loader)
        (w σ (s.with loader) (b.withWorld world)).2 := rfl
  have hlength := loader.length_askAll front world
  refine hrun.trans ?_
  rw [hf, hg, Loader.askAll_append]
  simp only [List.take_left' hlength, List.drop_left' hlength]

end Asks

/-- The part always asks for the same names. -/
def Steady (w : Piece α) : Prop := ∃ names, Asks names w

/-- The parts ask for the same names, whichever of them is taken. -/
def SteadyFor (w : ι → Piece α) : Prop := ∃ names, ∀ i, Asks names (w i)

namespace SteadyFor

theorem idle {w : ι → Piece α}
    (h : ∀ i (s : Setting Unit) (σ : Type) (loader : Loader σ) (b : Binder Unit) (world : σ),
      w i σ (s.with loader) (b.withWorld world) =
        ((w i Unit s b).1, (w i Unit s b).2.withWorld world)) :
    SteadyFor w := ⟨[], fun i => .idle (h i)⟩

theorem pure (a : ι → α) : SteadyFor fun i _ _ => Pure.pure (a i) := idle fun _ _ _ _ _ _ => rfl

theorem bind {w : ι → Piece α} {k : ι → α → Piece β} (hw : SteadyFor w)
    (hk : SteadyFor fun p : ι × α => k p.1 p.2) :
    SteadyFor fun i σ s => w i σ s >>= fun a => k i a σ s := by
  obtain ⟨front, hw⟩ := hw
  obtain ⟨behind, hk⟩ := hk
  exact ⟨front ++ behind, fun i => (hw i).bind fun a => hk (i, a)⟩

theorem andThen {w : ι → Piece α} {v : ι → Piece β} (hw : SteadyFor w) (hv : SteadyFor v) :
    SteadyFor fun i σ s => w i σ s >>= fun _ => v i σ s := by
  obtain ⟨front, hw⟩ := hw
  obtain ⟨behind, hv⟩ := hv
  exact ⟨front ++ behind, fun i => (hw i).bind fun _ => hv i⟩

theorem apply {w : ι → Piece α} (h : SteadyFor w) (i : ι) : Steady (w i) :=
  h.imp fun _ h => h i

/-- Some of the parts. -/
theorem comap {κ : Type} {w : ι → Piece α} (h : SteadyFor w) (f : κ → ι) :
    SteadyFor fun i => w (f i) := h.imp fun _ h i => h (f i)

/-- Which part is taken may depend on what the walk is given. -/
theorem given {w : ι → Piece α} (h : SteadyFor w) (f : Source → ι) :
    Steady fun σ s => w (f s.source) σ s := h.imp fun _ h s => h (f s.source) s

end SteadyFor

namespace Steady

variable {w : Piece α} {k : α → Piece β}

theorem always (h : Steady w) : SteadyFor fun _ : ι => w := h.imp fun _ h _ => h

theorem idle (h : ∀ (s : Setting Unit) (σ : Type) (loader : Loader σ) (b : Binder Unit) (world : σ),
    w σ (s.with loader) (b.withWorld world) = ((w Unit s b).1, (w Unit s b).2.withWorld world)) :
    Steady w := ⟨[], .idle h⟩

theorem pure (a : α) : Steady fun _ _ => (Pure.pure a) := idle fun _ _ _ _ _ => rfl

theorem bind (hw : Steady w) (hk : SteadyFor k) :
    Steady fun σ s => w σ s >>= fun a => k a σ s := by
  obtain ⟨front, hw⟩ := hw
  obtain ⟨behind, hk⟩ := hk
  exact ⟨front ++ behind, hw.bind hk⟩

theorem andThen {v : Piece β} (hw : Steady w) (hv : Steady v) :
    Steady fun σ s => w σ s >>= fun _ => v σ s := hw.bind hv.always

theorem change {f : ∀ σ : Type, Setting σ → Binder σ → Binder σ}
    (h : ∀ (s : Setting Unit) (σ : Type) (loader : Loader σ) (b : Binder Unit) (world : σ),
      f σ (s.with loader) (b.withWorld world) = (f Unit s b).withWorld world) :
    Steady fun σ s => (modify (f σ s) : Walk σ Unit) :=
  idle fun s σ loader b world => congrArg (Prod.mk ()) (h s σ loader b world)

end Steady

theorem path_steady (path : List Ident) : Steady fun _ s => inferPath s path :=
  .idle fun s _ loader b world => b.inferPath_withWorld s loader world path

theorem name_steady (ident : Ident) (depth : Nat) : Steady fun _ s => inferName s ident depth := by
  by_cases hdepth : maxDepth < depth
  · simp only [inferName, if_pos hdepth]
    exact .pure _
  · simp only [inferName, if_neg hdepth]
    exact path_steady [ident]

theorem require_steady (name : String) :
    Steady fun σ s => (fun b => b.require s name : Walk σ Inferred) := by
  refine ⟨[name], fun s => ⟨fun b answers =>
    b.require (s.with fun _ world => (answers.headD none, world)) name,
    fun σ loader b world => ?_⟩⟩
  have hanswer : (loader.askAll [name] world).1.headD none = (loader name world).1 := rfl
  have hworld : (loader.askAll [name] world).2 = (loader name world).2 := rfl
  have hloader : (s.with loader).loader name (b.withWorld world).world = loader name world := rfl
  simp only [Binder.require, hanswer, hworld, hloader]
  cases (loader name world).1 with
  | none => rfl
  | some index =>
    simp only [Setting.with]
    split <;> rfl

theorem within_steady (kind : ScopeKind) (span : Span) {inside : Piece Unit}
    (hinside : Steady inside) : Steady fun σ s => within kind span (inside σ s) := by
  have hscope : Steady fun σ _ => (fun b => (b.scope, b) : Walk σ ScopeId) :=
    .idle fun _ _ _ _ _ => rfl
  have henter : Steady fun σ _ => (modify (·.enterScope kind span) : Walk σ Unit) :=
    .change (f := fun _ _ b => b.enterScope kind span) fun _ _ _ _ _ => rfl
  have hback : SteadyFor fun (saved : ScopeId) σ _ => (modify (·.backTo saved) : Walk σ Unit) :=
    .idle fun _ _ _ _ _ _ => rfl
  exact hscope.bind (henter.always.andThen (hinside.always.andThen hback))

/-- What is asked for in a function does not depend on the table it belongs to. -/
theorem function_steady (parameters : Parameters) (stop : Nat) (isMethod : Bool) {body : Piece Unit}
    (hbody : Steady body) :
    SteadyFor fun container σ s =>
      inFunction s parameters stop isMethod container (body σ s) := by
  have hscope : Steady fun σ _ => (fun b => (b.scope, b) : Walk σ ScopeId) :=
    .idle fun _ _ _ _ _ => rfl
  have hbind : SteadyFor fun (container : Option Link) σ s => (modify fun b : Binder σ =>
      (Binder.declareParameters s parameters.span parameters.entries
        (if isMethod then
          Binder.declareSelf s parameters.span container
            (b.enterScope .function ⟨parameters.span.start, stop⟩)
        else b.enterScope .function ⟨parameters.span.start, stop⟩)).pushFrame : Walk σ Unit) := by
    refine .idle fun container s σ loader b world => congrArg (Prod.mk ()) ?_
    have henter : (b.withWorld world).enterScope .function ⟨parameters.span.start, stop⟩ =
        (b.enterScope .function ⟨parameters.span.start, stop⟩).withWorld world := rfl
    cases isMethod with
    | false =>
      simp only [Bool.false_eq_true, if_false, henter, Binder.declareParameters_withWorld]
      rfl
    | true =>
      simp only [if_true, henter, Binder.declareSelf_withWorld, Binder.declareParameters_withWorld]
      rfl
  have hpop : Steady fun σ _ => (modifyGet (·.popFrame) : Walk σ Ty) :=
    .idle fun _ _ _ b world => b.popFrame_withWorld world
  have hback : SteadyFor fun (p : ScopeId × Ty) σ _ =>
      ((fun b => (p.2, b.backTo p.1)) : Walk σ Ty) := .idle fun _ _ _ _ _ _ => rfl
  have hrun : (fun container σ s => inFunction s parameters stop isMethod container (body σ s)) =
      fun (container : Option Link) (σ : Type) (s : Setting σ) =>
        (fun b => (b.scope, b) : Walk σ ScopeId) >>= fun saved =>
          (modify fun b : Binder σ => (Binder.declareParameters s parameters.span parameters.entries
            (if isMethod then
              Binder.declareSelf s parameters.span container
                (b.enterScope .function ⟨parameters.span.start, stop⟩)
            else b.enterScope .function ⟨parameters.span.start, stop⟩)).pushFrame) >>= fun _ =>
          body σ s >>= fun _ => modifyGet (·.popFrame) >>= fun returns =>
          (fun b => (returns, b.backTo saved)) := by
    funext container σ s b
    cases isMethod <;> rfl
  rw [hrun]
  have hleave : SteadyFor fun (saved : ScopeId) σ (_ : Setting σ) =>
      (modifyGet (·.popFrame) : Walk σ Ty) >>= fun returns b => (returns, b.backTo saved) :=
    hpop.always.bind hback
  exact hscope.always.bind ((hbind.comap Prod.fst).andThen
    (hbody.always.andThen (hleave.comap Prod.snd)))

mutual

theorem expr_steady : ∀ e depth, Steady fun _ s => inferExpr s e depth
  | .nil, depth | .boolean, depth | .number, depth | .literal _, depth => by
    by_cases hdepth : maxDepth < depth
    · simp only [inferExpr, if_pos hdepth]
      exact .pure _
    · simp only [inferExpr, if_neg hdepth]
      exact .pure _
  | .vararg, _ | .global, _ => .pure _
  | .name ident, depth => name_steady ident depth
  | .field base key, depth => by
    by_cases hdepth : maxDepth < depth
    · simp only [inferExpr, if_pos hdepth]
      exact .pure _
    · simp only [inferExpr, if_neg hdepth]
      cases base.path? with
      | some path => exact path_steady (path ++ [key])
      | none => exact (expr_steady base _).andThen ((name_steady key _).andThen (.pure _))
  | .subscript base key, depth => by
    by_cases hdepth : maxDepth < depth
    · simp only [inferExpr, if_pos hdepth]
      exact .pure _
    · simp only [inferExpr, if_neg hdepth]
      exact (expr_steady base _).andThen ((expr_steady key _).andThen (.pure _))
  | .paren inner, depth => by
    by_cases hdepth : maxDepth < depth
    · simp only [inferExpr, if_pos hdepth]
      exact .pure _
    · simp only [inferExpr, if_neg hdepth]
      exact expr_steady inner _
  | .table fields, depth => by
    by_cases hdepth : maxDepth < depth
    · simp only [inferExpr, if_pos hdepth]
      exact .pure _
    · simp only [inferExpr, if_neg hdepth]
      exact ((fields_steady fields depth).apply []).bind (.pure _)
  | .function (.mk parameters block stop), depth => by
    by_cases hdepth : maxDepth < depth
    · simp only [inferExpr, if_pos hdepth]
      exact .pure _
    · simp only [inferExpr, if_neg hdepth]
      exact ((function_steady parameters stop false (block_steady block _)).apply none).bind
        (.pure _)
  | .call callee method arguments, depth => by
    by_cases hdepth : maxDepth < depth
    · simp only [inferExpr, if_pos hdepth]
      exact .pure _
    · have harguments : SteadyFor fun (value : Inferred) σ (s : Setting σ) => (do
          let _ ← inferList s arguments depth
          pure (Binder.callResult value)) :=
        (list_steady arguments depth).always.andThen (.pure _)
      simp only [inferExpr, if_neg hdepth]
      split
      · exact require_steady _
      · exact setmetatable_steady arguments depth
      · exact (expr_steady _ _).bind harguments
      · rename_i callee _ _ _ name
        by_cases hdeeper : maxDepth < depth + 1
        · simp only [if_pos hdeeper]
          exact (Steady.pure _).bind harguments
        · simp only [if_neg hdeeper]
          cases callee.path? with
          | some path => exact (path_steady _).bind harguments
          | none =>
            exact ((expr_steady callee _).andThen ((name_steady name _).andThen (.pure _))).bind
              harguments
  | .binary op _ left right, depth => by
    by_cases hdepth : maxDepth < depth
    · simp only [inferExpr, if_pos hdepth]
      exact .pure _
    · simp only [inferExpr, if_neg hdepth]
      exact (expr_steady left _).bind ((expr_steady right _).always.bind (.pure _))
  | .unary op _ operand, depth => by
    by_cases hdepth : maxDepth < depth
    · simp only [inferExpr, if_pos hdepth]
      exact .pure _
    · simp only [inferExpr, if_neg hdepth]
      exact (expr_steady operand _).andThen (.pure _)

theorem list_steady : ∀ es depth, Steady fun _ s => inferList s es depth
  | [], _ => .pure _
  | e :: rest, depth => by
    have hrest := list_steady rest depth
    have hcons : Steady fun σ (s : Setting σ) => (do
        let value ← inferExpr s e (depth + 1)
        return value :: (← inferList s rest depth)) :=
      (expr_steady e _).bind (hrest.always.bind (.pure _))
    cases e <;> first | exact hrest | exact hcons

/-- The members found so far are handed on, and ask for nothing. -/
theorem fields_steady :
    ∀ fields depth, SteadyFor fun members _ s => inferFields s fields depth members
  | [], _ => .pure _
  | .positional value :: rest, depth | .unnamed value :: rest, depth => by
    simp only [inferFields]
    exact (expr_steady value _).always.andThen (fields_steady rest depth)
  | .computed key value :: rest, depth => by
    simp only [inferFields]
    exact (expr_steady key _).always.andThen
      ((expr_steady value _).always.andThen (fields_steady rest depth))
  | .named comments span key value :: rest, depth => by
    have hadd : SteadyFor fun (found : Inferred) σ (s : Setting σ) =>
        ((fun b =>
          let symbol := Binder.newSymbol s b key (.ofTy found.ty .field) span found false
            (Comment.doc? s.source.lines span.start comments)
          (symbol.id, (b.addMember symbol).adoptMembers symbol.id)) : Walk σ SymbolId) := by
      refine .idle fun found s σ loader b world => ?_
      simp only [Binder.newSymbol_withWorld, Binder.addMember_withWorld,
        Binder.adoptMembers_withWorld]
      rfl
    have hrest := (fields_steady rest depth).comap fun p : (Members × Inferred) × SymbolId =>
      p.1.1.insert key.name p.2
    have hrun : (fun members (σ : Type) (s : Setting σ) =>
        inferFields s (.named comments span key value :: rest) depth members) =
        fun members σ s => inferExpr s value (depth + 1) >>= fun found =>
          ((fun b =>
            let symbol := Binder.newSymbol s b key (.ofTy found.ty .field) span found false
              (Comment.doc? s.source.lines span.start comments)
            (symbol.id, (b.addMember symbol).adoptMembers symbol.id)) : Walk σ SymbolId) >>=
          fun id => inferFields s rest depth (members.insert key.name id) := by
      funext members σ s b
      rfl
    rw [hrun]
    exact (expr_steady value _).always.bind ((hadd.comap Prod.snd).bind hrest)

theorem setmetatable_steady :
    ∀ arguments depth, Steady fun _ s => inferSetmetatable s arguments depth
  | [], _ => .pure _
  | target :: rest, depth => by
    have hrest := setmetatable_steady rest depth
    have hattach : SteadyFor fun (p : Inferred × Option Prototype) σ (_ : Setting σ) =>
        ((fun b => b.attachPrototype p.1 p.2) : Walk σ Inferred) :=
      .idle fun p _ _ _ b world => b.attachPrototype_withWorld world p.1 p.2
    have hcons : Steady fun σ (s : Setting σ) => (do
        let target ← inferExpr s target (depth + 1)
        let prototype ← inferMetatable s rest depth
        fun b => b.attachPrototype target prototype) :=
      (expr_steady target _).bind ((metatable_steady rest depth).always.bind hattach)
    cases target <;> first | exact hrest | exact hcons

theorem metatable_steady : ∀ arguments depth, Steady fun _ s => inferMetatable s arguments depth
  | [], _ => .pure _
  | metatable :: rest, depth => by
    have hrest := metatable_steady rest depth
    have hcons : Steady fun σ (s : Setting σ) => (do
        let value ← inferExpr s metatable (depth + 1)
        let _ ← inferList s rest depth
        pure (value.alias.map PrototypeOver.metatable)) :=
      (expr_steady metatable _).bind ((list_steady rest depth).always.andThen (.pure _))
    cases metatable with
    | global => exact hrest
    | table fields =>
      exact ((fields_steady fields _).apply []).bind
        ((list_steady rest depth).always.andThen (.pure _))
    | _ => exact hcons

theorem block_steady : ∀ block depth, Steady fun _ s => visitBlock s block depth
  | none, _ => .pure _
  | some (.mk _ statements), depth => by
    by_cases hdepth : maxDepth < depth
    · simp only [visitBlock, if_pos hdepth]
      exact .pure _
    · simp only [visitBlock, if_neg hdepth]
      exact statements_steady statements _

theorem scoped_steady (kind : ScopeKind) :
    ∀ block depth, Steady fun _ s => visitScoped s kind block depth
  | none, _ => .pure _
  | some (.mk _ statements), depth => by
    simp only [visitScoped]
    refine within_steady kind _ ?_
    by_cases hdepth : maxDepth < depth + 1
    · simp only [if_pos hdepth]
      exact .pure _
    · simp only [if_neg hdepth]
      exact statements_steady statements _

/-- A doc comment is read off the source, and asks for nothing. -/
theorem statements_steady : ∀ statements depth, Steady fun _ s => visitStatements s statements depth
  | [], _ => .pure _
  | .mk comments span node :: rest, depth => by
    have hfirst := (statement_steady node span depth).given fun source =>
      Comment.doc? source.lines span.start comments
    by_cases hdepth : depth ≤ maxDepth
    · simp only [visitStatements, if_pos hdepth]
      exact hfirst.andThen (statements_steady rest depth)
    · simp only [visitStatements, if_neg hdepth]
      exact statements_steady rest depth

theorem statement_steady :
    ∀ node span depth, SteadyFor fun doc _ s => visitStatement s node span doc depth
  | .empty, _, _ | .label, _, _ | .goto, _, _ | .break, _, _ => .pure _
  | .declare _ _ names none, span, _ =>
    .idle fun doc s σ loader b world =>
      congrArg (Prod.mk ()) (b.declareLocals_withWorld s loader world span doc _ [])
  | .declare _ _ names (some values), span, depth => by
    have hdeclare : SteadyFor fun (p : Option String × List Inferred) σ (s : Setting σ) =>
        (modify (Binder.declareLocals s span p.1 (names.map AttributedName.ident) p.2) :
          Walk σ Unit) :=
      .idle fun p s σ loader b world =>
        congrArg (Prod.mk ()) (b.declareLocals_withWorld s loader world span p.1 _ p.2)
    exact (list_steady values depth).always.bind hdeclare
  | .implicitGlobals none, _, _ => .pure _
  | .implicitGlobals (some (name, _)), _, depth =>
    ((name_steady name _).andThen (.pure _)).always
  | .assign targets values, span, depth => by
    simp only [visitStatement]
    exact (list_steady values depth).always.bind
      ((targets_steady targets span depth).comap Prod.swap)
  | .function reach name (.mk parameters block stop), span, depth => by
    simp only [visitStatement]
    have hdeclare : SteadyFor fun doc σ (s : Setting σ) =>
        ((fun b => b.declareFunction s reach name span parameters.names doc) :
          Walk σ Binder.Defined) :=
      .idle fun doc s σ loader b world =>
        b.declareFunction_withWorld s loader world reach name span parameters.names doc
    have hfinish : SteadyFor fun (p : (Option String × Binder.Defined) × Ty) σ (_ : Setting σ) =>
        (modify (·.finishFunction p.1.2.symbol p.2) : Walk σ Unit) :=
      .idle fun p _ _ _ b world => congrArg (Prod.mk ()) (b.finishFunction_withWorld world _ _)
    exact hdeclare.bind
      (((function_steady parameters stop name.method.isSome (block_steady block _)).comap
        fun p : Option String × Binder.Defined => p.2.container).bind hfinish)
  | .do body, span, depth => by
    cases body with
    | none => exact .pure _
    | some body => exact (within_steady .block span (block_steady (some body) _)).always
  | .while condition body, _, depth => by
    simp only [visitStatement]
    exact ((expr_steady condition _).andThen (scoped_steady .loop body depth)).always
  | .repeat body condition, span, depth => by
    simp only [visitStatement]
    exact (within_steady .loop span
      ((block_steady body _).andThen ((expr_steady condition _).andThen (.pure _)))).always
  | .if condition body rest none, _, depth =>
    ((expr_steady condition _).andThen
      ((scoped_steady .block body depth).andThen
        ((elseIfs_steady rest depth).andThen (.pure _)))).always
  | .if condition body rest (some block), _, depth =>
    ((expr_steady condition _).andThen
      ((scoped_steady .block body depth).andThen
        ((elseIfs_steady rest depth).andThen (scoped_steady .block block depth)))).always
  | .numericFor counter start limit step body, span, depth => by
    have hcounter : Steady fun σ s =>
        (modify (Binder.declareCounter s span .number counter) : Walk σ Unit) :=
      .change fun s _ loader b world =>
        b.declareCounter_withWorld s loader world span .number counter
    have hloop := within_steady .loop span (hcounter.andThen (block_steady body (depth + 1)))
    cases step with
    | none =>
      exact ((expr_steady start _).andThen ((expr_steady limit _).andThen hloop)).always
    | some step =>
      exact ((expr_steady start _).andThen ((expr_steady limit _).andThen
        ((expr_steady step _).andThen hloop))).always
  | .genericFor names values body, span, depth => by
    have hnames : Steady fun σ (s : Setting σ) => (modify (fun b =>
        names.foldl (fun b name => b.declareCounter s span .unknown name) b) : Walk σ Unit) := by
      refine .change fun s σ loader b world => ?_
      induction names generalizing b with
      | nil => rfl
      | cons name names ih => exact ih (b.declareCounter s span .unknown name)
    simp only [visitStatement]
    exact ((list_steady values depth).andThen
      (within_steady .loop span (hnames.andThen (block_steady body _)))).always
  | .return none, _, _ => .pure _
  | .return (some values), _, depth => by
    refine ((list_steady values depth).bind (.idle fun found s σ loader b world => ?_)).always
    cases found with
    | nil => rfl
    | cons first _ => exact congrArg (Prod.mk ()) (b.noteReturn_withWorld world first)
  | .call call, _, depth => by
    simp only [visitStatement]
    exact ((expr_steady call _).andThen (.pure _)).always

theorem elseIfs_steady : ∀ rest depth, Steady fun _ s => visitElseIfs s rest depth
  | [], _ => .pure _
  | .mk condition body :: rest, depth => by
    simp only [visitElseIfs]
    exact (expr_steady condition _).andThen
      ((scoped_steady .block body depth).andThen (elseIfs_steady rest depth))

theorem targets_steady : ∀ targets span depth,
    SteadyFor fun (p : List Inferred × Option String) _ s =>
      assignTargets s targets p.1 span p.2 depth
  | [], _, _ => .pure _
  | target :: rest, span, depth => by
    have hrest := targets_steady rest span depth
    have htail := hrest.comap fun p : List Inferred × Option String => (p.1.tail, p.2)
    have hother : SteadyFor fun (p : List Inferred × Option String) σ (s : Setting σ) => (do
        let _ ← inferExpr s target (depth + 1)
        assignTargets s rest p.1.tail span p.2 depth) :=
      (expr_steady target _).always.andThen htail
    cases target with
    | global => exact hrest
    | name ident =>
      have hassign : SteadyFor fun (p : List Inferred × Option String) σ (s : Setting σ) =>
          (modify (Binder.assignName s ident span (p.1.headD {}) p.2) : Walk σ Unit) :=
        .idle fun p s σ loader b world =>
          congrArg (Prod.mk ()) (b.assignName_withWorld s loader world ident span _ p.2)
      exact hassign.andThen htail
    | field base key =>
      cases hpath : base.path? with
      | some path =>
        simp only [assignTargets, hpath]
        have hdefine : SteadyFor fun (p : List Inferred × Option String) σ (s : Setting σ) =>
            (modify (fun b => (b.defineMember s (path ++ [key])
              (.ofTy (p.1.headD {}).ty .field) span (p.1.headD {}) p.2).2) : Walk σ Unit) := by
          refine .idle fun p s σ loader b world => ?_
          have hdefined := b.defineMember_withWorld s loader world (path ++ [key])
            (.ofTy (p.1.headD {}).ty .field) span (p.1.headD {}) p.2
          exact congrArg (Prod.mk ()) (congrArg Prod.snd hdefined)
        exact hdefine.andThen htail
      | none =>
        simp only [assignTargets, hpath]
        exact (expr_steady base _).always.andThen htail
    | _ => exact hother

end

end Walk

/-! ## Builds -/

/-- The names that the build of a text asks its loader for, one after the other. -/
def Index.asked (text : String) : List String :=
  (Index.build default 0 text {} Loader.recording []).2

/-- The index of a text, from the answers to the names that its build asks for. -/
def Index.ofAnswers (document : DocumentId) (revision : Revision) (text : String)
    (options : ParserOptions) (answers : List (Option Index)) : Index :=
  (Index.build document revision text options Loader.replaying answers).1

theorem Index.build_steady (text : String) :
    ∃ names, ∀ (document : DocumentId) (revision : Revision) (options : ParserOptions),
      ∃ f : List (Option Index) → Index, ∀ (σ : Type) (loader : Loader σ) (world : σ),
        Index.build document revision text options loader world =
          (f (loader.askAll names world).1, (loader.askAll names world).2) := by
  cases hchunk : Chunk.ofChars? (Source.ofString text).chars with
  | none =>
    refine ⟨[], fun document revision options =>
      ⟨fun _ => .empty document revision (.ofString text) [malformedDiagnostic (.ofString text)],
        fun σ loader world => ?_⟩⟩
    simp only [Index.build, hchunk, Loader.askAll]
  | some chunk =>
    obtain ⟨names, hnames⟩ := Walk.statements_steady chunk.statements 1
    refine ⟨names, fun document revision options => ?_⟩
    let setting : Setting Unit :=
      { source := .ofString text, document := document, allowDefined := options.allowDefined,
        loader := Loader.none }
    obtain ⟨f, hf⟩ := hnames setting
    let last (answers : List (Option Index)) : Binder Unit :=
      (f (.start setting.source ()) answers).2.resolvePending
    let indexOf (σ : Type) (b : Binder σ) : Index :=
      ⟨{ document := document, revision := revision, source := setting.source, table := b.table,
         references := b.references, exports := b.exports,
         diagnostics := (chunk.unsupported options.version).map
           (Usage.diagnostic setting.source options.version),
         malformed := false }⟩
    refine ⟨fun answers => indexOf Unit (last answers), fun σ loader world => ?_⟩
    have hwalk := hf σ loader (.start setting.source ()) world
    have hlast : Binder.ofChunk (setting.with loader) chunk world =
        (last (loader.askAll names world).1).withWorld (loader.askAll names world).2 :=
      congrArg (fun r => r.2.resolvePending) hwalk
    simp only [Index.build, hchunk]
    exact congrArg (fun b : Binder σ => (indexOf σ b, b.world)) hlast

/-- Every build asks for the names of its text, and makes its index of the answers alone. -/
theorem Index.build_eq_ofAnswers (document : DocumentId) (revision : Revision) (text : String)
    (options : ParserOptions) (loader : Loader σ) (world : σ) :
    Index.build document revision text options loader world =
      (Index.ofAnswers document revision text options
        (loader.askAll (Index.asked text) world).1,
        (loader.askAll (Index.asked text) world).2) := by
  obtain ⟨names, hnames⟩ := Index.build_steady text
  have hasked : Index.asked text = names := by
    obtain ⟨f, hf⟩ := hnames default 0 {}
    have hrecorded := congrArg Prod.snd (hf _ Loader.recording [])
    rwa [Loader.askAll_recording, List.nil_append] at hrecorded
  obtain ⟨f, hf⟩ := hnames document revision options
  have hreplayed : ∀ answers, answers.length = names.length →
      Index.ofAnswers document revision text options answers = f answers := by
    intro answers hlength
    have hreplay := congrArg Prod.fst (hf _ Loader.replaying answers)
    rwa [Loader.askAll_replaying hlength] at hreplay
  rw [hasked, hf, hreplayed _ (loader.length_askAll names world)]

end LuaScope

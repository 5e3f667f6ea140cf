import LuaScope.Proofs.Binding.Answers
import LuaScope.Proofs.Workspace.Lifecycle

/-!
# LuaScope.Proofs.Workspace.Loading

What the loader of a workspace does to the documents while a build asks it for modules.

* `Documents.Fills`      — all that loads do: slots of modules that are idle and without index are
  filled from the file of the module, and no document under build is touched.
* `Documents.loadNoting` — the loader that also notes every build it runs (`Nested`); but for the
  notes it is the loader of the workspace.
* `build_fills_idle` — both, for every build of every run.
-/

namespace LuaScope

/-! ## Files -/

/-- A `require` of this name leads to this path. -/
def ModuleSource.path? (m : ModuleSource) (name : String) : Option String :=
  m.catalog.bind (·.resolve name)

/-- Some `require` leads to a file of this document, which has this text. -/
def ModuleSource.Provides (m : ModuleSource) (document : DocumentId) (text : String) : Prop :=
  ∃ name path, m.path? name = some path ∧ DocumentId.ofPath path = document ∧
    m.files.readText path = .ok text

/-! ## What the loader does with a name -/

/-- What a `require` comes to, as the documents stand. -/
inductive Consulted where
  | nothing
  | published (index : Index)
  | file (document : DocumentId) (text : String)

namespace Documents

/-- The loader's decision on a name. -/
def consult (m : ModuleSource) (fuel : Nat) (stack : List DocumentId) (name : String)
    (d : Documents) : Consulted :=
  match m.path? name with
  | none => .nothing
  | some path =>
    if stack.contains (DocumentId.ofPath path) then .nothing
    else
      match d.get (DocumentId.ofPath path) with
      | some index => .published index
      | none =>
        match fuel, m.files.readText path with
        | 0, _ | _ + 1, .error _ => .nothing
        | _ + 1, .ok text => .file (DocumentId.ofPath path) text

variable {m : ModuleSource} {fuel : Nat} {stack : List DocumentId} {name : String} {d : Documents}

theorem consult_file {document : DocumentId} {text : String}
    (h : consult m fuel stack name d = .file document text) :
    document ∉ stack ∧ d.get document = none ∧ 0 < fuel ∧
      ∃ path, m.path? name = some path ∧ DocumentId.ofPath path = document ∧
        m.files.readText path = .ok text := by
  unfold consult at h
  split at h
  · cases h
  · rename_i path hpath
    split at h
    · cases h
    · rename_i hstack
      split at h
      · cases h
      · rename_i hget
        split at h
        · cases h
        · cases h
        · rename_i htext
          cases h
          exact ⟨by simpa using hstack, hget, Nat.succ_pos _, path, hpath, rfl, htext⟩

/-- The loader goes by its decision; a file is built with one file less to go. -/
theorem load_eq (m : ModuleSource) (fuel : Nat) (stack : List DocumentId) (name : String)
    (d : Documents) :
    load m fuel stack name d =
      match consult m fuel stack name d with
      | .nothing => (none, d)
      | .published index => (some index, d)
      | .file document text =>
        let (index, d) := buildWith (d.beginLoad document text)
          (load m (fuel - 1) (stack ++ [document])) d
        let (index, d) := d.publishLoaded index
        (some index, d) := by
  rw [load.eq_def]
  unfold consult ModuleSource.path?
  simp only
  cases m.catalog.bind (·.resolve name) with
  | none => rfl
  | some path =>
    by_cases hstack : stack.contains (DocumentId.ofPath path) = true
    · simp only [if_pos hstack]
    · simp only [if_neg hstack]
      cases d.get (DocumentId.ofPath path) with
      | some index => rfl
      | none =>
        cases fuel with
        | zero => rfl
        | succ fuel => cases m.files.readText path <;> rfl

end Documents

/-! ## What loads do -/

/-- Loads leave a slot alone, or fill it from the file of its document. -/
def Slot.Fills (m : ModuleSource) (options : ParserOptions) (stack : List DocumentId)
    (x : DocumentId) (s s' : Option Slot) : Prop :=
  s' = s ∨ x ∉ stack ∧ (s.getD {}).index = none ∧ (s.getD {}).settled = (s.getD {}).revision ∧
    ∃ text index, m.Provides x text ∧
      PendingBuild.Builds ⟨x, (s.getD {}).revision + 1, text, options⟩ index ∧
      s' = some { revision := (s.getD {}).revision + 1, settled := (s.getD {}).revision + 1,
                  index := some index }

namespace Slot.Fills

variable {m : ModuleSource} {options : ParserOptions} {stack : List DocumentId} {x : DocumentId}
  {s s' s'' : Option Slot}

theorem trans (h : Slot.Fills m options stack x s s') (h' : Slot.Fills m options stack x s' s'') :
    Slot.Fills m options stack x s s'' := by
  rcases h with rfl | ⟨hstack, hnone, hidle, text, index, hprovides, hbuilds, rfl⟩
  · exact h'
  · rcases h' with rfl | ⟨_, hsome, _⟩
    · exact .inr ⟨hstack, hnone, hidle, text, index, hprovides, hbuilds, rfl⟩
    · cases hsome

/-- A loader with a shorter stack may fill what one with a longer stack fills. -/
theorem mono {inner : List DocumentId} (h : Slot.Fills m options inner x s s')
    (hsub : stack ⊆ inner) : Slot.Fills m options stack x s s' :=
  h.imp id fun h => ⟨fun hx => h.1 (hsub hx), h.2⟩

theorem eq_of_mem (h : Slot.Fills m options stack x s s') (hx : x ∈ stack) : s' = s :=
  h.resolve_right fun h => h.1 hx

theorem eq_of_isSome (h : Slot.Fills m options stack x s s')
    (hs : (s.getD {}).index.isSome) : s' = s := by
  refine h.resolve_right fun h => ?_
  rw [h.2.1] at hs
  cases hs

theorem eq_of_isPending (h : Slot.Fills m options stack x s s')
    (hs : (s.getD {}).isPending) : s' = s := by
  refine h.resolve_right fun h => ?_
  simp [Slot.isPending, h.2.2.1] at hs

end Slot.Fills

namespace Documents

variable {m : ModuleSource} {stack : List DocumentId} {d d' d'' : Documents}

/-- The second manager is the first one, but for loads of modules that are not on the stack. -/
structure Fills (m : ModuleSource) (stack : List DocumentId) (d d' : Documents) : Prop where
  options : d'.options = d.options
  slot? : ∀ x, Slot.Fills m d.options stack x (d.slot? x) (d'.slot? x)

theorem Fills.refl (d : Documents) : d.Fills m stack d := ⟨rfl, fun _ => .inl rfl⟩

theorem Fills.trans (h : d.Fills m stack d') (h' : d'.Fills m stack d'') : d.Fills m stack d'' where
  options := h'.options.trans h.options
  slot? x := (h.slot? x).trans (h.options ▸ h'.slot? x)

theorem Fills.mono {inner : List DocumentId} (h : d.Fills m inner d') (hsub : stack ⊆ inner) :
    d.Fills m stack d' := ⟨h.options, fun x => (h.slot? x).mono hsub⟩

/-- The document of a load stands on the stack while it is built: its slot waits for the index. -/
theorem fills_publishLoaded {document : DocumentId} {text : String} {index : Index}
    (hbuild : d.Fills m (stack ++ [document]) d') (hnone : d.get document = none)
    (hstack : document ∉ stack) (hprovides : m.Provides document text)
    (hbuilds : (d.beginLoad document text).Builds index) :
    d.Fills m stack (d'.publishLoaded index).2 := by
  have hkept : d'.slot? document = d.slot? document := (hbuild.slot? document).eq_of_mem (by simp)
  have hdoc : index.document = document := hbuilds.document
  have hrev : index.revision = (d.slot document).revision + 1 := hbuilds.revision
  have hslot : d'.slot document = d.slot document := by
    unfold slot
    rw [hkept]
  have hindex : (d.slot document).index = none := (d.get_eq document).symm.trans hnone
  have houter : d.Fills m stack d' := hbuild.mono fun _ hx => List.mem_append_left _ hx
  by_cases hpending : (d.slot document).isPending
  · -- The slot is there, and the load is kept to itself.
    obtain ⟨s, hs⟩ : ∃ s, d'.slot? document = some s := by
      refine Option.isSome_iff_exists.mp ?_
      cases hsome : (d'.slot? document).isSome with
      | true => rfl
      | false =>
        rw [← hslot, slot_eq_default hsome] at hpending
        cases hpending
    have hself : (d'.publishLoaded index).2 = d' := by
      simp only [publishLoaded, hdoc, hslot, hindex, hpending, Bool.true_or, if_true]
      refine setSlot_self (hs.trans ?_)
      rw [← hslot]
      simp [slot, hs]
    rw [hself]
    exact houter
  · have hidle : (d.slot document).settled = (d.slot document).revision := by
      simpa [Slot.isPending] using hpending
    have hpublished : (d'.publishLoaded index).2 = d'.setSlot document
        { revision := index.revision, settled := index.revision, index := some index } := by
      simp [publishLoaded, hdoc, hslot, hindex, hrev, Slot.isPending, hidle]
    refine ⟨by rw [hpublished]; exact houter.options, fun x => ?_⟩
    rw [hpublished, slot?_setSlot]
    split
    · rename_i hx
      subst hx
      exact .inr ⟨hstack, hindex, hidle, text, index, hprovides, hbuilds, by rw [hrev]; rfl⟩
    · exact houter.slot? x

/-- A build does to the documents what its loader does. -/
theorem buildWith_fills {loader : Loader Documents}
    (h : ∀ name (d : Documents), d.Fills m stack (loader name d).2) (p : PendingBuild)
    (d : Documents) :
    d.Fills m stack (buildWith p loader d).2 :=
  Index.build_world Fills.refl (fun _ _ _ => Fills.trans) loader h _ _ _ _ d

/-- By induction on the fuel: the files that a module requires are loaded with less of it. -/
theorem load_fills (m : ModuleSource) (fuel : Nat) :
    ∀ (stack : List DocumentId) (name : String) (d : Documents),
      d.Fills m stack (load m fuel stack name d).2 := by
  induction fuel using Nat.strongRecOn with
  | ind fuel ih =>
    intro stack name d
    rw [load_eq]
    cases hconsult : consult m fuel stack name d with
    | nothing => exact .refl d
    | published index => exact .refl d
    | file document text =>
      obtain ⟨hstack, hget, hfuel, path, hpath, hdoc, htext⟩ := consult_file hconsult
      have hbuild := buildWith_fills
        (ih (fuel - 1) (Nat.sub_one_lt_of_lt hfuel) (stack ++ [document]))
        (d.beginLoad document text) d
      exact fills_publishLoaded hbuild hget hstack ⟨name, path, hpath, hdoc, htext⟩ ⟨_, _, d, rfl⟩

theorem build_fills (d : Documents) (m : ModuleSource) (p : PendingBuild) :
    d.Fills m [p.document] (d.build m p).2 := buildWith_fills (load_fills m _ _) p d

end Documents

/-! ## Builds inside a build -/

/-- A build that a loader runs, with the documents that were under build when it started. -/
structure Nested where
  stack : List DocumentId
  pending : PendingBuild

namespace Loader

variable {σ τ : Type}

/-- Seen through the view, the first loader is the second one. -/
def Projects (outer : Loader σ) (inner : Loader τ) (view : σ → τ) : Prop :=
  ∀ name world, inner name (view world) = ((outer name world).1, view (outer name world).2)

theorem Projects.askAll {outer : Loader σ} {inner : Loader τ} {view : σ → τ}
    (h : outer.Projects inner view) (names : List String) (world : σ) :
    inner.askAll names (view world) =
      ((outer.askAll names world).1, view (outer.askAll names world).2) := by
  induction names generalizing world with
  | nil => rfl
  | cons name names ih =>
    simp only [Loader.askAll, h name world]
    rw [ih]

end Loader

theorem Documents.buildWith_projects {σ τ : Type} {outer : Loader σ} {inner : Loader τ}
    {view : σ → τ} (h : outer.Projects inner view) (p : PendingBuild) (world : σ) :
    buildWith p inner (view world) =
      ((buildWith p outer world).1, view (buildWith p outer world).2) := by
  simp only [buildWith, Index.build_eq_ofAnswers, h.askAll]

namespace Documents

/-- The loader of a workspace, which notes the builds that it runs, as they end. -/
def loadNoting (m : ModuleSource) : Nat → List DocumentId → Loader (Documents × List Nested)
  | fuel, stack => fun name (d, noted) =>
    match consult m fuel stack name d with
    | .nothing => (none, d, noted)
    | .published index => (some index, d, noted)
    | .file document text =>
      match fuel with
      | 0 => (none, d, noted)
      | fuel + 1 =>
        let pending := d.beginLoad document text
        let (index, d, noted) := buildWith pending (loadNoting m fuel (stack ++ [document]))
          (d, noted)
        let (index, d) := d.publishLoaded index
        (some index, d, noted ++ [⟨stack, pending⟩])

/-- Build what is pending, and note the builds inside. -/
def buildNoting (d : Documents) (m : ModuleSource) (p : PendingBuild) (noted : List Nested) :
    Index × Documents × List Nested :=
  buildWith p (loadNoting m maxRequireDepth [p.document]) (d, noted)

variable {m : ModuleSource}

theorem loadNoting_eq (m : ModuleSource) (fuel : Nat) (stack : List DocumentId) (name : String)
    (d : Documents) (noted : List Nested) :
    loadNoting m fuel stack name (d, noted) =
      match consult m fuel stack name d with
      | .nothing => (none, d, noted)
      | .published index => (some index, d, noted)
      | .file document text =>
        let pending := d.beginLoad document text
        let (index, d, noted) := buildWith pending (loadNoting m (fuel - 1) (stack ++ [document]))
          (d, noted)
        let (index, d) := d.publishLoaded index
        (some index, d, noted ++ [⟨stack, pending⟩]) := by
  rw [loadNoting.eq_def]
  cases hconsult : consult m fuel stack name d with
  | nothing => simp only [hconsult]
  | published index => simp only [hconsult]
  | file document text =>
    simp only [hconsult]
    cases fuel with
    | zero => exact absurd (consult_file hconsult).2.2.1 (Nat.lt_irrefl 0)
    | succ fuel => rfl

/-- The notes change nothing. -/
theorem loadNoting_projects (m : ModuleSource) (fuel : Nat) :
    ∀ stack, (loadNoting m fuel stack).Projects (load m fuel stack) Prod.fst := by
  induction fuel using Nat.strongRecOn with
  | ind fuel ih =>
    intro stack name (d, noted)
    rw [load_eq, loadNoting_eq]
    cases hconsult : consult m fuel stack name d with
    | nothing => rfl
    | published index => rfl
    | file document text =>
      have hfuel := (consult_file hconsult).2.2.1
      have hbuild := buildWith_projects
        (ih (fuel - 1) (Nat.sub_one_lt_of_lt hfuel) (stack ++ [document]))
        (d.beginLoad document text) (d, noted)
      simp only [hbuild]

theorem build_eq_buildNoting (d : Documents) (m : ModuleSource) (p : PendingBuild)
    (noted : List Nested) :
    d.build m p = ((d.buildNoting m p noted).1, (d.buildNoting m p noted).2.1) :=
  buildWith_projects (loadNoting_projects m _ _) p (d, noted)

end Documents

/-- The build is of a document that is not under build, from the text of its file; the documents
under build go on from the given ones and are no more than can be. -/
structure Nested.Fresh (m : ModuleSource) (stack : List DocumentId) (depth : Nat) (e : Nested) :
    Prop where
  fresh : e.pending.document ∉ e.stack
  provides : m.Provides e.pending.document e.pending.text
  from_stack : stack <+: e.stack
  nodup : stack.Nodup → e.stack.Nodup
  depth : e.stack.length < stack.length + depth

/-- What is fresh above a stack with one document more is fresh above the stack. -/
theorem Nested.Fresh.pushed {m : ModuleSource} {stack : List DocumentId} {document : DocumentId}
    {depth : Nat} {e : Nested} (h : e.Fresh m (stack ++ [document]) depth)
    (hfresh : document ∉ stack) : e.Fresh m stack (depth + 1) where
  fresh := h.fresh
  provides := h.provides
  from_stack := (List.prefix_append _ _).trans h.from_stack
  nodup hnodup := by
    refine h.nodup (List.nodup_append.mpr ⟨hnodup, List.nodup_cons.mpr ⟨nofun, .nil⟩, ?_⟩)
    intro a ha b hb heq
    rw [List.mem_singleton.mp hb] at heq
    exact hfresh (heq ▸ ha)
  depth := by
    have hdepth := h.depth
    rw [List.length_append, List.length_singleton] at hdepth
    omega

namespace Documents

variable {m : ModuleSource}

/-- All that was noted in between is fresh. -/
def NotesFresh (m : ModuleSource) (stack : List DocumentId) (depth : Nat)
    (w w' : Documents × List Nested) : Prop :=
  ∃ more, w'.2 = w.2 ++ more ∧ ∀ e ∈ more, e.Fresh m stack depth

theorem NotesFresh.refl {stack : List DocumentId} {depth : Nat} (w : Documents × List Nested) :
    NotesFresh m stack depth w w := ⟨[], (List.append_nil _).symm, nofun⟩

theorem NotesFresh.trans {stack : List DocumentId} {depth : Nat}
    (u v w : Documents × List Nested) (h : NotesFresh m stack depth u v)
    (h' : NotesFresh m stack depth v w) : NotesFresh m stack depth u w := by
  obtain ⟨more, hmore, hfresh⟩ := h
  obtain ⟨more', hmore', hfresh'⟩ := h'
  refine ⟨more ++ more', by rw [hmore', hmore, List.append_assoc], fun e he => ?_⟩
  exact (List.mem_append.mp he).elim (hfresh e) (hfresh' e)

/-- By induction on the fuel: one file more is on the stack of the builds inside a build. -/
theorem loadNoting_fresh (m : ModuleSource) (fuel : Nat) :
    ∀ (stack : List DocumentId) (name : String) (w : Documents × List Nested),
      NotesFresh m stack fuel w (loadNoting m fuel stack name w).2 := by
  induction fuel using Nat.strongRecOn with
  | ind fuel ih =>
    intro stack name (d, noted)
    rw [loadNoting_eq]
    cases hconsult : consult m fuel stack name d with
    | nothing => exact .refl _
    | published index => exact .refl _
    | file document text =>
      obtain ⟨hfresh, _, hfuel, path, hpath, hdoc, htext⟩ := consult_file hconsult
      let started : Nested := ⟨stack, d.beginLoad document text⟩
      obtain ⟨more, hmore, hinside⟩ := Index.build_world NotesFresh.refl NotesFresh.trans _
        (ih (fuel - 1) (Nat.sub_one_lt_of_lt hfuel) (stack ++ [document])) document
        (d.revision document + 1) text d.options (d, noted)
      refine ⟨more ++ [started], ?_, fun e he => ?_⟩
      · rw [← List.append_assoc]
        exact congrArg (· ++ [started]) hmore
      · rcases List.mem_append.mp he with he | he
        · have hpushed := (hinside e he).pushed hfresh
          rwa [Nat.sub_add_cancel hfuel] at hpushed
        · rw [List.mem_singleton.mp he]
          exact ⟨hfresh, ⟨name, path, hpath, hdoc, htext⟩, List.prefix_rfl, id,
            Nat.lt_add_of_pos_right hfuel⟩

theorem buildNoting_fresh (d : Documents) (m : ModuleSource) (p : PendingBuild)
    (noted : List Nested) :
    NotesFresh m [p.document] maxRequireDepth (d, noted) (d.buildNoting m p noted).2 :=
  Index.build_world NotesFresh.refl NotesFresh.trans _ (loadNoting_fresh m _ _) _ _ _ _ (d, noted)

end Documents

/-- An edit that nothing came after is being built, or its document has an index: either way loads
leave its slot alone. -/
theorem Documents.Fills.edit_kept {s : Logged} (hs : s.Reachable) {m : ModuleSource}
    {stack : List DocumentId} {d : Documents} (h : s.documents.Fills m stack d) {e : PendingBuild}
    {later earlier : List Call} (hlog : s.log = later ++ .beganEdit e :: earlier)
    (hnone : ∀ c ∈ later, ¬ c.Supersedes e.document) :
    d.slot? e.document = s.documents.slot? e.document := by
  rcases editInv_of_reachable hs e later earlier hlog with ⟨⟨c, hc, hsup⟩, _⟩ | ⟨_, _, hindex⟩
  · exact absurd hsup (hnone c hc)
  · rcases hindex with hsome | hpending
    · exact (h.slot? e.document).eq_of_isSome hsome
    · have hbuilding : (s.documents.slot e.document).isPending := by
        simpa [Slot.isPending] using hpending
      exact (h.slot? e.document).eq_of_isPending hbuilding

/--
In every reachable state, a build leaves alone the slot of its document, the slots of documents
that have an index, and those of documents of which an edit is under way. Any other slot it leaves
alone too, or fills it, one revision on, with an index of the text of the document's file. And every
build that it runs on the way, which the notes list, is of a document that was not under build.
-/
theorem build_fills_idle {s : Logged} (hs : s.Reachable) (m : ModuleSource) (p : PendingBuild) :
    let d := s.documents
    let d' := (d.build m p).2
    d'.slot? p.document = d.slot? p.document ∧
      (∀ x, (d.get x).isSome → d'.slot? x = d.slot? x) ∧
      (∀ x, (d.slot x).isPending → d'.slot? x = d.slot? x) ∧
      (∀ e later earlier, s.log = later ++ .beganEdit e :: earlier →
        (∀ c ∈ later, ¬ c.Supersedes e.document) → d'.slot? e.document = d.slot? e.document) ∧
      (∀ x, d'.slot? x = d.slot? x ∨
        ∃ name path text index, m.path? name = some path ∧ DocumentId.ofPath path = x ∧
          m.files.readText path = .ok text ∧ index.source = .ofString text ∧
          PendingBuild.Builds ⟨x, d.revision x + 1, text, d.options⟩ index ∧
          d'.slot? x = some { revision := d.revision x + 1, settled := d.revision x + 1,
                              index := some index }) ∧
      ∀ noted, d.build m p = ((d.buildNoting m p noted).1, (d.buildNoting m p noted).2.1) ∧
        ∃ inside, (d.buildNoting m p noted).2.2 = noted ++ inside ∧
          ∀ e ∈ inside, e.pending.document ∉ e.stack ∧ e.stack.Nodup ∧
            e.stack.head? = some p.document ∧ e.stack.length ≤ maxRequireDepth ∧
            m.Provides e.pending.document e.pending.text := by
  intro d d'
  have hfills : d.Fills m [p.document] d' := Documents.build_fills d m p
  refine ⟨(hfills.slot? _).eq_of_mem (List.mem_singleton.mpr rfl), fun x hsome => ?_,
    fun x => (hfills.slot? x).eq_of_isPending, fun e later earlier => hfills.edit_kept hs,
    fun x => ?_, fun noted => ⟨Documents.build_eq_buildNoting d m p noted, ?_⟩⟩
  · rw [Documents.get_eq] at hsome
    exact (hfills.slot? x).eq_of_isSome hsome
  · rcases hfills.slot? x with heq | ⟨_, _, _, text, index, hprovides, hbuilds, hfilled⟩
    · exact .inl heq
    · obtain ⟨name, path, hpath, hdoc, htext⟩ := hprovides
      obtain ⟨_, _, _, hbuilt⟩ := id hbuilds
      refine .inr ⟨name, path, text, index, hpath, hdoc, htext, ?_, hbuilds, hfilled⟩
      rw [hbuilt]
      exact Index.build_source _ _ _ _ _ _
  · obtain ⟨inside, hinside, hfresh⟩ := Documents.buildNoting_fresh d m p noted
    refine ⟨inside, hinside, fun e he => ?_⟩
    have h := hfresh e he
    obtain ⟨above, habove⟩ := h.from_stack
    have hdepth := h.depth
    rw [List.length_singleton] at hdepth
    exact ⟨h.fresh, h.nodup (List.nodup_cons.mpr ⟨nofun, .nil⟩), by rw [← habove]; rfl,
      by omega, h.provides⟩

/-- Two modules that require each other are both loaded, and the document that asked for them waits
as before for its own index. -/
theorem build_fills_cycle :
    let files : FileTree := ⟨[(["ws"], .directory),
      (["ws", "a.lua"], .file (some "return require('b')")),
      (["ws", "b.lua"], .file (some "local a = require('a') return {}"))], []⟩
    let catalog := ((({} : Catalog).configure files ["/ws"] [] false).rescan files).2
    let m : ModuleSource := ⟨some catalog, files⟩
    let main : DocumentId := ⟨"file:///main.lua"⟩
    let edit := ({} : Documents).beginEdit main "local a = require('a')"
    let built := edit.2.build m edit.1
    Logged.Reachable ⟨edit.2, [.beganEdit edit.1]⟩ ∧
      built.2.slot? main = edit.2.slot? main ∧
      ∀ x ∈ [⟨"file:///ws/a.lua"⟩, ⟨"file:///ws/b.lua"⟩], ∃ text index,
        m.Provides x text ∧ index.source = .ofString text ∧
          built.2.slot? x = some ⟨1, 1, some index⟩ := by
  intro files catalog m main edit built
  have hs : Logged.Reachable ⟨edit.2, [.beganEdit edit.1]⟩ :=
    ⟨{}, .tail .refl (.beginEdit _ main "local a = require('a')")⟩
  obtain ⟨hown, _, _, _, hother, _⟩ := build_fills_idle hs m edit.1
  have hbuilt : ∀ x ∈ [(⟨"file:///ws/a.lua"⟩ : DocumentId), ⟨"file:///ws/b.lua"⟩],
      edit.2.slot? x = none ∧ (built.2.slot? x).isSome := by decide +kernel
  refine ⟨hs, hown, fun x hx => ?_⟩
  obtain ⟨hbefore, hafter⟩ := hbuilt x hx
  rcases hother x with heq | ⟨name, path, text, index, hpath, hdoc, htext, hsource, _, hfilled⟩
  · rw [show built.2.slot? x = _ from heq, hbefore] at hafter
    cases hafter
  · have hrev : edit.2.revision x = 0 := by
      simp only [Documents.revision, Documents.slot, hbefore]
      rfl
    refine ⟨text, index, ⟨name, path, hpath, hdoc, htext⟩, hsource, hfilled.trans ?_⟩
    rw [show Logged.documents _ = edit.2 from rfl, hrev]

end LuaScope

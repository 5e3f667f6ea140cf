import LuaScope.Proofs.Workspace.Requires

/-!
# LuaScope.Proofs.Workspace.Order

The order in which documents are updated does not matter to what is loaded for them, as long as the
files stay as they are, no chain of requires is too long and files of one document have one text.

* `Documents.Settled`        — the slot of every module is untouched, or holds the one index that
  the files tell.
* `Documents.Serves`         — on such documents the loader answers that index, and loads the
  module with all that it requires.
* `updates_in_any_order`     — hence what is there after a number of updates.
-/

namespace LuaScope

namespace Documents

/-- Every module is untouched, or was built once and its index is that of its file, with those that
it requires; these are loaded as well. -/
structure Settled (m : ModuleSource) (options : ParserOptions) (w : Documents × List Nested) :
    Prop where
  sameOptions : w.1.options = options
  slots : ∀ name path, m.path? name = some path →
    w.1.slot (.ofPath path) = {} ∨
      ∃ text, m.files.readText path = .ok text ∧
        w.1.slot (.ofPath path) = ⟨1, 1, some (m.index options 1 ⟨.ofPath path, text⟩)⟩
  closed : ∀ name a b, m.find name = some a → (w.1.get a.document).isSome → m.Requires a b →
    (w.1.get b.document).isSome
  once : ∀ name b, m.find name = some b →
    w.2.countP (·.pending.document = b.document) = if (w.1.get b.document).isSome then 1 else 0

/-- The documents that have an index are those of before, and those of `loaded`. -/
def Adds (w w' : Documents × List Nested) (loaded : DocumentId → Prop) : Prop :=
  ∀ x, (w'.1.get x).isSome ↔ (w.1.get x).isSome ∨ loaded x

/-- The file that the name leads to from `a`, and those that chains lead to from it. -/
def Behind (m : ModuleSource) (a : Contents) (name : String) (x : DocumentId) : Prop :=
  ∃ b, m.find name = some b ∧ b.document ≠ a.document ∧ ∃ k c, m.Chain k b c ∧ c.document = x

/-- Whatever the build of `a` asks of the loader, the answer is the index of the file, and what is
loaded on the way is the file with all that it requires. -/
def Serves (m : ModuleSource) (options : ParserOptions) (loader : Loader (Documents × List Nested))
    (a : Contents) : Prop :=
  ∀ name ∈ Index.asked a.text, ∀ w, Settled m options w →
    (loader name w).1 = m.answer options a name ∧ Settled m options (loader name w).2 ∧
      Adds w (loader name w).2 (Behind m a name)

variable {m : ModuleSource} {options : ParserOptions} {a b : Contents}
  {loader : Loader (Documents × List Nested)} {w w' : Documents × List Nested} {name : String}

/-- What chains lead to from a module that is loaded, is loaded. -/
theorem Settled.chain (h : Settled m options w) {k : Nat} {c : Contents} (hchain : m.Chain k b c)
    (hfound : m.find name = some b) (hloaded : (w.1.get b.document).isSome) :
    (w.1.get c.document).isSome := by
  induction hchain generalizing name with
  | nil b => exact hloaded
  | cons hreq _ ih =>
    obtain ⟨⟨name', _, hname'⟩, _⟩ := id hreq
    exact ih hname' (h.closed _ _ _ hfound hloaded hreq)

/-- By induction on the names: each is answered on documents that are settled again. -/
theorem Serves.askAll (h : Serves m options loader a) :
    ∀ names : List String, (∀ name ∈ names, name ∈ Index.asked a.text) → ∀ w, Settled m options w →
      (loader.askAll names w).1 = names.map (m.answer options a) ∧
        Settled m options (loader.askAll names w).2 ∧
        Adds w (loader.askAll names w).2 fun x => ∃ name ∈ names, Behind m a name x
  | [], _, w, hw => ⟨rfl, hw, fun x => by simp [Loader.askAll]⟩
  | name :: names, hnames, w, hw => by
    obtain ⟨hanswer, hsettled, hadds⟩ := h name (hnames name (.head _)) w hw
    obtain ⟨hanswers, hsettled', hadds'⟩ :=
      Serves.askAll h names (fun n hn => hnames n (.tail _ hn)) _ hsettled
    refine ⟨?_, hsettled', fun x => ?_⟩
    · simp only [Loader.askAll, List.map_cons]
      rw [hanswer, hanswers]
    · refine (hadds' x).trans ?_
      rw [hadds x, or_assoc]
      refine or_congr_right ?_
      simp only [List.mem_cons, exists_eq_or_imp]

theorem behind_iff {x : DocumentId} :
    (∃ name ∈ Index.asked a.text, Behind m a name x) ↔
      ∃ k c, m.Chain (k + 1) a c ∧ c.document = x := by
  constructor
  · rintro ⟨name, hname, b, hfind, hne, k, c, hchain, hx⟩
    exact ⟨k, c, .cons ⟨⟨name, hname, hfind⟩, hne⟩ hchain, hx⟩
  · rintro ⟨k, c, hchain, hx⟩
    obtain _ | ⟨⟨⟨name, hname, hfind⟩, hne⟩, hrest⟩ := hchain
    exact ⟨name, hname, _, hfind, hne, k, c, hrest, hx⟩

/-- A build with such a loader gives the index of the file, and loads all that it requires. -/
theorem Serves.build (h : Serves m options loader a) (hwithin : m.Within maxRequireDepth a)
    (revision : Revision) (hw : Settled m options w) :
    let built := Index.build a.document revision a.text options loader w
    built.1 = m.index options revision a ∧ Settled m options built.2 ∧
      Adds w built.2 fun x => ∃ k c, m.Chain (k + 1) a c ∧ c.document = x := by
  intro built
  obtain ⟨hanswers, hsettled, hadds⟩ := h.askAll _ (fun _ hname => hname) w hw
  have hbuilt : built = _ := Index.build_eq_ofAnswers a.document revision a.text options loader w
  rw [hbuilt]
  refine ⟨?_, hsettled, fun x => (hadds x).trans (or_congr_right behind_iff)⟩
  rw [m.index_eq options revision hwithin, hanswers]

/-! ## The loader of a workspace -/

section Loader

variable {fuel : Nat} {stack : List DocumentId}

theorem consult_of_find (hfind : m.find name = some b) (hstack : b.document ∉ stack)
    (hfuel : 0 < fuel) (d : Documents) :
    consult m fuel stack name d =
      match d.get b.document with
      | some index => .published index
      | none => .file b.document b.text := by
  obtain ⟨path, hpath, hdoc, hread⟩ := ModuleSource.path_of_find hfind
  obtain ⟨fuel, rfl⟩ : ∃ n, fuel = n + 1 := ⟨fuel - 1, by omega⟩
  have hnot : stack.contains b.document = false := by simpa using hstack
  cases hget : d.get b.document with
  | none => simp only [consult, hpath, hdoc, hnot, hget, hread, Bool.false_eq_true, if_false]
  | some index => simp only [consult, hpath, hdoc, hnot, hget, Bool.false_eq_true, if_false]

/-- A name that stands for nothing, or for the file itself, is not looked for any further. -/
theorem Settled.consult_nothing (h : Settled m options w) (hself : a.document ∈ stack)
    (hnone : (m.find name).filter (·.document ≠ a.document) = none) :
    consult m fuel stack name w.1 = .nothing := by
  cases hpath : m.path? name with
  | none => simp only [consult, hpath]
  | some path =>
    by_cases hstack : DocumentId.ofPath path ∈ stack
    · have hin : stack.contains (DocumentId.ofPath path) = true := by simpa using hstack
      simp only [consult, hpath, hin, if_true]
    · have hne : DocumentId.ofPath path ≠ a.document := fun heq => hstack (heq ▸ hself)
      have hunread : ∀ text, m.files.readText path ≠ .ok text := by
        intro text htext
        have hfind : m.find name = some ⟨.ofPath path, text⟩ :=
          (ModuleSource.find_eq_some hpath).mpr ⟨htext, rfl⟩
        rw [hfind, Option.filter_some, if_pos (by simpa using hne)] at hnone
        cases hnone
      have hempty : w.1.get (.ofPath path) = none := by
        rw [get_eq]
        rcases h.slots name path hpath with hslot | ⟨text, htext, _⟩
        · rw [hslot]
        · exact absurd htext (hunread text)
      have hout : stack.contains (DocumentId.ofPath path) = false := by simpa using hstack
      simp only [consult, hpath, hout, hempty, Bool.false_eq_true, if_false]
      cases hread : m.files.readText path with
      | error e => cases fuel <;> rfl
      | ok text => exact absurd hread (hunread text)

theorem Settled.slot_of_none (h : Settled m options w) (hfind : m.find name = some b)
    (hnone : w.1.get b.document = none) : w.1.slot b.document = {} := by
  obtain ⟨path, hpath, hdoc, _⟩ := ModuleSource.path_of_find hfind
  rcases h.slots name path hpath with hslot | ⟨text, _, hslot⟩
  · rwa [hdoc] at hslot
  · rw [hdoc] at hslot
    rw [get_eq, hslot] at hnone
    cases hnone

theorem Settled.index_of_some (h : Settled m options w) (hfind : m.find name = some b)
    {index : Index} (hsome : w.1.get b.document = some index) : index = m.index options 1 b := by
  obtain ⟨path, hpath, hdoc, htext⟩ := ModuleSource.path_of_find hfind
  rw [get_eq, ← hdoc] at hsome
  rcases h.slots name path hpath with hslot | ⟨text, hread, hslot⟩
  · rw [hslot] at hsome
    cases hsome
  · rw [hslot] at hsome
    cases hread.symm.trans htext
    cases hsome
    rw [hdoc]

theorem options_publishLoaded (d : Documents) (index : Index) :
    (d.publishLoaded index).2.options = d.options := by
  unfold publishLoaded
  simp only
  split
  · rfl
  · split <;> rfl

theorem options_commit (d : Documents) (index : Index) :
    (d.commit index).2.options = d.options := by
  unfold commit
  simp only
  split <;> rfl

/-- When all that it requires is loaded, the index of a module can be published. -/
theorem Settled.publish (h : Settled m options w) (hm : m.Unambiguous)
    (hfind : m.find name = some b) (hnone : w.1.get b.document = none)
    (hloaded : ∀ c, m.Requires b c → (w.1.get c.document).isSome) {e : Nested}
    (he : e.pending.document = b.document) :
    let d := (w.1.publishLoaded (m.index options 1 b)).2
    Settled m options (d, w.2 ++ [e]) ∧ Adds w (d, w.2 ++ [e]) (· = b.document) := by
  intro d
  have hempty := h.slot_of_none hfind hnone
  have hadmits : (w.1.slot (m.index options 1 b).document).Admits (m.index options 1 b) := by
    rw [m.index_document options 1 b, hempty]
    exact ⟨rfl, rfl, (m.index_revision options 1 b).symm⟩
  have hslot : ∀ x, d.slot x = if x = b.document then ⟨1, 1, some (m.index options 1 b)⟩
      else w.1.slot x := by
    intro x
    have hslot := slot_publishLoaded_of_admits hadmits x
    rwa [m.index_document options 1 b, m.index_revision options 1 b] at hslot
  have hget : ∀ x, d.get x = if x = b.document then some (m.index options 1 b) else w.1.get x := by
    intro x
    rw [get_eq, hslot, get_eq]
    split <;> rfl
  have hadds : Adds w (d, w.2 ++ [e]) (· = b.document) := by
    intro x
    simp only [hget]
    split
    · rename_i hx
      exact iff_of_true rfl (.inr hx)
    · rename_i hx
      exact ⟨.inl, fun h => h.resolve_right hx⟩
  refine ⟨⟨?_, fun name' path hpath => ?_, fun name' a c ha hsome hreq => ?_,
    fun name' c hc => ?_⟩, hadds⟩
  · exact (options_publishLoaded _ _).trans h.sameOptions
  · simp only [hslot]
    split
    · rename_i hx
      obtain ⟨hread, _⟩ := (ModuleSource.find_eq_some hpath).mp (hm.find hfind hpath hx)
      exact .inr ⟨b.text, hread, by rw [hx]⟩
    · exact h.slots name' path hpath
  · refine (hadds c.document).mpr (.inl ?_)
    rcases (hadds a.document).mp hsome with hbefore | heq
    · exact h.closed _ _ _ ha hbefore hreq
    · rw [hm.eq hfind ha heq] at hreq
      exact hloaded c hreq
  · simp only [hget, List.countP_append, h.once name' c hc, List.countP_singleton, he]
    by_cases hx : c.document = b.document
    · simp [hx, hnone]
    · simp [hx, Ne.symm hx]

/-- A module that is not there is built with a loader that serves it, and published. -/
theorem Serves.loaded (hm : m.Unambiguous) (h : Serves m options loader b)
    (hfind : m.find name = some b) (hwithin : m.Within maxRequireDepth b)
    (hw : Settled m options w) (hget : w.1.get b.document = none) (stack : List DocumentId) :
    let pending := w.1.beginLoad b.document b.text
    let built := buildWith pending loader w
    let published := built.2.1.publishLoaded built.1
    published.1 = m.index options 1 b ∧
      Settled m options (published.2, built.2.2 ++ [⟨stack, pending⟩]) ∧
      Adds w (published.2, built.2.2 ++ [⟨stack, pending⟩]) fun x =>
        ∃ k c, m.Chain k b c ∧ c.document = x := by
  have hpending : w.1.beginLoad b.document b.text = ⟨b.document, 1, b.text, options⟩ := by
    rw [beginLoad, revision_eq, hw.slot_of_none hfind hget, hw.sameOptions]
  obtain ⟨hbuilt, hsettled, hadds⟩ := h.build hwithin 1 hw
  simp only [hpending, buildWith, hbuilt]
  generalize Index.build b.document 1 b.text options loader w = built at *
  have hnone : built.2.1.get b.document = none := by
    cases hsome : built.2.1.get b.document with
    | none => rfl
    | some index =>
      rcases (hadds b.document).mp (by rw [hsome]; rfl) with hbefore | ⟨k, c, hchain, hdoc⟩
      · rw [hget] at hbefore
        cases hbefore
      · obtain ⟨name', hname'⟩ := hchain.found
        rw [hm.eq hfind hname' hdoc] at hchain
        exact (hwithin.no_circle hchain).elim
  have hloaded : ∀ c, m.Requires b c → (built.2.1.get c.document).isSome := fun c hc =>
    (hadds c.document).mpr (.inr ⟨0, c, .cons hc (.nil c), rfl⟩)
  obtain ⟨hpublished, hadds'⟩ := hsettled.publish hm hfind hnone hloaded
    (e := ⟨stack, ⟨b.document, 1, b.text, options⟩⟩) rfl
  refine ⟨?_, hpublished, fun x => ?_⟩
  · rw [publishLoaded_eq, m.index_document options 1 b, hnone]
    rfl
  · rw [hadds' x, hadds x, or_assoc]
    refine or_congr_right ?_
    constructor
    · rintro (⟨k, c, hchain, hx⟩ | rfl)
      · exact ⟨k + 1, c, hchain, hx⟩
      · exact ⟨0, b, .nil b, rfl⟩
    · rintro ⟨k, c, hchain, hx⟩
      cases k with
      | zero =>
        cases hchain
        exact .inr hx.symm
      | succ k => exact .inl ⟨k, c, hchain, hx⟩

/-- By induction on the fuel, as much of it as the longest chain from `a` needs: what `a` requires
is not under build, for no chain comes back to where it was. -/
theorem loadNoting_serves (hm : m.Unambiguous) (fuel : Nat) :
    ∀ stack a, fuel ≤ maxRequireDepth → m.Within fuel a → a.document ∈ stack →
      (∀ k b, m.Chain (k + 1) a b → b.document ∉ stack) →
      Serves m options (loadNoting m fuel stack) a := by
  induction fuel using Nat.strongRecOn with
  | ind fuel ih =>
    intro stack a hfuel hwithin hself hclear name hname (d, noted) hw
    rw [loadNoting_eq]
    cases hfound : (m.find name).filter (·.document ≠ a.document) with
    | none =>
      have hbehind : ∀ x, ¬ Behind m a name x := by
        rintro x ⟨b, hfind, hne, _⟩
        rw [hfind, Option.filter_some, if_pos (by simpa using hne)] at hfound
        cases hfound
      rw [hw.consult_nothing hself hfound]
      refine ⟨by rw [ModuleSource.answer, hfound]; rfl, hw, fun x => ?_⟩
      exact ⟨.inl, fun h => h.resolve_right (hbehind x)⟩
    | some b =>
      have hreq : m.Requires a b := ModuleSource.requires_iff.mpr ⟨name, hname, hfound⟩
      obtain ⟨hfind, hne⟩ := Option.filter_eq_some_iff.mp hfound
      have hpos : 0 < fuel := hwithin.pos hreq
      have hout : b.document ∉ stack := hclear 0 b (.cons hreq (.nil b))
      have hanswer : m.answer options a name = some (m.index options 1 b) := by
        rw [ModuleSource.answer, hfound]
        rfl
      have hbehind : ∀ x, Behind m a name x ↔ ∃ k c, m.Chain k b c ∧ c.document = x := by
        intro x
        constructor
        · rintro ⟨b', hfind', _, hchain⟩
          cases hfind.symm.trans hfind'
          exact hchain
        · exact fun hchain => ⟨b, hfind, by simpa using hne, hchain⟩
      rw [consult_of_find hfind hout hpos, hanswer]
      cases hget : d.get b.document with
      | some index =>
        have hindex := hw.index_of_some hfind hget
        refine ⟨congrArg some hindex, hw, fun x => ?_⟩
        rw [hbehind]
        refine ⟨.inl, fun h => h.elim id ?_⟩
        rintro ⟨k, c, hchain, rfl⟩
        exact hw.chain hchain hfind (by rw [hget]; rfl)
      | none =>
        have hwithin' : m.Within (fuel - 1) b := hwithin.required hreq
        have hclear' : ∀ k c, m.Chain (k + 1) b c → c.document ∉ stack ++ [b.document] := by
          intro k c hchain hmem
          rcases List.mem_append.mp hmem with hmem | hmem
          · exact hclear (k + 1) c (.cons hreq hchain) hmem
          · obtain ⟨name', hname'⟩ := hchain.found
            rw [hm.eq hfind hname' (List.mem_singleton.mp hmem)] at hchain
            exact hwithin'.no_circle hchain
        have hle : fuel - 1 ≤ maxRequireDepth := Nat.le_trans (Nat.sub_le _ _) hfuel
        have hserves := ih (fuel - 1) (Nat.sub_one_lt_of_lt hpos) (stack ++ [b.document]) b hle
          hwithin' (by simp) hclear'
        obtain ⟨hindex, hsettled, hadds⟩ :=
          hserves.loaded hm hfind (hwithin'.mono hle) hw hget stack
        exact ⟨congrArg some hindex, hsettled, fun x => by rw [hbehind]; exact hadds x⟩

end Loader

/-! ## Updates -/

/-- Replace a document's text and build its index, and note the builds inside. -/
def updateNoting (m : ModuleSource) (w : Documents × List Nested) (u : Contents) :
    Documents × List Nested :=
  let (pending, d) := w.1.beginEdit u.document u.text
  let (index, d, noted) := d.buildNoting m pending w.2
  ((d.commit index).2, noted)

theorem update_eq_updateNoting (m : ModuleSource) (w : Documents × List Nested) (u : Contents) :
    (w.1.update m u.document u.text).2 = (updateNoting m w u).1 := by
  simp only [update, updateNoting]
  rw [build_eq_buildNoting _ m _ w.2]

/-- What is there after the updates of a new manager. -/
structure After (m : ModuleSource) (options : ParserOptions) (us : List Contents)
    (w : Documents × List Nested) : Prop where
  settled : Settled m options w
  updated : ∀ u ∈ us, w.1.slot u.document = ⟨1, 1, some (m.index options 1 u)⟩
  present : ∀ x, (w.1.get x).isSome ↔ (∃ u ∈ us, u.document = x) ∨
    ∃ u ∈ us, ∃ k c, m.Chain (k + 1) u c ∧ c.document = x
  absent : ∀ x, (w.1.get x).isSome = false → w.1.slot x = {}

theorem After.start (m : ModuleSource) (options : ParserOptions) :
    After m options [] ({ options := options }, []) where
  settled :=
    { sameOptions := rfl
      slots := fun _ _ _ => .inl rfl
      closed := fun _ _ _ _ hsome => by cases hsome
      once := fun _ _ _ => rfl }
  updated := nofun
  present x := by simp [get, slot?]
  absent _ _ := rfl

/-- A slot of a document that is no module says nothing about what is loaded. -/
theorem Settled.of_foreign {d : Documents} {x : DocumentId} (h : Settled m options w)
    (hx : m.Foreign x) (hoptions : d.options = w.1.options)
    (hslot : ∀ y, y ≠ x → d.slot y = w.1.slot y) : Settled m options (d, w.2) := by
  have hget : ∀ {name c}, m.find name = some c → d.get c.document = w.1.get c.document := by
    intro name c hc
    rw [get_eq, get_eq, hslot _ (hx.ne hc)]
  refine ⟨hoptions.trans h.sameOptions, fun name path hpath => ?_, fun name a b ha hsome hreq => ?_,
    fun name b hb => ?_⟩
  · rw [hslot _ (hx name path hpath)]
    exact h.slots name path hpath
  · obtain ⟨⟨name', _, hb⟩, _⟩ := id hreq
    rw [hget ha] at hsome
    rw [hget hb]
    exact h.closed name a b ha hsome hreq
  · rw [hget hb]
    exact h.once name b hb

/-- An edit of a new document leaves the modules settled while its index is built. -/
theorem Settled.update (hm : m.Unambiguous) (h : Settled m options w) {u : Contents}
    (hforeign : m.Foreign u.document) (hwithin : m.Within maxRequireDepth u)
    (hempty : w.1.slot u.document = {}) :
    (w.1.built m u).1 = m.index options 1 u ∧
      ∃ noted, updateNoting m w u = ((w.1.update m u.document u.text).2, noted) ∧
        Settled m options ((w.1.built m u).2, noted) ∧
        ∀ x, ((w.1.built m u).2.get x).isSome ↔
          (w.1.get x).isSome ∨ ∃ k c, m.Chain (k + 1) u c ∧ c.document = x := by
  let d := (w.1.beginEdit u.document u.text).2
  have hpending : (w.1.beginEdit u.document u.text).1 = ⟨u.document, 1, u.text, options⟩ := by
    simp only [beginEdit, hempty, h.sameOptions]
  have hsettled : Settled m options (d, w.2) :=
    h.of_foreign hforeign rfl fun y hy => by rw [slot_beginEdit, if_neg hy]
  have hserves : Serves m options (loadNoting m maxRequireDepth [u.document]) u := by
    refine loadNoting_serves hm _ _ u (Nat.le_refl _) hwithin (List.mem_singleton.mpr rfl) ?_
    intro k b hchain hmem
    obtain ⟨name, hname⟩ := hchain.found
    exact hforeign.ne hname (List.mem_singleton.mp hmem)
  obtain ⟨hindex, hsettled', hadds⟩ := hserves.build hwithin 1 hsettled
  have hnoting : d.buildNoting m (w.1.beginEdit u.document u.text).1 w.2 =
      Index.build u.document 1 u.text options (loadNoting m maxRequireDepth [u.document])
        (d, w.2) := by
    rw [hpending]
    rfl
  rw [← hnoting] at hindex hsettled' hadds
  have hbuilt : w.1.built m u = _ := build_eq_buildNoting d m _ w.2
  rw [hbuilt]
  refine ⟨hindex, _, Prod.ext (update_eq_updateNoting m w u).symm rfl, hsettled', fun x => ?_⟩
  rw [← get_beginEdit w.1 u.document u.text x]
  exact hadds x

/-- The update of a document that was not there loads what it requires and puts in its index. -/
theorem After.update (hm : m.Unambiguous) {us : List Contents} (h : After m options us w)
    {u : Contents} (hforeign : m.Foreign u.document) (hwithin : m.Within maxRequireDepth u)
    (hnew : ∀ v ∈ us, v.document ≠ u.document) :
    After m options (us ++ [u]) (updateNoting m w u) := by
  have hempty : w.1.slot u.document = {} := by
    refine h.absent _ (Bool.eq_false_iff.mpr fun hsome => ?_)
    rcases (h.present _).mp hsome with ⟨v, hv, hdoc⟩ | ⟨v, hv, k, c, hchain, hdoc⟩
    · exact hnew v hv hdoc
    · obtain ⟨name, hname⟩ := hchain.found
      exact hforeign.ne hname hdoc
  obtain ⟨hindex, noted, hupdate, hsettled, hpresent⟩ :=
    h.settled.update hm hforeign hwithin hempty
  have hslot : ∀ x, (w.1.update m u.document u.text).2.slot x =
      if x = u.document then ⟨1, 1, some (m.index options 1 u)⟩ else (w.1.built m u).2.slot x := by
    intro x
    rw [slot_update, hindex]
    split
    · rename_i hx
      rw [hx, hempty]
    · rfl
  rw [hupdate]
  refine ⟨hsettled.of_foreign hforeign (options_commit _ _) fun y hy => by rw [hslot, if_neg hy],
    fun v hv => ?_, fun x => ?_, fun x hx => ?_⟩
  · rw [hslot]
    rcases List.mem_append.mp hv with hv | hv
    · have hloads := w.1.built_loads m (hnew v hv)
      rw [if_neg (hnew v hv), hloads.eq_of_isSome (by rw [h.updated v hv]; rfl), h.updated v hv]
    · rw [List.mem_singleton.mp hv, if_pos rfl]
  · have hget : ((w.1.update m u.document u.text).2.get x).isSome ↔
        x = u.document ∨ ((w.1.built m u).2.get x).isSome := by
      rw [get_eq, hslot, get_eq]
      split
      · rename_i hx
        exact iff_of_true rfl (.inl hx)
      · rename_i hx
        exact ⟨.inr, fun h => h.resolve_left hx⟩
    rw [hget, hpresent, h.present]
    simp only [List.mem_append, List.mem_singleton, or_and_right, exists_or, exists_eq_left]
    grind
  · rw [get_eq, hslot] at hx
    rw [hslot]
    split at hx
    · cases hx
    · rename_i hne
      rw [if_neg hne]
      rcases w.1.built_loads m hne with heq | ⟨index, _, _, hfilled⟩
      · rw [heq] at hx ⊢
        exact h.absent x (by rwa [get_eq])
      · rw [hfilled] at hx
        cases hx

/-- The updates that are made already, and those to come, are of different documents. -/
theorem After.updates (hm : m.Unambiguous) :
    ∀ {before us : List Contents} {w : Documents × List Nested}, After m options before w →
      ((before ++ us).map Contents.document).Nodup → (∀ u ∈ us, m.Foreign u.document) →
      (∀ u ∈ us, m.Within maxRequireDepth u) →
      After m options (before ++ us) (us.foldl (updateNoting m) w)
  | before, [], w, h, _, _, _ => by
    rw [List.append_nil]
    exact h
  | before, u :: us, w, h, hnodup, hforeign, hwithin => by
    have happend : before ++ u :: us = before ++ [u] ++ us := by simp
    have hnew : ∀ v ∈ before, v.document ≠ u.document := by
      intro v hv
      rw [List.map_append, List.nodup_append] at hnodup
      exact hnodup.2.2 _ (List.mem_map_of_mem hv) _ (List.mem_map_of_mem (.head us))
    rw [happend] at hnodup ⊢
    exact After.updates hm (h.update hm (hforeign u (.head _)) (hwithin u (.head _)) hnew) hnodup
      (fun v hv => hforeign v (.tail _ hv)) fun v hv => hwithin v (.tail _ hv)

/-- The notes change nothing. -/
theorem updated_eq_foldl (m : ModuleSource) (options : ParserOptions) (us : List Contents) :
    updated m options us = (us.foldl (updateNoting m) ({ options := options }, [])).1 :=
  @List.foldl_hom _ _ _ Prod.fst (updateNoting m) _ us ({ options := options }, [])
    (update_eq_updateNoting m)

/-- A document with an index is one of those updated, or else a module that was loaded once. -/
theorem After.cases {us : List Contents} (h : After m options us w) {x : DocumentId}
    (hsome : (w.1.get x).isSome) :
    (∃ u ∈ us, u.document = x) ∨ ∃ name c, m.find name = some c ∧ c.document = x ∧
      w.1.slot x = ⟨1, 1, some (m.index options 1 c)⟩ ∧
      w.2.countP (·.pending.document = x) = 1 := by
  rcases (h.present x).mp hsome with hupdated | ⟨u, _, k, c, hchain, rfl⟩
  · exact .inl hupdated
  · obtain ⟨name, hname⟩ := hchain.found
    refine .inr ⟨name, c, hname, rfl, ?_, ?_⟩
    · obtain ⟨path, hpath, hdoc, htext⟩ := ModuleSource.path_of_find hname
      have hslot := h.settled.slots name path hpath
      rw [hdoc] at hslot
      rcases hslot with hempty | ⟨text, hread, hslot⟩
      · rw [get_eq, hempty] at hsome
        cases hsome
      · cases hread.symm.trans htext
        exact hslot
    · rw [h.settled.once name c hname, if_pos hsome]

/-- The documents updated, and the files, tell every slot. -/
theorem After.slot_eq (hm : m.Unambiguous) {us vs : List Contents} (h : After m options us w)
    (h' : After m options vs w') (hsame : ∀ u, u ∈ us ↔ u ∈ vs) (x : DocumentId) :
    w.1.slot x = w'.1.slot x := by
  have hpresent : (w.1.get x).isSome ↔ (w'.1.get x).isSome := by
    rw [h.present, h'.present]
    simp only [hsame]
  cases hsome : (w.1.get x).isSome with
  | false =>
    have hnone : (w'.1.get x).isSome = false := by
      rw [hsome] at hpresent
      simpa using hpresent
    rw [h.absent x hsome, h'.absent x hnone]
  | true =>
    rcases h.cases hsome with ⟨u, hu, rfl⟩ | ⟨name, c, hfind, hdoc, hslot, _⟩
    · rw [h.updated u hu, h'.updated u ((hsame u).mp hu)]
    · rcases h'.cases (hpresent.mp hsome) with ⟨v, hv, rfl⟩ | ⟨name', c', hfind', hdoc', hslot', _⟩
      · rw [h.updated v ((hsame v).mpr hv), h'.updated v hv]
      · rw [hslot, hslot', hm.eq hfind' hfind (hdoc.trans hdoc'.symm)]

end Documents

/--
The files stay as they are, files of one document have one text, and no chain of requires from the
documents updated, which are no modules, is longer than the loader goes: then all orders of the
updates lead to the same slots. Every other document that has an index is a module, which was built
once on the way, and is at its first revision.
-/
theorem updates_in_any_order {m : ModuleSource} (hm : m.Unambiguous) (options : ParserOptions)
    {us vs : List Contents} (hperm : us.Perm vs) (hnew : (us.map Contents.document).Nodup)
    (hforeign : ∀ u ∈ us, m.Foreign u.document)
    (hwithin : ∀ u ∈ us, m.Within maxRequireDepth u) :
    let d := Documents.updated m options us
    (∀ x, d.slot x = (Documents.updated m options vs).slot x) ∧
      (∀ u ∈ us, ∃ index, d.slot u.document = ⟨1, 1, some index⟩ ∧
        index.source = .ofString u.text) ∧
      ∃ noted, us.foldl (Documents.updateNoting m) ({ options := options }, []) = (d, noted) ∧
        ∀ x index, d.get x = some index → (∀ u ∈ us, u.document ≠ x) →
          d.slot x = ⟨1, 1, some index⟩ ∧ index.revision = 1 ∧
            m.Provides x index.source.text ∧
            noted.countP (·.pending.document = x) = 1 := by
  intro d
  have hafter := (Documents.After.start m options).updates hm hnew hforeign hwithin
  have hafter' := (Documents.After.start m options).updates hm
    ((hperm.map Contents.document).nodup_iff.mp hnew)
    (fun u hu => hforeign u (hperm.mem_iff.mpr hu)) fun u hu => hwithin u (hperm.mem_iff.mpr hu)
  have hd : d = _ := Documents.updated_eq_foldl m options us
  refine ⟨fun x => ?_, fun u hu => ?_, _, Prod.ext hd.symm rfl, fun x index hget hother => ?_⟩
  · rw [hd, Documents.updated_eq_foldl]
    exact hafter.slot_eq hm hafter' (fun u => hperm.mem_iff) x
  · rw [hd]
    exact ⟨_, hafter.updated u hu, m.index_source options 1 u⟩
  · rw [hd] at hget ⊢
    rcases hafter.cases (by rw [hget]; rfl) with ⟨u, hu, rfl⟩ | ⟨name, c, hfind, rfl, hslot, honce⟩
    · exact absurd rfl (hother u hu)
    · rw [Documents.get_eq, hslot] at hget
      cases hget
      obtain ⟨path, hpath, hdoc, htext⟩ := ModuleSource.path_of_find hfind
      refine ⟨hslot, m.index_revision options 1 c, ⟨name, path, hpath, hdoc, ?_⟩, honce⟩
      rw [m.index_source options 1 c]
      exact htext

/-- One document requires a module, the other one a module that requires it. -/
theorem updates_in_both_orders :
    let files : FileTree := ⟨[(["ws"], .directory),
      (["ws", "lib.lua"], .file (some "return require('util')")),
      (["ws", "util.lua"], .file (some "return {}"))], []⟩
    let catalog := ((({} : Catalog).configure files ["/ws"] [] false).rescan files).2
    let m : ModuleSource := ⟨some catalog, files⟩
    let a : Contents := ⟨⟨"file:///a.lua"⟩, "local u = require('util')"⟩
    let b : Contents := ⟨⟨"file:///b.lua"⟩, "local l = require('lib')"⟩
    let updated := Documents.updated m {}
    (∀ x, (updated [a, b]).slot x = (updated [b, a]).slot x) ∧
      ∀ x ∈ [⟨"file:///ws/lib.lua"⟩, ⟨"file:///ws/util.lua"⟩], ((updated [a, b]).get x).isSome := by
  intro files catalog m a b updated
  have hpaths : m.paths = ["/ws/lib.lua", "/ws/util.lua"] := by decide +kernel
  have hm : m.Unambiguous := ModuleSource.unambiguous_of_paths (by rw [hpaths]; decide +kernel)
  have hforeign : ∀ u ∈ [a, b], m.Foreign u.document := by
    intro u hu
    refine ModuleSource.foreign_of_paths ?_
    rw [hpaths]
    revert u
    decide +kernel
  have hwithin : ∀ u ∈ [a, b], m.Within maxRequireDepth u := by decide +kernel
  exact ⟨(updates_in_any_order hm {} (.swap b a []) (by decide +kernel) hforeign hwithin).1,
    by decide +kernel⟩

/-- A backslash in the name of a file is taken for a slash in its document, so two files can be of
one document; then it is the update made first that decides which of them is loaded. -/
theorem updates_depend_on_order :
    let files : FileTree := ⟨[(["ws"], .directory), (["ws", "x"], .directory),
      (["ws", "x\\util.lua"], .file (some "return {a = 1}")),
      (["ws", "x", "util.lua"], .file (some "return {b = 1}"))], []⟩
    let catalog := ((({} : Catalog).configure files ["/ws"] [] false).rescan files).2
    let m : ModuleSource := ⟨some catalog, files⟩
    let a : Contents := ⟨⟨"file:///a.lua"⟩, "local u = require([[x\\util]])"⟩
    let b : Contents := ⟨⟨"file:///b.lua"⟩, "local u = require('util')"⟩
    let updated := Documents.updated m {}
    (∀ u ∈ [a, b], m.Foreign u.document) ∧ (∀ u ∈ [a, b], m.Within maxRequireDepth u) ∧
      ¬ ∀ x, (updated [a, b]).slot x = (updated [b, a]).slot x := by
  intro files catalog m a b updated
  have hpaths : m.paths = ["/ws/x/util.lua", "/ws/x\\util.lua"] := by decide +kernel
  refine ⟨fun u hu => ModuleSource.foreign_of_paths ?_, by decide +kernel, fun h => ?_⟩
  · rw [hpaths]
    revert u
    decide +kernel
  · have hdiffer : ((updated [a, b]).get ⟨"file:///ws/x/util.lua"⟩).map (·.source.text) ≠
        ((updated [b, a]).get ⟨"file:///ws/x/util.lua"⟩).map (·.source.text) := by decide +kernel
    refine hdiffer ?_
    rw [Documents.get_eq, Documents.get_eq, h]

end LuaScope

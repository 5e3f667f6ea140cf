import LuaScope.Proofs.Workspace.Removal

/-!
# LuaScope.Proofs.Workspace.Identity

How far a document and a revision tell which text an index was built from.

* `Logged.Settles`     — what a published index leaves behind: no later call gives its revision to
  another text.
* `Logged.Counts`      — the indices that count: builds of edits, and what is published.
* `source_of_revision` — two such indices of one document and one revision have one text; a load
  that is kept private shares its revision with the next edit.
-/

namespace LuaScope

/-- An index holds the text of the build it comes from. -/
theorem PendingBuild.Builds.source {p : PendingBuild} {index : Index} (h : p.Builds index) :
    index.source = .ofString p.text := by
  obtain ⟨σ, loader, world, rfl⟩ := h
  exact Index.build_source _ _ _ _ loader world

namespace Logged

/-! ## Edits -/

/-- Two edits of one document that carry one revision are the same. -/
theorem Reachable.edit_unique {s : Logged} (hs : s.Reachable) {p q : PendingBuild}
    (hp : .beganEdit p ∈ s.log) (hq : .beganEdit q ∈ s.log) (hdoc : p.document = q.document)
    (hrev : p.revision = q.revision) : p = q := by
  obtain ⟨options, hsteps⟩ := hs
  induction hsteps with
  | refl => cases hp
  | @tail t u hsteps hstep ih =>
    have ht : t.Reachable := ⟨options, hsteps⟩
    have hkept : (∀ r, Call.beganEdit r ∈ u.log → .beganEdit r ∈ t.log) → p = q :=
      fun h => ih (h p hp) (h q hq)
    -- The edits of the log do not carry the revision that a new one takes.
    have hnew : ∀ {r : PendingBuild}, .beganEdit r ∈ t.log →
        r.revision ≠ t.documents.revision r.document + 1 := by
      intro r hr
      obtain ⟨later, earlier, hlog⟩ := List.append_of_mem hr
      refine Nat.ne_of_lt (Nat.lt_succ_of_le ?_)
      rcases editInv_of_reachable ht r later earlier hlog with ⟨_, hlt⟩ | ⟨_, hnewest⟩
      · exact Nat.le_of_lt hlt
      · exact Nat.le_of_eq hnewest.1.symm
    cases hstep with
    | beginEdit document text =>
      rcases List.mem_cons.mp hp with hp | hp <;> rcases List.mem_cons.mp hq with hq | hq
      · exact (Call.beganEdit.inj hp).trans (Call.beganEdit.inj hq).symm
      · cases hp
        exact absurd (hrev.symm.trans (by rw [← hdoc]; rfl)) (hnew hq)
      · cases hq
        exact absurd (hrev.trans (by rw [hdoc]; rfl)) (hnew hp)
      · exact ih hp hq
    | _ =>
      refine hkept fun r hr => ?_
      rcases List.mem_cons.mp hr with heq | hr
      · cases heq
      · exact hr

/-! ## What a published index leaves behind -/

/-- The revision of the index was reached, and whatever carries it in this state has its text. -/
structure Settles (s : Logged) (i : Index) : Prop where
  reached : i.revision ≤ s.documents.revision i.document
  edits : ∀ p, .beganEdit p ∈ s.log → p.document = i.document → p.revision = i.revision →
    i.source = .ofString p.text
  published : ∀ j, s.documents.get i.document = some j → j.revision = i.revision →
    i.source = j.source

/-- A later call takes a higher revision, or builds an edit that is known already. -/
theorem Settles.step {s s' : Logged} {i : Index} (hslots : ∀ x, SlotInv x (s.documents.slot x))
    (h : s.Settles i) (hstep : s.Step s') : s'.Settles i := by
  have hle : s.documents.revision i.document ≤ s'.documents.revision i.document :=
    (Steps.le (.tail .refl hstep) hslots i.document).1
  refine ⟨Nat.le_trans h.reached hle, fun p hp hdoc hrev => ?_, fun j hj hrev => ?_⟩
  · have hkept : .beganEdit p ∈ s.log → i.source = .ofString p.text :=
      fun hp => h.edits p hp hdoc hrev
    cases hstep with
    | beginEdit document text =>
      rcases List.mem_cons.mp hp with heq | hp
      · cases heq
        have hreached := h.reached
        rw [← hrev, ← hdoc] at hreached
        exact absurd hreached (Nat.not_succ_le_self _)
      · exact hkept hp
    | _ =>
      rcases List.mem_cons.mp hp with heq | hp
      · cases heq
      · exact hkept hp
  · rw [Documents.get_eq] at hj
    rcases hstep.index hj with hbefore | ⟨_, _, hnext⟩ | ⟨p, hp, hdoc, hbuilds, hcurrent⟩
    · exact h.published j (by rw [Documents.get_eq, hbefore]) hrev
    · have hreached := h.reached
      rw [← hrev, ← hnext] at hreached
      exact absurd hreached (Nat.not_succ_le_self _)
    · rw [hbuilds.source]
      exact h.edits p hp hdoc (hbuilds.revision.symm.trans hrev)

theorem Settles.steps {s s' : Logged} {i : Index} (hs : s.Reachable) (h : s.Settles i)
    (hsteps : s.Steps s') : s'.Settles i := by
  induction hsteps with
  | refl => exact h
  | tail hsteps hstep ih =>
    exact ih.step (fun x => slotInv_of_reachable (hs.steps hsteps) x) hstep

/-- An index settles where it is published first: a load carries a revision that no edit has, and a
build of an edit has the text of the only edit of its revision. -/
theorem settles_of_published {s : Logged} (hs : s.Reachable) {x : DocumentId} {i : Index}
    (hi : s.documents.get x = some i) : s.Settles i := by
  obtain ⟨options, hsteps⟩ := hs
  induction hsteps with
  | refl => cases hi
  | @tail t u hsteps hstep ih =>
    have ht : t.Reachable := ⟨options, hsteps⟩
    have hu : u.Reachable := ⟨options, .tail hsteps hstep⟩
    have hslots := fun x => slotInv_of_reachable ht x
    rw [Documents.get_eq] at hi
    have hslot := slotInv_of_reachable hu x
    have hdoc := hslot.index_document i hi
    subst hdoc
    have hreached : i.revision ≤ u.documents.revision i.document :=
      hslot.index_revision i hi ▸ hslot.settled_le
    have hpublished : ∀ j, u.documents.get i.document = some j → j.revision = i.revision →
        i.source = j.source := by
      intro j hj _
      rw [Documents.get_eq, hi] at hj
      rw [Option.some.inj hj]
    rcases hstep.index hi with hbefore | ⟨hnone, hidle, hnext⟩ | ⟨p, hp, hdoc, hbuilds, hcurrent⟩
    · exact (ih (by rw [Documents.get_eq, hbefore])).step hslots hstep
    · refine ⟨hreached, fun p hp hdoc hrev => ?_, hpublished⟩
      have hbegan : .beganEdit p ∈ t.log → p.revision ≤ t.documents.revision p.document := by
        intro hp
        rw [← hdoc] at hnone hidle
        exact Nat.le_of_lt (revision_lt_of_idle ht hp hnone hidle)
      have hlt : p.revision ≤ t.documents.revision i.document → False := by
        intro hle
        rw [hrev, ← hnext] at hle
        exact Nat.not_succ_le_self _ hle
      cases hstep with
      | beginEdit document text =>
        -- The slot did not get its index by an edit that began.
        rw [Documents.slot_beginEdit] at hi
        split at hi
        · exact absurd (hnone.symm.trans hi) nofun
        · exact absurd (hnone.symm.trans hi) nofun
      | _ =>
        rcases List.mem_cons.mp hp with heq | hp
        · cases heq
        · exact absurd (hdoc ▸ hbegan hp) hlt
    · refine ⟨hreached, fun q hq hqdoc hqrev => ?_, hpublished⟩
      have hpu : .beganEdit p ∈ u.log := by
        obtain ⟨e, hlog, _⟩ := hstep.effect
        rw [hlog]
        exact .tail _ hp
      have hsame := hu.edit_unique hpu hq (hdoc.trans hqdoc.symm)
        (hbuilds.revision.symm.trans hqrev.symm)
      rw [hbuilds.source, hsame]

/-! ## Identity -/

/-- A build of an edit that began, or what is published right now. -/
def Counts (s : Logged) (i : Index) : Prop :=
  (∃ p, .beganEdit p ∈ s.log ∧ p.Builds i) ∨ s.documents.get i.document = some i

/-- The first of the two comes first in the run. -/
theorem Counts.source_eq {s s' : Logged} (hs : s.Reachable) (hsteps : s.Steps s') {i j : Index}
    (hi : s.Counts i) (hj : s'.Counts j) (hdoc : i.document = j.document)
    (hrev : i.revision = j.revision) : i.source = j.source := by
  have hs' := hs.steps hsteps
  have hkept : ∀ {p}, Call.beganEdit p ∈ s.log → .beganEdit p ∈ s'.log := by
    intro p hp
    obtain ⟨later, hlater⟩ := hsteps.log
    rw [hlater]
    exact List.mem_append_right _ hp
  rcases hi with ⟨p, hp, hbuilds⟩ | hi <;> rcases hj with ⟨q, hq, hbuilds'⟩ | hj
  · have hsame := hs'.edit_unique (hkept hp) hq
      (hbuilds.document.symm.trans (hdoc.trans hbuilds'.document))
      (hbuilds.revision.symm.trans (hrev.trans hbuilds'.revision))
    rw [hbuilds.source, hbuilds'.source, hsame]
  · have hedit := (settles_of_published hs' hj).edits p (hkept hp)
      (hbuilds.document.symm.trans hdoc) (hbuilds.revision.symm.trans hrev)
    rw [hbuilds.source, hedit]
  · have hedit := ((settles_of_published hs hi).steps hs hsteps).edits q hq
      (hbuilds'.document.symm.trans hdoc.symm) (hbuilds'.revision.symm.trans hrev.symm)
    rw [hbuilds'.source, hedit]
  · exact ((settles_of_published hs hi).steps hs hsteps).published j (by rw [hdoc, hj]) hrev.symm

end Logged

theorem Source.ofString_inj {text text' : String} :
    Source.ofString text = .ofString text' ↔ text = text' :=
  ⟨congrArg Source.text, congrArg Source.ofString⟩

/--
Among the builds of edits and all that is ever published, a document and a revision tell the text.
A load whose revision is still free shares it with the next edit of the document, whatever the text
of that edit is; so where the load is kept private they tell it only if the two texts are the same.
-/
theorem source_of_revision {s : Logged} (hs : s.Reachable) :
    (∀ s' i j, s.Steps s' → s.Counts i → s'.Counts j → i.document = j.document →
      i.revision = j.revision → i.source = j.source) ∧
    (∀ p text i j, .beganLoad p ∈ s.log → s.documents.revision p.document < p.revision →
      p.Builds i → (s.documents.beginEdit p.document text).1.Builds j →
        i.document = j.document ∧ i.revision = j.revision ∧
          (i.source = j.source ↔ p.text = text)) := by
  refine ⟨fun s' i j hsteps hi hj => hi.source_eq hs hsteps hj, ?_⟩
  intro p text i j hp hfree hbuilds hbuilds'
  have hrev : s.documents.revision p.document + 1 = p.revision :=
    Nat.le_antisymm hfree (hs.revision_le (.inr hp))
  refine ⟨hbuilds.document.trans hbuilds'.document.symm, ?_, ?_⟩
  · rw [hbuilds.revision, hbuilds'.revision, ← hrev]
    rfl
  · rw [hbuilds.source, hbuilds'.source]
    exact Source.ofString_inj

/-- Beside an edit that is being built, a load carries the revision of the edit that comes next. -/
theorem revision_shared_with_next_edit :
    let file : DocumentId := ⟨"file:///a.lua"⟩
    let first := ({} : Documents).beginEdit file "local x = 1"
    let load := first.2.beginLoad file "local x = 2"
    let second := first.2.beginEdit file "local x = 3"
    let build (p : PendingBuild) : Index := (Documents.buildWith p Loader.none ()).1
    Logged.Reachable ⟨first.2, [.beganLoad load, .beganEdit first.1]⟩ ∧
      first.2.revision file < load.revision ∧
      (build load).document = (build second.1).document ∧
      (build load).revision = (build second.1).revision ∧
      (build load).source ≠ (build second.1).source := by
  intro file first load second build
  have hs : Logged.Reachable ⟨first.2, [.beganLoad load, .beganEdit first.1]⟩ :=
    ⟨{}, .tail (.tail .refl (.beginEdit _ file "local x = 1")) (.beginLoad _ file "local x = 2")⟩
  have hbuilds : ∀ p : PendingBuild, p.Builds (build p) := fun p => ⟨Unit, Loader.none, (), rfl⟩
  have hfree : first.2.revision file < load.revision := by decide
  obtain ⟨hdoc, hrev, hsource⟩ := (source_of_revision hs).2 load "local x = 3" _ _ (.head _) hfree
    (hbuilds load) (hbuilds second.1)
  have htexts : load.text ≠ "local x = 3" := by decide
  exact ⟨hs, hfree, hdoc, hrev, fun heq => htexts (hsource.mp heq)⟩

/-- The answer to a load and the index of the edit behind it are one revision of one document, with
two texts. -/
theorem private_load_shares_revision :
    let file : DocumentId := ⟨"file:///a.lua"⟩
    let first := ({} : Documents).beginEdit file "local x = 1"
    let load := first.2.beginLoad file "local x = 2"
    let build (p : PendingBuild) : Index := (Documents.buildWith p Loader.none ()).1
    let answer := first.2.publishLoaded (build load)
    let second := answer.2.beginEdit file "local x = 3"
    let committed := second.2.commit (build second.1)
    committed.1 = .applied (build second.1) ∧
      answer.1.document = (build second.1).document ∧
      answer.1.revision = (build second.1).revision ∧
      answer.1.source ≠ (build second.1).source := by
  intro file first load build answer second committed
  have hbuilds : ∀ p : PendingBuild, p.Builds (build p) := fun p => ⟨Unit, Loader.none, (), rfl⟩
  have hanswer : answer.1 = build load := by
    rw [Documents.publishLoaded_eq, (hbuilds load).document]
    rfl
  have hslot : answer.2.slot file = first.2.slot file :=
    (Documents.publishLoaded_loads first.2 (build load) file).eq_of_isPending (by decide)
  have hrev : second.1.revision = 2 := by
    change (answer.2.slot file).revision + 1 = 2
    rw [hslot]
    rfl
  refine ⟨?_, ?_, ?_, ?_⟩
  · rw [Documents.commit_eq_applied_iff, (hbuilds second.1).document, (hbuilds second.1).revision,
      Documents.slot_beginEdit]
    rfl
  · rw [hanswer, (hbuilds load).document, (hbuilds second.1).document]
    rfl
  · rw [hanswer, (hbuilds load).revision, (hbuilds second.1).revision, hrev]
    rfl
  · rw [hanswer, (hbuilds load).source, (hbuilds second.1).source]
    exact fun heq => absurd (Source.ofString_inj.mp heq) (by decide)

end LuaScope

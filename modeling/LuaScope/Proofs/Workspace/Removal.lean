import LuaScope.Proofs.Workspace.Lifecycle

/-!
# LuaScope.Proofs.Workspace.Removal

What a removal does to the builds that began before it.

* `Logged.Step.index`      — where a published index can come from: a load of the next revision, or
  a build of an edit that holds the current one.
* `Logged.Steps.lt_of_idle` — what is published behind a moment at which a document was idle and
  without index has a higher revision than the document had then.
* `published_after_removal_iff` — a build that began before a removal is published after it exactly
  when the document was not known at the removal.
-/

namespace LuaScope

namespace Logged

/-! ## Where a published index comes from -/

/-- The index in a slot was there before the call, or a load put it there, or it is a build of an
edit that carries the revision of the slot. -/
theorem Step.index {s s' : Logged} (h : s.Step s') {x : DocumentId} {i : Index}
    (hi : (s'.documents.slot x).index = some i) :
    (s.documents.slot x).index = some i ∨ (s.documents.slot x).Admits i ∨
      ∃ p, .beganEdit p ∈ s.log ∧ p.document = x ∧ p.Builds i ∧
        p.revision = (s.documents.slot x).revision := by
  have hloads : (s.documents.slot x).Loads x (s'.documents.slot x) →
      (s.documents.slot x).index = some i ∨ (s.documents.slot x).Admits i := by
    rintro (heq | ⟨j, _, hadmits, heq⟩)
    · exact .inl (heq ▸ hi)
    · rw [heq] at hi
      cases hi
      exact .inr hadmits
  cases h with
  | beginEdit document text =>
    rw [Documents.slot_beginEdit] at hi
    split at hi <;> exact .inl hi
  | beginLoad document text => exact .inl hi
  | build m hp => exact (hloads (Documents.build_loads _ m _ x)).imp_right .inl
  | @commit p index hp hbuilds =>
    rw [Documents.slot_commit] at hi
    split at hi
    · rename_i hx
      cases hi
      exact .inr (.inr ⟨p, hp, hbuilds.document.symm.trans hx.1.symm, hbuilds,
        hbuilds.revision.symm.trans hx.2.symm⟩)
    · exact .inl hi
  | publishLoaded hp hbuilds =>
    exact (hloads (Documents.publishLoaded_loads _ _ x)).imp_right .inl
  | remove document =>
    rw [Documents.slot_remove] at hi
    split at hi
    · cases hi
    · exact .inl hi
  | reconfigure options => exact .inl hi

/-! ## Idle documents -/

/-- While a document is idle and without index, no edit of it holds the current revision. -/
theorem revision_lt_of_idle {s : Logged} (hs : s.Reachable) {p : PendingBuild}
    (hp : .beganEdit p ∈ s.log) (hnone : (s.documents.slot p.document).index = none)
    (hidle : (s.documents.slot p.document).settled = (s.documents.slot p.document).revision) :
    p.revision < (s.documents.slot p.document).revision := by
  obtain ⟨later, earlier, hlog⟩ := List.append_of_mem hp
  rcases editInv_of_reachable hs p later earlier hlog with ⟨_, hlt⟩ | ⟨_, _, hsome | hpending⟩
  · exact hlt
  · rw [hnone] at hsome
    cases hsome
  · exact absurd hidle hpending

theorem Steps.trans {s s' s'' : Logged} (h : s.Steps s') (h' : s'.Steps s'') : s.Steps s'' := by
  induction h' with
  | refl => exact h
  | tail _ hstep ih => exact .tail ih hstep

theorem Reachable.steps {s s' : Logged} (hs : s.Reachable) (h : s.Steps s') : s'.Reachable := by
  obtain ⟨options, hstart⟩ := hs
  exact ⟨options, hstart.trans h⟩

/-- By induction on the run. Were the revision of the idle moment published, it would have to be by
the build of an edit; but then the slot would still be the idle one, whose revision no edit holds. -/
theorem Steps.lt_of_idle {s s' : Logged} (hs : s.Reachable) (h : s.Steps s') {x : DocumentId}
    (hnone : (s.documents.slot x).index = none)
    (hidle : (s.documents.slot x).settled = (s.documents.slot x).revision) {i : Index}
    (hi : (s'.documents.slot x).index = some i) :
    (s.documents.slot x).revision < i.revision := by
  have hslots := fun x => slotInv_of_reachable hs x
  induction h generalizing i with
  | refl =>
    rw [hnone] at hi
    cases hi
  | @tail t u hsteps hstep ih =>
    have hle := (hsteps.le hslots x).1
    rcases hstep.index hi with hbefore | ⟨_, _, hnext⟩ | ⟨p, hp, rfl, hbuilds, hrev⟩
    · exact ih hbefore
    · rw [← hnext]
      exact Nat.lt_succ_of_le hle
    · rw [hbuilds.revision, hrev]
      refine Nat.lt_of_le_of_ne hle fun hsame => ?_
      have hempty : (t.documents.slot p.document).index = none := by
        cases hindex : (t.documents.slot p.document).index with
        | none => rfl
        | some j =>
          have hsettled := slotInv_of_reachable (hs.steps hsteps) p.document
          have hlt := ih hindex
          rw [hsettled.index_revision j hindex, hsame] at hlt
          exact absurd hlt (Nat.not_lt.mpr hsettled.settled_le)
      have hslot := hsteps.slot_eq hslots hsame.symm hempty
      have hlt := revision_lt_of_idle (hs.steps hsteps) hp hempty (by rw [hslot]; exact hidle)
      exact absurd hrev (Nat.ne_of_lt hlt)

/-! ## Builds that began before -/

/-- A load of the log was begun at an earlier state of the run. -/
theorem Reachable.began_load {s : Logged} (hs : s.Reachable) {p : PendingBuild}
    (hp : .beganLoad p ∈ s.log) :
    ∃ t : Logged, t.Reachable ∧ t.Steps s ∧ p.revision = t.documents.revision p.document + 1 := by
  obtain ⟨options, hsteps⟩ := hs
  induction hsteps with
  | refl => cases hp
  | @tail t u hsteps hstep ih =>
    have hearlier : .beganLoad p ∈ t.log → ∃ t' : Logged, t'.Reachable ∧ t'.Steps u ∧
        p.revision = t'.documents.revision p.document + 1 := by
      intro hmem
      obtain ⟨t', ht', hsteps', hrev⟩ := ih hmem
      exact ⟨t', ht', .tail hsteps' hstep, hrev⟩
    cases hstep with
    | beginLoad document text =>
      rcases List.mem_cons.mp hp with heq | hmem
      · cases heq
        exact ⟨t, ⟨options, hsteps⟩, .tail .refl (.beginLoad t document text), rfl⟩
      · exact hearlier hmem
    | _ =>
      rcases List.mem_cons.mp hp with heq | hmem
      · cases heq
      · exact hearlier hmem

/-- A build that began carries at most the revision after the current one. -/
theorem Reachable.revision_le {s : Logged} (hs : s.Reachable) {p : PendingBuild}
    (hp : s.Began p) : p.revision ≤ s.documents.revision p.document + 1 := by
  rcases hp with hedit | hload
  · obtain ⟨later, earlier, hlog⟩ := List.append_of_mem hedit
    rcases editInv_of_reachable hs p later earlier hlog with ⟨_, hlt⟩ | ⟨_, hnewest⟩
    · exact Nat.le_succ_of_le (Nat.le_of_lt hlt)
    · exact Nat.le_succ_of_le (Nat.le_of_eq hnewest.1.symm)
  · obtain ⟨t, ht, hsteps, hrev⟩ := hs.began_load hload
    have hle := (hsteps.le (fun x => slotInv_of_reachable ht x) p.document).1
    rw [hrev]
    exact Nat.succ_le_succ hle

/-! ## Removals -/

/-- The manager behind a removal. -/
def removed (s : Logged) (document : DocumentId) : Logged :=
  ⟨(s.documents.remove document).2, .removed document (s.documents.remove document).1 :: s.log⟩

theorem Reachable.removed {s : Logged} (hs : s.Reachable) (document : DocumentId) :
    (s.removed document).Reachable :=
  hs.steps (.tail .refl (.remove s document))

/-- The slot of a known document is idle and empty behind its removal. -/
theorem slot_removed {s : Logged} {document : DocumentId}
    (hknown : (s.documents.slot? document).isSome) :
    (s.removed document).documents.slot document =
      ⟨s.documents.revision document + 1, s.documents.revision document + 1, none⟩ := by
  have hslot := Documents.slot_remove s.documents document document
  rw [if_pos ⟨rfl, hknown⟩] at hslot
  exact hslot

end Logged

/-- The removal of an unknown document changes nothing. -/
theorem Documents.remove_unknown {d : Documents} {document : DocumentId}
    (h : d.slot? document = none) : d.remove document = (false, d) := by
  simp only [remove, h]

/-- A load that began for an unknown document carries the first revision. -/
theorem Logged.Reachable.admits_unknown {s : Logged} (hs : s.Reachable) {p : PendingBuild}
    (hp : s.Began p) (hunknown : s.documents.slot? p.document = none) {index : Index}
    (hbuilds : p.Builds index) : (s.documents.slot p.document).Admits index := by
  have hslot : s.documents.slot p.document = {} :=
    Documents.slot_eq_default (by rw [hunknown]; rfl)
  rw [hslot]
  refine ⟨rfl, rfl, ?_⟩
  rw [hbuilds.revision]
  have hle := hs.revision_le hp
  rw [Documents.revision_eq, hslot] at hle
  rcases hp with hedit | hload
  · have hknown := slot?_isSome_of_began hs hedit
    rw [hunknown] at hknown
    cases hknown
  · obtain ⟨t, _, _, hrev⟩ := hs.began_load hload
    have hpos : 0 < p.revision := hrev ▸ Nat.succ_pos _
    exact Nat.le_antisymm hpos hle

/--
A build that began before the removal of its document can be published after it exactly when the
document was not known at the removal, which then left no mark: for a known document neither an
edit nor a load that was under way comes back, whatever happens later.
-/
theorem published_after_removal_iff {s : Logged} (hs : s.Reachable) {p : PendingBuild}
    (hp : s.Began p) :
    (∃ u index, (s.removed p.document).Steps u ∧ p.Builds index ∧
      u.documents.get p.document = some index) ↔ s.documents.slot? p.document = none := by
  constructor
  · rintro ⟨u, index, hsteps, hbuilds, hget⟩
    cases hknown : s.documents.slot? p.document with
    | none => rfl
    | some known =>
      have hslot := Logged.slot_removed (s := s) (by rw [hknown]; rfl)
      rw [Documents.get_eq] at hget
      have hlt := hsteps.lt_of_idle (hs.removed p.document) (by rw [hslot]) (by rw [hslot]) hget
      rw [hslot, hbuilds.revision] at hlt
      exact absurd (hs.revision_le hp) (Nat.not_le.mpr hlt)
  · intro hunknown
    have hremoved : (s.removed p.document).documents = s.documents := by
      unfold Logged.removed
      rw [Documents.remove_unknown hunknown]
    have hbegan : (s.removed p.document).Began p := hp.imp (.tail _) (.tail _)
    let index := (Documents.buildWith p Loader.none ()).1
    have hbuilds : p.Builds index := ⟨Unit, Loader.none, (), rfl⟩
    refine ⟨_, index, .tail .refl (.publishLoaded _ hbegan hbuilds), hbuilds, ?_⟩
    rw [Documents.get_eq, hremoved, Documents.slot_publishLoaded,
      if_pos ⟨hbuilds.document.symm, hs.admits_unknown hp hunknown hbuilds⟩]

/-- A load that stands beside an edit of a known document does not come back. -/
theorem load_of_known_document_removed :
    let file : DocumentId := ⟨"file:///a.lua"⟩
    let edit := ({} : Documents).beginEdit file "local x = 1"
    let load := edit.2.beginLoad file "local x = 2"
    let s : Logged := ⟨edit.2, [.beganLoad load, .beganEdit edit.1]⟩
    s.Reachable ∧ s.Began load ∧ s.documents.slot? file = some ⟨1, 0, none⟩ ∧
      ¬ ∃ u index, (s.removed file).Steps u ∧ load.Builds index ∧
        u.documents.get file = some index := by
  intro file edit load s
  have hs : s.Reachable :=
    ⟨{}, .tail (.tail .refl (.beginEdit _ file "local x = 1")) (.beginLoad _ file "local x = 2")⟩
  have hload : s.Began load := .inr (.head _)
  refine ⟨hs, hload, rfl, fun h => ?_⟩
  have hunknown := (published_after_removal_iff hs hload).mp h
  cases hunknown

/-- A file is loaded that was never known; it is removed while its index is built, and published
after all. -/
theorem load_of_unknown_document_published :
    let file : DocumentId := ⟨"file:///a.lua"⟩
    let load := ({} : Documents).beginLoad file "local x = 1"
    let s : Logged := ⟨{}, [.beganLoad load]⟩
    s.Reachable ∧ s.Began load ∧ ∃ u index, (s.removed file).Steps u ∧ load.Builds index ∧
      u.documents.get file = some index := by
  intro file load s
  have hs : s.Reachable := ⟨{}, .tail .refl (.beginLoad _ file "local x = 1")⟩
  let index := (Documents.buildWith load Loader.none ()).1
  have hbuilds : load.Builds index := ⟨Unit, Loader.none, (), rfl⟩
  have hbegan : (s.removed file).Began load := .inr (.tail _ (.head _))
  have hadmits : (({} : Documents).slot file).Admits index :=
    ⟨rfl, rfl, hbuilds.revision.symm⟩
  refine ⟨hs, .inr (.head _), _, index, .tail .refl (.publishLoaded _ hbegan hbuilds), hbuilds, ?_⟩
  rw [Documents.get_eq, Documents.slot_publishLoaded, if_pos ⟨hbuilds.document.symm, hadmits⟩]

end LuaScope

import LuaScope.Proofs.Workspace.Slot

/-!
# LuaScope.Proofs.Workspace.Run

Runs of the document manager: any number of edits, loads, builds and removals of any documents, in
any order. A `Logged` manager carries the log of the calls made so far, newest first.

* `Call.Effect`     — all that a call can do to one slot; `Logged.Step.effect` derives it for every
  step, and every invariant comes from it.
* `SlotInv`         — what holds of every slot of a reachable manager.
* `Logged.Steps.le` — no call lowers a revision.
-/

namespace LuaScope

/-- A call of the manager, with what it answered. -/
inductive Call where
  | beganEdit (p : PendingBuild)
  | beganLoad (p : PendingBuild)
  | built (p : PendingBuild) (index : Index)
  | committed (index : Index) (outcome : Commit)
  | published (index answer : Index)
  | removed (document : DocumentId) (answer : Bool)
  | reconfigured (options : ParserOptions)

namespace Call

/-- Builds of the document that began earlier are out of date from this call on. -/
def Supersedes (document : DocumentId) : Call → Prop
  | .beganEdit p => p.document = document
  | .removed d _ => d = document
  | _ => False

/-- The call commits a build of this edit. -/
def Commits (p : PendingBuild) : Call → Prop
  | .committed index _ => index.document = p.document ∧ index.revision = p.revision
  | _ => False

/-- What the call may make of the slot of `x`. -/
def Effect (x : DocumentId) (s s' : Slot) : Call → Prop
  | .beganEdit p =>
    if x = p.document then p.revision = s.revision + 1 ∧ s' = { s with revision := p.revision }
    else s' = s
  | .built _ _ | .published _ _ => s.Loads x s'
  | .committed index _ =>
    if x = index.document ∧ s.revision = index.revision then
      s' = { s with settled := index.revision, index := some index }
    else s' = s
  | .removed document _ =>
    if x = document then
      s' = { revision := s.revision + 1, settled := s.revision + 1, index := none } ∨
        (s = {} ∧ s' = s)
    else s' = s
  | .beganLoad _ | .reconfigured _ => s' = s

end Call

/-- A manager with the log of its calls, newest first. -/
structure Logged where
  documents : Documents
  log : List Call

namespace Logged

/-- A manager that was just made. -/
def start (options : ParserOptions) : Logged := ⟨{ options := options }, []⟩

/-- The build began as an edit or as a load. -/
def Began (s : Logged) (p : PendingBuild) : Prop :=
  .beganEdit p ∈ s.log ∨ .beganLoad p ∈ s.log

/--
One call. A build runs with the loader of the workspace, which loads other files on the way; that
loads of other tasks may come between them is covered by the separate steps for loads, together
with `PendingBuild.Builds`, which leaves open what a loader answers.
-/
inductive Step : Logged → Logged → Prop where
  | beginEdit (s : Logged) (document : DocumentId) (text : String) :
      Step s ⟨(s.documents.beginEdit document text).2,
        .beganEdit (s.documents.beginEdit document text).1 :: s.log⟩
  | beginLoad (s : Logged) (document : DocumentId) (text : String) :
      Step s ⟨s.documents, .beganLoad (s.documents.beginLoad document text) :: s.log⟩
  | build (s : Logged) (m : ModuleSource) {p : PendingBuild} : s.Began p →
      Step s ⟨(s.documents.build m p).2, .built p (s.documents.build m p).1 :: s.log⟩
  | commit (s : Logged) {p : PendingBuild} {index : Index} :
      .beganEdit p ∈ s.log → p.Builds index →
      Step s ⟨(s.documents.commit index).2, .committed index (s.documents.commit index).1 :: s.log⟩
  | publishLoaded (s : Logged) {p : PendingBuild} {index : Index} :
      s.Began p → p.Builds index →
      Step s ⟨(s.documents.publishLoaded index).2,
        .published index (s.documents.publishLoaded index).1 :: s.log⟩
  | remove (s : Logged) (document : DocumentId) :
      Step s ⟨(s.documents.remove document).2,
        .removed document (s.documents.remove document).1 :: s.log⟩
  | reconfigure (s : Logged) (options : ParserOptions) :
      Step s ⟨s.documents.reconfigure options, .reconfigured options :: s.log⟩

inductive Steps : Logged → Logged → Prop where
  | refl {s : Logged} : s.Steps s
  | tail {s s' s'' : Logged} : s.Steps s' → s'.Step s'' → s.Steps s''

/-- Some run of a new manager leads here. -/
def Reachable (s : Logged) : Prop := ∃ options, Steps (.start options) s

namespace Step

theorem effect {s s' : Logged} (h : s.Step s') :
    ∃ e, s'.log = e :: s.log ∧ ∀ x, e.Effect x (s.documents.slot x) (s'.documents.slot x) := by
  cases h with
  | beginEdit document text =>
    refine ⟨_, rfl, fun x => ?_⟩
    have hslot := Documents.slot_beginEdit s.documents document text x
    simp only [Call.Effect]
    split
    · rename_i hx
      subst hx
      exact ⟨rfl, hslot.trans (if_pos rfl)⟩
    · rename_i hx
      exact hslot.trans (if_neg hx)
  | beginLoad document text => exact ⟨_, rfl, fun x => rfl⟩
  | build m hp => exact ⟨_, rfl, Documents.build_loads s.documents m _⟩
  | @commit p index hp hi =>
    refine ⟨_, rfl, fun x => ?_⟩
    have hslot := Documents.slot_commit s.documents index x
    simp only [Call.Effect]
    split
    · rename_i hx
      rw [hslot, if_pos hx, ← hx.2]
    · rename_i hx
      rw [hslot, if_neg hx]
  | publishLoaded hp hi => exact ⟨_, rfl, Documents.publishLoaded_loads s.documents _⟩
  | remove document =>
    refine ⟨_, rfl, fun x => ?_⟩
    have hslot := Documents.slot_remove s.documents document x
    simp only [Call.Effect]
    split
    · rename_i hx
      cases hsome : (s.documents.slot? x).isSome with
      | true => exact .inl (by rw [hslot, if_pos ⟨hx, hsome⟩])
      | false =>
        refine .inr ⟨Documents.slot_eq_default hsome, ?_⟩
        rw [hslot, if_neg (by simp [hsome])]
    · rename_i hx
      rw [hslot, if_neg fun h => hx h.1]
  | reconfigure options => exact ⟨_, rfl, fun x => rfl⟩

end Step

namespace Steps

/-- The log only grows. -/
theorem log {s s' : Logged} (h : s.Steps s') : ∃ later, s'.log = later ++ s.log := by
  induction h with
  | refl => exact ⟨[], rfl⟩
  | tail _ hstep ih =>
    obtain ⟨later, hlater⟩ := ih
    obtain ⟨e, hlog, _⟩ := hstep.effect
    exact ⟨e :: later, by rw [hlog, hlater]; rfl⟩

end Steps

end Logged

/-! ## The slots of a run -/

/-- What holds of the slot of a document in every reachable state. -/
structure SlotInv (x : DocumentId) (s : Slot) : Prop where
  settled_le : s.settled ≤ s.revision
  index_revision : ∀ index, s.index = some index → index.revision = s.settled
  index_document : ∀ index, s.index = some index → index.document = x

theorem SlotInv.default (x : DocumentId) : SlotInv x {} :=
  ⟨Nat.le_refl 0, nofun, nofun⟩

theorem SlotInv.filled {x : DocumentId} {index : Index} (h : index.document = x)
    (revision : Revision) (hle : index.revision ≤ revision) :
    SlotInv x ⟨revision, index.revision, some index⟩ := by
  refine ⟨hle, ?_, ?_⟩
  · intro j hj
    cases hj
    rfl
  · intro j hj
    cases hj
    exact h

theorem SlotInv.loads {x : DocumentId} {s s' : Slot} (h : SlotInv x s) (hl : s.Loads x s') :
    SlotInv x s' := by
  rcases hl with rfl | ⟨index, hdoc, _, rfl⟩
  · exact h
  · exact .filled hdoc _ (Nat.le_refl _)

theorem SlotInv.effect {x : DocumentId} {s s' : Slot} {e : Call} (h : SlotInv x s)
    (he : e.Effect x s s') : SlotInv x s' := by
  cases e with
  | beganEdit p =>
    simp only [Call.Effect] at he
    split at he
    · obtain ⟨hrev, rfl⟩ := he
      exact ⟨hrev ▸ Nat.le_succ_of_le h.settled_le, h.index_revision, h.index_document⟩
    · exact he ▸ h
  | beganLoad p => exact he ▸ h
  | built p index => exact h.loads he
  | committed index outcome =>
    simp only [Call.Effect] at he
    split at he
    · rename_i hx
      subst he
      exact .filled hx.1.symm _ (Nat.le_of_eq hx.2.symm)
    · exact he ▸ h
  | published index answer => exact h.loads he
  | removed document answer =>
    simp only [Call.Effect] at he
    split at he
    · rcases he with rfl | ⟨_, rfl⟩
      · exact ⟨Nat.le_refl _, nofun, nofun⟩
      · exact h
    · exact he ▸ h
  | reconfigured options => exact he ▸ h

theorem slotInv_of_steps {s s' : Logged} (h : s.Steps s')
    (hs : ∀ x, SlotInv x (s.documents.slot x)) : ∀ x, SlotInv x (s'.documents.slot x) := by
  induction h with
  | refl => exact hs
  | tail _ hstep ih =>
    obtain ⟨_, _, heffect⟩ := hstep.effect
    exact fun x => (ih x).effect (heffect x)

theorem slotInv_of_reachable {s : Logged} (h : s.Reachable) (x : DocumentId) :
    SlotInv x (s.documents.slot x) := by
  obtain ⟨options, hsteps⟩ := h
  exact slotInv_of_steps hsteps (fun x => .default x) x

/-! ## Revisions only grow -/

/-- A call never lowers the two counters of a slot. -/
theorem Call.Effect.le {x : DocumentId} {s s' : Slot} {e : Call} (h : SlotInv x s)
    (he : e.Effect x s s') : s.revision ≤ s'.revision ∧ s.settled ≤ s'.settled := by
  have hle := h.settled_le
  have hloads : s.Loads x s' → s.revision ≤ s'.revision ∧ s.settled ≤ s'.settled := by
    rintro (rfl | ⟨index, _, ⟨_, hidle, hnext⟩, rfl⟩)
    · exact ⟨Nat.le_refl _, Nat.le_refl _⟩
    · have hlt : s.revision ≤ index.revision := hnext ▸ Nat.le_succ _
      exact ⟨hlt, hidle ▸ hlt⟩
  cases e with
  | beganEdit p =>
    simp only [Call.Effect] at he
    split at he
    · obtain ⟨hrev, rfl⟩ := he
      exact ⟨hrev ▸ Nat.le_succ _, Nat.le_refl _⟩
    · subst he
      exact ⟨Nat.le_refl _, Nat.le_refl _⟩
  | built p index => exact hloads he
  | committed index outcome =>
    simp only [Call.Effect] at he
    split at he
    · rename_i hx
      subst he
      exact ⟨Nat.le_refl _, hx.2 ▸ hle⟩
    · subst he
      exact ⟨Nat.le_refl _, Nat.le_refl _⟩
  | published index answer => exact hloads he
  | removed document answer =>
    simp only [Call.Effect] at he
    split at he
    · rcases he with rfl | ⟨_, rfl⟩
      · exact ⟨Nat.le_succ _, Nat.le_succ_of_le hle⟩
      · exact ⟨Nat.le_refl _, Nat.le_refl _⟩
    · subst he
      exact ⟨Nat.le_refl _, Nat.le_refl _⟩
  | beganLoad p | reconfigured options =>
    cases he
    exact ⟨Nat.le_refl _, Nat.le_refl _⟩

theorem Logged.Steps.le {s s' : Logged} (h : s.Steps s')
    (hs : ∀ x, SlotInv x (s.documents.slot x)) (x : DocumentId) :
    (s.documents.slot x).revision ≤ (s'.documents.slot x).revision ∧
      (s.documents.slot x).settled ≤ (s'.documents.slot x).settled := by
  induction h with
  | refl => exact ⟨Nat.le_refl _, Nat.le_refl _⟩
  | tail hsteps hstep ih =>
    obtain ⟨_, _, heffect⟩ := hstep.effect
    have hle := (heffect x).le (slotInv_of_steps hsteps hs x)
    exact ⟨Nat.le_trans ih.1 hle.1, Nat.le_trans ih.2 hle.2⟩

end LuaScope

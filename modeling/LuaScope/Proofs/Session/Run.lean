import LuaScope.Proofs.Workspace.Lifecycle
import LuaScope.Session.Task

/-!
# LuaScope.Proofs.Session.Run

Runs of a session: notices of the editor come in at any time, and whatever they leave to be done is
a task that goes on at any later time, beside the others. Builds run beside all of this, and may
load modules whenever they like.

* `Running.Step`     — what may happen next, and what made it happen.
* `InFlight`         — what holds of the tasks under way: an index that is to be reported on is the
  published one or outrun, an edit is being built or outrun, and no two tasks are of one edit.
-/

namespace LuaScope

/-! ## Runs -/

/-- What the editor tells a session. -/
inductive Notice where
  | initialized
  | opened (document : DocumentId) (text : String)
  | changed (document : DocumentId) (text : String)
  | saved (document : DocumentId)
  | closed (document : DocumentId)
  | filesChanged (events : List FileEvent)
  | configured (settings : Settings)

/-- What a session does at once on a notice, and what it leaves to be done. -/
def Session.receive (w : World) (s : Session) : Notice → LuaScope.Step
  | .initialized => { session := s, next := some .rescan }
  | .opened document text => s.openDocument document text
  | .changed document text => s.change document text
  | .saved document => s.save document
  | .closed document => s.close document
  | .filesChanged events => s.watch w events
  | .configured settings => s.apply w settings

/-- How the checker answers a task that waits for it. -/
def Task.outcome? (w : World) : Task → Option (Index × Except CheckError (List Diagnostic))
  | .check index settings => some (index,
      settings.check w.tools checkTimeout (Session.checkedName index.document) index.source.text)
  | _ => none

/-- A session with its tasks under way, the answers of the checker and the events sent so far,
oldest first. -/
structure Running where
  session : Session
  tasks : List Task
  answers : List (Index × Except CheckError (List Diagnostic))
  sent : List SessionEvent

/-- What made a step happen. -/
inductive Cause where
  | notice (notice : Notice)
  | task (task : Task)
  /-- A build beside the session. -/
  | builder

namespace Running

/-- A new session. -/
def start (settings : Settings) (root : Option String) (files : FileTree) : Running :=
  ⟨Session.start settings root files, [], [], []⟩

/-- The session after a step, with the tasks that go on beside it. -/
def after (r : Running) (step : LuaScope.Step) (others : List Task) : Running :=
  { r with session := step.session, tasks := step.next.toList ++ others
           sent := r.sent ++ step.events }

/-- One step, in the world of its time. Any task may be the next to go on; builds load modules and
come to an end whenever they do. -/
inductive Step (w : World) : Running → Cause → Running → Prop where
  | notice (r : Running) (n : Notice) :
      Step w r (.notice n) (r.after (r.session.receive w n) r.tasks)
  | task (r : Running) {t : Task} {others : List Task} : r.tasks.Perm (t :: others) →
      Step w r (.task t) { r.after (r.session.advance w t) others with
        answers := r.answers ++ (t.outcome? w).toList }
  | load (r : Running) {d : Documents} : r.session.documents.Loads d →
      Step w r .builder { r with session := { r.session with documents := d } }
  | built (r : Running) {p : PendingBuild} {index : Index} {others : List Task} :
      r.tasks.Perm (.build p :: others) → p.Builds index →
      Step w r .builder { r with tasks := .commit index :: others }

/-- Some run of a new session leads here; the world may change from step to step. -/
inductive Reachable : Running → Prop where
  | start (settings : Settings) (root : Option String) (files : FileTree) :
      Reachable (start settings root files)
  | step {r r' : Running} {w : World} {c : Cause} : Reachable r → r.Step w c r' → Reachable r'

end Running

/-! ## Tasks under way -/

/-- The edit whose index a task builds or commits. -/
def Task.edit? : Task → Option (DocumentId × Revision)
  | .build p => some (p.document, p.revision)
  | .commit index => some (index.document, index.revision)
  | _ => none

/-- The index that a task is to report on. -/
def Task.index? : Task → Option Index
  | .check index _ | .report index _ => some index
  | _ => none

namespace Slot

/-- The slot moved on from the index, or holds it. -/
def Held (s : Slot) (index : Index) : Prop :=
  index.revision ≤ s.revision ∧ (index.revision = s.revision → s.index = some index)

/-- The slot moved on from the edit of this revision, or waits for its index. -/
def Awaits (s : Slot) (revision : Revision) : Prop :=
  revision ≤ s.revision ∧ (revision = s.revision → s.settled ≠ s.revision)

variable {s s' : Slot} {index : Index} {revision : Revision}

theorem Held.moved (h : s.Held index) (hmoved : s' = s ∨ s.revision < s'.revision) :
    s'.Held index := by
  rcases hmoved with rfl | hlt
  · exact h
  · have hlt' := Nat.lt_of_le_of_lt h.1 hlt
    exact ⟨Nat.le_of_lt hlt', fun heq => absurd heq (Nat.ne_of_lt hlt')⟩

theorem Awaits.moved (h : s.Awaits revision) (hmoved : s' = s ∨ s.revision < s'.revision) :
    s'.Awaits revision := by
  rcases hmoved with rfl | hlt
  · exact h
  · have hlt' := Nat.lt_of_le_of_lt h.1 hlt
    exact ⟨Nat.le_of_lt hlt', fun heq => absurd heq (Nat.ne_of_lt hlt')⟩

end Slot

/-- A published index is held. -/
theorem SlotInv.held {x : DocumentId} {s : Slot} {index : Index} (h : SlotInv x s)
    (hindex : s.index = some index) : s.Held index := by
  rw [Slot.Held, h.index_revision index hindex]
  exact ⟨h.settled_le, fun _ => hindex⟩

/-- A call that commits nothing leaves a slot alone, or takes a revision. -/
theorem Call.Effect.moved {x : DocumentId} {s s' : Slot} {e : Call} (he : e.Effect x s s')
    (hnot : ∀ index outcome, e ≠ .committed index outcome) : s' = s ∨ s.revision < s'.revision := by
  have hloads : s.Loads x s' → s' = s ∨ s.revision < s'.revision := by
    rintro (rfl | ⟨index, _, ⟨_, _, hnext⟩, rfl⟩)
    · exact .inl rfl
    · exact .inr (hnext ▸ Nat.lt_succ_self _)
  cases e with
  | beganEdit p =>
    simp only [Call.Effect] at he
    split at he
    · obtain ⟨hrev, rfl⟩ := he
      exact .inr (hrev ▸ Nat.lt_succ_self _)
    · exact .inl he
  | built p index => exact hloads he
  | committed index outcome => exact absurd rfl (hnot index outcome)
  | published index answer => exact hloads he
  | removed document answer =>
    simp only [Call.Effect] at he
    split at he
    · rcases he with rfl | ⟨_, rfl⟩
      · exact .inr (Nat.lt_succ_self _)
      · exact .inl rfl
    · exact .inl he
  | beganLoad p | reconfigured options => exact .inl he

/-- What holds of the documents and the tasks under way. -/
structure InFlight (d : Documents) (tasks : List Task) : Prop where
  slots : ∀ x, SlotInv x (d.slot x)
  indices : ∀ t ∈ tasks, ∀ index ∈ t.index?, (d.slot index.document).Held index
  edits : ∀ t ∈ tasks, ∀ e ∈ t.edit?, (d.slot e.1).Awaits e.2
  distinct : (tasks.filterMap Task.edit?).Nodup

namespace InFlight

variable {d d' : Documents} {tasks others : List Task} {t : Task} {index : Index}

theorem start (options : ParserOptions) : InFlight { options := options } [] where
  slots x := .default x
  indices := nofun
  edits := nofun
  distinct := .nil

theorem perm (h : InFlight d tasks) (hperm : tasks.Perm others) : InFlight d others where
  slots := h.slots
  indices t ht := h.indices t (hperm.mem_iff.mpr ht)
  edits t ht := h.edits t (hperm.mem_iff.mpr ht)
  distinct := (hperm.filterMap _).nodup_iff.mp h.distinct

theorem tail (h : InFlight d (t :: others)) : InFlight d others where
  slots := h.slots
  indices t ht := h.indices t (.tail _ ht)
  edits t ht := h.edits t (.tail _ ht)
  distinct := h.distinct.sublist (List.Sublist.filterMap _ (List.sublist_cons_self _ _))

/-- A call of the documents that commits nothing outruns tasks, or does not concern them. -/
theorem effect (h : InFlight d tasks) {e : Call}
    (he : ∀ x, e.Effect x (d.slot x) (d'.slot x))
    (hnot : ∀ index outcome, e ≠ .committed index outcome) : InFlight d' tasks where
  slots x := (h.slots x).effect (he x)
  indices t ht index hindex := (h.indices t ht index hindex).moved ((he _).moved hnot)
  edits t ht e' he' := (h.edits t ht e' he').moved ((he _).moved hnot)
  distinct := h.distinct

theorem loads (h : InFlight d tasks) (hloads : d.Loads d') : InFlight d' tasks :=
  h.effect (e := .built default default) hloads nofun

/-- A task that is of no edit. -/
theorem cons (h : InFlight d tasks) (hedit : t.edit? = none)
    (hindex : ∀ index ∈ t.index?, (d.slot index.document).Held index) :
    InFlight d (t :: tasks) where
  slots := h.slots
  indices t' ht' := by
    rcases List.mem_cons.mp ht' with rfl | ht'
    · exact hindex
    · exact h.indices t' ht'
  edits t' ht' e he := by
    rcases List.mem_cons.mp ht' with rfl | ht'
    · rw [hedit] at he
      cases he
    · exact h.edits t' ht' e he
  distinct := by
    rw [List.filterMap_cons_none hedit]
    exact h.distinct

/-- A task goes on with the same edit. -/
theorem replace {t' : Task} (h : InFlight d (t :: others)) (hedit : t'.edit? = t.edit?)
    (hindex : t'.index? = none) : InFlight d (t' :: others) where
  slots := h.slots
  indices u hu := by
    rcases List.mem_cons.mp hu with rfl | hu
    · rw [hindex]
      exact nofun
    · exact h.indices u (.tail _ hu)
  edits u hu := by
    rcases List.mem_cons.mp hu with rfl | hu
    · rw [hedit]
      exact h.edits t (.head _)
    · exact h.edits u (.tail _ hu)
  distinct := by
    have hdistinct := h.distinct
    simp only [List.filterMap_cons, hedit] at hdistinct ⊢
    exact hdistinct

/-- A new edit takes a revision that no task is of. -/
theorem beginEdit (h : InFlight d tasks) (document : DocumentId) (text : String) :
    InFlight (d.beginEdit document text).2 (.build (d.beginEdit document text).1 :: tasks) := by
  obtain ⟨_, hlog, heffect⟩ := (Logged.Step.beginEdit ⟨d, []⟩ document text).effect
  cases hlog
  have hafter : InFlight (d.beginEdit document text).2 tasks := h.effect heffect nofun
  have hpending := Call.Effect.pending (p := (d.beginEdit document text).1) (h.slots document)
    (heffect document)
  refine ⟨hafter.slots, ?_, ?_, ?_⟩
  · intro t ht
    rcases List.mem_cons.mp ht with rfl | ht
    · exact nofun
    · exact hafter.indices t ht
  · intro t ht e he
    rcases List.mem_cons.mp ht with rfl | ht
    · cases he
      exact ⟨Nat.le_of_eq hpending.1.symm, fun _ => hpending.2⟩
    · exact hafter.edits t ht e he
  · refine List.nodup_cons.mpr ⟨fun hmem => ?_, h.distinct⟩
    obtain ⟨t, ht, hedit⟩ := List.mem_filterMap.mp hmem
    have hle := (h.edits t ht _ hedit).1
    exact absurd hle (Nat.not_succ_le_self _)

/-- The commit of an edit that is not outrun publishes its index, which no task under way knows. -/
theorem commit (h : InFlight d (.commit index :: others)) : InFlight (d.commit index).2 others := by
  have hslot := d.slot_commit index
  by_cases hcurrent : (d.slot index.document).revision = index.revision
  · have hpending : (d.slot index.document).settled ≠ (d.slot index.document).revision :=
      (h.edits _ (.head _) _ rfl).2 hcurrent.symm
    have hpublished : ∀ x, x = index.document → (d.commit index).2.slot x =
        ⟨index.revision, index.revision, some index⟩ := by
      rintro x rfl
      rw [hslot, if_pos ⟨rfl, hcurrent⟩]
      simp only [hcurrent]
    have hother : ∀ x, x ≠ index.document → (d.commit index).2.slot x = d.slot x := by
      intro x hx
      rw [hslot, if_neg fun h => hx h.1]
    refine ⟨fun x => ?_, fun t ht j hj => ?_, fun t ht e he => ?_, h.tail.distinct⟩
    · by_cases hx : x = index.document
      · rw [hpublished x hx]
        exact .filled hx.symm _ (Nat.le_refl _)
      · rw [hother x hx]
        exact h.slots x
    · by_cases hx : j.document = index.document
      · -- An index of this revision was published before, so the edit would not be pending.
        have hheld := h.indices t (.tail _ ht) j hj
        rw [hx, Slot.Held] at hheld
        have hne : j.revision ≠ (d.slot index.document).revision := by
          intro heq
          have hsettled := (h.slots index.document).index_revision j (hheld.2 heq)
          exact hpending (hsettled.symm.trans heq)
        rw [hpublished _ hx]
        rw [hcurrent] at hheld hne
        exact ⟨hheld.1, fun heq => absurd heq hne⟩
      · rw [hother _ hx]
        exact h.indices t (.tail _ ht) j hj
    · by_cases hx : e.1 = index.document
      · have hawaits := h.edits t (.tail _ ht) e he
        rw [hx, Slot.Awaits, hcurrent] at hawaits
        have hne : e.2 ≠ index.revision := by
          intro heq
          have hmem : (index.document, index.revision) ∈ others.filterMap Task.edit? :=
            List.mem_filterMap.mpr ⟨t, ht, he.trans (congrArg some (Prod.ext hx heq))⟩
          exact (List.nodup_cons.mp h.distinct).1 hmem
        rw [hpublished _ hx]
        exact ⟨hawaits.1, fun heq => absurd heq hne⟩
      · rw [hother _ hx]
        exact h.edits t (.tail _ ht) e he
  · have hsame : ∀ x, (d.commit index).2.slot x = d.slot x := by
      intro x
      rw [hslot, if_neg]
      rintro ⟨rfl, heq⟩
      exact hcurrent heq
    obtain ⟨hslots, hindices, hedits, hdistinct⟩ := h.tail
    exact ⟨fun x => hsame x ▸ hslots x, fun t ht j hj => hsame _ ▸ hindices t ht j hj,
      fun t ht e he => hsame _ ▸ hedits t ht e he, hdistinct⟩

end InFlight

end LuaScope

import LuaScope.Proofs.Workspace.Run

/-!
# LuaScope.Proofs.Workspace.Lifecycle

The lifecycle of edits and loads, over all runs of the document manager.

* `EditInv` — where a begun edit stands: it is the newest word about its document, or a later
  edit or removal took a higher revision.
* `commit_applied_iff_unsuperseded` — which builds of edits are published, and what is published.
* `loads_keep_edit_in_flight`       — loads of a document while an edit of it is under way.
-/

namespace LuaScope

/-! ## Begun edits -/

namespace PendingBuild

/-- No later call took a revision: the edit is being built, or some build of it is published. -/
def Newest (p : PendingBuild) (s : Slot) : Prop :=
  s.revision = p.revision ∧ (s.index.isSome ∨ s.settled ≠ s.revision)

/-- What the slot of an edit's document tells about the calls since the edit began. -/
def Stands (p : PendingBuild) (later : List Call) (s : Slot) : Prop :=
  ((∃ e ∈ later, e.Supersedes p.document) ∧ p.revision < s.revision) ∨
    ((∀ e ∈ later, ¬ e.Supersedes p.document) ∧ p.Newest s)

variable {p : PendingBuild} {s s' : Slot}

theorem Newest.loads (h : p.Newest s) (hl : s.Loads p.document s') : s' = s := by
  rcases h.2 with hsome | hpending
  · exact hl.eq_of_isSome hsome
  · exact hl.eq_of_isPending hpending

/-- A call that supersedes the edit takes a higher revision, and no other call changes which
revision is the newest. -/
theorem Newest.effect {e : Call} (h : p.Newest s) (he : e.Effect p.document s s') :
    (e.Supersedes p.document ∧ p.revision < s'.revision) ∨
      (¬ e.Supersedes p.document ∧ p.Newest s') := by
  have hkept : ∀ {s'}, s' = s → p.Newest s' := fun heq => heq ▸ h
  cases e with
  | beganEdit q =>
    simp only [Call.Effect] at he
    split at he
    · rename_i hx
      obtain ⟨hrev, rfl⟩ := he
      refine .inl ⟨hx.symm, ?_⟩
      rw [hrev, h.1]
      exact Nat.lt_succ_self _
    · rename_i hx
      exact .inr ⟨fun hd => hx hd.symm, hkept he⟩
  | beganLoad q => exact .inr ⟨id, hkept he⟩
  | built q index => exact .inr ⟨id, hkept (h.loads he)⟩
  | committed index outcome =>
    refine .inr ⟨id, ?_⟩
    simp only [Call.Effect] at he
    split at he
    · subst he
      exact ⟨h.1, .inl rfl⟩
    · exact hkept he
  | published index answer => exact .inr ⟨id, hkept (h.loads he)⟩
  | removed document answer =>
    simp only [Call.Effect] at he
    split at he
    · rename_i hx
      rcases he with rfl | ⟨rfl, rfl⟩
      · refine .inl ⟨hx.symm, ?_⟩
        simp only [h.1]
        exact Nat.lt_succ_self _
      · rcases h.2 with hsome | hpending
        · cases hsome
        · exact absurd rfl hpending
    · rename_i hx
      exact .inr ⟨fun hd => hx hd.symm, hkept he⟩
  | reconfigured options => exact .inr ⟨id, hkept he⟩

theorem Stands.effect {later : List Call} {e : Call} (hinv : SlotInv p.document s)
    (h : p.Stands later s) (he : e.Effect p.document s s') : p.Stands (e :: later) s' := by
  rcases h with ⟨⟨q, hq, hsup⟩, hlt⟩ | ⟨hnone, hnewest⟩
  · exact .inl ⟨⟨q, .tail _ hq, hsup⟩, Nat.lt_of_lt_of_le hlt (he.le hinv).1⟩
  · rcases hnewest.effect he with ⟨hsup, hlt⟩ | ⟨hnot, hnewest⟩
    · exact .inl ⟨⟨e, .head _, hsup⟩, hlt⟩
    · refine .inr ⟨fun q hq => ?_, hnewest⟩
      rcases List.mem_cons.mp hq with rfl | hq
      · exact hnot
      · exact hnone q hq

end PendingBuild

/-- An edit that just began is being built. -/
theorem Call.Effect.pending {p : PendingBuild} {s s' : Slot} (hinv : SlotInv p.document s)
    (he : (Call.beganEdit p).Effect p.document s s') :
    s'.revision = p.revision ∧ s'.settled ≠ s'.revision := by
  simp only [Call.Effect, if_true] at he
  obtain ⟨hrev, rfl⟩ := he
  refine ⟨rfl, ?_⟩
  simp only [hrev]
  exact Nat.ne_of_lt (Nat.lt_succ_of_le hinv.settled_le)

/-- Every edit of the log stands as the calls after it tell. -/
def EditInv (s : Logged) : Prop :=
  ∀ p later earlier, s.log = later ++ .beganEdit p :: earlier →
    p.Stands later (s.documents.slot p.document)

/-- A call that just began an edit leaves it pending; the others are `Stands.effect`. -/
theorem EditInv.step {s s' : Logged} (hslots : ∀ x, SlotInv x (s.documents.slot x))
    (h : EditInv s) (hstep : s.Step s') : EditInv s' := by
  intro p later earlier hlog
  obtain ⟨e, hcons, heffect⟩ := hstep.effect
  have he := heffect p.document
  rw [hcons] at hlog
  cases later with
  | nil =>
    cases hlog
    obtain ⟨hrev, hpending⟩ := he.pending (hslots p.document)
    exact .inr ⟨nofun, hrev, .inr hpending⟩
  | cons e' later =>
    obtain ⟨rfl, hrest⟩ := List.cons.inj hlog
    exact (h p later earlier hrest).effect (hslots p.document) he

theorem editInv_of_reachable {s : Logged} (h : s.Reachable) : EditInv s := by
  obtain ⟨options, hsteps⟩ := h
  have hslots : ∀ {s'}, Logged.Steps (.start options) s' → ∀ x, SlotInv x (s'.documents.slot x) :=
    fun hs => slotInv_of_reachable ⟨options, hs⟩
  induction hsteps with
  | refl =>
    intro p later earlier hlog
    cases later <;> cases hlog
  | tail hsteps hstep ih => exact ih.step (hslots hsteps) hstep

theorem slot?_isSome_of_began {s : Logged} (h : s.Reachable) {p : PendingBuild}
    (hp : .beganEdit p ∈ s.log) : (s.documents.slot? p.document).isSome := by
  obtain ⟨later, earlier, hlog⟩ := List.append_of_mem hp
  cases hsome : (s.documents.slot? p.document).isSome with
  | true => rfl
  | false =>
    -- The slot of an unknown document is at revision zero, and settled.
    have hstands := editInv_of_reachable h p later earlier hlog
    rw [Documents.slot_eq_default hsome] at hstands
    rcases hstands with ⟨_, hlt⟩ | ⟨_, _, hindex | hpending⟩
    · exact absurd hlt (Nat.not_lt_zero _)
    · cases hindex
    · exact absurd rfl hpending

theorem pending_of_log {s : Logged} (h : s.Reachable) {p : PendingBuild} {earlier : List Call}
    (hlog : s.log = .beganEdit p :: earlier) :
    (s.documents.slot p.document).revision = p.revision ∧
      (s.documents.slot p.document).settled ≠ (s.documents.slot p.document).revision := by
  obtain ⟨options, hsteps⟩ := h
  cases hsteps with
  | refl => cases hlog
  | tail hsteps hstep =>
    obtain ⟨e, hcons, heffect⟩ := hstep.effect
    rw [hcons] at hlog
    cases hlog
    exact (heffect p.document).pending (slotInv_of_reachable ⟨options, hsteps⟩ _)

/-! ## Commits -/

namespace Documents

theorem commit_eq_applied_iff (d : Documents) (index : Index) :
    (d.commit index).1 = .applied index ↔
      (d.slot index.document).revision = index.revision := by
  rw [commit_eq]
  split
  · rename_i h
    exact ⟨fun _ => h, fun _ => rfl⟩
  · rename_i h
    exact ⟨nofun, fun heq => absurd heq h⟩

/-- A slot that is there is not changed by setting it to what it is. -/
theorem setSlot_self {d : Documents} {x : DocumentId} {s : Slot} (h : d.slot? x = some s) :
    d.setSlot x s = d := by
  have hput : ∀ slots : List (DocumentId × Slot), slots.lookup x = some s →
      setSlot.put x s slots = slots := by
    intro slots
    induction slots with
    | nil => nofun
    | cons entry rest ih =>
      intro hlookup
      simp only [setSlot.put]
      split
      · rename_i hx
        rw [List.lookup_cons, hx, beq_self_eq_true] at hlookup
        cases hlookup
        rfl
      · rename_i hx
        have hne : (x == entry.1) = false := by simpa using fun heq => hx heq.symm
        rw [List.lookup_cons, hne] at hlookup
        rw [ih hlookup]
  unfold setSlot
  rw [hput d.slots h]

/-- A stale build changes nothing, where its document is known at all. -/
theorem commit_stale {d : Documents} {index : Index}
    (hknown : (d.slot? index.document).isSome)
    (hne : (d.slot index.document).revision ≠ index.revision) : (d.commit index).2 = d := by
  obtain ⟨s, hs⟩ := Option.isSome_iff_exists.mp hknown
  simp only [commit, if_neg hne]
  exact setSlot_self (by simp [slot, hs])

end Documents

/--
A build of an edit is published exactly when no edit or removal of the document came after it; a
stale build changes nothing; what is published of a document is the index of its settled revision,
which is not above the current one, and its revisions never decrease along a run.
-/
theorem commit_applied_iff_unsuperseded {s : Logged} (hs : s.Reachable) :
    (∀ p later earlier index, s.log = later ++ .beganEdit p :: earlier → p.Builds index →
      ((s.documents.commit index).1 = .applied index ↔
        ∀ e ∈ later, ¬ e.Supersedes p.document)) ∧
    (∀ p index, .beganEdit p ∈ s.log → p.Builds index →
      (s.documents.commit index).1 ≠ .applied index →
        (s.documents.commit index).1 =
            .stale p.revision (s.documents.revision p.document) ∧
          (s.documents.commit index).2 = s.documents) ∧
    (∀ x index, s.documents.get x = some index →
      index.revision = (s.documents.slot x).settled ∧
        index.revision ≤ s.documents.revision x ∧ index.document = x) ∧
    (∀ s' x index index', s.Steps s' → s.documents.get x = some index →
      s'.documents.get x = some index' → index.revision ≤ index'.revision) := by
  have hinv := editInv_of_reachable hs
  have hslots := fun x => slotInv_of_reachable hs x
  refine ⟨?_, ?_, ?_, ?_⟩
  · intro p later earlier index hlog hbuilds
    rw [Documents.commit_eq_applied_iff, hbuilds.document, hbuilds.revision]
    rcases hinv p later earlier hlog with ⟨⟨e, he, hsup⟩, hlt⟩ | ⟨hnone, hnewest⟩
    · exact ⟨fun heq => absurd heq (Nat.ne_of_gt hlt), fun h => absurd hsup (h e he)⟩
    · exact ⟨fun _ => hnone, fun _ => hnewest.1⟩
  · intro p index hmem hbuilds hstale
    have hne : (s.documents.slot index.document).revision ≠ index.revision :=
      fun heq => hstale ((Documents.commit_eq_applied_iff _ _).mpr heq)
    refine ⟨?_, Documents.commit_stale ?_ hne⟩
    · rw [Documents.commit_eq, if_neg hne, hbuilds.document, hbuilds.revision]
      rfl
    · rw [hbuilds.document]
      exact slot?_isSome_of_began hs hmem
  · intro x index hget
    rw [Documents.get_eq] at hget
    have hrev := (hslots x).index_revision index hget
    exact ⟨hrev, hrev ▸ (hslots x).settled_le, (hslots x).index_document index hget⟩
  · intro s' x index index' hsteps hget hget'
    rw [Documents.get_eq] at hget hget'
    have hslots' := slotInv_of_steps hsteps hslots x
    rw [(hslots x).index_revision index hget, hslots'.index_revision index' hget']
    exact (hsteps.le hslots x).2

/-- Two edits of one file begin; the build of the first is finished last and is not published. -/
theorem commit_of_two_edits :
    let file : DocumentId := ⟨"file:///a.lua"⟩
    let first := ({} : Documents).beginEdit file "local x = 1"
    let second := first.2.beginEdit file "local x = 2"
    let log : List Call := [.beganEdit second.1, .beganEdit first.1]
    let build (p : PendingBuild) : Index := (Documents.buildWith p Loader.none ()).1
    Logged.Reachable ⟨second.2, log⟩ ∧
      (second.2.commit (build second.1)).1 = .applied (build second.1) ∧
      (second.2.commit (build first.1)).1 = .stale 1 2 ∧
      (second.2.commit (build first.1)).2 = second.2 := by
  intro file first second log build
  have hs : Logged.Reachable ⟨second.2, log⟩ :=
    ⟨{}, .tail (.tail .refl (.beginEdit _ file "local x = 1")) (.beginEdit _ file "local x = 2")⟩
  have hbuilds : ∀ p : PendingBuild, p.Builds (build p) := fun p => ⟨Unit, Loader.none, (), rfl⟩
  obtain ⟨happlied, hstale, _, _⟩ := commit_applied_iff_unsuperseded hs
  have hne : (second.2.commit (build first.1)).1 ≠ .applied (build first.1) := fun heq =>
    (happlied first.1 [.beganEdit second.1] [] _ rfl (hbuilds _)).mp heq _ (.head _) rfl
  have hfirst := hstale first.1 _ (.tail _ (.head _)) (hbuilds _) hne
  exact ⟨hs, (happlied second.1 [] _ _ rfl (hbuilds _)).mpr nofun, hfirst.1, hfirst.2⟩

/-! ## Loads beside edits -/

/-- A slot without index whose revision did not change was not touched. -/
theorem Call.Effect.slot_eq {x : DocumentId} {s s' : Slot} {e : Call} (he : e.Effect x s s')
    (hrev : s'.revision = s.revision) (hnone : s'.index = none) : s' = s := by
  have hloads : s.Loads x s' → s' = s := by
    rintro (rfl | ⟨index, _, _, rfl⟩)
    · rfl
    · cases hnone
  cases e with
  | beganEdit p =>
    simp only [Call.Effect] at he
    split at he
    · obtain ⟨hnext, rfl⟩ := he
      exact absurd (hnext.symm.trans hrev) (Nat.succ_ne_self _)
    · exact he
  | built p index => exact hloads he
  | committed index outcome =>
    simp only [Call.Effect] at he
    split at he
    · subst he
      cases hnone
    · exact he
  | published index answer => exact hloads he
  | removed document answer =>
    simp only [Call.Effect] at he
    split at he
    · rcases he with rfl | ⟨_, heq⟩
      · exact absurd hrev (Nat.succ_ne_self _)
      · exact heq
    · exact he
  | beganLoad p | reconfigured options => exact he

/-- By induction on the run: the revision cannot have moved at any step of it. -/
theorem Logged.Steps.slot_eq {s s' : Logged} (h : s.Steps s')
    (hs : ∀ x, SlotInv x (s.documents.slot x)) {x : DocumentId}
    (hrev : (s'.documents.slot x).revision = (s.documents.slot x).revision)
    (hnone : (s'.documents.slot x).index = none) :
    s'.documents.slot x = s.documents.slot x := by
  induction h with
  | refl => rfl
  | @tail t u hsteps hstep ih =>
    obtain ⟨_, _, heffect⟩ := hstep.effect
    have hle := (heffect x).le (slotInv_of_steps hsteps hs x)
    have hmid : (t.documents.slot x).revision = (s.documents.slot x).revision :=
      Nat.le_antisymm (hrev ▸ hle.1) (hsteps.le hs x).1
    have heq := (heffect x).slot_eq (hrev.trans hmid.symm) hnone
    rw [heq] at hnone ⊢
    exact ih hmid hnone

/-- Until one of its builds is committed, only a call that supersedes an edit moves its slot. -/
theorem Call.Effect.slot_eq_of_pending {p : PendingBuild} {s s' : Slot} {e : Call}
    (he : e.Effect p.document s s') (hrev : s.revision = p.revision)
    (hpending : s.settled ≠ s.revision) (hnot : ¬ e.Supersedes p.document ∧ ¬ e.Commits p) :
    s' = s := by
  cases e with
  | beganEdit q =>
    simp only [Call.Effect] at he
    split at he
    · rename_i hx
      exact absurd hx.symm hnot.1
    · exact he
  | built q index => exact Slot.Loads.eq_of_isPending he hpending
  | committed index outcome =>
    simp only [Call.Effect] at he
    split at he
    · rename_i hx
      exact absurd ⟨hx.1.symm, hx.2.symm.trans hrev⟩ hnot.2
    · exact he
  | published index answer => exact Slot.Loads.eq_of_isPending he hpending
  | removed document answer =>
    simp only [Call.Effect] at he
    split at he
    · rename_i hx
      exact absurd hx.symm hnot.1
    · exact he
  | beganLoad q | reconfigured options => exact he

theorem Logged.Steps.slot_eq_of_pending {p : PendingBuild} {s s' : Logged} (h : s.Steps s')
    (hrev : (s.documents.slot p.document).revision = p.revision)
    (hpending : (s.documents.slot p.document).settled ≠ (s.documents.slot p.document).revision) :
    ∀ later, s'.log = later ++ s.log →
      (∀ e ∈ later, ¬ e.Supersedes p.document ∧ ¬ e.Commits p) →
      s'.documents.slot p.document = s.documents.slot p.document := by
  induction h with
  | refl => exact fun _ _ _ => rfl
  | @tail t u hsteps hstep ih =>
    intro later hlog hnot
    obtain ⟨before, hbefore⟩ := hsteps.log
    obtain ⟨e, hcons, heffect⟩ := hstep.effect
    rw [hcons, hbefore, ← List.cons_append] at hlog
    have hlater : later = e :: before := (List.append_cancel_right hlog).symm
    subst hlater
    have hmid := ih before hbefore fun c hc => hnot c (.tail _ hc)
    have heq := (heffect p.document).slot_eq_of_pending (by rw [hmid]; exact hrev)
      (by rw [hmid]; exact hpending) (hnot e (.head _))
    exact heq.trans hmid

namespace Documents

theorem get_publishLoaded (d : Documents) (index : Index) {x : DocumentId} {current : Index}
    (h : d.get x = some current) : (d.publishLoaded index).2.get x = some current := by
  rw [get_eq] at h ⊢
  rw [(publishLoaded_loads d index x).eq_of_isSome (by rw [h]; rfl), h]

theorem admits_of_revision_ne {d : Documents} {index : Index} {x : DocumentId}
    (h : (d.publishLoaded index).2.revision x ≠ d.revision x) :
    x = index.document ∧ (d.slot x).Admits index := by
  rw [revision_eq, revision_eq, slot_publishLoaded] at h
  split at h
  · assumption
  · exact absurd rfl h

theorem publishLoaded_answer (d : Documents) (index : Index) :
    (d.publishLoaded index).2.get index.document = some (d.publishLoaded index).1 ∨
      ((d.publishLoaded index).1 = index ∧ (d.publishLoaded index).2.get index.document = none ∧
        ∀ x, (d.publishLoaded index).2.slot x = d.slot x) := by
  rw [publishLoaded_eq]
  cases hget : d.get index.document with
  | some current => exact .inl (get_publishLoaded d index hget)
  | none =>
    rw [get_eq] at hget
    by_cases hadmits : (d.slot index.document).Admits index
    · left
      rw [get_eq, slot_publishLoaded, if_pos ⟨rfl, hadmits⟩]
      rfl
    · have hslot : ∀ x, (d.publishLoaded index).2.slot x = d.slot x := by
        intro x
        rw [slot_publishLoaded, if_neg]
        rintro ⟨rfl, h⟩
        exact hadmits h
      exact .inr ⟨rfl, by rw [get_eq, hslot, hget], hslot⟩

end Documents

/--
From the begin of an edit until one of its builds is committed, loads (and all other calls that
take no revision of the document) leave its slot as it was, and the commit applies. A published
index is never replaced by a loaded one. A load moves a revision only in a slot that was idle and
without index, where it stores its index, and that was not touched since the load began. The answer
to a load is what is published afterwards, or the loaded index itself, which is then stored nowhere.
-/
theorem loads_keep_edit_in_flight {s : Logged} (hs : s.Reachable) :
    (∀ e earlier s' later, s.log = .beganEdit e :: earlier → s.Steps s' →
      s'.log = later ++ s.log → (∀ c ∈ later, ¬ c.Supersedes e.document ∧ ¬ c.Commits e) →
        s'.documents.slot e.document = s.documents.slot e.document ∧
          ∀ index, e.Builds index → (s'.documents.commit index).1 = .applied index) ∧
    (∀ (d : Documents) index x current, d.get x = some current →
      (d.publishLoaded index).2.get x = some current) ∧
    (∀ s' x text index y, s.Steps s' → (s.documents.beginLoad x text).Builds index →
      (s'.documents.publishLoaded index).2.revision y ≠ s'.documents.revision y →
        y = x ∧ s'.documents.get x = none ∧ (s'.documents.slot x).isPending = false ∧
          (s'.documents.publishLoaded index).2.get x = some index ∧
          ∀ t, s.Steps t → t.Steps s' → t.documents.slot x = s'.documents.slot x) ∧
    (∀ (d : Documents) index,
      (d.publishLoaded index).2.get index.document = some (d.publishLoaded index).1 ∨
        ((d.publishLoaded index).1 = index ∧
          (d.publishLoaded index).2.get index.document = none ∧
          ∀ x, (d.publishLoaded index).2.slot x = d.slot x)) := by
  have hslots := fun x => slotInv_of_reachable hs x
  refine ⟨?_, fun d index x current => d.get_publishLoaded index, ?_,
    Documents.publishLoaded_answer⟩
  · intro e earlier s' later hlog hsteps hlater hnot
    have hpending := pending_of_log hs hlog
    have hslot := hsteps.slot_eq_of_pending hpending.1 hpending.2 later hlater hnot
    refine ⟨hslot, fun index hbuilds => ?_⟩
    rw [Documents.commit_eq_applied_iff, hbuilds.document, hbuilds.revision, hslot]
    exact hpending.1
  · intro s' x text index y hsteps hbuilds hne
    obtain ⟨rfl, hnone, hidle, hnext⟩ := Documents.admits_of_revision_ne hne
    have hdoc : index.document = x := hbuilds.document
    subst hdoc
    -- The load carries the revision after the one it began at, and the slot is there again.
    have hrev : (s'.documents.slot index.document).revision =
        (s.documents.slot index.document).revision :=
      Nat.succ.inj (hnext.trans hbuilds.revision)
    have hslots' := slotInv_of_steps hsteps hslots
    refine ⟨rfl, by rw [Documents.get_eq, hnone], by simp [Slot.isPending, hidle], ?_, ?_⟩
    · rw [Documents.get_eq, Documents.slot_publishLoaded, if_pos ⟨rfl, hnone, hidle, hnext⟩]
    · intro t ht ht'
      have hmid : (s'.documents.slot index.document).revision =
          (t.documents.slot index.document).revision :=
        Nat.le_antisymm (hrev ▸ (ht.le hslots _).1) (ht'.le (slotInv_of_steps ht hslots) _).1
      exact (ht'.slot_eq (slotInv_of_steps ht hslots) hmid hnone).symm

/-- A load that begins after an edit carries the revision that a second edit would take; it is
answered with its own index, and the edit is applied. -/
theorem commit_beside_load :
    let file : DocumentId := ⟨"file:///a.lua"⟩
    let edit := ({} : Documents).beginEdit file "local x = 1"
    let load := edit.2.beginLoad file "local x = 2"
    let build (p : PendingBuild) : Index := (Documents.buildWith p Loader.none ()).1
    let published := edit.2.publishLoaded (build load)
    Logged.Reachable ⟨edit.2, [.beganEdit edit.1]⟩ ∧
      published.1 = build load ∧
      published.2.slot file = edit.2.slot file ∧
      (published.2.commit (build edit.1)).1 = .applied (build edit.1) := by
  intro file edit load build published
  have hs : Logged.Reachable ⟨edit.2, [.beganEdit edit.1]⟩ :=
    ⟨{}, .tail .refl (.beginEdit _ file "local x = 1")⟩
  have hbuilds : ∀ p : PendingBuild, p.Builds (build p) := fun p => ⟨Unit, Loader.none, (), rfl⟩
  have hsteps : Logged.Steps ⟨edit.2, [.beganEdit edit.1]⟩
      ⟨published.2, [.published (build load) published.1, .beganLoad load, .beganEdit edit.1]⟩ :=
    .tail (.tail .refl (.beginLoad _ file "local x = 2"))
      (.publishLoaded _ (.inr (.head _)) (hbuilds load))
  obtain ⟨hkept, _, _, _⟩ := loads_keep_edit_in_flight hs
  obtain ⟨hslot, happlied⟩ := hkept edit.1 [] _
    [.published (build load) published.1, .beganLoad load] rfl hsteps rfl (by
      intro c hc
      rcases List.mem_cons.mp hc with rfl | hc
      · exact ⟨id, id⟩
      · cases List.mem_singleton.mp hc
        exact ⟨id, id⟩)
  refine ⟨hs, ?_, hslot, happlied _ (hbuilds _)⟩
  rw [Documents.publishLoaded_eq, (hbuilds load).document]
  rfl

end LuaScope

import LuaScope.Proofs.Session.Run

/-!
# LuaScope.Proofs.Session.Reports

What a session reports, over all its runs.

* `Running.Shows`    — what a report on an index consists of: the problems of the index, and what
  the checker found if it was run and did not fail.
* `Running.Goes`     — what one step makes of the session, the tasks and the events.
* `reports_current`  — every report is of the revision that is current at that moment.
-/

namespace LuaScope

/-- The step goes on with an edit whose index is there, or with a save. -/
def Cause.OfText : Cause → Prop
  | .notice (.saved _) | .task (.commit _) | .task (.check _ _) | .task (.report _ _) => True
  | _ => False

namespace Running

/-- What a step may report on an index. -/
inductive Shows (w : World) (r : Running) : Cause → Index → List Diagnostic → Prop where
  /-- The checker is not wanted on edits, or cannot read the text. -/
  | edited {index : Index} :
      (r.session.settings.staticCheck.runsOn .typing && !index.malformed) = false →
      Shows w r (.task (.commit index)) index index.diagnostics
  /-- The checker is not wanted on saves, or cannot read the text. -/
  | saved {document : DocumentId} {index : Index} :
      (r.session.settings.staticCheck.runsOn .save && !index.malformed) = false →
      Shows w r (.notice (.saved document)) index index.diagnostics
  | checked {index : Index} {settings : CheckerSettings} {found : List Diagnostic} :
      settings.check w.tools checkTimeout (Session.checkedName index.document)
        index.source.text = .ok found →
      Shows w r (.task (.check index settings)) index (index.diagnostics ++ found)
  | failed {index : Index} {settings : CheckerSettings} {e : CheckError} :
      settings.check w.tools checkTimeout (Session.checkedName index.document)
        index.source.text = .error e →
      Shows w r (.task (.check index settings)) index index.diagnostics
  /-- The editor was warned in between. -/
  | warned {index : Index} {found : List Diagnostic} {e : CheckError} :
      (index, .error e) ∈ r.answers →
      Shows w r (.task (.report index found)) index index.diagnostics

/-- What a step makes of the tasks under way, and what it reports. -/
structure Goes (w : World) (r : Running) (c : Cause) (others : List Task) (step : LuaScope.Step) :
    Prop where
  inFlight : InFlight step.session.documents (step.next.toList ++ others)
  grows : ∀ x, r.session.documents.revision x ≤ step.session.documents.revision x
  failed : ∀ index found, step.next = some (.report index found) → found = index.diagnostics ∧
    ∃ settings e, c = .task (.check index settings) ∧
      settings.check w.tools checkTimeout (Session.checkedName index.document)
        index.source.text = .error e
  current : ∀ document revision found, .diagnostics document revision found ∈ step.events →
    revision = step.session.documents.revision document
  shows : ∀ document revision found, .diagnostics document revision found ∈ step.events →
    (c.OfText → ∃ index, step.session.documents.get document = some index ∧
      index.document = document ∧ index.revision = revision ∧ Shows w r c index found) ∧
    (¬ c.OfText → found = [])

variable {w : World} {r : Running} {c : Cause} {others : List Task} {s : Session}

/-- A step that reports nothing. -/
theorem Goes.silent {step : LuaScope.Step}
    (h : InFlight step.session.documents (step.next.toList ++ others))
    (hgrows : ∀ x, r.session.documents.revision x ≤ step.session.documents.revision x)
    (hnext : ∀ index found, step.next ≠ some (.report index found))
    (hevents : ∀ document revision found, .diagnostics document revision found ∉ step.events) :
    Goes w r c others step where
  inFlight := h
  grows := hgrows
  failed index found heq := absurd heq (hnext index found)
  current _ _ _ hmem := absurd hmem (hevents _ _ _)
  shows _ _ _ hmem := absurd hmem (hevents _ _ _)

/-! ## Edits and saves -/

/-- A report on an index that is current says that it is; else nothing is reported. -/
theorem report_goes {index : Index} {found : List Diagnostic} (h : InFlight s.documents others)
    (hgrows : ∀ x, r.session.documents.revision x ≤ s.documents.revision x)
    (hheld : (s.documents.slot index.document).Held index) (hc : c.OfText)
    (hshows : Shows w r c index found) : Goes w r c others (s.report index found) := by
  unfold Session.report
  by_cases hcurrent : s.documents.revision index.document = index.revision
  · rw [if_neg fun hne => hne hcurrent]
    split
    · exact .silent h hgrows nofun nofun
    · refine ⟨h, hgrows, nofun, ?_, ?_⟩
      · intro document revision found' hmem
        cases List.mem_singleton.mp hmem
        exact hcurrent.symm
      · intro document revision found' hmem
        cases List.mem_singleton.mp hmem
        refine ⟨fun _ => ⟨index, ?_, rfl, rfl, hshows⟩, fun hnot => absurd hc hnot⟩
        exact (Documents.get_eq _ _).trans (hheld.2 hcurrent.symm)
  · rw [if_pos hcurrent]
    exact .silent h hgrows nofun nofun

/-- An index that was just published, or is saved, goes to the checker or is reported on. -/
theorem diagnose_goes {index : Index} {trigger : Trigger} (h : InFlight s.documents others)
    (hgrows : ∀ x, r.session.documents.revision x ≤ s.documents.revision x)
    (hget : s.documents.get index.document = some index) (hc : c.OfText)
    (hshows : (s.settings.staticCheck.runsOn trigger && !index.malformed) = false →
      Shows w r c index index.diagnostics) :
    Goes w r c others (s.diagnose index trigger) := by
  have hheld : (s.documents.slot index.document).Held index :=
    (h.slots index.document).held ((Documents.get_eq _ _).symm.trans hget)
  unfold Session.diagnose
  split
  · refine .silent (h.cons rfl ?_) hgrows nofun nofun
    intro j hj
    cases hj
    exact hheld
  · rename_i hnot
    exact report_goes h hgrows hheld hc (hshows (Bool.eq_false_iff.mpr hnot))

theorem commit_goes {index : Index} (h : InFlight r.session.documents (.commit index :: others)) :
    Goes w r (.task (.commit index)) others (r.session.commit index) := by
  have hafter := h.commit
  have hslot := r.session.documents.slot_commit index
  have hgrows : ∀ x, r.session.documents.revision x ≤
      (r.session.documents.commit index).2.revision x := by
    intro x
    rw [Documents.revision_eq, Documents.revision_eq, hslot]
    split <;> exact Nat.le_refl _
  have houtcome := r.session.documents.commit_eq index
  unfold Session.commit
  generalize r.session.documents.commit index = committed at *
  obtain ⟨outcome, d⟩ := committed
  simp only at houtcome
  subst houtcome
  by_cases hcurrent : (r.session.documents.slot index.document).revision = index.revision
  · simp only [if_pos hcurrent]
    refine diagnose_goes hafter hgrows ?_ trivial fun hnot => .edited hnot
    rw [Documents.get_eq, hslot, if_pos ⟨rfl, hcurrent⟩]
  · simp only [if_neg hcurrent]
    exact .silent hafter hgrows nofun nofun

theorem checked_goes {index : Index} {settings : CheckerSettings}
    (h : InFlight r.session.documents (.check index settings :: others)) :
    Goes w r (.task (.check index settings)) others (r.session.checked index
      (settings.check w.tools checkTimeout (Session.checkedName index.document)
        index.source.text)) := by
  have hheld := h.indices _ (.head _) index rfl
  cases hresult : settings.check w.tools checkTimeout (Session.checkedName index.document)
    index.source.text with
  | ok found =>
    exact report_goes h.tail (fun _ => Nat.le_refl _) hheld trivial (.checked hresult)
  | error e =>
    simp only [Session.checked]
    split
    · exact report_goes h.tail (fun _ => Nat.le_refl _) hheld trivial (.failed hresult)
    · refine ⟨h.tail.cons rfl ?_, fun _ => Nat.le_refl _, ?_, ?_, ?_⟩
      · intro j hj
        cases hj
        exact hheld
      · intro j found heq
        cases heq
        exact ⟨rfl, settings, e, rfl, hresult⟩
      · intro document revision found hmem
        cases List.mem_singleton.mp hmem
      · intro document revision found hmem
        cases List.mem_singleton.mp hmem

theorem save_goes (h : InFlight r.session.documents others) (document : DocumentId) :
    Goes w r (.notice (.saved document)) others (r.session.save document) := by
  unfold Session.save
  split
  · exact .silent h (fun _ => Nat.le_refl _) nofun nofun
  · rename_i index hget
    have hdoc : index.document = document :=
      (h.slots document).index_document index ((Documents.get_eq _ _).symm.trans hget)
    exact diagnose_goes h (fun _ => Nat.le_refl _) (hdoc ▸ hget) trivial fun hnot => .saved hnot

theorem change_goes (h : InFlight r.session.documents others)
    (hs : s.documents = r.session.documents) (document : DocumentId) (text : String) :
    Goes w r c others (s.change document text) := by
  unfold Session.change
  rw [hs]
  refine .silent (h.beginEdit document text) (fun x => ?_) nofun nofun
  have hslot := r.session.documents.slot_beginEdit document text x
  simp only [Documents.revision_eq, hslot]
  split
  · exact Nat.le_succ _
  · exact Nat.le_refl _

/-! ## Closed and deleted files -/

/-- A step that clears the diagnostics of a document. -/
theorem Goes.clears {step : LuaScope.Step} {document : DocumentId} (hc : ¬ c.OfText)
    (h : InFlight step.session.documents (step.next.toList ++ others))
    (hgrows : ∀ x, r.session.documents.revision x ≤ step.session.documents.revision x)
    (hnext : ∀ index found, step.next ≠ some (.report index found))
    (hevents : step.events =
      [.diagnostics document (step.session.documents.revision document) []]) :
    Goes w r c others step where
  inFlight := h
  grows := hgrows
  failed index found heq := absurd heq (hnext index found)
  current document revision found hmem := by
    rw [hevents] at hmem
    cases List.mem_singleton.mp hmem
    rfl
  shows document revision found hmem := by
    rw [hevents] at hmem
    cases List.mem_singleton.mp hmem
    exact ⟨fun h => absurd h hc, fun _ => rfl⟩

theorem close_goes (h : InFlight r.session.documents others) (document : DocumentId) :
    Goes w r (.notice (.closed document)) others (r.session.close document) := by
  unfold Session.close
  simp only
  split
  · exact .silent h (fun _ => Nat.le_refl _) nofun nofun
  · exact .clears id h (fun _ => Nat.le_refl _) nofun rfl

/-- Documents are forgotten one by one, up to the first one that has diagnostics. -/
theorem forget_goes (h : InFlight s.documents others)
    (hgrows : ∀ x, r.session.documents.revision x ≤ s.documents.revision x) :
    ∀ deleted : List DocumentId,
      InFlight (s.forget deleted).1.documents others ∧
        (∀ x, r.session.documents.revision x ≤ (s.forget deleted).1.documents.revision x) ∧
        ∀ event left, (s.forget deleted).2 = some (event, left) → ∃ document,
          event = .diagnostics document ((s.forget deleted).1.documents.revision document) [] := by
  intro deleted
  induction deleted generalizing s with
  | nil => exact ⟨h, hgrows, nofun⟩
  | cons document deleted ih =>
    have hremoved := (Logged.Step.remove ⟨s.documents, []⟩ document).effect
    obtain ⟨_, hlog, heffect⟩ := hremoved
    cases hlog
    have hafter : InFlight (s.documents.remove document).2 others := h.effect heffect nofun
    have hgrows' : ∀ x, r.session.documents.revision x ≤
        (s.documents.remove document).2.revision x := fun x =>
      Nat.le_trans (hgrows x) ((heffect x).le (h.slots x)).1
    simp only [Session.forget]
    have hsame : (s.markClosed document).documents = s.documents := rfl
    rw [hsame]
    generalize s.documents.remove document = removed at *
    obtain ⟨there, d⟩ := removed
    cases there with
    | false => exact ih hafter hgrows'
    | true =>
      refine ⟨hafter, hgrows', fun event left heq => ?_⟩
      cases heq
      exact ⟨document, rfl⟩

/-- The events go on up to the first one that clears diagnostics. -/
theorem watch_goes (hc : ¬ c.OfText) (h : InFlight s.documents others)
    (hgrows : ∀ x, r.session.documents.revision x ≤ s.documents.revision x)
    (events : List FileEvent) : Goes w r c others (s.watch w events) := by
  induction events generalizing s with
  | nil => exact .silent h hgrows nofun nofun
  | cons event events ih =>
    unfold Session.watch
    cases event.change with
    | changed => exact ih h hgrows
    | created => exact ih h hgrows
    | deleted =>
      simp only
      obtain ⟨hafter, hgrows', hevent⟩ := forget_goes
        (s := { s with catalog := (s.catalog.removeFile w.files event.path).2 }) h hgrows
        (Session.deletedDocuments w.files event.path)
      generalize Session.forget _ _ = forgotten at *
      obtain ⟨s', found⟩ := forgotten
      cases found with
      | none => exact ih hafter hgrows'
      | some found =>
        obtain ⟨document, hfound⟩ := hevent found.1 found.2 rfl
        refine .clears hc ?_ hgrows' nofun (congrArg (fun event => [event]) hfound)
        exact InFlight.cons hafter rfl nofun

/-! ## Steps of a run -/

theorem receive_goes (h : InFlight r.session.documents others) (n : Notice) :
    Goes w r (.notice n) others (r.session.receive w n) := by
  have hgrows : ∀ x, r.session.documents.revision x ≤ r.session.documents.revision x :=
    fun _ => Nat.le_refl _
  cases n with
  | initialized => exact .silent (InFlight.cons h rfl nofun) hgrows nofun nofun
  | opened document text =>
    have hsame : (r.session.markOpen document).documents = r.session.documents := by
      unfold Session.markOpen
      split <;> rfl
    exact change_goes h hsame document text
  | changed document text => exact change_goes h rfl document text
  | saved document => exact save_goes h document
  | closed document => exact close_goes h document
  | filesChanged events => exact watch_goes id h hgrows events
  | configured settings =>
    have hafter : InFlight (r.session.documents.reconfigure settings.parserOptions) others :=
      h.effect (e := .reconfigured settings.parserOptions) (fun _ => rfl) nofun
    exact .silent (InFlight.cons hafter rfl nofun) hgrows nofun nofun

theorem advance_goes {t : Task} (h : InFlight r.session.documents (t :: others))
    (hfailed : ∀ index found, t = .report index found → found = index.diagnostics ∧
      ∃ e, (index, .error e) ∈ r.answers) :
    Goes w r (.task t) others (r.session.advance w t) := by
  have hgrows : ∀ x, r.session.documents.revision x ≤ r.session.documents.revision x :=
    fun _ => Nat.le_refl _
  cases t with
  | build p =>
    have hbuilds := PendingBuild.builds_build p r.session.documents (r.session.source w.files)
    have hloads := r.session.documents.build_loads (r.session.source w.files) p
    have hedit : (Task.commit (r.session.documents.build (r.session.source w.files) p).1).edit? =
        (Task.build p).edit? := by
      simp only [Task.edit?, hbuilds.document, hbuilds.revision]
    refine .silent ((h.loads hloads).replace hedit rfl) (fun x => ?_) nofun nofun
    exact ((show (Call.built p default).Effect x _ _ from hloads x).le (h.slots x)).1
  | commit index => exact commit_goes h
  | check index settings => exact checked_goes h
  | report index found =>
    obtain ⟨rfl, e, he⟩ := hfailed index found rfl
    exact report_goes h.tail hgrows (h.indices _ (.head _) index rfl) trivial (.warned he)
  | rescan => exact .silent h.tail hgrows nofun nofun
  | watch deleted events =>
    obtain ⟨hafter, hgrows', hevent⟩ := forget_goes h.tail hgrows deleted
    simp only [Session.advance]
    generalize r.session.forget deleted = forgotten at *
    obtain ⟨s', found⟩ := forgotten
    cases found with
    | none => exact watch_goes id hafter hgrows' events
    | some found =>
      obtain ⟨document, hfound⟩ := hevent found.1 found.2 rfl
      refine .clears id ?_ hgrows' nofun (congrArg (fun event => [event]) hfound)
      exact InFlight.cons hafter rfl nofun

end Running

/-- Of two reports on one document the second one is of no lower revision. -/
def SessionEvent.Ordered (e e' : SessionEvent) : Prop :=
  ∀ document revision revision' found found', e = .diagnostics document revision found →
    e' = .diagnostics document revision' found' → revision ≤ revision'

namespace Running

/-- What holds in every reachable state of a session. -/
structure Inv (r : Running) : Prop where
  inFlight : InFlight r.session.documents r.tasks
  failed : ∀ index found, .report index found ∈ r.tasks → found = index.diagnostics ∧
    ∃ e, (index, .error e) ∈ r.answers
  sent : ∀ document revision found, .diagnostics document revision found ∈ r.sent →
    revision ≤ r.session.documents.revision document
  ordered : r.sent.Pairwise SessionEvent.Ordered

/-- What was sent before is of no higher revision than what is sent now. -/
theorem Inv.after {r : Running} (h : r.Inv) {w : World} {c : Cause} {others : List Task}
    {step : LuaScope.Step} (hgoes : Goes w r c others step)
    {answers : List (Index × Except CheckError (List Diagnostic))}
    (hothers : others ⊆ r.tasks)
    (hanswered : ∀ index settings e, c = .task (.check index settings) →
      settings.check w.tools checkTimeout (Session.checkedName index.document)
        index.source.text = .error e → (index, .error e) ∈ answers) :
    Inv { r.after step others with answers := r.answers ++ answers } where
  inFlight := hgoes.inFlight
  failed index found hmem := by
    rcases List.mem_append.mp hmem with hnext | hother
    · obtain ⟨rfl, settings, e, hcause, hresult⟩ :=
        hgoes.failed index found (Option.mem_toList.mp hnext)
      exact ⟨rfl, e, List.mem_append_right _ (hanswered index settings e hcause hresult)⟩
    · obtain ⟨hfound, e, he⟩ := h.failed index found (hothers hother)
      exact ⟨hfound, e, List.mem_append_left _ he⟩
  sent document revision found hmem := by
    rcases List.mem_append.mp hmem with hbefore | hnow
    · exact Nat.le_trans (h.sent document revision found hbefore) (hgoes.grows document)
    · exact Nat.le_of_eq (hgoes.current document revision found hnow)
  ordered := by
    refine List.pairwise_append.mpr ⟨h.ordered, ?_, ?_⟩
    · refine List.pairwise_of_forall_mem_list fun e he e' he' => ?_
      rintro document revision revision' found found' rfl rfl
      exact Nat.le_of_eq ((hgoes.current _ _ _ he).trans (hgoes.current _ _ _ he').symm)
    · rintro e he e' he' document revision revision' found found' rfl rfl
      rw [hgoes.current _ _ _ he']
      exact Nat.le_trans (h.sent _ _ _ he) (hgoes.grows document)

theorem Inv.loads {r : Running} (h : r.Inv) {d : Documents}
    (hloads : r.session.documents.Loads d) :
    Inv { r with session := { r.session with documents := d } } where
  inFlight := h.inFlight.loads hloads
  failed := h.failed
  sent document revision found hmem := by
    have heffect : (Call.built default default).Effect document _ _ := hloads document
    exact Nat.le_trans (h.sent document revision found hmem)
      (heffect.le (h.inFlight.slots document)).1
  ordered := h.ordered

theorem Inv.built {r : Running} (h : r.Inv) {p : PendingBuild} {index : Index}
    {others : List Task} (hperm : r.tasks.Perm (.build p :: others)) (hbuilds : p.Builds index) :
    Inv { r with tasks := .commit index :: others } where
  inFlight := by
    refine (h.inFlight.perm hperm).replace ?_ rfl
    simp only [Task.edit?, hbuilds.document, hbuilds.revision]
  failed j found hmem := by
    rcases List.mem_cons.mp hmem with heq | hmem
    · cases heq
    · exact h.failed j found (hperm.mem_iff.mpr (.tail _ hmem))
  sent := h.sent
  ordered := h.ordered

/-- A notice or a task goes on as `Goes` tells. -/
theorem Inv.step {r r' : Running} (h : r.Inv) {w : World} {c : Cause} (hstep : r.Step w c r') :
    r'.Inv ∧ ((∃ others step, Goes w r c others step ∧ r'.session = step.session ∧
      r'.sent = r.sent ++ step.events) ∨ r'.sent = r.sent) := by
  cases hstep with
  | notice n =>
    have hgoes := receive_goes (w := w) h.inFlight n
    have hinv : Inv { r.after (r.session.receive w n) r.tasks with answers := r.answers ++ [] } :=
      h.after hgoes (List.Subset.refl _) nofun
    rw [List.append_nil] at hinv
    exact ⟨hinv, .inl ⟨_, _, hgoes, rfl, rfl⟩⟩
  | @task t others hperm =>
    have hfailed : ∀ index found, t = .report index found → found = index.diagnostics ∧
        ∃ e, (index, .error e) ∈ r.answers := by
      rintro index found rfl
      exact h.failed index found (hperm.mem_iff.mpr (.head _))
    have hgoes := advance_goes (w := w) (h.inFlight.perm hperm) hfailed
    refine ⟨h.after hgoes (fun t ht => hperm.mem_iff.mpr (.tail _ ht)) ?_,
      .inl ⟨_, _, hgoes, rfl, rfl⟩⟩
    rintro index settings e heq hresult
    cases heq
    simp only [Task.outcome?, hresult]
    exact .head _
  | load hloads => exact ⟨h.loads hloads, .inr rfl⟩
  | built hperm hbuilds => exact ⟨h.built hperm hbuilds, .inr rfl⟩

theorem inv_of_reachable {r : Running} (h : r.Reachable) : r.Inv := by
  induction h with
  | start settings root files => exact ⟨.start _, nofun, nofun, .nil⟩
  | step _ hstep ih => exact (ih.step hstep).1

end Running

/--
Whatever a step of a run hands to the editor about a document is tagged with the revision that the
document has then. If an edit or a save made it due, it consists of the problems of the index that
is published at this revision, and of what the checker found in its text, if it was run and did not
fail; other reports clear. So on each document the revisions reported never decrease.
-/
theorem reports_current {r r' : Running} (hr : r.Reachable) {w : World} {c : Cause}
    (hstep : r.Step w c r') :
    ∃ events, r'.sent = r.sent ++ events ∧
      (∀ document revision found, .diagnostics document revision found ∈ events →
        revision = r'.session.documents.revision document ∧
          (c.OfText → ∃ index, r'.session.documents.get document = some index ∧
            index.document = document ∧ index.revision = revision ∧
              Running.Shows w r c index found) ∧
          (¬ c.OfText → found = [])) ∧
      r'.sent.Pairwise SessionEvent.Ordered := by
  obtain ⟨hinv, ⟨others, step, hgoes, hsession, hsent⟩ | hsent⟩ :=
    (Running.inv_of_reachable hr).step hstep
  · refine ⟨step.events, hsent, fun document revision found hmem => ?_, hinv.ordered⟩
    rw [hsession]
    exact ⟨hgoes.current _ _ _ hmem, hgoes.shows _ _ _ hmem⟩
  · exact ⟨[], by rw [hsent, List.append_nil], nofun, hinv.ordered⟩

/-- A document is edited while its first text is indexed: what is reported is of the second one. -/
theorem reports_current_of_second_edit :
    ∃ (w : World) (r r' : Running) (index : Index) (first : PendingBuild),
      r.Reachable ∧ r.tasks = [.commit index, .build first] ∧
        r.Step w (.task (.commit index)) r' ∧ index.document = first.document ∧
        r'.sent = [.diagnostics index.document 2 index.diagnostics] ∧
        r'.session.documents.revision index.document = 2 ∧
        r'.session.documents.get index.document = some index := by
  let w : World := ⟨⟨[], []⟩, fun _ _ _ => .finished {}⟩
  let file : DocumentId := ⟨"file:///a.lua"⟩
  let fresh := Running.start { staticCheck := { enable := false } } none w.files
  let opened := fresh.after (fresh.session.receive w (.opened file "local x = 1")) []
  let changed := opened.after (opened.session.receive w (.changed file "local y = 2")) opened.tasks
  let first := (fresh.session.documents.beginEdit file "local x = 1").1
  let second := (opened.session.documents.beginEdit file "local y = 2").1
  let index := (changed.session.documents.build (changed.session.source w.files) second).1
  have hopened : opened.Reachable := .step (.start _ _ _) (.notice (w := w) fresh _)
  have hchanged : changed.Reachable := .step hopened (.notice (w := w) opened _)
  let built : Running := { changed.after (changed.session.advance w (.build second)) [.build first]
    with answers := changed.answers ++ ((Task.build second).outcome? w).toList }
  let reported : Running := { built.after (built.session.advance w (.commit index)) [.build first]
    with answers := built.answers ++ ((Task.commit index).outcome? w).toList }
  have hbuilt : built.Reachable := .step hchanged (.task changed (.refl _))
  have hstep : built.Step w (.task (.commit index)) reported := .task built (.refl _)
  obtain ⟨events, hsent, hevents, _⟩ := reports_current hbuilt hstep
  have hevent : events = [.diagnostics file 2 index.diagnostics] :=
    hsent.symm.trans (by decide +kernel)
  obtain ⟨hrevision, hindex, _⟩ := hevents file 2 index.diagnostics (by rw [hevent]; exact .head _)
  obtain ⟨found, hget, _, _, hshows⟩ := hindex trivial
  cases hshows
  have hdocument : index.document = file := Index.build_document _ _ _ _ _ _
  rw [← hdocument] at hevent hrevision hget
  exact ⟨w, built, reported, index, first, hbuilt, rfl, hstep, hdocument, hsent.trans hevent,
    hrevision.symm, hget⟩

end LuaScope

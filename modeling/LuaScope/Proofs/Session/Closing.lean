import LuaScope.Proofs.Session.Reports

/-!
# LuaScope.Proofs.Session.Closing

What is reported on a document that was closed. Closing takes no revision, so a task of the current
revision that is under way by then reports all the same; what was outrun before reports nothing.

* `Running.Outruns`    — all tasks that are of the document are of earlier revisions.
* `closed_stays_clear` — a closed document that outruns its tasks stays without problems until it is
  opened, changed or saved.
* `closed_document_reported` — the checker's result for a document that was closed meanwhile.
-/

namespace LuaScope

/-- The document and the revision that a task is of. -/
def Task.about? : Task → Option (DocumentId × Revision)
  | .build p => some (p.document, p.revision)
  | .commit index | .check index _ | .report index _ => some (index.document, index.revision)
  | .rescan | .watch _ _ => none

/-- The document whose text a notice makes the session look at. -/
def Notice.text? : Notice → Option DocumentId
  | .opened document _ | .changed document _ | .saved document => some document
  | .initialized | .closed _ | .filesChanged _ | .configured _ => none

/-- A notice makes the session look at this document's text. -/
def Cause.Handles (document : DocumentId) : Cause → Prop
  | .notice n => n.text? = some document
  | .task _ | .builder => False

namespace Session

variable {w : World} {s : Session}

/-! ## What is left to be done -/

theorem report_next (index : Index) (found : List Diagnostic) :
    (s.report index found).next = none := by
  unfold report
  split
  · rfl
  · split <;> rfl

theorem diagnose_next {index : Index} {trigger : Trigger} {t : Task}
    (h : (s.diagnose index trigger).next = some t) :
    t.about? = some (index.document, index.revision) := by
  unfold diagnose at h
  split at h
  · cases h
    rfl
  · rw [report_next] at h
    cases h

/-- A commit that is applied goes on with the checker if it is wanted on edits and can read the
text. -/
theorem commit_next_eq {index : Index}
    (hcurrent : (s.documents.slot index.document).revision = index.revision) :
    (s.commit index).next =
      if s.settings.staticCheck.runsOn .typing && !index.malformed then
        some (.check index s.settings.staticCheck)
      else none := by
  have houtcome := s.documents.commit_eq index
  rw [if_pos hcurrent] at houtcome
  unfold commit
  generalize s.documents.commit index = committed at *
  obtain ⟨outcome, d⟩ := committed
  simp only at houtcome
  subst houtcome
  simp only [diagnose]
  split
  · rfl
  · exact report_next index index.diagnostics

theorem commit_next {index : Index} {t : Task} (h : (s.commit index).next = some t) :
    t.about? = some (index.document, index.revision) := by
  by_cases hcurrent : (s.documents.slot index.document).revision = index.revision
  · rw [commit_next_eq hcurrent] at h
    split at h
    · cases h
      rfl
    · cases h
  · have houtcome := s.documents.commit_eq index
    rw [if_neg hcurrent] at houtcome
    unfold commit at h
    generalize s.documents.commit index = committed at *
    obtain ⟨outcome, d⟩ := committed
    simp only at houtcome
    subst houtcome
    cases h

theorem checked_next {index : Index} {result : Except CheckError (List Diagnostic)} {t : Task}
    (h : (s.checked index result).next = some t) :
    t.about? = some (index.document, index.revision) := by
  unfold checked at h
  split at h
  · rw [report_next] at h
    cases h
  · split at h
    · rw [report_next] at h
      cases h
    · cases h
      rfl

theorem watch_next {events : List FileEvent} {t : Task} (h : (s.watch w events).next = some t) :
    t.about? = none := by
  induction events generalizing s with
  | nil => cases h
  | cons event events ih =>
    unfold watch at h
    split at h
    · exact ih h
    · exact ih h
    · dsimp only at h
      split at h
      · exact ih h
      · cases h
        rfl

/-- A task goes on with the document and the revision that it is of. -/
theorem advance_next {t t' : Task} (h : (s.advance w t).next = some t') :
    t'.about? = none ∨ t'.about? = t.about? := by
  cases t with
  | build p =>
    have hbuilds := PendingBuild.builds_build p s.documents (s.source w.files)
    obtain rfl : Task.commit (s.documents.build (s.source w.files) p).1 = t' := Option.some.inj h
    right
    simp only [Task.about?, hbuilds.document, hbuilds.revision]
  | commit index => exact .inr (commit_next h)
  | check index settings => exact .inr (checked_next h)
  | report index found =>
    have h : (s.report index found).next = some t' := h
    rw [report_next] at h
    cases h
  | rescan => cases h
  | watch deleted events =>
    left
    simp only [advance] at h
    split at h
    · exact watch_next h
    · cases h
      rfl

/-- A notice leaves work on the document whose text it is about. -/
theorem receive_next (hslots : ∀ x, SlotInv x (s.documents.slot x)) {n : Notice} {t : Task}
    (h : (s.receive w n).next = some t) :
    t.about? = none ∨ ∃ document revision, t.about? = some (document, revision) ∧
      n.text? = some document := by
  cases n with
  | initialized | configured _ =>
    cases h
    exact .inl rfl
  | opened document text | changed document text =>
    cases h
    exact .inr ⟨document, _, rfl, rfl⟩
  | saved document =>
    simp only [receive, save] at h
    split at h
    · cases h
    · rename_i index hget
      have hdocument : index.document = document :=
        (hslots document).index_document index ((Documents.get_eq _ _).symm.trans hget)
      exact .inr ⟨document, _, by rw [diagnose_next h, hdocument], rfl⟩
  | closed document =>
    simp only [receive, close] at h
    split at h <;> cases h
  | filesChanged events => exact .inl (watch_next h)

theorem close_next (d : DocumentId) : (s.close d).next = none := by
  unfold close
  dsimp only
  split <;> rfl

/-- A save reports on the document that is saved. -/
theorem save_events (hslots : ∀ x, SlotInv x (s.documents.slot x)) {document x : DocumentId}
    {revision : Revision} {found : List Diagnostic}
    (h : .diagnostics x revision found ∈ (s.save document).events) : x = document := by
  unfold save at h
  split at h
  · cases h
  · rename_i index hget
    have hdocument : index.document = document :=
      (hslots document).index_document index ((Documents.get_eq _ _).symm.trans hget)
    unfold diagnose report at h
    split at h
    · cases h
    · split at h
      · cases h
      · split at h
        · cases h
        · cases List.mem_singleton.mp h
          exact hdocument

end Session

namespace Running

variable {w : World} {r r' : Running} {c : Cause} {d : DocumentId}

/-! ## Outrun tasks -/

/-- The document is at a later revision than every task that is of it. -/
def Outruns (d : DocumentId) (r : Running) : Prop :=
  ∀ t ∈ r.tasks, ∀ revision, t.about? = some (d, revision) →
    revision < r.session.documents.revision d

/-- The revision of a document never decreases. -/
theorem Step.grows (hstep : r.Step w c r') (h : r.Inv) (d : DocumentId) :
    r.session.documents.revision d ≤ r'.session.documents.revision d := by
  cases hstep with
  | notice n => exact (receive_goes h.inFlight n).grows d
  | task hperm =>
    refine (advance_goes (h.inFlight.perm hperm) ?_).grows d
    rintro index found rfl
    exact h.failed index found (hperm.mem_iff.mpr (.head _))
  | load hloads =>
    have heffect : (Call.built default default).Effect d _ _ := hloads d
    exact (heffect.le (h.inFlight.slots d)).1
  | built => exact Nat.le_refl _

/-- A task under way afterwards is of a document and a revision that one was of before, unless the
step handles a text of that document. -/
theorem Step.about (hstep : r.Step w c r') (h : r.Inv) {t : Task} (ht : t ∈ r'.tasks)
    {revision : Revision} (habout : t.about? = some (d, revision)) (hc : ¬ c.Handles d) :
    ∃ t' ∈ r.tasks, t'.about? = some (d, revision) := by
  cases hstep with
  | notice n =>
    rcases List.mem_append.mp ht with hnext | hother
    · rcases Session.receive_next h.inFlight.slots (Option.mem_toList.mp hnext) with
        hnone | ⟨document, _, hsome, htext⟩
      · rw [hnone] at habout
        cases habout
      · rw [hsome] at habout
        cases habout
        exact absurd htext hc
    · exact ⟨t, hother, habout⟩
  | @task u others hperm =>
    rcases List.mem_append.mp ht with hnext | hother
    · refine ⟨u, hperm.mem_iff.mpr (.head _), ?_⟩
      rcases Session.advance_next (Option.mem_toList.mp hnext) with hnone | hsame
      · rw [hnone] at habout
        cases habout
      · rw [← hsame, habout]
    · exact ⟨t, hperm.mem_iff.mpr (.tail _ hother), habout⟩
  | load => exact ⟨t, ht, habout⟩
  | @built p index others hperm hbuilds =>
    rcases List.mem_cons.mp ht with rfl | hother
    · refine ⟨.build p, hperm.mem_iff.mpr (.head _), ?_⟩
      rw [← habout]
      simp only [Task.about?, hbuilds.document, hbuilds.revision]
    · exact ⟨t, hperm.mem_iff.mpr (.tail _ hother), habout⟩

theorem Outruns.step (houtruns : r.Outruns d) (h : r.Inv) (hstep : r.Step w c r')
    (hc : ¬ c.Handles d) : r'.Outruns d := by
  intro t ht revision habout
  obtain ⟨t', ht', habout'⟩ := hstep.about h ht habout hc
  exact Nat.lt_of_lt_of_le (houtruns t' ht' revision habout') (hstep.grows h d)

/-- Only a task of the current revision shows an index. -/
theorem Outruns.shows (houtruns : r.Outruns d) {t : Task} (ht : t ∈ r.tasks) {index : Index}
    {found : List Diagnostic} (hshows : Shows w r (.task t) index found)
    (hdocument : index.document = d) : index.revision < r.session.documents.revision d := by
  refine houtruns t ht index.revision ?_
  cases hshows <;> rw [Task.about?, hdocument]

/-- A step of a session that outran its tasks of a document has nothing but empty lists for it. -/
theorem Outruns.reports (houtruns : r.Outruns d) (h : r.Inv) (hstep : r.Step w c r')
    (hc : ¬ c.Handles d) :
    ∃ events, r'.sent = r.sent ++ events ∧
      ∀ revision found, .diagnostics d revision found ∈ events → found = [] := by
  cases hstep with
  | notice n =>
    have hgoes := receive_goes (w := w) h.inFlight n
    refine ⟨_, rfl, fun revision found hmem => ?_⟩
    obtain ⟨htext, hclears⟩ := hgoes.shows d revision found hmem
    by_cases hof : (Cause.notice n).OfText
    · cases n with
      | saved document => exact absurd (Session.save_events h.inFlight.slots hmem ▸ rfl) hc
      | _ => exact hof.elim
    · exact hclears hof
  | @task t others hperm =>
    have hfailed : ∀ index found, t = .report index found → found = index.diagnostics ∧
        ∃ e, (index, .error e) ∈ r.answers := by
      rintro index found rfl
      exact h.failed index found (hperm.mem_iff.mpr (.head _))
    have hgoes := advance_goes (w := w) (h.inFlight.perm hperm) hfailed
    refine ⟨_, rfl, fun revision found hmem => ?_⟩
    obtain ⟨htext, hclears⟩ := hgoes.shows d revision found hmem
    by_cases hof : (Cause.task t).OfText
    · obtain ⟨index, _, hdocument, hrevision, hshows⟩ := htext hof
      have hlt := houtruns.shows (hperm.mem_iff.mpr (.head _)) hshows hdocument
      rw [hrevision, hgoes.current d revision found hmem] at hlt
      exact absurd (hgoes.grows d) (Nat.not_le_of_lt hlt)
    · exact hclears hof
  | load | built => exact ⟨[], (List.append_nil _).symm, nofun⟩

/-! ## Runs -/

/-- Some run leads from here to there in which the session handles no text of the document. -/
inductive Leaves (d : DocumentId) : Running → Running → Prop where
  | refl (r : Running) : Leaves d r r
  | step {r r' r'' : Running} {w : World} {c : Cause} :
      Leaves d r r' → r'.Step w c r'' → ¬ c.Handles d → Leaves d r r''

/-- By induction on the run: the document goes on outrunning its tasks. -/
theorem Leaves.reports (hr : r.Reachable) (houtruns : r.Outruns d) (hrun : Leaves d r r') :
    r'.Reachable ∧ r'.Outruns d ∧ ∃ events, r'.sent = r.sent ++ events ∧
      ∀ revision found, .diagnostics d revision found ∈ events → found = [] := by
  induction hrun with
  | refl => exact ⟨hr, houtruns, [], (List.append_nil _).symm, nofun⟩
  | step _ hstep hc ih =>
    obtain ⟨hreachable, houtruns, events, hsent, hempty⟩ := ih
    have hinv := inv_of_reachable hreachable
    obtain ⟨more, hmore, hempty'⟩ := houtruns.reports hinv hstep hc
    refine ⟨.step hreachable hstep, houtruns.step hinv hstep hc, events ++ more, ?_, ?_⟩
    · rw [hmore, hsent, List.append_assoc]
    · intro revision found hmem
      rcases List.mem_append.mp hmem with hmem | hmem
      · exact hempty revision found hmem
      · exact hempty' revision found hmem

end Running

/--
A document that is closed, and whose diagnostics are not kept then, has them cleared. If by then it
outran all tasks that are of it, no problem is reported on it until it is opened, changed or saved,
whatever else happens in the meantime.
-/
theorem closed_stays_clear {r closed r' : Running} (hr : r.Reachable) {w : World} {d : DocumentId}
    (hkeep : r.session.settings.staticCheck.keepAfterClosed = false) (houtruns : r.Outruns d)
    (hclose : r.Step w (.notice (.closed d)) closed) (hrun : Running.Leaves d closed r') :
    ∃ later, r'.sent =
        r.sent ++ .diagnostics d (r.session.documents.revision d) [] :: later ∧
      ∀ revision found, .diagnostics d revision found ∈ later → found = [] := by
  have hinv := Running.inv_of_reachable hr
  have hcleared : closed.sent =
      r.sent ++ [.diagnostics d (r.session.documents.revision d) []] := by
    cases hclose
    have hkeep' : (r.session.markClosed d).settings.staticCheck.keepAfterClosed = false := hkeep
    simp only [Running.after, Session.receive, Session.close, hkeep']
    rfl
  obtain ⟨-, -, later, hsent, hempty⟩ :=
    hrun.reports (.step hr hclose) (houtruns.step hinv hclose nofun)
  refine ⟨later, ?_, hempty⟩
  rw [hsent, hcleared, List.append_assoc, List.singleton_append]

/-- The first text of a document is still being indexed when the second one, which was reported on,
is closed. -/
theorem closed_stays_clear_of_outrun :
    ∃ (w : World) (r closed r' : Running) (first : PendingBuild) (d : DocumentId),
      r.Reachable ∧ r.tasks = [.build first] ∧ first.document = d ∧
        r.Step w (.notice (.closed d)) closed ∧ closed.Step w (.task (.build first)) r' ∧
        ∃ later, r'.sent = r.sent ++ .diagnostics d 2 [] :: later ∧
          ∀ revision found, .diagnostics d revision found ∈ later → found = [] := by
  let w : World := ⟨⟨[], []⟩, fun _ _ _ => .finished {}⟩
  let file : DocumentId := ⟨"file:///a.lua"⟩
  let fresh := Running.start
    { staticCheck := { enable := false, keepAfterClosed := false } } none w.files
  let opened := fresh.after (fresh.session.receive w (.opened file "goto x")) []
  let changed := opened.after (opened.session.receive w (.changed file "goto y")) opened.tasks
  let first := (fresh.session.documents.beginEdit file "goto x").1
  let second := (opened.session.documents.beginEdit file "goto y").1
  let index := (changed.session.documents.build (changed.session.source w.files) second).1
  let built : Running := { changed.after (changed.session.advance w (.build second)) [.build first]
    with answers := changed.answers ++ ((Task.build second).outcome? w).toList }
  let reported : Running := { built.after (built.session.advance w (.commit index)) [.build first]
    with answers := built.answers ++ ((Task.commit index).outcome? w).toList }
  let closed := reported.after (reported.session.receive w (.closed file)) reported.tasks
  let late : Running := { closed.after (closed.session.advance w (.build first)) []
    with answers := closed.answers ++ ((Task.build first).outcome? w).toList }
  have hopened : opened.Reachable := .step (.start _ _ _) (.notice (w := w) fresh _)
  have hchanged : changed.Reachable := .step hopened (.notice (w := w) opened _)
  have hbuilt : built.Reachable := .step hchanged (.task changed (.refl _))
  have hreported : reported.Reachable := .step hbuilt (.task built (.refl _))
  have hclose : reported.Step w (.notice (.closed file)) closed := .notice reported _
  have hnext : (built.session.commit index).next = none := by
    rw [Session.commit_next_eq (by decide +kernel)]
    exact if_neg (by decide +kernel)
  have htasks : reported.tasks = [.build first] :=
    congrArg (fun next : Option Task => next.toList ++ [.build first]) hnext
  have htasks' : closed.tasks = [.build first] := by
    rw [← htasks]
    exact congrArg (fun next : Option Task => next.toList ++ reported.tasks)
      (Session.close_next file)
  have hlate : closed.Step w (.task (.build first)) late := .task closed (.of_eq htasks')
  have hrevision : reported.session.documents.revision file = 2 := by decide +kernel
  have houtruns : reported.Outruns file := by
    intro t ht revision habout
    rw [htasks] at ht
    cases List.mem_singleton.mp ht
    cases habout
    rw [hrevision]
    decide
  have hclear := closed_stays_clear hreported (by decide +kernel) houtruns hclose
    (.step (.refl closed) hlate id)
  rw [hrevision] at hclear
  exact ⟨w, reported, closed, late, first, file, hreported, htasks, rfl, hclose, hlate, hclear⟩

/-- The checker comes to its end after the document was closed, and what it found is reported. The
problems of the text itself are reported again when the closed document is saved. -/
theorem closed_document_reported :
    ∃ (w : World) (r closed late saved : Running) (d : DocumentId) (index : Index)
      (settings : CheckerSettings) (own found : Diagnostic),
      r.Reachable ∧ r.session.settings.staticCheck.keepAfterClosed = false ∧
        r.tasks = [.check index settings] ∧
        r.Step w (.notice (.closed d)) closed ∧ closed.sent = [.diagnostics d 1 []] ∧
        closed.Step w (.task (.check index settings)) late ∧
        late.sent = [.diagnostics d 1 [], .diagnostics d 1 [own, found]] ∧
        late.Step w (.notice (.saved d)) saved ∧
        saved.sent = late.sent ++ [.diagnostics d 1 [own]] := by
  let w : World := ⟨⟨[], []⟩, fun _ _ _ =>
    .finished { status := some 1, stdout := "a.lua:1:6-6: (W111) setting undefined label" }⟩
  let own : Diagnostic :=
    { range := ⟨⟨0, 0⟩, ⟨0, 6⟩⟩, severity := .warning, source := "luasense",
      message := "goto and labels not supported in Lua 5.1" }
  let found : Diagnostic :=
    { range := ⟨⟨0, 5⟩, ⟨0, 6⟩⟩, severity := .warning, code := some "W111", source := "luacheck",
      message := "setting undefined label" }
  let file : DocumentId := ⟨"file:///a.lua"⟩
  let fresh := Running.start
    { staticCheck := { onSave := false, keepAfterClosed := false } } none w.files
  let opened := fresh.after (fresh.session.receive w (.opened file "goto x")) []
  let first := (fresh.session.documents.beginEdit file "goto x").1
  let index := (opened.session.documents.build (opened.session.source w.files) first).1
  let built : Running := { opened.after (opened.session.advance w (.build first)) []
    with answers := opened.answers ++ ((Task.build first).outcome? w).toList }
  let checking : Running := { built.after (built.session.advance w (.commit index)) []
    with answers := built.answers ++ ((Task.commit index).outcome? w).toList }
  let settings := fresh.session.settings.staticCheck
  let closed := checking.after (checking.session.receive w (.closed file)) checking.tasks
  let late : Running := { closed.after (closed.session.advance w (.check index settings)) []
    with answers := closed.answers ++ ((Task.check index settings).outcome? w).toList }
  let saved := late.after (late.session.receive w (.saved file)) late.tasks
  have hopened : opened.Reachable := .step (.start _ _ _) (.notice (w := w) fresh _)
  have hbuilt : built.Reachable := .step hopened (.task (w := w) opened (.refl _))
  have hchecking : checking.Reachable := .step hbuilt (.task (w := w) built (.refl _))
  have hnext : (built.session.commit index).next = some (.check index settings) := by
    have hsettings : built.session.settings.staticCheck = settings := by decide +kernel
    rw [Session.commit_next_eq (by decide +kernel), hsettings]
    exact if_pos (by decide +kernel)
  have htasks : checking.tasks = [.check index settings] :=
    congrArg (fun next : Option Task => next.toList ++ []) hnext
  have htasks' : closed.tasks = [.check index settings] := by
    rw [← htasks]
    exact congrArg (fun next : Option Task => next.toList ++ checking.tasks)
      (Session.close_next file)
  have hlate : closed.Step w (.task (.check index settings)) late := .task closed (.of_eq htasks')
  exact ⟨w, checking, closed, late, saved, file, index, settings, own, found, hchecking,
    by decide +kernel, htasks, .notice checking _, by decide +kernel, hlate, by decide +kernel,
    .notice late _, by decide +kernel⟩

end LuaScope

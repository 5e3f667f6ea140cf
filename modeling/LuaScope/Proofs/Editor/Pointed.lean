import LuaScope.Proofs.Editor.Definition
import LuaScope.Proofs.Editor.Rename
import LuaScope.Proofs.Text.Cursor
import LuaScope.Proofs.Workspace.Identity

/-!
# LuaScope.Proofs.Editor.Pointed

A position points at one symbol, whatever is asked about it there.

* `Logged.Reachable.source`     — published indices have the line table of their text.
* `Documents.definitions_eq`    — hence a definition is looked for where the expression starts.
* `Documents.answers_at_position` — definitions, hovers and renames are about the symbol pointed at.
-/

namespace LuaScope

/-! ## Sources -/

theorem PendingBuild.Builds.source_text {p : PendingBuild} {index : Index} (h : p.Builds index) :
    index.source = .ofString index.source.text := by
  rw [h.source]
  rfl

/-- By induction on the run: whatever puts an index into a slot has built it from a text. -/
theorem Logged.Reachable.source {s : Logged} (hs : s.Reachable) {x : DocumentId} {i : Index}
    (hi : s.documents.get x = some i) : i.source = .ofString i.source.text := by
  obtain ⟨options, hsteps⟩ := hs
  induction hsteps with
  | refl => cases hi
  | @tail t u hsteps hstep ih =>
    rw [Documents.get_eq] at ih hi
    cases hstep with
    | beginEdit document text =>
      rw [Documents.slot_beginEdit] at hi
      split at hi <;> exact ih hi
    | beginLoad document text => exact ih hi
    | build m hp =>
      rename_i p
      rcases (Documents.build_fills t.documents m p).slot? x with
        hkept | ⟨-, -, -, text, index, -, hbuilds, hfilled⟩
      · rw [Documents.slot, hkept] at hi
        exact ih hi
      · rw [Documents.slot, hfilled] at hi
        cases hi
        exact hbuilds.source_text
    | commit hp hbuilds =>
      rw [Documents.slot_commit] at hi
      split at hi
      · cases hi
        exact hbuilds.source_text
      · exact ih hi
    | publishLoaded hp hbuilds =>
      rw [Documents.slot_publishLoaded] at hi
      split at hi
      · cases hi
        exact hbuilds.source_text
      · exact ih hi
    | remove document =>
      rw [Documents.slot_remove] at hi
      split at hi
      · cases hi
      · exact ih hi
    | reconfigure options => exact ih hi

/-- The position of an expression leads back to where the expression starts. -/
theorem Index.offset_range_start {i : Index} (hsource : i.source = .ofString i.source.text)
    {offset : Nat} {e : Excerpt} (h : expressionAt i.source.chars offset = some e) :
    i.offset (i.source.range e.span).start = e.span.start := by
  have hle := (expressionAt_spec h).1.start_le
  rw [hsource] at hle
  rw [Index.offset, hsource]
  exact LineTable.offset_position _ hle

namespace Documents

variable {d : Documents} {document : DocumentId} {position : Position}

/-- The symbol that the expression at a position leads to. -/
def pointedAt (d : Documents) (document : DocumentId) (position : Position) :
    Option (Handle × Symbol) :=
  (d.get document).bind fun index =>
    (index.symbolUnder position).bind fun handle => handle.symbol?.map (handle, ·)

theorem pointedAt_eq_some_iff {handle : Handle} {x : Symbol} :
    d.pointedAt document position = some (handle, x) ↔
      ∃ index, d.get document = some index ∧ index.symbolUnder position = some handle ∧
        handle.symbol? = some x := by
  simp only [pointedAt, Option.bind_eq_some_iff, Option.map_eq_some_iff, Prod.mk.injEq]
  constructor
  · rintro ⟨index, hindex, h, hunder, y, hy, rfl, rfl⟩
    exact ⟨index, hindex, hunder, hy⟩
  · rintro ⟨index, hindex, hunder, hx⟩
    exact ⟨index, hindex, handle, hunder, x, hx, rfl, rfl⟩

/-- A hover describes the symbol pointed at. -/
theorem hover_eq (d : Documents) (document : DocumentId) (position : Position) :
    (d.hover document position).map Hover.contents =
      (d.pointedAt document position).map fun p => hoverText document p.1 p.2 := by
  unfold hover pointedAt Index.symbolUnder
  cases d.get document with
  | none => rfl
  | some index =>
    cases hexcerpt : expressionAt index.source.chars (index.offset position) with
    | none => simp only [hexcerpt, Option.bind_some, Option.bind_none, Option.map_none]
    | some excerpt =>
      simp only [hexcerpt, Option.bind_some]
      cases (index.resolve (String.ofList excerpt.text) excerpt.span.start).first? with
      | none => rfl
      | some handle => cases hx : handle.symbol? <;> simp [hx]

/-- A definition is where the symbol pointed at has its name: the text is read at the position, and
looked up at the place that this gives. -/
theorem definitions_eq
    (hsource : ∀ index, d.get document = some index → index.source = .ofString index.source.text)
    (position : Position) :
    d.definitions document position =
      ((d.pointedAt document position).map fun p => ⟨p.1.document, p.2.range⟩).toList := by
  unfold definitions pointedAt resolve Index.symbolUnder
  cases hindex : d.get document with
  | none => rfl
  | some index =>
    cases hexcerpt : expressionAt index.source.chars (index.offset position) with
    | none =>
      simp only [hexcerpt, Option.bind_some, Option.bind_none, Option.map_none, Option.toList_none]
    | some excerpt =>
      simp only [hexcerpt, Option.bind_some,
        Index.offset_range_start (hsource index hindex) hexcerpt]
      cases (index.resolve (String.ofList excerpt.text) excerpt.span.start).first? with
      | none => rfl
      | some handle => cases hx : handle.symbol? <;> simp [hx]

/-- A rename is of the symbol pointed at, which is one of this document. -/
theorem pointedAt_of_rename {name : String} {edit : DocumentEdit}
    (h : d.rename document position name = .ok (some edit)) :
    ∃ handle x, d.pointedAt document position = some (handle, x) ∧ handle.document = document ∧
      edit.document = document ∧ x.range ∈ edit.edits.map TextEdit.range := by
  obtain ⟨-, index, handle, x, hindex, -, hunder, hdocument, -, hx, -, rfl⟩ :=
    rename_eq_some_iff.mp h
  exact ⟨handle, x, pointedAt_eq_some_iff.mpr ⟨index, hindex, hunder, hx⟩, hdocument, rfl,
    Index.mem_renameEdits_iff.mpr (.inl rfl)⟩

/--
At every position of every document, in any state of the manager, one symbol is pointed at or none.
A definition is given exactly when a hover is: the one is the range of that symbol's name, in the
document the symbol lives in, and the other describes it. A rename that gives edits has that place
among them, in the document at hand. And if all indices that the document's own one leads into were
built from texts, what the expression leads to is a symbol, which has its name at that range; an
implied `self` has none, and stands at the parameters.
-/
theorem answers_at_position {s : Logged} (hs : s.Reachable) (document : DocumentId)
    (position : Position) :
    ((s.documents.definitions document position = [] ∧ s.documents.hover document position = none) ∨
      ∃ handle x hover, s.documents.pointedAt document position = some (handle, x) ∧
        s.documents.definitions document position = [⟨handle.document, x.range⟩] ∧
        s.documents.hover document position = some hover ∧
        hover.contents = hoverText document handle x) ∧
    (∀ name edit, s.documents.rename document position name = .ok (some edit) →
      ∃ location, s.documents.definitions document position = [location] ∧
        location.document = document ∧ edit.document = document ∧
        location.range ∈ edit.edits.map TextEdit.range) ∧
    ∀ index, s.documents.get document = some index → index.Traced (fun _ => True) →
      ∀ handle, index.symbolUnder position = some handle →
        ∃ x, s.documents.pointedAt document position = some (handle, x) ∧
          ((x.name = "self" ∧ x.span.isEmpty = true) ∨ handle.index.textAt x.range = x.name) := by
  have hdefinitions := definitions_eq (fun index hget => hs.source (x := document) hget) position
  have hhover := hover_eq s.documents document position
  refine ⟨?_, fun name edit hrename => ?_, fun index hget htraced handle hunder => ?_⟩
  · cases hpointed : s.documents.pointedAt document position with
    | none =>
      rw [hpointed] at hdefinitions hhover
      exact .inl ⟨hdefinitions, Option.map_eq_none_iff.mp hhover⟩
    | some p =>
      rw [hpointed] at hdefinitions hhover
      obtain ⟨hover, hsome, hcontents⟩ := Option.map_eq_some_iff.mp hhover
      exact .inr ⟨p.1, p.2, hover, rfl, hdefinitions, hsome, hcontents⟩
  · obtain ⟨handle, x, hpointed, hdocument, hedit, hrange⟩ := pointedAt_of_rename hrename
    rw [hpointed] at hdefinitions
    exact ⟨_, hdefinitions, hdocument, hedit, hrange⟩
  · obtain ⟨excerpt, -, hresolve⟩ := Option.bind_eq_some_iff.mp hunder
    obtain ⟨hhandle, x, hx, -⟩ := htraced.of_resolve hresolve
    exact ⟨x, pointedAt_eq_some_iff.mpr ⟨index, hget, hunder, hx⟩, hhandle.faithful.textAt hx⟩

/-- A use of the inner one of two locals. -/
theorem answers_at_position_in_block :
    let file : DocumentId := ⟨"file:///a.lua"⟩
    let text := "local x = 1 do local x = 2 print(x) end"
    let began := ({} : Documents).beginEdit file text
    let index := (buildWith began.1 Loader.none ()).1
    let s : Logged := ⟨(began.2.commit index).2, [.committed index (began.2.commit index).1,
      .beganEdit began.1]⟩
    s.Reachable ∧ s.documents.definitions file ⟨0, 33⟩ = [⟨file, ⟨⟨0, 21⟩, ⟨0, 22⟩⟩⟩] ∧
      (∃ hover, s.documents.hover file ⟨0, 33⟩ = some hover) ∧
      (∃ edit, s.documents.rename file ⟨0, 33⟩ "y" = .ok (some edit) ∧
        ⟨⟨0, 21⟩, ⟨0, 22⟩⟩ ∈ edit.edits.map TextEdit.range) ∧
      ∃ handle x, s.documents.pointedAt file ⟨0, 33⟩ = some (handle, x) ∧
        handle.index.textAt x.range = x.name := by
  intro file text began index s
  have hs : s.Reachable := ⟨{}, .tail (.tail .refl (.beginEdit _ file text))
    (.commit _ (.head _) ⟨Unit, Loader.none, (), rfl⟩)⟩
  have hdefinitions : s.documents.definitions file ⟨0, 33⟩ = [⟨file, ⟨⟨0, 21⟩, ⟨0, 22⟩⟩⟩] := by
    decide +kernel
  have hget : s.documents.get file = some index := by
    rw [get_eq, slot_commit, if_pos (by decide +kernel)]
  have hanswers : ∀ o, some o ∈ (Loader.none.askAll (Index.asked began.1.text) ()).1 →
      o.Traced fun _ => True := by
    rw [show Index.asked began.1.text = [] by decide +kernel]
    nofun
  have htraced : index.Traced fun _ => True :=
    Index.Faithful.traced (Index.build_traced hanswers began.1.document began.1.revision
      began.1.options) trivial
  have hexcerpt : expressionAt index.source.chars (index.offset ⟨0, 33⟩) =
      some ⟨['x'], ⟨33, 34⟩⟩ := by decide +kernel
  have hlookup : index.table.lookup (index.scopeAt 33) "x" 33 = some 1 := by decide +kernel
  have hunder : index.symbolUnder ⟨0, 33⟩ = some ⟨index, 1⟩ :=
    Index.symbolUnder_name hexcerpt (by decide +kernel) hlookup
  have hsymbol : ∃ x ∈ index.symbol? 1, x.span.isEmpty = false := by decide +kernel
  obtain ⟨x, hx, hspan⟩ := hsymbol
  have hvalid : isValidIdentifier "y" = true := by decide
  have hrename := rename_own hvalid hget (by decide +kernel) (by decide +kernel) hunder hx hspan
  have hname : ∀ y ∈ index.symbol? 1, y.name ≠ "self" := by decide +kernel
  obtain ⟨hagree, hrenamed, hnames⟩ := answers_at_position hs file ⟨0, 33⟩
  refine ⟨hs, hdefinitions, ?_, ⟨_, hrename, ?_⟩, ?_⟩
  · rcases hagree with ⟨hnone, -⟩ | ⟨_, _, hover, -, -, hhover, -⟩
    · rw [hdefinitions] at hnone
      cases hnone
    · exact ⟨hover, hhover⟩
  · obtain ⟨location, hlocation, -, -, hrange⟩ := hrenamed "y" _ hrename
    rw [hdefinitions] at hlocation
    cases hlocation
    exact hrange
  · obtain ⟨y, hpointed, hself | htext⟩ := hnames index hget htraced _ hunder
    · obtain ⟨-, -, -, hy⟩ := pointedAt_eq_some_iff.mp hpointed
      exact absurd hself.1 (hname y hy)
    · exact ⟨_, y, hpointed, htext⟩

end Documents

end LuaScope

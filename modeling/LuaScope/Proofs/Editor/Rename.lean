import LuaScope.Editor.Rename
import LuaScope.Proofs.Binding.Build
import LuaScope.Proofs.Editor.Occurrence

/-!
# LuaScope.Proofs.Editor.Rename

Which occurrences of names a rename rewrites.

* `Index.rewrites_iff`      — those that stand for the renamed symbol, and no others.
* `Documents.rename_rewrites_iff` — so the occurrence under the cursor is rewritten exactly when
  what the query finds from there is what the occurrence stood for when the index was built.
-/

namespace LuaScope

variable {σ : Type}

/-! ## Edits -/

theorem mem_dropEqualEdits {e : TextEdit} :
    ∀ {edits : List TextEdit}, e ∈ dropEqualEdits edits ↔ e ∈ edits
  | [] => Iff.rfl
  | a :: rest => by
    have hrest : e ∈ dropEqualEdits rest ↔ e ∈ rest := mem_dropEqualEdits
    unfold dropEqualEdits
    cases hkept : dropEqualEdits rest with
    | nil =>
      rw [hkept] at hrest
      simp only [List.mem_cons, ← hrest]
    | cons b others =>
      rw [hkept] at hrest
      dsimp only
      split
      · rename_i hsame
        subst hsame
        rw [List.mem_cons (l := rest), ← hrest]
        simp
      · rw [List.mem_cons, List.mem_cons (l := rest), hrest]

namespace Index

/-- An edit changes a range: the renamed symbol stands there, or a reference that leads to it. -/
theorem mem_renameEdits_iff {i : Index} {x : Symbol} {name : String} {range : Range} :
    range ∈ (i.renameEdits x name).map TextEdit.range ↔
      range = x.range ∨ ∃ r ∈ i.references.toList, r.targetsLocal x.id = true ∧ r.range = range := by
  simp only [renameEdits, List.mem_map, mem_dropEqualEdits, List.mem_mergeSort, List.mem_cons,
    referencesTo, List.mem_filter]
  constructor
  · rintro ⟨_, ⟨range, rfl | ⟨r, hr, rfl⟩, rfl⟩, rfl⟩
    · exact .inl rfl
    · exact .inr ⟨r, hr.1, hr.2, rfl⟩
  · rintro (rfl | ⟨r, hr, htarget, rfl⟩)
    · exact ⟨_, ⟨_, .inl rfl, rfl⟩, rfl⟩
    · exact ⟨_, ⟨_, .inr ⟨r, ⟨hr, htarget⟩, rfl⟩, rfl⟩, rfl⟩

variable {document : DocumentId} {revision : Revision} {text : String} {options : ParserOptions}
  {loader : Loader σ} {world : σ} {chunk : Chunk}

/-- A rename of a symbol rewrites the occurrences that stand for it, and no others. -/
theorem rewrites_iff (htext : Chunk.ofChars? text.toList = some chunk) {id : SymbolId} {x : Symbol}
    (hx : (Index.build document revision text options loader world).1.symbol? id = some x)
    (name : String) {o : Occurrence}
    (ho : o ∈ (Index.build document revision text options loader world).1.occurrences) :
    o.range ∈ ((Index.build document revision text options loader world).1.renameEdits x name).map
      TextEdit.range ↔ o.symbol = some id := by
  have hid := symbol_id htext hx
  have hsame : ∀ o' ∈ (Index.build document revision text options loader world).1.occurrences,
      o.range = o'.range → o = o' := fun o' ho' heq =>
    occurrence_eq_of_start_eq htext ho ho' (congrArg Range.start heq)
  have hown : x.occurrence ∈
      (Index.build document revision text options loader world).1.occurrences := by
    refine List.mem_append_left _ (List.mem_map_of_mem ?_)
    exact Array.mem_toList_iff.mpr (Array.mem_of_getElem? hx)
  rw [mem_renameEdits_iff, hid]
  constructor
  · rintro (heq | ⟨r, hr, htarget, heq⟩)
    · rw [hsame _ hown heq]
      exact congrArg some hid
    · rw [hsame r.occurrence (List.mem_append_right _ (List.mem_map_of_mem hr)) heq.symm]
      exact ReferenceOver.targetsLocal_iff.mp htarget
  · intro hsymbol
    rcases List.mem_append.mp ho with ho | ho
    · obtain ⟨y, hy, rfl⟩ := List.mem_map.mp ho
      obtain ⟨id', hy⟩ := Array.mem_iff_getElem?.mp (Array.mem_toList_iff.mp hy)
      have hsame : y.id = id := Option.some.inj hsymbol
      rw [← symbol_id htext hy, hsame] at hy
      cases hx.symm.trans hy
      exact .inl rfl
    · obtain ⟨r, hr, rfl⟩ := List.mem_map.mp ho
      exact .inr ⟨r, hr, ReferenceOver.targetsLocal_iff.mpr hsymbol, rfl⟩

/-- What a query finds from a position. -/
def symbolUnder (i : Index) (position : Position) : Option Handle :=
  (expressionAt i.source.chars (i.offset position)).bind fun excerpt =>
    (i.resolve (String.ofList excerpt.text) excerpt.span.start).first?

/-- A name alone is looked up in this index. -/
theorem symbolUnder_name {i : Index} {position : Position} {excerpt : Excerpt} {name : String}
    {id : SymbolId} (hexcerpt : expressionAt i.source.chars (i.offset position) = some excerpt)
    (hpath : splitPath (String.ofList excerpt.text) = [name])
    (hlookup : i.table.lookup (i.scopeAt excerpt.span.start) name excerpt.span.start = some id) :
    i.symbolUnder position = some ⟨i, id⟩ := by
  rw [symbolUnder, hexcerpt, Option.bind_some, resolve, hpath]
  simp only [hlookup]
  rfl

end Index

namespace Documents

/-- Edits are given for a name that can be written, where a query finds a symbol of this document
that has a name of its own. -/
theorem rename_eq_some_iff {d : Documents} {document : DocumentId} {position : Position}
    {name : String} {edit : DocumentEdit} :
    d.rename document position name = .ok (some edit) ↔
      isValidIdentifier name = true ∧ ∃ index handle x, d.get document = some index ∧
        index.malformed = false ∧ index.symbolUnder position = some handle ∧
        handle.document = document ∧ handle.index.revision = index.revision ∧
        handle.symbol? = some x ∧ x.span.isEmpty = false ∧
        edit = ⟨document, index.renameEdits x name⟩ := by
  constructor
  · intro h
    unfold rename at h
    split at h
    · cases h
    rename_i hname
    split at h
    · cases h
    rename_i index hindex
    obtain ⟨hget, hparsed⟩ := Option.filter_eq_some_iff.mp hindex
    split at h
    · cases h
    rename_i excerpt hexcerpt
    split at h
    · cases h
    · cases h
    rename_i handle hfound
    split at h
    · cases h
    rename_i hown
    split at h
    · cases h
    rename_i x hx
    split at h
    · cases h
    rename_i hspan
    cases h
    have hunder : index.symbolUnder position = some handle := by
      rw [Index.symbolUnder, hexcerpt, Option.bind_some, hfound]
      rfl
    rw [not_or, not_not, not_not] at hown
    exact ⟨by simpa using hname, index, handle, x, hget, by simpa using hparsed, hunder, hown.1,
      hown.2, hx, by simpa using hspan, rfl⟩
  · rintro ⟨hname, index, handle, x, hget, hparsed, hunder, hdocument, hrevision, hx, hspan, rfl⟩
    obtain ⟨excerpt, hexcerpt, hfirst⟩ := Option.bind_eq_some_iff.mp hunder
    have hfound : index.resolve (String.ofList excerpt.text) excerpt.span.start =
        .found (some handle) := by
      cases hanswer : index.resolve (String.ofList excerpt.text) excerpt.span.start with
      | found symbol? =>
        rw [hanswer] at hfirst
        exact congrArg _ hfirst
      | notNavigable =>
        rw [hanswer] at hfirst
        cases hfirst
    simp only [rename, hname, hget, Option.filter_some, hparsed, hexcerpt, hfound, hdocument,
      hrevision, hx, hspan, Bool.not_true, Bool.not_false, Bool.false_eq_true, if_false, if_true,
      ne_eq, not_true_eq_false, or_self]

/-- What is found in the document's own index is renamed. -/
theorem rename_own {d : Documents} {document : DocumentId} {position : Position} {name : String}
    {index : Index} {id : SymbolId} {x : Symbol} (hname : isValidIdentifier name = true)
    (hget : d.get document = some index) (hdocument : index.document = document)
    (hparsed : index.malformed = false) (hunder : index.symbolUnder position = some ⟨index, id⟩)
    (hx : index.symbol? id = some x) (hspan : x.span.isEmpty = false) :
    d.rename document position name = .ok (some ⟨document, index.renameEdits x name⟩) :=
  rename_eq_some_iff.mpr
    ⟨hname, index, ⟨index, id⟩, x, hget, hparsed, hunder, hdocument, rfl, hx, hspan, rfl⟩

/--
A rename follows what a query finds from the position, and rewrites the occurrences that stood for
that symbol when the index was built. So the occurrence at the position, like any other, is
rewritten exactly if the two agree on it.
-/
theorem rename_rewrites_iff {d : Documents} {document : DocumentId} {revision : Revision}
    {text : String} {options : ParserOptions} {loader : Loader σ} {world : σ} {chunk : Chunk}
    {position : Position} {name : String} {edit : DocumentEdit}
    (hget : d.get document = some (Index.build document revision text options loader world).1)
    (htext : Chunk.ofChars? text.toList = some chunk)
    (hrename : d.rename document position name = .ok (some edit)) :
    ∃ handle, (Index.build document revision text options loader world).1.symbolUnder position =
        some handle ∧
      (handle.index = (Index.build document revision text options loader world).1 →
        ∀ o ∈ (Index.build document revision text options loader world).1.occurrences,
          (o.range ∈ edit.edits.map TextEdit.range ↔ o.symbol = some handle.id)) := by
  obtain ⟨-, index, handle, x, hindex, -, hunder, -, -, hx, -, rfl⟩ :=
    rename_eq_some_iff.mp hrename
  cases hget.symm.trans hindex
  refine ⟨handle, hunder, fun hown o ho => ?_⟩
  rw [Handle.symbol?, hown] at hx
  exact Index.rewrites_iff htext hx name ho

/-- A use of the inner local is rewritten, as what else leads to it is. -/
theorem rename_rewrites_use_of_local :
    let file : DocumentId := ⟨"file:///a.lua"⟩
    let index := (Index.build file 1 "local x = 1 do local x = 2 print(x) end" {} Loader.none ()).1
    let d : Documents := { slots := [(file, ⟨1, 1, some index⟩)] }
    ∃ edit, d.rename file ⟨0, 33⟩ "y" = .ok (some edit) ∧
      (∀ o ∈ index.occurrences,
        (o.range ∈ edit.edits.map TextEdit.range ↔ o.symbol = some 1)) ∧
      ∃ o ∈ index.occurrences, o.span.contains (index.offset ⟨0, 33⟩) = true ∧
        o.symbol = some 1 := by
  intro file index d
  have hparsed :
      (Chunk.ofChars? "local x = 1 do local x = 2 print(x) end".toList).isSome = true := by
    decide +kernel
  obtain ⟨chunk, htext⟩ := Option.isSome_iff_exists.mp hparsed
  have hget : d.get file = some index := by simp [get, slot?, d]
  have hexcerpt : expressionAt index.source.chars (index.offset ⟨0, 33⟩) =
      some ⟨['x'], ⟨33, 34⟩⟩ := by decide +kernel
  have hlookup : index.table.lookup (index.scopeAt 33) "x" 33 = some 1 := by decide +kernel
  have hunder : index.symbolUnder ⟨0, 33⟩ = some ⟨index, 1⟩ :=
    Index.symbolUnder_name hexcerpt (by decide +kernel) hlookup
  have hsymbol : ∃ x ∈ index.symbol? 1, x.span.isEmpty = false := by decide +kernel
  obtain ⟨x, hx, hspan⟩ := hsymbol
  have hrename : d.rename file ⟨0, 33⟩ "y" = .ok (some ⟨file, index.renameEdits x "y"⟩) :=
    rename_own (by decide) hget (Index.build_document _ _ _ _ _ _) (by decide +kernel) hunder hx
      hspan
  have hrewrites : ∃ handle, index.symbolUnder ⟨0, 33⟩ = some handle ∧ (handle.index = index →
      ∀ o ∈ index.occurrences, (o.range ∈ (index.renameEdits x "y").map TextEdit.range ↔
        o.symbol = some handle.id)) := rename_rewrites_iff hget htext hrename
  have hown : ∃ o ∈ index.occurrences, o.span.contains (index.offset ⟨0, 33⟩) = true ∧
      o.symbol = some 1 := by decide +kernel
  clear_value index
  obtain ⟨handle, hfound, hrewrites⟩ := hrewrites
  obtain rfl := Option.some.inj (hunder.symm.trans hfound)
  exact ⟨_, hrename, hrewrites rfl, hown⟩

/-- From the initial value of a local a query finds that local; the reference there leads to the one
in front of it, so the rename leaves it alone. -/
theorem rename_misses_initial_value :
    let file : DocumentId := ⟨"file:///a.lua"⟩
    let index := Index.buildAlone file 1 "local x = 1 local x = x" {}
    let d : Documents := { slots := [(file, ⟨1, 1, some index⟩)] }
    ∃ edit, d.rename file ⟨0, 22⟩ "y" = .ok (some edit) ∧
      ∃ r ∈ index.references.toList, r.span.contains (index.offset ⟨0, 22⟩) = true ∧
        r.range ∉ edit.edits.map TextEdit.range := by
  intro file index d
  have hrename : d.rename file ⟨0, 22⟩ "y" =
      .ok (some ⟨file, [⟨⟨⟨0, 18⟩, ⟨0, 19⟩⟩, "y"⟩]⟩) := by decide +kernel
  have hreference : ∃ r ∈ index.references.toList,
      r.span.contains (index.offset ⟨0, 22⟩) = true ∧ r.range = ⟨⟨0, 22⟩, ⟨0, 23⟩⟩ := by
    decide +kernel
  obtain ⟨r, hr, hunder, hrange⟩ := hreference
  refine ⟨_, hrename, r, hr, hunder, ?_⟩
  rw [hrange]
  decide

end Documents

end LuaScope

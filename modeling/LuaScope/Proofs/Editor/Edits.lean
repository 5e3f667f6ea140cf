import LuaScope.Proofs.Editor.Edited
import LuaScope.Proofs.Linking.Build

/-!
# LuaScope.Proofs.Editor.Edits

The edits of a rename: one for the name of the symbol and one for each reference that leads to it,
in the order of the text and apart from each other, each in place of the old name
(`Documents.rename_edits`).
-/

namespace LuaScope

variable {σ : Type}

theorem Position.le_total (p q : Position) : p ≤ q ∨ q ≤ p := by
  simp only [Position.le_iff]
  omega

/-- Edits that differ from one another are all kept. -/
theorem dropEqualEdits_eq {edits : List TextEdit} (h : edits.Nodup) :
    dropEqualEdits edits = edits := by
  induction edits with
  | nil => rfl
  | cons a rest ih =>
    obtain ⟨ha, hrest⟩ := List.nodup_cons.mp h
    unfold dropEqualEdits
    rw [ih hrest]
    cases rest with
    | nil => rfl
    | cons b others =>
      dsimp only
      have hne : a ≠ b := by
        rintro rfl
        exact ha List.mem_cons_self
      rw [if_neg hne]

/-- Ranges of which no two start at one position are edited in their order. -/
theorem Index.renameEdits_sorted {i : Index} {x : Symbol} (name : String) {ranges : List Range}
    (hranges : x.range :: (i.referencesTo x.id).map ReferenceOver.range = ranges)
    (hstarts : (ranges.map Range.start).Nodup) :
    ((i.renameEdits x name).map TextEdit.range).Perm ranges ∧
      (i.renameEdits x name).Pairwise (fun a b => a.range.start ≤ b.range.start ∧
        a.range.start ≠ b.range.start) ∧
      ∀ e ∈ i.renameEdits x name, e.newText = name := by
  subst hranges
  let ranges := x.range :: (i.referencesTo x.id).map ReferenceOver.range
  let edits := ranges.map fun r => TextEdit.mk r name
  let sorted := edits.mergeSort fun a b => a.range.start ≤ b.range.start
  have hperm : sorted.Perm edits := List.mergeSort_perm _ _
  have hranges : edits.map TextEdit.range = ranges := by
    simp only [edits, List.map_map]
    exact List.map_id _
  have hnodup : (sorted.map fun e => e.range.start).Nodup := by
    have hmap : sorted.map (fun e => e.range.start) =
        (sorted.map TextEdit.range).map Range.start := by
      rw [List.map_map]
      rfl
    rw [hmap]
    refine ((hperm.map _).map _).nodup_iff.mpr ?_
    rw [hranges]
    exact hstarts
  have hedits : i.renameEdits x name = sorted := dropEqualEdits_eq (List.Nodup.of_map _ hnodup)
  have hsorted : sorted.Pairwise fun a b => a.range.start ≤ b.range.start := by
    let inOrder (a b : TextEdit) : Bool := a.range.start ≤ b.range.start
    have htrans : ∀ a b c, inOrder a b = true → inOrder b c = true → inOrder a c = true := by
      intro a b c hab hbc
      exact decide_eq_true (Position.le_trans (of_decide_eq_true hab) (of_decide_eq_true hbc))
    have htotal : ∀ a b, (inOrder a b || inOrder b a) = true := fun a b => by
      simpa [inOrder] using Position.le_total a.range.start b.range.start
    exact (List.pairwise_mergeSort htrans htotal edits).imp of_decide_eq_true
  have hrange := hperm.map TextEdit.range
  rw [hranges] at hrange
  rw [hedits]
  refine ⟨hrange, hsorted.and (List.pairwise_map.mp hnodup), fun e he => ?_⟩
  obtain ⟨_, -, rfl⟩ := List.mem_map.mp (hperm.mem_iff.mp he)
  rfl

/-- An edit replaces what its range covers. -/
theorem TextEdit.replacement_span {text : String} {e : TextEdit} {span : Span}
    (hrange : e.range = (Source.ofString text).range span) (hle : span.start ≤ span.stop)
    (hstop : span.stop ≤ byteLength text.toList) :
    (e.replacement (Source.ofString text)).1 = span := by
  have hstart := LineTable.offset_position text.toList (Nat.le_trans hle hstop)
  have hstop := LineTable.offset_position text.toList hstop
  unfold TextEdit.replacement
  rw [hrange]
  exact congrArg₂ Span.mk hstart hstop

namespace Index

variable {document : DocumentId} {revision : Revision} {text : String} {options : ParserOptions}
  {loader : Loader σ} {world : σ} {chunk : Chunk}

/-- An occurrence that covers text is a name among the tokens. -/
theorem occurrence_token (htext : Chunk.ofChars? text.toList = some chunk) {o : Occurrence}
    (ho : o ∈ (Index.build document revision text options loader world).1.occurrences)
    (hspan : o.span.isEmpty = false) {ls : List Lexeme}
    (hls : Lexeme.ofChars text.toList = some ls) :
    ∃ l ∈ ls, l.span = o.span ∧ ∃ name, l.token = .name name := by
  obtain ⟨s, hsource, hspots⟩ := occurrences_spots htext document revision options loader world
  have hlines : s.source.lines = LineTable.ofChars text.toList := by rw [hsource]; rfl
  have hmem := List.mem_map_of_mem (f := Occurrence.spot) ho
  rw [hspots] at hmem
  obtain ⟨site, hsite, hspot⟩ := (chunk.walked_spots s world hlines htext).2 _ hmem
  have hsame : o.span = (site.spot s.source).span := congrArg Spot.span hspot
  cases site with
  | name ident =>
    obtain ⟨ls', hls', hsub⟩ := Chunk.sites_sublist htext
    cases hls.symm.trans hls'
    obtain ⟨l, hl, htoken, hspan⟩ := Lexeme.exists_of_mem_sites (hsub.subset hsite)
    exact ⟨l, hl, hspan.trans hsame.symm, _, htoken⟩
  | receiver start =>
    rw [hsame] at hspan
    simp [Site.spot, Source.spot, Span.isEmpty] at hspan

/-- Occurrences that cover text stand in it, and apart from each other. -/
theorem occurrences_apart (htext : Chunk.ofChars? text.toList = some chunk) {o o' : Occurrence}
    (ho : o ∈ (Index.build document revision text options loader world).1.occurrences)
    (ho' : o' ∈ (Index.build document revision text options loader world).1.occurrences)
    (hspan : o.span.isEmpty = false) (hspan' : o'.span.isEmpty = false) :
    o.span.stop ≤ byteLength text.toList ∧ o.span.start < o.span.stop ∧
      (o.span.start < o'.span.start → o.span.stop ≤ o'.span.start) := by
  obtain ⟨ls, hls, -⟩ := Chunk.sites_sublist htext
  obtain ⟨l, hl, hsame, -⟩ := occurrence_token htext ho hspan hls
  obtain ⟨l', hl', hsame', -⟩ := occurrence_token htext ho' hspan' hls
  obtain ⟨hle, hbound, hapart⟩ := Lexeme.ofChars_apart hls hl
  have hbehind := hapart l' hl'
  rw [hsame] at hle hbound
  rw [hsame, hsame'] at hbehind
  have hne : o.span.start ≠ o.span.stop := by simpa [Span.isEmpty] using hspan
  exact ⟨hbound, Nat.lt_of_le_of_ne hle hne, hbehind⟩

theorem occurrences_nodup (htext : Chunk.ofChars? text.toList = some chunk) :
    (Index.build document revision text options loader world).1.occurrences.Nodup := by
  obtain ⟨s, hsource, hspots⟩ := occurrences_spots htext document revision options loader world
  have hlines : s.source.lines = LineTable.ofChars text.toList := by rw [hsource]; rfl
  have hnodup := (chunk.walked_spots s world hlines htext).1
  rw [← hspots] at hnodup
  exact List.Nodup.of_map _ hnodup

/-- A symbol and the references that lead to it. -/
def stands (i : Index) (x : Symbol) : List Occurrence :=
  x.occurrence :: (i.referencesTo x.id).map ReferenceOver.occurrence

theorem ranges_stands (i : Index) (x : Symbol) :
    x.range :: (i.referencesTo x.id).map ReferenceOver.range =
      (i.stands x).map Occurrence.range := by
  simp only [stands, List.map_cons, List.map_map]
  rfl

theorem stands_sublist {i : Index} {id : SymbolId} {x : Symbol} (hx : i.symbol? id = some x) :
    (i.stands x).Sublist i.occurrences := by
  have hmem : x.occurrence ∈ i.table.symbols.toList.map SymbolOver.occurrence :=
    List.mem_map_of_mem (Array.mem_toList_iff.mpr (Array.mem_of_getElem? hx))
  exact (List.singleton_sublist.mpr hmem).append (List.filter_sublist.map _)

/-- An index without a syntax tree is marked so. -/
theorem parsed_of_build
    (h : (Index.build document revision text options loader world).1.malformed = false) :
    ∃ chunk, Chunk.ofChars? text.toList = some chunk := by
  cases htext : Chunk.ofChars? text.toList with
  | some chunk => exact ⟨chunk, rfl⟩
  | none =>
    have hchars : Chunk.ofChars? (Source.ofString text).chars = none := htext
    unfold Index.build at h
    simp only [hchars] at h
    cases h

/-- Each index is faithful to its text, whatever its loader gives. -/
theorem build_faithful_alone (document : DocumentId) (revision : Revision) (text : String)
    (options : ParserOptions) (loader : Loader σ) (world : σ) :
    (Index.build document revision text options loader world).1.Faithful .none :=
  Index.build_faithful (W := fun _ => True) Demand.met_none
    (fun _ {_} _ => ⟨trivial, fun _ _ h => h.elim⟩) document revision text options trivial

/-- Where a symbol that covers text stands, and where what leads to it stands: some text, which is
the name of the symbol if it has no blanks. -/
theorem Faithful.stands {i : Index} (h : i.Faithful .none) {id : SymbolId} {x : Symbol}
    (hx : i.symbol? id = some x) (hid : x.id = id) (hspan : x.span.isEmpty = false) :
    ∀ o ∈ i.stands x, o.span.isEmpty = false ∧ o.range = i.source.range o.span ∧
      ((∀ c ∈ i.source.slice o.span, isBlank c = false) →
        String.ofList (i.source.slice o.span) = x.name) := by
  intro o ho
  rcases List.mem_cons.mp ho with rfl | ho
  · obtain ⟨hslice, hrange⟩ := (h.symbols hx).resolve_left (by simp [hspan])
    refine ⟨hspan, hrange, fun _ => ?_⟩
    have hslice : i.source.slice x.occurrence.span = x.name.toList := hslice
    rw [hslice, String.ofList_toList]
  · obtain ⟨r, hr, rfl⟩ := List.mem_map.mp ho
    obtain ⟨hr, htarget⟩ := List.mem_filter.mp hr
    obtain ⟨hrange, hslice, hnames⟩ := h.references r (Array.mem_toList_iff.mp hr)
    refine ⟨?_, hrange, fun hblank => ?_⟩
    · by_contra hempty
      have hsame : r.span.start = r.span.stop := by
        simpa [Span.isEmpty, ReferenceOver.occurrence] using hempty
      refine hslice ?_
      rw [Source.slice, hsame, Nat.sub_self]
      exact takeBytes_zero _
    · unfold ReferenceOver.targetsLocal at htarget
      split at htarget
      · rename_i link hlink
        obtain ⟨hlocal, hsame⟩ := Bool.and_eq_true_iff.mp htarget
        obtain ⟨y, hy, hname⟩ := (hnames link hlink hblank).1 (Option.isNone_iff_eq_none.mp hlocal)
        rw [beq_iff_eq.mp hsame, hid] at hy
        cases hx.symm.trans hy
        exact hname.symm
      · cases htarget

/-- The edits of a rename stand on what stands for the symbol, one behind the other. -/
theorem renameEdits_stand (htext : Chunk.ofChars? text.toList = some chunk) {id : SymbolId}
    {x : Symbol}
    (hx : (Index.build document revision text options loader world).1.symbol? id = some x)
    (hspan : x.span.isEmpty = false) (name : String) :
    let i := (Index.build document revision text options loader world).1
    ((i.renameEdits x name).map TextEdit.range).Perm ((i.stands x).map Occurrence.range) ∧
      (i.renameEdits x name).Pairwise (fun a b =>
        (a.replacement i.source).1.stop ≤ (b.replacement i.source).1.start) ∧
      ∀ e ∈ i.renameEdits x name, e.newText = name ∧
        ∃ o ∈ i.stands x, e.range = o.range ∧ (e.replacement i.source).1 = o.span := by
  intro i
  have hsource : i.source = .ofString text := build_source _ _ _ _ _ _
  have hfaithful : i.Faithful .none := build_faithful_alone _ _ _ _ _ _
  have hstands := hfaithful.stands hx (symbol_id htext hx) hspan
  have hsub := stands_sublist hx
  -- No two of the ranges start at one position.
  have hstarts : (((i.stands x).map Occurrence.range).map Range.start).Nodup := by
    rw [List.map_map]
    exact ((occurrences_nodup htext).sublist hsub).map_on fun o ho o' ho' heq =>
      occurrence_eq_of_start_eq htext (hsub.subset ho) (hsub.subset ho') heq
  obtain ⟨hperm, hsorted, hnew⟩ := renameEdits_sorted name (i.ranges_stands x) hstarts
  have hstand : ∀ e ∈ i.renameEdits x name, ∃ o ∈ i.stands x, e.range = o.range ∧
      (e.replacement i.source).1 = o.span := by
    intro e he
    obtain ⟨o, ho, heq⟩ := List.mem_map.mp (hperm.mem_iff.mp (List.mem_map_of_mem he))
    obtain ⟨hospan, hrange, -⟩ := hstands o ho
    obtain ⟨hstop, hlt, -⟩ :=
      occurrences_apart htext (hsub.subset ho) (hsub.subset ho) hospan hospan
    rw [hsource] at hrange ⊢
    exact ⟨o, ho, heq.symm, TextEdit.replacement_span (heq.symm.trans hrange)
      (Nat.le_of_lt hlt) hstop⟩
  refine ⟨hperm, hsorted.imp_of_mem fun {a b} ha hb hab => ?_, fun e he => ⟨hnew e he, hstand e he⟩⟩
  obtain ⟨o, ho, horange, hcovers⟩ := hstand a ha
  obtain ⟨o', ho', horange', hcovers'⟩ := hstand b hb
  obtain ⟨hospan, hrange, -⟩ := hstands o ho
  obtain ⟨hospan', hrange', -⟩ := hstands o' ho'
  obtain ⟨-, -, hapart⟩ :=
    occurrences_apart htext (hsub.subset ho) (hsub.subset ho') hospan hospan'
  rw [hcovers, hcovers']
  rw [horange, horange', hrange, hrange', hsource] at hab
  refine hapart (Nat.lt_of_not_le fun hle => hab.2 ?_)
  exact Position.le_antisymm hab.1 (LineTable.position_mono _ hle)

end Index

/-- The first position is before the second one. -/
def Position.Before (p q : Position) : Prop := p ≤ q ∧ p ≠ q

namespace Documents

/--
The edits of a rename stand in the order of the text and apart from each other. They are one for the
name of the symbol that the query finds and one for each reference that leads to it, and each gives
the new name in place of the old one; only where the text has a name with blanks in it, an edit may
stand on that one.
-/
theorem rename_edits {d : Documents} {document : DocumentId} {revision : Revision} {text : String}
    {options : ParserOptions} {loader : Loader σ} {world : σ} {position : Position} {name : String}
    {edit : DocumentEdit}
    (hget : d.get document = some (Index.build document revision text options loader world).1)
    (hrename : d.rename document position name = .ok (some edit)) :
    let i := (Index.build document revision text options loader world).1
    ∃ handle, i.symbolUnder position = some handle ∧ edit.document = document ∧
      (handle.index = i → ∃ x, i.symbol? handle.id = some x ∧
        (edit.edits.map TextEdit.range).Perm
          (x.range :: (i.referencesTo x.id).map ReferenceOver.range) ∧
        edit.edits.Pairwise (fun a b => a.range.stop ≤ b.range.start) ∧
        ∀ e ∈ edit.edits, e.range.start.Before e.range.stop ∧ e.newText = name ∧
          (e.range = x.range ∨
              (∀ c ∈ i.source.slice (e.replacement i.source).1, isBlank c = false) →
            String.ofList (i.source.slice (e.replacement i.source).1) = x.name)) := by
  intro i
  obtain ⟨-, index, handle, x, hindex, hparsed, hunder, -, -, hx, hspan, rfl⟩ :=
    rename_eq_some_iff.mp hrename
  obtain rfl : i = index := Option.some.inj (hget.symm.trans hindex)
  refine ⟨handle, hunder, rfl, fun hown => ?_⟩
  rw [Handle.symbol?, hown] at hx
  obtain ⟨chunk, htext⟩ := Index.parsed_of_build hparsed
  have hsource : i.source = .ofString text := Index.build_source _ _ _ _ _ _
  have hfaithful : i.Faithful .none := Index.build_faithful_alone _ _ _ _ _ _
  have hstands := hfaithful.stands hx (Index.symbol_id htext hx) hspan
  have hsub := Index.stands_sublist hx
  obtain ⟨hperm, hapart, hedits⟩ := Index.renameEdits_stand htext hx hspan name
  refine ⟨x, hx, (i.ranges_stands x).symm ▸ hperm, ?_, fun e he => ?_⟩
  · refine hapart.imp_of_mem fun {a b} ha hb hab => ?_
    obtain ⟨-, o, ho, horange, hcovers⟩ := hedits a ha
    obtain ⟨-, o', ho', horange', hcovers'⟩ := hedits b hb
    rw [hcovers, hcovers'] at hab
    rw [horange, horange', (hstands o ho).2.1, (hstands o' ho').2.1, hsource]
    exact LineTable.position_mono _ hab
  · obtain ⟨hnew, o, ho, horange, hcovers⟩ := hedits e he
    obtain ⟨hospan, hrange, hname⟩ := hstands o ho
    obtain ⟨hstop, hlt, -⟩ :=
      Index.occurrences_apart htext (hsub.subset ho) (hsub.subset ho) hospan hospan
    refine ⟨⟨?_, fun heq => ?_⟩, hnew, ?_⟩
    · rw [horange, hrange, hsource]
      exact LineTable.position_mono _ (Nat.le_of_lt hlt)
    · rw [horange, hrange, hsource] at heq
      have hstart := Nat.le_trans (Nat.le_of_lt hlt) hstop
      exact Nat.ne_of_lt hlt (LineTable.position_inj hstart hstop heq)
    · rw [hcovers]
      rintro (hown | hblank)
      · have hsame : o = x.occurrence := Index.occurrence_eq_of_start_eq htext (hsub.subset ho)
          (hsub.subset List.mem_cons_self) (congrArg Range.start (horange.symm.trans hown))
        have hslice : i.source.slice o.span = x.name.toList := by
          rw [hsame]
          exact ((hfaithful.symbols hx).resolve_left (by simp [hspan])).1
        rw [hslice, String.ofList_toList]
      · exact hname hblank

/-- The local and its use are edited, and nothing else. -/
theorem rename_edits_local :
    let file : DocumentId := ⟨"file:///a.lua"⟩
    let i := (Index.build file 1 "local x = 1 print(x)" {} Loader.none ()).1
    let d : Documents := { slots := [(file, ⟨1, 1, some i⟩)] }
    ∃ edit, d.rename file ⟨0, 18⟩ "y" = .ok (some edit) ∧
      (edit.edits.map TextEdit.range).Perm [⟨⟨0, 6⟩, ⟨0, 7⟩⟩, ⟨⟨0, 18⟩, ⟨0, 19⟩⟩] ∧
      edit.edits.Pairwise (fun a b => a.range.stop ≤ b.range.start) := by
  intro file i d
  have hget : d.get file = some i := by simp [get, slot?, d]
  have hexcerpt : expressionAt i.source.chars (i.offset ⟨0, 18⟩) = some ⟨['x'], ⟨18, 19⟩⟩ := by
    decide +kernel
  have hlookup : i.table.lookup (i.scopeAt 18) "x" 18 = some 0 := by decide +kernel
  have hunder : i.symbolUnder ⟨0, 18⟩ = some ⟨i, 0⟩ :=
    Index.symbolUnder_name hexcerpt (by decide +kernel) hlookup
  have hsymbol : ∃ x ∈ i.symbol? 0, x.span.isEmpty = false ∧
      x.range :: (i.referencesTo x.id).map ReferenceOver.range =
        [⟨⟨0, 6⟩, ⟨0, 7⟩⟩, ⟨⟨0, 18⟩, ⟨0, 19⟩⟩] := by decide +kernel
  obtain ⟨x, hx, hspan, hranges⟩ := hsymbol
  have hrename : d.rename file ⟨0, 18⟩ "y" = .ok (some ⟨file, i.renameEdits x "y"⟩) :=
    rename_own (by decide) hget (Index.build_document _ _ _ _ _ _) (by decide +kernel) hunder hx
      hspan
  have hedits : ∃ handle, i.symbolUnder ⟨0, 18⟩ = some handle ∧ (handle.index = i →
      ∃ y, i.symbol? handle.id = some y ∧
        ((i.renameEdits x "y").map TextEdit.range).Perm
          (y.range :: (i.referencesTo y.id).map ReferenceOver.range) ∧
        (i.renameEdits x "y").Pairwise fun a b => a.range.stop ≤ b.range.start) := by
    obtain ⟨handle, hfound, -, hedits⟩ := rename_edits hget hrename
    refine ⟨handle, hfound, fun hown => ?_⟩
    obtain ⟨y, hy, hperm, hapart, -⟩ := hedits hown
    exact ⟨y, hy, hperm, hapart⟩
  clear_value i
  obtain ⟨handle, hfound, hedits⟩ := hedits
  obtain rfl := Option.some.inj (hunder.symm.trans hfound)
  obtain ⟨y, hy, hperm, hapart⟩ := hedits rfl
  obtain rfl := Option.some.inj (hx.symm.trans hy)
  exact ⟨_, hrename, hranges ▸ hperm, hapart⟩

/-- The name with a blank in it was taken for the global of another name and is rewritten with
it. -/
theorem rename_edits_other_name :
    let file : DocumentId := ⟨"file:///a.lua"⟩
    let i := Index.buildAlone file 1 "print(a\u00a0b) ab = 1" {}
    let d : Documents := { slots := [(file, ⟨1, 1, some i⟩)] }
    ∃ edit, d.rename file ⟨0, 12⟩ "y" = .ok (some edit) ∧
      ((i.symbolUnder ⟨0, 12⟩).bind Handle.symbol?).map (·.name) = some "ab" ∧
      ∃ e ∈ edit.edits, String.ofList (i.source.slice (e.replacement i.source).1) = "a\u00a0b" := by
  intro file i d
  have hget : d.get file = some i := by simp [get, slot?, d]
  have hexcerpt : expressionAt i.source.chars (i.offset ⟨0, 12⟩) =
      some ⟨['a', 'b'], ⟨12, 14⟩⟩ := by decide +kernel
  have hlookup : i.table.lookup (i.scopeAt 12) "ab" 12 = some 0 := by decide +kernel
  have hunder : i.symbolUnder ⟨0, 12⟩ = some ⟨i, 0⟩ :=
    Index.symbolUnder_name hexcerpt (by decide +kernel) hlookup
  have hsymbol : ∃ x ∈ i.symbol? 0, x.span.isEmpty = false ∧ x.name = "ab" ∧
      ∃ r ∈ i.references.toList, r.targetsLocal x.id = true ∧ r.range = ⟨⟨0, 6⟩, ⟨0, 10⟩⟩ := by
    decide +kernel
  have htext : String.ofList (i.source.slice
      (TextEdit.replacement i.source ⟨⟨⟨0, 6⟩, ⟨0, 10⟩⟩, "y"⟩).1) = "a\u00a0b" := by decide +kernel
  obtain ⟨x, hx, hspan, hname, hreference⟩ := hsymbol
  have hrename : d.rename file ⟨0, 12⟩ "y" = .ok (some ⟨file, i.renameEdits x "y"⟩) :=
    rename_own (by decide) hget (Index.build_document _ _ _ _ _ _) (by decide +kernel) hunder hx
      hspan
  clear_value i
  refine ⟨_, hrename, ?_, ?_⟩
  · rw [hunder, Option.bind_some, Handle.symbol?, hx, Option.map_some, hname]
  · have hmem : (⟨⟨0, 6⟩, ⟨0, 10⟩⟩ : Range) ∈ (i.renameEdits x "y").map TextEdit.range :=
      Index.mem_renameEdits_iff.mpr (.inr hreference)
    obtain ⟨e, he, hrange⟩ := List.mem_map.mp hmem
    refine ⟨e, he, ?_⟩
    rw [TextEdit.replacement, hrange]
    exact htext

end Documents

end LuaScope

import LuaScope.Proofs.Binding.Build
import LuaScope.Proofs.Linking.Walk
import LuaScope.Proofs.Scoping.Links
import LuaScope.Proofs.Syntax.Path

/-!
# LuaScope.Proofs.Linking.Build

What holds of the index of every text.

* `Index.build_safe` — all numbers in it name symbols, in the table in which they are read, if so
  they do in the indices that its loader gives; what a reference leads to has the name that the
  reference stands on, if there is no blank in it.
-/

namespace LuaScope

variable {σ : Type}

/-- The walk over a text that is cut into these tokens. -/
def Regime.ofText (setting : Setting σ) {demand : Demand} (met : demand.Met) {world : σ → Prop}
    (loads : ∀ name {w}, world w → world (setting.loader name w).2 ∧
      ∀ o, (setting.loader name w).1 = some o → demand.strict → demand.holds o)
    {ls : List Lexeme} (hls : Lexeme.ofChars setting.source.chars = some ls) : Regime σ where
  setting := setting
  demand := demand
  written path := Written ls (.path path)
  world := world
  met := met
  front := Written.front
  spelled h segment hsegment := (h.slice hls segment hsegment).2.1
  loads := loads

/-- The reference stands on a name that is written; what it leads to is there, and has that name if
there is no blank in it. -/
structure Reference.Settled (c : Regime σ) (t : SymbolTable) (r : Reference) (last : Ident) :
    Prop where
  ends : c.Ends last
  span : r.span = last.span
  range : r.range = c.setting.range last.span
  scope : r.scope < t.scopes.size
  target : ∀ link, r.target = some link → Link.SafeIn c.demand t link
  names : ∀ link, r.target = some link → (∀ ch ∈ last.name.toList, isBlank ch = false) →
    Link.Names c.demand t link last.name

namespace Binder

variable {b : Binder σ} {c : Regime σ}

/-- Nothing was read yet. -/
theorem Sound.start (c : Regime σ) (source : Source) {world : σ} (hworld : c.world world) :
    (Binder.start source world).Sound c where
  table := .new c.demand source.size
  scope := (SymbolTable.Safe.new c.demand source.size).root
  world := hworld
  declared hx := by cases hx
  references r hr := by simp [Binder.start] at hr
  returns value hvalue := by simp [Binder.start] at hvalue

end Binder

section Text

variable {setting : Setting σ} {demand : Demand} {met : demand.Met} {world : σ → Prop}
  {loads : ∀ name {w}, world w → world (setting.loader name w).2 ∧
    ∀ o, (setting.loader name w).1 = some o → demand.strict → demand.holds o}
  {ls : List Lexeme} {hls : Lexeme.ofChars setting.source.chars = some ls}

/-- The text holds the name that ends a path. -/
theorem Regime.Ends.slice {last : Ident} (h : (Regime.ofText setting met loads hls).Ends last) :
    setting.source.slice last.span = last.name.toList ∧ last.name.toList ≠ [] := by
  obtain ⟨path, hwritten, hlast⟩ := h
  have hslice := hwritten.slice hls last (List.mem_of_getLast? hlast)
  exact ⟨hslice.1, hslice.2.2⟩

/-- What a late look at the path finds has the name that ends the path. -/
theorem Binder.Sound.names_of_late {b : Binder σ}
    (h : b.Sound (Regime.ofText setting met loads hls)) {r : Reference} (hnone : r.target = none)
    {path : List Ident} {first last : Ident}
    (hr : r.Records (Regime.ofText setting met loads hls) b.table path first last) {link : Link}
    (hlink : (b.resolveLate r).target = some link)
    (hblank : ∀ ch ∈ last.name.toList, isBlank ch = false) :
    Link.Names demand b.table link last.name := by
  obtain ⟨⟨found, hfound, hnames⟩, hspelled⟩ := h.names_resolveLate hnone hlink
  -- Behind a link into a document of which nothing is asked, nothing has to be shown.
  by_cases hread : demand.strict ∨ link.origin = none
  · obtain ⟨first', last', hfirst, hlast, htext⟩ := hr.written.pathText hls
    obtain rfl := Option.some.inj (hr.head.symm.trans hfirst)
    obtain rfl := Option.some.inj (hr.getLast.symm.trans hlast)
    obtain ⟨-, hname, hne⟩ := hr.written.slice hls last (List.mem_of_getLast? hlast)
    have hsegments : ∀ segment ∈ pathSegments r.text.toList,
        ∀ ch ∈ segment, isNameChar ch = true := by
      intro segment hsegment
      have hspelled := hspelled hread (String.ofList segment)
        (List.mem_map_of_mem (f := String.ofList) hsegment)
      simpa [Spelled] using hspelled
    have hrtext : r.text.toList = (takeBytes (dropBytes setting.source.chars first.span.start)
        (last.span.stop - first.span.start)).filter fun ch => !isBlank ch := by
      rw [hr.text]
      exact String.toList_ofList
    rw [hrtext] at hsegments
    have hsame := htext.getLast_segments hlast hne hname hblank hsegments
    rw [splitPath, List.getLast?_map, hrtext, hsame, Option.map_some,
      String.ofList_toList] at hfound
    cases hfound
    exact hnames
  · rw [not_or] at hread
    exact ⟨fun hnone => absurd hnone hread.2, fun _ _ hstrict => absurd hstrict hread.1⟩

/-- Behind the second chances each reference stands on a name that is written. -/
theorem Binder.Sound.settled {b : Binder σ} (h : b.Sound (Regime.ofText setting met loads hls))
    {r : Reference} (hr : r ∈ b.references) :
    ∃ last, (b.resolveLate r).Settled (Regime.ofText setting met loads hls) b.table last := by
  obtain ⟨hscope, path, first, last, hrecords⟩ := h.references r hr
  have hsame : (b.resolveLate r).span = r.span ∧ (b.resolveLate r).range = r.range ∧
      (b.resolveLate r).scope = r.scope := by
    obtain ⟨target, heq⟩ := b.resolveLate_eq r
    rw [heq]
    exact ⟨rfl, rfl, rfl⟩
  refine ⟨last, ⟨path, hrecords.written, hrecords.getLast⟩, hsame.1.trans hrecords.span,
    hsame.2.1.trans hrecords.range, hsame.2.2.symm ▸ hscope, fun link hlink => ?_,
    fun link hlink hblank => ?_⟩
  · cases hnone : r.target with
    | none => exact ((h.names_resolveLate hnone hlink).1.choose_spec.2).safeIn
    | some link' =>
      rw [Binder.resolveLate_of_target (by simp [hnone])] at hlink
      exact (hrecords.target link hlink).safeIn
  · cases hnone : r.target with
    | none => exact h.names_of_late hnone hrecords hlink hblank
    | some link' =>
      rw [Binder.resolveLate_of_target (by simp [hnone])] at hlink
      exact hrecords.target link hlink

end Text

/-- The index holds no numbers but those of symbols, and knows what its text holds where its symbols
and its references stand. -/
structure Index.Faithful (D : Demand) (i : Index) : Prop where
  safe : i.SafeWith D
  source : i.source = .ofString i.source.text
  symbols : ∀ {id x}, i.symbol? id = some x → (x.name = "self" ∧ x.span.isEmpty = true) ∨
    (i.source.slice x.span = x.name.toList ∧ x.range = i.source.range x.span)
  references : ∀ r ∈ i.references, r.range = i.source.range r.span ∧
    i.source.slice r.span ≠ [] ∧
    ∀ link, r.target = some link → (∀ c ∈ i.source.slice r.span, isBlank c = false) →
      Link.Names D i.table link (String.ofList (i.source.slice r.span))

theorem Index.Faithful.weaken {D D' : Demand} {i : Index} (h : i.Faithful D)
    (hcovers : D.Covers D') : i.Faithful D' where
  safe := h.safe.weaken hcovers
  source := h.source
  symbols := h.symbols
  references r hr :=
    ⟨(h.references r hr).1, (h.references r hr).2.1, fun link hlink hblank =>
      ((h.references r hr).2.2 link hlink hblank).weaken hcovers⟩

/-- The index of a text without a syntax tree holds nothing. -/
theorem Index.faithful_empty (D : Demand) (document : DocumentId) (revision : Revision)
    (text : String) (diagnostics : List Diagnostic) :
    (Index.empty document revision (.ofString text) diagnostics).Faithful D where
  safe :=
    { table := .new D (Source.ofString text).size
      references := fun r hr => by simp [Index.empty, Index.references] at hr
      exports := trivial }
  source := rfl
  symbols hx := by cases hx
  references r hr := by simp [Index.empty, Index.references] at hr

/-- Building an index keeps what is asked of the indices that its loader gives. -/
theorem Index.build_faithful {D : Demand} (met : D.Met) {loader : Loader σ} {W : σ → Prop}
    (loads : ∀ name {w}, W w → W (loader name w).2 ∧
      ∀ o, (loader name w).1 = some o → D.strict → D.holds o)
    (document : DocumentId) (revision : Revision) (text : String) (options : ParserOptions)
    {world : σ} (hworld : W world) :
    (Index.build document revision text options loader world).1.Faithful D := by
  cases htext : Chunk.ofChars? text.toList with
  | none =>
    have hchars : Chunk.ofChars? (Source.ofString text).chars = none := htext
    unfold Index.build
    simp only [hchars]
    exact Index.faithful_empty D _ _ _ _
  | some chunk =>
    obtain ⟨ls, hls, hlexemes⟩ := Chunk.ofChars?_eq_some_iff.mp htext
    let s : Setting σ := ⟨.ofString text, document, options.allowDefined, loader⟩
    let c : Regime σ := Regime.ofText s met loads hls
    have hcovers : c.Covers chunk.passages := fun path hpath =>
      Chunk.passages_written hlexemes _ hpath
    have hsound : (chunk.walked s world).Sound c :=
      (Walk.statements_sound (c := c) chunk.statements 1 hcovers _
        (Binder.Sound.start c s.source hworld) (.refl _)).1.sound
    obtain ⟨htable, hreferences, hexports⟩ :=
      Index.build_walked htext document revision options loader world
    have hsource := Index.build_source document revision text options loader world
    have hsettled : ∀ r ∈ (Index.build document revision text options loader world).1.references,
        ∃ last, r.Settled c (chunk.walked s world).table last := by
      intro r hr
      rw [hreferences, Array.mem_map] at hr
      obtain ⟨r, hr, rfl⟩ := hr
      exact hsound.settled hr
    refine ⟨⟨?_, fun r hr => ?_, ?_⟩, by rw [hsource]; rfl, fun {id x} hx => ?_, fun r hr => ?_⟩
    · rw [htable]
      exact hsound.table
    · obtain ⟨last, hlast⟩ := hsettled r hr
      rw [htable]
      exact ⟨hlast.target, hlast.scope⟩
    · rw [htable, hexports]
      exact hsound.exports
    · rw [Index.symbol?, htable] at hx
      rw [hsource]
      refine (hsound.declared hx).imp_right ?_
      rintro ⟨last, hends, hname, hspan, hrange⟩
      rw [hspan, hname]
      exact ⟨hends.slice.1, hrange⟩
    · obtain ⟨last, hlast⟩ := hsettled r hr
      have hslice : (Source.ofString text).slice r.span = last.name.toList := by
        rw [hlast.span]
        exact hlast.ends.slice.1
      rw [hsource, hslice, htable, String.ofList_toList]
      exact ⟨by rw [hlast.range, hlast.span]; rfl, hlast.ends.slice.2, hlast.names⟩

/--
The index of any text is safe if its loader gives safe indices; so whatever is found on it has its
symbol: where references lead, in the scopes, along paths and among members. A reference leads to a
symbol of the name it stands on, unless that name has blanks of Unicode in it, which Lua takes for
letters.
-/
theorem Index.build_safe {loader : Loader σ} {W : σ → Prop}
    (loads : ∀ name w, W w → W (loader name w).2 ∧ ∀ o, (loader name w).1 = some o → o.Safe)
    (document : DocumentId) (revision : Revision) (text : String) (options : ParserOptions)
    {world : σ} (hworld : W world) :
    let i := (Index.build document revision text options loader world).1
    i.Safe ∧
      (∀ r ∈ i.references, ∀ link, r.target = some link →
        let handle := ((Home.here i.table).follow link).handle i
        handle.index.Safe ∧ ∃ x, handle.symbol? = some x ∧
          ((∀ c ∈ i.source.slice r.span, isBlank c = false) →
            x.name = String.ofList (i.source.slice r.span))) ∧
      (∀ scope name offset id, i.table.lookup scope name offset = some id →
        ∃ x, i.symbol? id = some x ∧ x.name = name) ∧
      (∀ scope offset, ∀ id ∈ i.table.visible scope offset, ∃ x, i.symbol? id = some x) ∧
      (∀ path offset handle, (i.resolve path offset).first? = some handle →
        handle.index.Safe ∧
          ∃ x, handle.symbol? = some x ∧ (splitPath path).getLast? = some x.name) ∧
      ∀ id < i.table.symbols.size, ∀ name m,
        (name, m) ∈ ((Home.here i.table).locate id).members true →
        (m.handle i).index.Safe ∧ ∃ x, (m.handle i).symbol? = some x ∧ x.name = name := by
  intro i
  have hfaithful : i.Faithful (.all Index.Safe) :=
    Index.build_faithful Demand.met_safe (fun name w hw => (loads name w hw).imp_right
      fun h o ho _ => h o ho) document revision text options hworld
  have hsafe : i.Safe := hfaithful.safe.safe
  refine ⟨hsafe, fun r hr link hlink => ?_, fun _ _ _ _ hid => hsafe.symbol_of_lookup hid,
    fun _ _ id hid => ?_, fun _ _ _ hfound => hsafe.symbol_of_resolve hfound,
    fun id hid name m hm => ?_⟩
  · have hstands := Located.Stands.ofLink ((hfaithful.safe.references r hr).target link hlink)
    obtain ⟨howner, x, hx⟩ := hsafe.symbol_of_stands hstands
    refine ⟨howner, x, hx, fun hblank => ?_⟩
    have hfound : ((Home.here i.table).follow link).Found (.all Index.Safe) i.table _ :=
      Located.Found.ofLink ((hfaithful.references r hr).2.2 link hlink hblank)
    obtain ⟨-, y, hy, hname⟩ := hsafe.symbol_of_found hfound
    cases hx.symm.trans hy
    exact hname
  · exact ⟨_, Array.getElem?_eq_getElem (hsafe.safeWith.table.lt_of_mem_visible hid)⟩
  · exact hsafe.symbol_of_found
      ((Located.stands_here hid).members Demand.met_safe hsafe.safeWith.table hm)

/-- A member of a module that is required is found in the index of that module. -/
theorem Index.build_safe_of_require :
    let library := (Index.build ⟨"file:///m.lua"⟩ 1 "return {f = 1}" {} Loader.none ()).1
    let i := (Index.build ⟨"file:///a.lua"⟩ 1 "local m = require('m') print(m.f)" {}
      (fun _ w => (some library, w)) ()).1
    i.Safe ∧ ∃ r ∈ i.references, ∃ link, r.target = some link ∧ link.isLocal = false ∧
      ∃ x, (((Home.here i.table).follow link).handle i).symbol? = some x ∧ x.name = "f" := by
  intro library i
  have hmember : ∃ r ∈ i.references.toList, ∃ link ∈ r.target, link.isLocal = false ∧
      i.source.slice r.span = ['f'] := by decide +kernel
  have hlibrary : library.Safe :=
    (Index.build_safe (W := fun _ => True) (fun _ _ _ => ⟨trivial, fun _ h => by cases h⟩)
      ⟨"file:///m.lua"⟩ 1 "return {f = 1}" {} trivial).1
  let loader : Loader Unit := fun _ w => (some library, w)
  have hloader : ∀ name w, w = () → (loader name w).2 = () ∧
      ∀ o, (loader name w).1 = some o → o.Safe :=
    fun _ _ _ => ⟨rfl, fun _ h => Option.some.inj h ▸ hlibrary⟩
  have hbuilt := Index.build_safe hloader
    ⟨"file:///a.lua"⟩ 1 "local m = require('m') print(m.f)" {} rfl
  obtain ⟨hsafe, htargets, -⟩ := hbuilt
  have htargets : ∀ r ∈ i.references, ∀ link, r.target = some link →
      ∃ x, (((Home.here i.table).follow link).handle i).symbol? = some x ∧
        ((∀ c ∈ i.source.slice r.span, isBlank c = false) →
          x.name = String.ofList (i.source.slice r.span)) :=
    fun r hr link hlink => (htargets r hr link hlink).2
  have hsafe : i.Safe := hsafe
  clear_value i
  obtain ⟨r, hr, link, hlink, hforeign, hslice⟩ := hmember
  obtain ⟨x, hx, hname⟩ := htargets r (Array.mem_toList_iff.mp hr) link hlink
  rw [hslice] at hname
  refine ⟨hsafe, r, Array.mem_toList_iff.mp hr, link, hlink, hforeign, x, hx, ?_⟩
  exact hname (List.forall_mem_singleton.mpr (by decide))

/-- The blank of a name is left out of the text of the reference, so the second chance leads it to
another name. -/
theorem Index.build_links_other_name :
    let i := Index.buildAlone ⟨"file:///a.lua"⟩ 1 "print(a\u00a0b) ab = 1" {}
    ∃ r ∈ i.references.toList, ∃ link ∈ r.target, link.isLocal = true ∧
      String.ofList (i.source.slice r.span) = "a\u00a0b" ∧
      (i.symbol? link.id).map (·.name) = some "ab" := by decide +kernel

end LuaScope

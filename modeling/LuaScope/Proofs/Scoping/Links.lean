import LuaScope.Binding.Build
import LuaScope.Proofs.Scoping.Tree
import LuaScope.Proofs.Text.Segments

/-!
# LuaScope.Proofs.Scoping.Links

Where the references of a finished index lead.

* `Index.leads_of_use`     — a reference at a variable leads where the use is linked to.
* `Index.leads_to_binding` — so a use that is bound to a local leads to the symbol of that local,
  whatever the text does with the name elsewhere.
* `Index.leads_to_local_iff_captured` — a use of a global leads to a local exactly when the look
  back from the end of the text ends at one.
-/

namespace LuaScope

variable {σ : Type}

/-! ## The walk over a chunk -/

namespace Chunk

variable {chunk : Chunk} {cs : List Char}

theorem env_precedes (h : Chunk.ofChars? cs = some chunk) : chunk.env.Precedes chunk.sites :=
  List.pairwise_map.mpr (Chunk.sites_ascending h)

theorem holds_start (chunk : Chunk) (source : Source) (world : σ) (allow : Bool) :
    Holds (Binder.start source world).table (Binder.start source world).scope
      (chunk.env.levels allow) :=
  .root rfl rfl fun _ => rfl

/-- The state behind the last statement. -/
def walked (s : Setting σ) (chunk : Chunk) (world : σ) : Binder σ :=
  (Walk.visitStatements s chunk.statements 1 (.start s.source world)).2

variable (s : Setting σ) (world : σ)

theorem walked_visit (h : Chunk.ofChars? cs = some chunk) (hnesting : chunk.nesting ≤ maxDepth) :
    Visit s chunk.env (chunk.env.declare (Statement.declaresOf chunk.statements)) chunk.uses
      chunk.sites (.start s.source world) (walked s chunk world) := by
  have hdepth : 1 + Statement.heightOf chunk.statements ≤ maxDepth + 1 := by
    unfold nesting at hnesting
    omega
  exact Walk.statements_visits chunk.statements 1 hdepth (env_precedes h) _
    (chunk.holds_start s.source world s.allowDefined)

/-- By then the scope of the chunk is complete. -/
theorem walked_holds (h : Chunk.ofChars? cs = some chunk) (hnesting : chunk.nesting ≤ maxDepth) :
    Holds (walked s chunk world).table SymbolTableOver.rootId
      (chunk.env.finalLevels s.allowDefined) := by
  have hvisit := walked_visit s world h hnesting
  have hholds := hvisit.holds
  rw [hvisit.frame.scope, env, Env.declare, List.append_nil] at hholds
  exact hholds

/-- No two symbols start at one offset. -/
theorem walked_countAt (h : Chunk.ofChars? cs = some chunk) (hnesting : chunk.nesting ≤ maxDepth)
    (p : Nat) : SymbolOver.countAt p (walked s chunk world).table ≤ 1 := by
  have hsymbols := (walked_visit s world h hnesting).symbols p
  have hsites : Site.countAt p chunk.sites ≤ 1 :=
    List.nodup_iff_count.mp (Chunk.sites_ascending h).nodup_starts p
  have hstart : SymbolOver.countAt p (Binder.start s.source world).table = 0 := rfl
  omega

end Chunk

/-! ## The look back from the end of the text -/

theorem splitPath_withoutBlanks {name : String} (h : ∀ c ∈ name.toList, isNameChar c = true) :
    splitPath (withoutBlanks name) =
      if withoutBlanks name = "" then [] else [withoutBlanks name] := by
  have hchars : (withoutBlanks name).toList = name.toList.filter (fun c => !isBlank c) := by
    simp [withoutBlanks]
  by_cases hempty : withoutBlanks name = ""
  · rw [if_pos hempty, hempty]
    rfl
  · rw [if_neg hempty, splitPath, pathSegments_name (by simpa using hempty), List.map_singleton,
      String.ofList_toList]
    · intro c hc
      rw [hchars] at hc
      exact h c (List.mem_filter.mp hc).1
    · intro c hc
      rw [hchars] at hc
      simpa using (List.mem_filter.mp hc).2

theorem Binder.resolveLate_of_target {b : Binder σ} {r : Reference}
    (h : r.target.isSome = true) : b.resolveLate r = r := if_pos h

/-- A late look changes where a reference leads, and nothing else. -/
theorem Binder.resolveLate_eq (b : Binder σ) (r : Reference) :
    ∃ target, b.resolveLate r = { r with target := target } := by
  unfold resolveLate
  split
  · exact ⟨r.target, rfl⟩
  · split
    · exact ⟨r.target, rfl⟩
    · exact ⟨_, rfl⟩

theorem Binder.resolveLate_span (b : Binder σ) (r : Reference) :
    (b.resolveLate r).span = r.span := by
  obtain ⟨target, heq⟩ := b.resolveLate_eq r
  rw [heq]

/-- A reference without a target leads where a lookup at its place leads by then. -/
theorem Binder.leads_of_lookup {b : Binder σ} {levels : List Level} {r : Reference} {name : String}
    (hholds : Holds b.table r.scope levels) (hnone : r.target = none)
    (hpath : splitPath r.text = if name = "" then [] else [name]) :
    b.table.Leads (b.resolveLate r).target
      (if name = "" then none else lookBack name r.anchor levels) := by
  unfold resolveLate
  rw [if_neg (by simp [hnone]), hpath]
  split_ifs
  · exact ⟨none, hnone, SymbolTableOver.finds_none.mpr rfl⟩
  · refine ⟨_, ?_, SymbolTableOver.lookup_finds hholds name r.anchor⟩
    simp only [List.foldl_nil, Option.map_map]
    rfl

/-- What a reference that answers a use leads to in the end. -/
theorem Answers.leads {s : Setting σ} {env : Env} {b b' : Binder σ} {r : Reference} {u : Use}
    (h : Answers s env b b' r u) (hvariable : u.isVariable = true)
    (hcomplete : b'.table.Completes b.table.scopes.size b'.table)
    (hholds : Holds b'.table b.scope (env.finalLevels s.allowDefined))
    (htext : s.text u.ident.span = u.ident.name.toList)
    (hchars : ∀ c ∈ u.ident.name.toList, isNameChar c = true) :
    b'.table.Leads (b'.resolveLate r).target (u.link s.allowDefined) := by
  obtain ⟨found, htarget, hfinds⟩ := h.target hvariable
  unfold Use.link
  cases hfind : (u.env.levels s.allowDefined).flatten.find? (·.name == u.ident.name) with
  | some e =>
    rw [hfind] at hfinds
    obtain ⟨id, rfl, _⟩ := SymbolTableOver.finds_some.mp hfinds
    have hsame : b'.resolveLate r = r := Binder.resolveLate_of_target (by simp [htarget])
    exact ⟨some id, by rw [hsame, htarget], hfinds⟩
  | none =>
    rw [hfind] at hfinds
    rw [SymbolTableOver.finds_none.mp hfinds] at htarget
    have hpath : r.text = withoutBlanks u.ident.name := by
      rw [h.text hvariable, Setting.pathText, withoutBlanks]
      exact congrArg (fun cs => String.ofList (cs.filter fun c => !isBlank c)) htext
    have hsplit : splitPath r.text =
        if withoutBlanks u.ident.name = "" then [] else [withoutBlanks u.ident.name] := by
      rw [hpath]
      exact splitPath_withoutBlanks hchars
    have hleads :=
      Binder.leads_of_lookup (h.complete hvariable _ hcomplete hholds) htarget hsplit
    rw [h.anchor hvariable] at hleads
    exact hleads

/-! ## Symbols -/

theorem SymbolTable.id_eq_of_start_eq {t : SymbolTable}
    (hcount : ∀ p, SymbolOver.countAt p t ≤ 1) {id id' : SymbolId} {e e' : Entry}
    (he : t.entries[id]? = some e) (he' : t.entries[id']? = some e')
    (hstart : e.span.start = e'.span.start) : id = id' := by
  have hnodup : (t.entries.map (·.span.start)).Nodup := List.nodup_iff_count.mpr hcount
  have hlt : (id : Nat) < (t.entries.map (·.span.start)).length := by
    rw [List.length_map]
    exact (List.getElem?_eq_some_iff.mp he).1
  refine (List.getElem?_inj hlt hnodup).mp ?_
  rw [List.getElem?_map, List.getElem?_map, he, he', Option.map_some, Option.map_some, hstart]

/-- The symbol that was made for a local: it stands where the local does, as no other symbol. -/
structure SymbolTable.MadeFor (t : SymbolTable) (id : SymbolId) (d : Decl) : Prop where
  symbol : ∃ x, t.symbol? id = some x ∧ x.name = d.ident.name ∧ x.span = d.ident.span ∧
    x.isLocal = true
  only : ∀ id' x, t.symbol? id' = some x → x.span.start = d.ident.span.start → id' = id

theorem SymbolTable.madeFor_of_entry {t : SymbolTable}
    (hcount : ∀ p, SymbolOver.countAt p t ≤ 1) {id : SymbolId} {d : Decl}
    (hentry : t.entries[id]? = some d.entry) (hlocal : d.entry.isLocal = true) :
    t.MadeFor id d := by
  have hsymbol := hentry
  rw [SymbolTableOver.entries_getElem?] at hsymbol
  obtain ⟨x, hx, hsame⟩ := Option.map_eq_some_iff.mp hsymbol
  refine ⟨⟨x, hx, congrArg Entry.name hsame, congrArg Entry.span hsame, ?_⟩, ?_⟩
  · exact (congrArg Entry.isLocal hsame).trans hlocal
  · intro id' x' hx' hstart
    have hother : t.entries[id']? = some x'.entry := by
      rw [SymbolTableOver.entries_getElem?, hx', Option.map_some]
    exact SymbolTable.id_eq_of_start_eq hcount hother hentry hstart

/-! ## The finished index -/

namespace Index

variable {document : DocumentId} {revision : Revision} {text : String} {options : ParserOptions}
  {loader : Loader σ} {world : σ} {chunk : Chunk}

/-- A finished index holds what the walk left behind, after the references without a target were
looked up once more. -/
theorem build_walked (htext : Chunk.ofChars? text.toList = some chunk) (document : DocumentId)
    (revision : Revision) (options : ParserOptions) (loader : Loader σ) (world : σ) :
    let s : Setting σ := ⟨.ofString text, document, options.allowDefined, loader⟩
    (Index.build document revision text options loader world).1.table =
        (chunk.walked s world).table ∧
      (Index.build document revision text options loader world).1.references =
        (chunk.walked s world).references.map (chunk.walked s world).resolveLate ∧
      (Index.build document revision text options loader world).1.exports =
        (chunk.walked s world).exports := by
  have hchars : Chunk.ofChars? (Source.ofString text).chars = some chunk := htext
  unfold Index.build
  simp only [hchars]
  exact ⟨rfl, rfl, rfl⟩

theorem build_eq (htext : Chunk.ofChars? text.toList = some chunk) (document : DocumentId)
    (revision : Revision) (options : ParserOptions) (loader : Loader σ) (world : σ) :
    ∃ s : Setting σ, s.source = .ofString text ∧ s.allowDefined = options.allowDefined ∧
      (Index.build document revision text options loader world).1.table =
        (chunk.walked s world).table ∧
      (Index.build document revision text options loader world).1.references =
        (chunk.walked s world).references.map (chunk.walked s world).resolveLate := by
  obtain ⟨htable, hreferences, -⟩ := build_walked htext document revision options loader world
  exact ⟨_, rfl, rfl, htable, hreferences⟩

/-- A reference at a variable leads where the use is linked to. -/
theorem leads_of_use (htext : Chunk.ofChars? text.toList = some chunk)
    (hnesting : chunk.nesting ≤ maxDepth) {r : Reference} {u : Use}
    (hr : r ∈ (Index.build document revision text options loader world).1.references)
    (hu : u ∈ chunk.uses) (hvariable : u.isVariable = true) (hspan : r.span = u.ident.span) :
    (Index.build document revision text options loader world).1.table.Leads r.target
      (u.link options.allowDefined) := by
  obtain ⟨s, hsource, hallow, htable, hreferences⟩ :=
    build_eq htext document revision options loader world
  have hvisit := chunk.walked_visit s world htext hnesting
  rw [hreferences, Array.mem_map] at hr
  obtain ⟨r, hmem, rfl⟩ := hr
  obtain ⟨new, hnew, hanswers⟩ := hvisit.references
  rw [← Array.mem_toList_iff, hnew] at hmem
  obtain ⟨u', hu', hanswer⟩ := hanswers r hmem
  -- The use that it answers is the one that stands there.
  have hsame : u' = u := by
    refine chunk.uses_within.eq_of_start_eq (Chunk.sites_ascending htext) hu' hu ?_
    rw [← hanswer.span, ← Binder.resolveLate_span, hspan]
  subst hsame
  obtain ⟨hslice, hname⟩ := Chunk.slice_of_mem_sites htext (chunk.uses_within.site_mem hu)
  have hslice : s.text u'.ident.span = u'.ident.name.toList := by
    unfold Setting.text
    rw [hsource]
    exact hslice
  rw [htable, ← hallow]
  refine hanswer.leads hvariable ⟨fun _ _ he => he, fun i sc _ hsc => ⟨sc, hsc, rfl, rfl⟩⟩ ?_
    hslice hname
  exact chunk.walked_holds s world htext hnesting

theorem build_countAt (htext : Chunk.ofChars? text.toList = some chunk)
    (hnesting : chunk.nesting ≤ maxDepth) (p : Nat) :
    SymbolOver.countAt p (Index.build document revision text options loader world).1.table ≤ 1 := by
  obtain ⟨s, _, _, htable, _⟩ := build_eq htext document revision options loader world
  rw [htable]
  exact chunk.walked_countAt s world htext hnesting p

/-- A use that is bound to a local leads to the symbol of that local. -/
theorem leads_to_binding (htext : Chunk.ofChars? text.toList = some chunk)
    (hnesting : chunk.nesting ≤ maxDepth) {r : Reference} {u : Use} {d : Decl}
    (hr : r ∈ (Index.build document revision text options loader world).1.references)
    (hu : u ∈ chunk.uses) (hvariable : u.isVariable = true) (hspan : r.span = u.ident.span)
    (hbinding : u.binding = some d) :
    ∃ id, r.target = some (.here id) ∧
      (Index.build document revision text options loader world).1.table.MadeFor id d := by
  have hleads := leads_of_use htext hnesting hr hu hvariable hspan
  obtain ⟨hfind, hlocal⟩ := Use.find?_levels_of_binding hbinding options.allowDefined
  have hlink : u.link options.allowDefined = some d.entry := by
    unfold Use.link
    rw [hfind]
  rw [hlink] at hleads
  obtain ⟨_, htarget, hfinds⟩ := hleads
  obtain ⟨id, rfl, hentry⟩ := SymbolTableOver.finds_some.mp hfinds
  exact ⟨id, htarget, SymbolTable.madeFor_of_entry (build_countAt htext hnesting) hentry hlocal⟩

/-- The condition of a `repeat` sees the local of its block, whose own initial value does not. -/
theorem leads_to_binding_of_repeat :
    ∃ r ∈ (Index.buildAlone ⟨"a"⟩ 0 "local x = 1 repeat local x = x until x" {}).references,
      r.span = ⟨37, 38⟩ ∧ ∃ id, r.target = some (.here id) ∧
        (Index.buildAlone ⟨"a"⟩ 0 "local x = 1 repeat local x = x until x" {}).table.MadeFor id
          ⟨⟨"x", ⟨25, 26⟩⟩, .local⟩ := by
  have hparsed :
      (Chunk.ofChars? "local x = 1 repeat local x = x until x".toList).isSome = true := by
    decide +kernel
  have hnesting : ∀ chunk ∈ Chunk.ofChars? "local x = 1 repeat local x = x until x".toList,
      chunk.nesting ≤ maxDepth := by
    decide +kernel
  have huse : ∀ chunk ∈ Chunk.ofChars? "local x = 1 repeat local x = x until x".toList,
      ∃ u ∈ chunk.uses, u.isVariable = true ∧ u.ident.span = ⟨37, 38⟩ ∧
        u.binding = some ⟨⟨"x", ⟨25, 26⟩⟩, .local⟩ := by
    decide +kernel
  have hreference : ∃ r ∈ (Index.buildAlone ⟨"a"⟩ 0
      "local x = 1 repeat local x = x until x" {}).references.toList, r.span = ⟨37, 38⟩ := by
    decide +kernel
  obtain ⟨chunk, htext⟩ := Option.isSome_iff_exists.mp hparsed
  obtain ⟨u, hu, hvariable, hspan, hbinding⟩ := huse chunk htext
  obtain ⟨r, hr, hplace⟩ := hreference
  have hr := Array.mem_toList_iff.mp hr
  exact ⟨r, hr, hplace, leads_to_binding htext (hnesting chunk htext) hr hu hvariable
    (hplace.trans hspan.symm) hbinding⟩

/-! ### Uses of globals -/

/-- The symbol that a reference leads to, in whichever index that is. -/
def symbolAt (i : Index) (r : Reference) : Option Symbol :=
  r.target.bind fun link => ((Home.here i.table).follow link).symbol?

theorem symbolAt_of_leads {i : Index} {r : Reference} {link : Option Entry}
    (h : i.table.Leads r.target link) : (i.symbolAt r).map SymbolOver.entry = link := by
  obtain ⟨found, htarget, hfinds⟩ := h
  unfold symbolAt
  rw [htarget]
  cases link with
  | none =>
    rw [SymbolTableOver.finds_none.mp hfinds]
    rfl
  | some e =>
    obtain ⟨id, rfl, hentry⟩ := SymbolTableOver.finds_some.mp hfinds
    rw [SymbolTableOver.entries_getElem?] at hentry
    exact hentry

/-- A use of a global leads to a local exactly when the look back from the end of the text captures
it, and then to what it was captured by. -/
theorem leads_to_local_iff_captured (htext : Chunk.ofChars? text.toList = some chunk)
    (hnesting : chunk.nesting ≤ maxDepth) {r : Reference} {u : Use}
    (hr : r ∈ (Index.build document revision text options loader world).1.references)
    (hu : u ∈ chunk.uses) (hvariable : u.isVariable = true) (hspan : r.span = u.ident.span)
    (e : Entry) :
    (u.binding = none ∧ ∃ x, x.entry = e ∧ x.isLocal = true ∧
      (Index.build document revision text options loader world).1.symbolAt r = some x) ↔
      u.capturedBy options.allowDefined = some e := by
  have hentry := symbolAt_of_leads (leads_of_use htext hnesting hr hu hvariable hspan)
  rw [Use.capturedBy_eq_some, ← hentry]
  refine and_congr_right fun _ => ⟨?_, ?_⟩
  · rintro ⟨x, rfl, hlocal, hx⟩
    exact ⟨by rw [hx, Option.map_some], hlocal⟩
  · rintro ⟨hmap, hlocal⟩
    obtain ⟨x, hx, rfl⟩ := Option.map_eq_some_iff.mp hmap
    exact ⟨x, rfl, hlocal, hx⟩

/-- In a block, a local captures the uses of a global in front of it. -/
theorem captured_by_later_local :
    ∃ r ∈ (Index.buildAlone ⟨"a"⟩ 0 "do print(y) local y = 1 end" {}).references,
      r.span = ⟨9, 10⟩ ∧ ∃ x : Symbol, x.entry = ⟨"y", ⟨18, 19⟩, true⟩ ∧ x.isLocal = true ∧
        (Index.buildAlone ⟨"a"⟩ 0 "do print(y) local y = 1 end" {}).symbolAt r = some x := by
  have hparsed : (Chunk.ofChars? "do print(y) local y = 1 end".toList).isSome = true := by
    decide +kernel
  have hnesting : ∀ chunk ∈ Chunk.ofChars? "do print(y) local y = 1 end".toList,
      chunk.nesting ≤ maxDepth := by
    decide +kernel
  have huse : ∀ chunk ∈ Chunk.ofChars? "do print(y) local y = 1 end".toList,
      ∃ u ∈ chunk.uses, u.isVariable = true ∧ u.ident.span = ⟨9, 10⟩ ∧
        u.capturedBy false = some ⟨"y", ⟨18, 19⟩, true⟩ := by
    decide +kernel
  have hreference : ∃ r ∈ (Index.buildAlone ⟨"a"⟩ 0
      "do print(y) local y = 1 end" {}).references.toList, r.span = ⟨9, 10⟩ := by
    decide +kernel
  obtain ⟨chunk, htext⟩ := Option.isSome_iff_exists.mp hparsed
  obtain ⟨u, hu, hvariable, hspan, hcaptured⟩ := huse chunk htext
  obtain ⟨r, hr, hplace⟩ := hreference
  have hr := Array.mem_toList_iff.mp hr
  have hleads := (leads_to_local_iff_captured htext (hnesting chunk htext) hr hu hvariable
    (hplace.trans hspan.symm) ⟨"y", ⟨18, 19⟩, true⟩).mpr hcaptured
  exact ⟨r, hr, hplace, hleads.2⟩

/-- The initial value of a local is no use of that local, but its reference leads to it. -/
theorem initial_value_leads_to_new_local :
    ∃ chunk, Chunk.ofChars? "local x = x".toList = some chunk ∧ chunk.nesting ≤ maxDepth ∧
      ∃ u ∈ chunk.uses, u.isVariable = true ∧ u.binding = none ∧
        ∃ r ∈ (Index.buildAlone ⟨"a"⟩ 0 "local x = x" {}).references.toList,
          r.span = u.ident.span ∧
          ((Index.buildAlone ⟨"a"⟩ 0 "local x = x" {}).symbolAt r).any (·.isLocal) = true := by
  have hparsed : (Chunk.ofChars? "local x = x".toList).isSome = true := by decide +kernel
  have hcaptured : ∀ chunk ∈ Chunk.ofChars? "local x = x".toList, chunk.nesting ≤ maxDepth ∧
      ∃ u ∈ chunk.uses, u.isVariable = true ∧ u.binding = none ∧
        ∃ r ∈ (Index.buildAlone ⟨"a"⟩ 0 "local x = x" {}).references.toList,
          r.span = u.ident.span ∧
          ((Index.buildAlone ⟨"a"⟩ 0 "local x = x" {}).symbolAt r).any (·.isLocal) = true := by
    decide +kernel
  obtain ⟨chunk, htext⟩ := Option.isSome_iff_exists.mp hparsed
  exact ⟨chunk, htext, hcaptured chunk htext⟩

end Index

end LuaScope

import LuaScope.Proofs.Editor.Occurrence
import LuaScope.Proofs.Naming.Walk
import LuaScope.Proofs.Syntax.Path
import LuaScope.Proofs.Text.Replace

/-!
# LuaScope.Proofs.Naming.Index

Where the names of a finished index stand in its text.

* `Index.noted_once`          — at a mentioned name stands exactly one symbol or reference if the
  mention counts, and none otherwise.
* `Index.single_name_stands`  — a reference whose text is a single name stands at a variable, at the
  name of a member of what is no path, or at the attribute of undeclared globals.
* `Index.builtin_not_noted`, `Index.key_recorded` — so a callee `setmetatable` is left out although
  it is a variable, and the `x` of `f().x` leads to a local `x` although it is none.
-/

namespace LuaScope

variable {σ : Type}

namespace Chunk

variable {chunk : Chunk} {cs : List Char}

theorem walked_notes (s : Setting σ) (chunk : Chunk) (world : σ) :
    Binder.Notes s (chunk.nesting ≤ maxDepth) chunk.mentions (.start s.source world)
      (chunk.walked s world) :=
  Walk.statements_notes chunk.statements 1 (fun hnesting => Nat.add_comm _ 1 ▸
    Nat.succ_le_succ hnesting) _

/-- A mentioned name covers text. -/
theorem isEmpty_of_mention (h : Chunk.ofChars? cs = some chunk) {m : Mention}
    (hm : m ∈ chunk.mentions) {ident : Ident} (hident : ident ∈ m.path) :
    ident.span.isEmpty = false := by
  obtain ⟨ls, hls, hlexemes⟩ := Chunk.ofChars?_eq_some_iff.mp h
  obtain ⟨hslice, -, hne⟩ := (chunk.mentions_written hlexemes hm).slice hls ident hident
  refine Bool.eq_false_iff.mpr fun hempty => hne ?_
  rw [← hslice, ← beq_iff_eq.mp hempty, Nat.sub_self, takeBytes_zero]

/-- No two symbols or references stand at one span. -/
theorem walked_spans (s : Setting σ) (world : σ) (hlines : s.source.lines = LineTable.ofChars cs)
    (h : Chunk.ofChars? cs = some chunk) :
    ((chunk.walked s world).spots.map Spot.span).Nodup := by
  obtain ⟨hnodup, hsites⟩ := chunk.walked_spots s world hlines h
  refine hnodup.map_on fun p hp p' hp' heq => ?_
  obtain ⟨site, -, rfl⟩ := hsites p hp
  obtain ⟨site', -, rfl⟩ := hsites p' hp'
  cases site <;> cases site' <;> exact congrArg s.source.spot heq

end Chunk

namespace Index

variable {document : DocumentId} {revision : Revision} {text : String} {options : ParserOptions}
  {loader : Loader σ} {world : σ} {chunk : Chunk}

/--
In a text that is not nested too deep exactly one symbol or one reference stands at each name of a
mention that counts, never both. At a callee with a rule of its own, and at the name of a member
that is assigned to behind what is no path, stands neither.
-/
theorem noted_once (htext : Chunk.ofChars? text.toList = some chunk)
    (hnesting : chunk.nesting ≤ maxDepth) {m : Mention} (hm : m ∈ chunk.mentions) {ident : Ident}
    (hident : ident ∈ m.path) :
    let i := (Index.build document revision text options loader world).1
    (i.table.symbols.toList.map SymbolOver.span).count ident.span +
        (i.references.toList.map ReferenceOver.span).count ident.span =
      if m.standing.isNoted then 1 else 0 := by
  intro i
  obtain ⟨s, hsource, hspots⟩ :=
    Index.occurrences_spots htext document revision options loader world
  have hlines : s.source.lines = LineTable.ofChars text.toList := by rw [hsource]; rfl
  have hspans : i.table.symbols.toList.map SymbolOver.span ++
      i.references.toList.map ReferenceOver.span =
        (chunk.walked s world).spots.map Spot.span := by
    rw [← hspots, occurrences, List.map_append, List.map_append, List.map_map, List.map_map,
      List.map_map, List.map_map]
    rfl
  rw [← List.count_append, hspans]
  have hnodup := chunk.walked_spans s world hlines htext
  have hnotes := chunk.walked_notes s world
  split
  · rename_i hnoted
    refine List.count_eq_one_of_mem hnodup ?_
    exact List.mem_map_of_mem (f := Spot.span) (hnotes.whole hnesting m hm hnoted ident hident)
  · rename_i hnoted
    refine List.count_eq_zero.mpr fun hmem => ?_
    obtain ⟨p, hp, hspan⟩ := List.mem_map.mp hmem
    rcases hnotes.stands p hp with hstart | hempty | ⟨m', hm', hnoted', ident', hident', rfl⟩
    · cases hstart
    · rw [hspan, Chunk.isEmpty_of_mention htext hm hident] at hempty
      cases hempty
    · have hsame := Chunk.mention_eq_of_start_eq htext hm' hm hident' hident
        (congrArg Span.start hspan)
      exact hnoted (hsame.1 ▸ hnoted')

/-- Both names of a path count, and the name of a callee with a rule of its own does not. -/
theorem noted_once_of_path :
    let text := "local t = {} require('m') print(t.x)"
    let i := Index.buildAlone ⟨"file:///a.lua"⟩ 1 text {}
    ∃ chunk, Chunk.ofChars? text.toList = some chunk ∧
      ∃ m ∈ chunk.mentions, m.path = [⟨"t", ⟨32, 33⟩⟩, ⟨"x", ⟨34, 35⟩⟩] ∧ m.standing = .variable ∧
        ∀ ident ∈ m.path, (i.table.symbols.toList.map SymbolOver.span).count ident.span +
          (i.references.toList.map ReferenceOver.span).count ident.span = 1 := by
  intro text i
  have hparsed : (Chunk.ofChars? text.toList).isSome = true := by decide +kernel
  have hnesting : ∀ chunk ∈ Chunk.ofChars? text.toList, chunk.nesting ≤ maxDepth := by
    decide +kernel
  have hmention : ∀ chunk ∈ Chunk.ofChars? text.toList, ∃ m ∈ chunk.mentions,
      m.path = [⟨"t", ⟨32, 33⟩⟩, ⟨"x", ⟨34, 35⟩⟩] ∧ m.standing = .variable := by
    decide +kernel
  obtain ⟨chunk, htext⟩ := Option.isSome_iff_exists.mp hparsed
  obtain ⟨m, hm, hpath, hstanding⟩ := hmention chunk htext
  refine ⟨chunk, htext, m, hm, hpath, hstanding, fun ident hident => ?_⟩
  have honce : (i.table.symbols.toList.map SymbolOver.span).count ident.span +
      (i.references.toList.map ReferenceOver.span).count ident.span =
        if m.standing.isNoted then 1 else 0 :=
    noted_once htext (hnesting chunk htext) hm hident
  rw [hstanding] at honce
  exact honce

/-- A local `setmetatable` is a variable as any other; where it is called neither a symbol nor a
reference stands. -/
theorem builtin_not_noted :
    let text := "local setmetatable = 1 setmetatable({}, {})"
    let i := Index.buildAlone ⟨"file:///a.lua"⟩ 1 text {}
    ∃ chunk ∈ Chunk.ofChars? text.toList, chunk.nesting ≤ maxDepth ∧
      (∃ u ∈ chunk.uses, u.isVariable = true ∧ u.ident = ⟨"setmetatable", ⟨23, 35⟩⟩) ∧
      (∀ x ∈ i.table.symbols.toList, x.span ≠ ⟨23, 35⟩) ∧
      ∀ r ∈ i.references.toList, r.span ≠ ⟨23, 35⟩ := by
  decide +kernel

/--
A reference whose text is a single name stands at a variable of that name, or else at the name of a
member of what is no path, or at the attribute of all globals that are not declared.
-/
theorem single_name_stands (htext : Chunk.ofChars? text.toList = some chunk) {r : Reference}
    (hr : r ∈ (Index.build document revision text options loader world).1.references)
    (hsingle : ∀ c ∈ r.text.toList, c ≠ '.' ∧ c ≠ ':') :
    ∃ m ∈ chunk.mentions, ∃ ident, m.path.head? = some ident ∧ r.span = ident.span ∧
      r.text = withoutBlanks ident.name ∧
      (m.standing = .variable ∨ m.standing = .key ∨ m.standing = .attribute) := by
  obtain ⟨ls, hls, hlexemes⟩ := Chunk.ofChars?_eq_some_iff.mp htext
  obtain ⟨s, hsource, _, _, hreferences⟩ := build_eq htext document revision options loader world
  rw [hreferences, Array.mem_map] at hr
  obtain ⟨r, hr, rfl⟩ := hr
  obtain ⟨target, hlate⟩ := (chunk.walked s world).resolveLate_eq r
  rw [hlate] at hsingle ⊢
  rcases (chunk.walked_notes s world).records r hr with hstart | ⟨m, hm, hrecords⟩
  · exact absurd hstart (Array.not_mem_empty r)
  obtain ⟨hrecorded, front, first, last, ⟨behind, hpath⟩, hfirst, hspan, hrtext⟩ := hrecords
  have hslice : ∀ span, s.text span =
      takeBytes (dropBytes text.toList span.start) (span.stop - span.start) := by
    intro span
    rw [Setting.text, hsource]
    rfl
  have hwritten : Written ls (.path (front ++ [last])) :=
    Written.front (hpath ▸ chunk.mentions_written hlexemes hm) (by simp)
  have hfront : front = [] := by
    by_contra hne
    obtain ⟨first', last', hfirst', hlast', hwhole⟩ := hwritten.pathText hls
    obtain rfl := Option.some.inj (hfirst.symm.trans hfirst')
    obtain rfl := Option.some.inj (List.getLast?_concat.symm.trans hlast')
    obtain ⟨c, hc, hmark⟩ := hwhole.mark_mem hne
    have hkept : c ∈ r.text.toList := by
      rw [hrtext, Setting.pathText, String.toList_ofList, List.mem_filter, hslice]
      exact ⟨hc, by rcases hmark with rfl | rfl <;> decide⟩
    rcases hmark with rfl | rfl
    · exact (hsingle _ hkept).1 rfl
    · exact (hsingle _ hkept).2 rfl
  subst hfront
  obtain rfl : last = first := Option.some.inj hfirst
  have hhead : m.path.head? = some last := by
    rw [← hpath]
    rfl
  have hsite := Chunk.site_of_mention hm (List.mem_of_head? hhead)
  refine ⟨m, hm, last, hhead, hspan, ?_, ?_⟩
  · have hname := (Chunk.slice_of_mem_sites htext hsite).1
    rw [← hslice] at hname
    rw [hrtext]
    exact congrArg (fun cs => String.ofList (cs.filter fun c => !isBlank c)) hname
  · cases hstanding : m.standing <;> simp_all [Standing.isRecorded]

/-- The text of the reference at `x` is a path, that of the one at `t` is not. -/
theorem single_name_stands_of_path :
    let text := "local t = {} print(t.x)"
    let i := Index.buildAlone ⟨"file:///a.lua"⟩ 1 text {}
    ∃ chunk, Chunk.ofChars? text.toList = some chunk ∧ ∃ r ∈ i.references, r.text = "t" ∧
      ∃ m ∈ chunk.mentions, ∃ ident, m.path.head? = some ident ∧ r.span = ident.span ∧
        r.text = withoutBlanks ident.name ∧
        (m.standing = .variable ∨ m.standing = .key ∨ m.standing = .attribute) := by
  intro text i
  have hparsed : (Chunk.ofChars? text.toList).isSome = true := by decide +kernel
  have hreference : ∃ r ∈ i.references.toList, r.text = "t" := by decide +kernel
  obtain ⟨chunk, htext⟩ := Option.isSome_iff_exists.mp hparsed
  obtain ⟨r, hr, hname⟩ := hreference
  have hr := Array.mem_toList_iff.mp hr
  have hsingle : ∀ c ∈ "t".toList, c ≠ '.' ∧ c ≠ ':' :=
    List.forall_mem_singleton.mpr (by decide)
  rw [← hname] at hsingle
  exact ⟨chunk, htext, r, hr, hname, single_name_stands htext hr hsingle⟩

/-- The `x` of `f().x` is no variable, and the reference there leads to the local `x`. -/
theorem key_recorded :
    let text := "local x = 1 print(f().x)"
    let i := Index.buildAlone ⟨"file:///a.lua"⟩ 1 text {}
    (∃ chunk ∈ Chunk.ofChars? text.toList,
        (∀ u ∈ chunk.uses, u.isVariable = true → u.ident.span ≠ ⟨22, 23⟩) ∧
        ∃ m ∈ chunk.mentions, m.path = [⟨"x", ⟨22, 23⟩⟩] ∧ m.standing = .key) ∧
      ∃ r ∈ i.references.toList, r.text = "x" ∧ r.span = ⟨22, 23⟩ ∧
        ∃ link ∈ r.target, link.isLocal = true ∧
          (i.symbol? link.id).map (·.span) = some ⟨6, 7⟩ := by
  decide +kernel

end Index

end LuaScope

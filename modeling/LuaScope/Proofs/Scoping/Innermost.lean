import LuaScope.Proofs.Editor.Edits
import LuaScope.Proofs.Linking.Resolved
import LuaScope.Proofs.Scoping.Regions
import LuaScope.Proofs.Symbol.Walked
import LuaScope.Proofs.Syntax.Gap

/-!
# LuaScope.Proofs.Scoping.Innermost

Where a query finds the scope of a name again, in the finished index of any text.

* `Chunk.walked_found`           — all that a walk over a text binds is found from where it stands.
* `Index.resolve_where_declared` — at the start of a declared name a query is in the scope of its
  declaration, and the name means that very symbol there.
* `Index.scopeAt_reference`      — at a reference a query is in the scope that was recorded, but in
  the loop if the reference stands in front of the body of a loop and inside of its scope.
-/

namespace LuaScope

open SymbolTableOver

variable {σ : Type}

/-! ## The end of a way down -/

namespace SymbolTableOver

variable {ρ : Type} {t : SymbolTableOver ρ} {offset : Nat} {id last : ScopeId}

/-- None of the children of the last scope contains the offset. -/
theorem Descends.stops (h : t.Descends offset id last) :
    ∃ s, t.scope? last = some s ∧ t.childAt s offset = none := by
  induction h with
  | stop hs hnone => exact ⟨_, hs, hnone⟩
  | step _ _ _ ih => exact ih

theorem contains_of_firstAt {ids : List ScopeId} (h : t.firstAt offset ids = some id) :
    ∃ s, t.scope? id = some s ∧ s.span.contains offset = true := by
  have hcontains := List.find?_some h
  split at hcontains
  · exact ⟨_, ‹_›, hcontains⟩
  · cases hcontains

/-- The last scope contains the offset, if it is not the first one. -/
theorem Descends.contains (h : t.Descends offset id last) : last = id ∨
    ∃ s, t.scope? last = some s ∧ s.span.contains offset = true := by
  induction h with
  | stop => exact .inl rfl
  | step _ hchild _ ih =>
    rcases ih with rfl | ih
    · exact .inr (contains_of_firstAt hchild)
    · exact .inr ih

/-- A scope whose parent contains no further one at the offset does not contain it either. -/
theorem Grounded.not_contains (h : t.Grounded) {outer : ScopeId} {around s : Scope}
    (haround : t.scope? outer = some around) (hnone : t.childAt around offset = none)
    (hs : t.scope? id = some s) (hparent : s.parent = some outer) :
    s.span.contains offset = false := by
  obtain ⟨around', haround', hmem⟩ := h.parent hs hparent
  obtain rfl := Option.some.inj (haround.symm.trans haround')
  have haway := List.find?_eq_none.mp hnone id hmem
  rw [hs] at haway
  exact Bool.eq_false_iff.mpr haway

/-- The offset stands in this loop of the scope, be it in its body or in front of it. -/
def LoopAround (t : SymbolTableOver ρ) (scope : ScopeId) (offset : Nat) (loop : ScopeId) : Prop :=
  ∃ s, t.scope? loop = some s ∧ s.kind = .loop ∧ s.parent = some scope ∧
    s.span.contains offset = true

/-- A way down that may end in a loop of the scope does so where such a loop contains the offset. -/
theorem Descends.eq_iff (h : t.Descends offset rootId last) (hgrounded : t.Grounded) {isUse : Bool}
    {scope : ScopeId} (hends : t.EndsFor isUse scope last) :
    (last = scope ↔ ∀ loop, ¬t.LoopAround scope offset loop) ∧
      (last ≠ scope → t.LoopAround scope offset last) := by
  have hloop : last ≠ scope → t.LoopAround scope offset last := by
    intro hne
    obtain ⟨-, s, hs, hkind, hparent⟩ := hends.resolve_left hne
    rcases h.contains with rfl | ⟨s', hs', hcontains⟩
    · obtain ⟨around, haround, hmem⟩ := hgrounded.parent hs hparent
      exact absurd (hgrounded.children haround hmem).1 (Nat.not_lt_zero _)
    · obtain rfl := Option.some.inj (hs.symm.trans hs')
      exact ⟨s, hs, hkind, hparent, hcontains⟩
  refine ⟨⟨?_, fun hnone => ?_⟩, hloop⟩
  · rintro rfl loop ⟨s, hs, -, hparent, hcontains⟩
    obtain ⟨around, haround, hnone⟩ := h.stops
    rw [hgrounded.not_contains haround hnone hs hparent] at hcontains
    cases hcontains
  · by_contra hne
    exact hnone last (hloop hne)

end SymbolTableOver

/-! ## The walk over a text -/

namespace Chunk

variable {chunk : Chunk} {cs : List Char}

/-- The parts of a tree lie in one another and behind one another as its edges say. -/
theorem edges_fit (h : Chunk.ofChars? cs = some chunk) : ∃ stop, Edge.Fits chunk.edges 0 stop := by
  obtain ⟨ls, hls, hlexemes⟩ := ofChars?_eq_some_iff.mp h
  obtain ⟨stop, hrun⟩ := ofLexemes?_eq_some_iff.mp hlexemes
  have hread := (Reader.orders _).statements false _ _ _ trivial hrun
  have htidy := (Lexeme.linedUp hls).suffix (behindShebang_suffix ls)
  exact ⟨stop, hread.fits htidy 0 (Nat.le_refl _)⟩

theorem walked_branches (s : Setting σ) (world : σ) (h : Chunk.ofChars? cs = some chunk) :
    ∃ stop new, (Binder.start s.source world).Branches True (Set.Ico 0 stop) 0 stop new
      (chunk.walked s world) := by
  obtain ⟨stop, hfits⟩ := edges_fit h
  have hplaced : (Binder.start s.source world).Placed := ⟨Nat.zero_lt_one, .new s.source.size⟩
  exact ⟨stop, Walk.statements_settles chunk.statements 1 _ 0 stop hplaced hfits⟩

theorem walked_placed (s : Setting σ) (world : σ) (h : Chunk.ofChars? cs = some chunk) :
    (chunk.walked s world).Placed := by
  obtain ⟨stop, new, hbranches⟩ := walked_branches s world h
  exact hbranches.placed ⟨Nat.zero_lt_one, .new s.source.size⟩

/-- What stands where no other scope ends is found from there. -/
theorem walked_found (s : Setting σ) (world : σ) (h : Chunk.ofChars? cs = some chunk) {isUse : Bool}
    {scope : ScopeId} {offset : Nat} (hstands : (chunk.walked s world).Stands isUse scope offset)
    (hclear : (chunk.walked s world).table.Clear offset scope) :
    ∃ last, (chunk.walked s world).table.Descends offset rootId last ∧
      (chunk.walked s world).table.EndsFor isUse scope last := by
  obtain ⟨stop, new, hbranches⟩ := walked_branches s world h
  have hroot : (Binder.start s.source world).table.scope? rootId = some
      { id := rootId, kind := .chunk, parent := none, span := ⟨0, s.source.size⟩ } := rfl
  rcases hbranches.stands hstands with hstart | hadded
  · -- Nothing stands anywhere when the walk starts.
    cases hstart with
    | symbol _ _ he => cases he
    | use hr => exact absurd hr (Array.not_mem_empty _)
  · obtain ⟨last, hends, hlands⟩ := hadded.found hclear
    obtain ⟨root, hroot', -, -, -, hchildren⟩ := hbranches.gains.own hroot
    exact ⟨last, hlands.descends hroot' hchildren, hends⟩

end Chunk

/-! ## The finished index -/

namespace Index

variable {document : DocumentId} {revision : Revision} {text : String} {options : ParserOptions}
  {loader : Loader σ} {world : σ} {chunk : Chunk}

/-- Without a syntax tree an index holds nothing. -/
theorem build_of_none (htext : Chunk.ofChars? text.toList = none) :
    ∃ diagnostics, (Index.build document revision text options loader world).1 =
      .empty document revision (.ofString text) diagnostics := by
  have hchars : Chunk.ofChars? (Source.ofString text).chars = none := htext
  unfold Index.build
  simp only [hchars]
  exact ⟨_, rfl⟩

/-- The name of a symbol that covers text is one of the text. -/
theorem name_spelled (htext : Chunk.ofChars? text.toList = some chunk) {id : SymbolId} {x : Symbol}
    (hx : (Index.build document revision text options loader world).1.symbol? id = some x)
    (hcovers : x.span.start < x.span.stop) : Spelled x.name ∧ x.name.toList ≠ [] := by
  have hfaithful := build_faithful_alone document revision text options loader world
  refine ⟨(hfaithful.safe.table.symbols hx).name, ?_⟩
  have hspan : x.span.isEmpty = false := by
    simpa [Span.isEmpty] using Nat.ne_of_lt hcovers
  obtain ⟨ls, hls, -⟩ := Chunk.sites_sublist htext
  have hmem := (stands_sublist hx).subset List.mem_cons_self
  obtain ⟨l, hl, hsame, name, htoken⟩ := occurrence_token htext hmem hspan hls
  have hslice : takeBytes (dropBytes text.toList x.span.start) (x.span.stop - x.span.start) =
      name.toList := by
    have hstands := (Lexeme.ofChars_slice hls l hl name htoken).1
    rwa [hsame] at hstands
  rcases hfaithful.symbols hx with ⟨-, hempty⟩ | ⟨hname, -⟩
  · exact absurd hempty (by simp [hspan])
  · rw [build_source] at hname
    obtain ⟨mark, rest, opening, comments, -, hcut⟩ := Lexeme.cut_of_ofChars hls
    obtain ⟨c, _, _, _, hword, -⟩ := hcut.names l hl name htoken
    have hsame : name.toList = x.name.toList := hslice.symm.trans hname
    rw [← hsame, hword]
    exact List.cons_ne_nil _ _

/-- Where a lookup of a name finds a symbol, a query for the name finds it as well, unless a blank
stands at an end of the name; what it then looks up is another name. -/
theorem resolve_spelled_iff {i : Index} {D : Demand} (hsafe : SymbolTable.Safe D i.table)
    {name : String} {offset : Nat} {id : SymbolId}
    (hlookup : i.table.lookup (i.scopeAt offset) name offset = some id)
    (hspelled : Spelled name) (hne : name.toList ≠ []) :
    i.resolve name offset = .found (some ⟨i, id⟩) ↔ trimBlanks name.toList = name.toList := by
  have hpath : splitPath name = if trimBlanks name.toList = [] then []
      else [String.ofList (trimBlanks name.toList)] := by
    rw [splitPath, pathSegments_spelled hspelled]
    split <;> rfl
  constructor
  · intro hresolve
    split at hpath
    · rw [Index.resolve, hpath] at hresolve
      cases hresolve
    · rw [resolve_single hpath, rootOf] at hresolve
      obtain ⟨l, hl, hhandle⟩ := Option.map_eq_some_iff.mp (Resolution.found.inj hresolve)
      obtain ⟨id', hid', rfl⟩ := Option.map_eq_some_iff.mp hl
      obtain rfl : id' = id := congrArg Handle.id hhandle
      obtain ⟨x, hx, hname⟩ := hsafe.names_of_lookup hlookup
      obtain ⟨y, hy, hname'⟩ := hsafe.names_of_lookup hid'
      obtain rfl := Option.some.inj (hx.symm.trans hy)
      rw [← String.toList_ofList (l := trimBlanks name.toList), ← hname', hname]
  · intro htrim
    rw [htrim, if_neg hne, String.ofList_toList] at hpath
    rw [resolve_single hpath, rootOf, hlookup]
    rfl

/--
A symbol whose name covers text, and does not start where a scope ends other than its own: from the
start of its name a query looks in the scope that it was declared in, and what the name means there
is this symbol, however often the name is declared. A query by the name finds it, but for a name with
a blank of Unicode at one of its ends, which Lua takes for a letter and the query for none.
-/
theorem resolve_where_declared (document : DocumentId) (revision : Revision) (text : String)
    (options : ParserOptions) (loader : Loader σ) (world : σ) {scope : ScopeId} {s : Scope}
    {id : SymbolId} {x : Symbol} :
    let i := (Index.build document revision text options loader world).1
    i.table.scope? scope = some s → id ∈ s.symbols → i.symbol? id = some x →
    x.span.start < x.span.stop → i.table.Clear x.span.start scope →
    i.scopeAt x.span.start = scope ∧
      i.table.lookup scope x.name x.span.start = some id ∧
      (i.resolve x.name x.span.start = .found (some ⟨i, id⟩) ↔
        trimBlanks x.name.toList = x.name.toList) := by
  intro i hs hid hx hcovers hclear
  cases htext : Chunk.ofChars? text.toList with
  | none =>
    obtain ⟨diagnostics, hempty⟩ := build_of_none htext
    rw [show i = _ from hempty] at hx
    cases hx
  | some chunk =>
    obtain ⟨setting, hsource, -, htable, -⟩ :=
      build_eq htext document revision options loader world
    have htable : i.table = (chunk.walked setting world).table := htable
    have hscope : i.scopeAt x.span.start = scope := by
      rw [Index.symbol?, htable] at hx
      rw [htable] at hs hclear
      have hentry : (chunk.walked setting world).table.entries[id]? = some x.entry := by
        rw [entries_getElem?, hx, Option.map_some]
      have hstands : (chunk.walked setting world).Stands false scope x.span.start :=
        .symbol hs hid hentry hcovers
      obtain ⟨last, hdescends, rfl | ⟨huse, -⟩⟩ :=
        chunk.walked_found setting world htext hstands hclear
      · rw [scopeAt, htable]
        exact hdescends.innermostScope_eq (chunk.walked_placed setting world htext).grounded
      · cases huse
    have hlookup : i.table.lookup scope x.name x.span.start = some id := by
      have hlines : setting.source.lines = LineTable.ofChars text.toList := by
        rw [hsource]
        rfl
      rw [Index.symbol?, htable] at hx
      rw [htable] at hs ⊢
      exact (chunk.walked_arises setting world).lookup_here hs hid hx
        fun id' y hy => chunk.walked_starts setting world hlines htext hx hy
    obtain ⟨hspelled, hne⟩ := name_spelled htext hx hcovers
    have hsafe := (build_faithful_alone document revision text options loader world).safe.table
    refine ⟨hscope, hlookup, resolve_spelled_iff hsafe ?_ hspelled hne⟩
    rw [hscope]
    exact hlookup

/-- The second `x` of the block is another symbol than the first one, and than the one around. -/
theorem resolve_where_redeclared :
    let i := Index.buildAlone ⟨"file:///a.lua"⟩ 1 "local x = 1 do local x = 2 local x = 3 end" {}
    i.scopeAt 33 = 1 ∧ i.table.lookup 1 "x" 33 = some 2 ∧
      i.resolve "x" 33 = .found (some ⟨i, 2⟩) := by
  intro i
  have hfacts : ∃ s ∈ i.table.scope? 1, 2 ∈ s.symbols ∧ ∃ x ∈ i.symbol? 2, x.name = "x" ∧
      x.span = ⟨33, 34⟩ ∧ i.table.Clear 33 1 := by
    decide +kernel
  obtain ⟨s, hs, hid, x, hx, hname, hspan, hclear⟩ := hfacts
  have hstart : x.span.start = 33 := congrArg Span.start hspan
  have hcovers : x.span.start < x.span.stop := by
    rw [hspan]
    decide
  obtain ⟨hscope, hlookup, hresolve⟩ :=
    resolve_where_declared ⟨"file:///a.lua"⟩ 1 "local x = 1 do local x = 2 local x = 3 end" {}
      Loader.none () hs hid hx hcovers (hstart ▸ hclear)
  rw [hname, hstart] at hresolve
  rw [hstart] at hscope
  rw [hname, hstart] at hlookup
  exact ⟨hscope, hlookup, hresolve.mpr (by decide)⟩

/-- A query by a name takes the no-break space in front of it for none of its letters. -/
theorem resolve_misses_blank_name :
    let i := Index.buildAlone ⟨"file:///a.lua"⟩ 1 "local \u00a0x = 1" {}
    ∃ s ∈ i.table.scope? 0, 0 ∈ s.symbols ∧ ∃ x ∈ i.symbol? 0, x.name = "\u00a0x" ∧
      x.span = ⟨6, 9⟩ ∧ i.table.Clear 6 0 ∧ i.scopeAt 6 = 0 ∧
      (i.resolve x.name 6).first?.isNone = true := by
  decide +kernel

/-! ### References -/

/-- A reference whose first name does not start where a scope ends other than its own: a query there
looks in the scope that was recorded with it, except in a loop of that scope; then it looks in the
loop. Such a reference was recorded in front of the loop, in the header of a `for`. -/
theorem scopeAt_reference (document : DocumentId) (revision : Revision) (text : String)
    (options : ParserOptions) (loader : Loader σ) (world : σ) {r : Reference} :
    let i := (Index.build document revision text options loader world).1
    r ∈ i.references → i.table.Clear r.anchor r.scope →
    (i.scopeAt r.anchor = r.scope ↔ ∀ loop, ¬i.table.LoopAround r.scope r.anchor loop) ∧
      (i.scopeAt r.anchor ≠ r.scope →
        i.table.LoopAround r.scope r.anchor (i.scopeAt r.anchor)) := by
  intro i hr hclear
  cases htext : Chunk.ofChars? text.toList with
  | none =>
    obtain ⟨diagnostics, hempty⟩ := build_of_none htext
    rw [show i = _ from hempty] at hr
    exact absurd hr (Array.not_mem_empty r)
  | some chunk =>
    obtain ⟨setting, -, -, htable, hreferences⟩ :=
      build_eq htext document revision options loader world
    have htable : i.table = (chunk.walked setting world).table := htable
    rw [show i.references = _ from hreferences, Array.mem_map] at hr
    obtain ⟨r, hr, rfl⟩ := hr
    obtain ⟨target, heq⟩ := (chunk.walked setting world).resolveLate_eq r
    rw [heq] at hclear ⊢
    rw [htable] at hclear
    obtain ⟨last, hdescends, hends⟩ :=
      chunk.walked_found setting world htext (.use hr) hclear
    have hgrounded := (chunk.walked_placed setting world htext).grounded
    have hlast : i.scopeAt r.anchor = last := by
      rw [scopeAt, htable]
      exact hdescends.innermostScope_eq hgrounded
    rw [hlast, htable]
    exact hdescends.eq_iff hgrounded hends

/-- The scope of a `while` covers its body alone. -/
example : (Index.buildAlone ⟨"file:///a.lua"⟩ 1 "local n = 1 while n do end" {}).scopeAt 18 = 0 := by
  decide +kernel

/-- In the body of a loop a query is in the scope of the loop, as the references there are. -/
theorem scopeAt_reference_of_body :
    let i := Index.buildAlone ⟨"file:///a.lua"⟩ 1 "for i = 1, 2 do print(i) end" {}
    ∃ r ∈ i.references, r.anchor = 22 ∧ r.scope = 1 ∧ i.scopeAt 22 = 1 := by
  intro i
  have hfacts : (∃ r ∈ i.references.toList, r.anchor = 22 ∧ r.scope = 1) ∧ i.table.Clear 22 1 ∧
      ∀ s ∈ i.table.scopes.toList, s.parent ≠ some 1 := by
    decide +kernel
  obtain ⟨⟨r, hr, hanchor, hscope⟩, hclear, hinner⟩ := hfacts
  have hr := Array.mem_toList_iff.mp hr
  have hfound := (scopeAt_reference ⟨"file:///a.lua"⟩ 1 "for i = 1, 2 do print(i) end" {}
    Loader.none () hr (hanchor.symm ▸ hscope.symm ▸ hclear)).1.mpr
  rw [hanchor, hscope] at hfound
  refine ⟨r, hr, hanchor, hscope, hfound ?_⟩
  rintro loop ⟨s, hs, -, hparent, -⟩
  exact hinner s (Array.mem_toList_iff.mpr (Array.mem_of_getElem? hs)) hparent

/-- The limit of a loop is read outside of the loop, and so is the reference recorded and linked. A
query there is inside of the loop, and finds the counter. -/
theorem scopeAt_enters_header :
    let i := Index.buildAlone ⟨"file:///a.lua"⟩ 1 "local n = 1 for n = 1, n do end" {}
    ∃ r ∈ i.references.toList, r.anchor = 23 ∧ r.scope = 0 ∧ i.table.Clear 23 0 ∧
      i.scopeAt 23 = 1 ∧ r.target.map (·.id) = some 0 ∧
      (i.resolve r.text 23).first?.map Handle.id = some 1 := by
  decide +kernel

end Index

end LuaScope

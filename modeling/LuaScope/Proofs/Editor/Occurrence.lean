import LuaScope.Proofs.Binding.Spot
import LuaScope.Proofs.Scoping.Links
import LuaScope.Proofs.Text.Lines

/-!
# LuaScope.Proofs.Editor.Occurrence

The occurrences of names that an index knows: the names of its symbols and its references.

* `Index.occurrence_eq_of_start_eq` — no two of them start at one position.
* `Index.symbol_id`                 — each symbol carries the number under which it is found.
-/

namespace LuaScope

variable {σ : Type}

/-- An occurrence of a name, with the symbol of this document that it stands for. -/
structure Occurrence where
  span : Span
  range : Range
  symbol : Option SymbolId
deriving DecidableEq

def SymbolOver.occurrence {ρ : Type} (x : SymbolOver ρ) : Occurrence := ⟨x.span, x.range, some x.id⟩

def ReferenceOver.occurrence {ρ : Type} (r : ReferenceOver ρ) : Occurrence :=
  ⟨r.span, r.range, r.target.bind fun link => if link.isLocal then some link.id else none⟩

def Occurrence.spot (o : Occurrence) : Spot := ⟨o.span, o.range.start⟩

def Index.occurrences (i : Index) : List Occurrence :=
  i.table.symbols.toList.map SymbolOver.occurrence ++
    i.references.toList.map ReferenceOver.occurrence

theorem ReferenceOver.targetsLocal_iff {ρ : Type} {r : ReferenceOver ρ} {id : SymbolId} :
    r.targetsLocal id = true ↔ r.occurrence.symbol = some id := by
  unfold targetsLocal occurrence
  cases r.target with
  | none => exact ⟨nofun, nofun⟩
  | some link => cases hlocal : link.isLocal <;> simp [hlocal]

/-! ## Numbers of symbols -/

/-- Each symbol carries its place in the table. -/
def Binder.Numbered (b : Binder σ) : Prop :=
  ∀ (id : SymbolId) x, b.table.symbol? id = some x → x.id = id

theorem Binder.Numbered.push {b : Binder σ} (h : b.Numbered) {x : Symbol}
    (hid : x.id = b.table.nextSymbolId) {table : SymbolTable}
    (htable : table.symbols = b.table.symbols.push x) :
    Binder.Numbered { b with table := table } := by
  intro id y hy
  simp only [SymbolTableOver.symbol?, htable, Array.getElem?_push] at hy
  split at hy
  · rename_i hlast
    cases hy
    exact hid.trans hlast.symm
  · exact h id y hy

theorem Binder.numberedLaws (s : Setting σ) :
    Binder.Laws s (fun b b' => b.Numbered → b'.Numbered) (fun b b' => b.Numbered → b'.Numbered) where
  refl _ h := h
  trans _ _ _ h h' := h' ∘ h
  outerTrans _ _ _ h h' := h' ∘ h
  weaken _ _ h := h
  record _ _ _ _ h := h
  load _ _ h := h
  modify id f b hf h := by
    intro id' y hy
    simp only [modifySymbol, SymbolTableOver.modifySymbol, SymbolTableOver.symbol?,
      Array.getElem?_modify] at hy
    split at hy
    · obtain ⟨x, hx, rfl⟩ := Option.map_eq_some_iff.mp hy
      rw [hf.id]
      exact h id' x hx
    · exact h id' y hy
  member x b hid h := h.push hid rfl
  declare x b hid _ h := h.push hid rfl
  note value b h := by
    have htable : (b.noteReturn value).table = b.table := by
      unfold noteReturn
      split
      · rfl
      · dsimp only
        split <;> split <;> rfl
    unfold Numbered
    rw [htable]
    exact h
  scope _ _ _ _ h := h
  frame b b' h hb := by
    have htable : b'.popFrame.2.table = b'.table := by
      unfold popFrame
      split <;> rfl
    unfold Numbered
    rw [htable]
    exact h hb

/-! ## The finished index -/

theorem Binder.spot_resolveLate (b : Binder σ) (r : Reference) :
    (b.resolveLate r).spot = r.spot := by
  obtain ⟨target, heq⟩ := b.resolveLate_eq r
  rw [heq]
  rfl

namespace Chunk

variable {chunk : Chunk} {cs : List Char}

theorem walked_numbered (s : Setting σ) (chunk : Chunk) (world : σ) :
    (chunk.walked s world).Numbered :=
  Walk.statements_moves (Binder.numberedLaws s) chunk.statements 1 (.start s.source world) nofun

/-- Two sites of a text do not start at one position. -/
theorem site_eq_of_position_eq (h : Chunk.ofChars? cs = some chunk) {site site' : Site}
    (hsite : site ∈ chunk.sites) (hsite' : site' ∈ chunk.sites)
    (heq : (LineTable.ofChars cs).position site.start =
      (LineTable.ofChars cs).position site'.start) : site = site' := by
  refine List.inj_on_of_nodup_map (Chunk.sites_ascending h).nodup_starts hsite hsite' ?_
  exact LineTable.position_inj (Chunk.start_le_of_mem_sites h hsite)
    (Chunk.start_le_of_mem_sites h hsite') heq

theorem start_spot (source : Source) (site : Site) :
    (site.spot source).start = source.lines.position site.start := by
  cases site <;> rfl

/-- The spots behind the walk are those of sites, each of them once. -/
theorem walked_spots (s : Setting σ) (world : σ) (hlines : s.source.lines = LineTable.ofChars cs)
    (h : Chunk.ofChars? cs = some chunk) :
    (chunk.walked s world).spots.Nodup ∧
      ∀ m ∈ (chunk.walked s world).spots, ∃ site ∈ chunk.sites, m = site.spot s.source := by
  have hfills : ∀ m, (chunk.walked s world).spots.count m ≤
      (chunk.sites.map (Site.spot s.source)).count m := by
    intro m
    have hstart : (Binder.start s.source world).spots.count m = 0 := rfl
    have hwalk := Walk.statements_fills (s := s) chunk.statements 1 (.start s.source world) m
    rwa [hstart, Nat.zero_add] at hwalk
  have hnodup : (chunk.sites.map (Site.spot s.source)).Nodup := by
    refine List.Nodup.map_on (fun site hsite site' hsite' heq => ?_)
      (List.Nodup.of_map _ (Chunk.sites_ascending h).nodup_starts)
    refine site_eq_of_position_eq h hsite hsite' ?_
    rw [← hlines, ← start_spot, ← start_spot, heq]
  refine ⟨List.nodup_iff_count.mpr fun m =>
    Nat.le_trans (hfills m) (List.nodup_iff_count.mp hnodup m), fun m hm => ?_⟩
  have hpos : 0 < (chunk.walked s world).spots.count m := List.count_pos_iff.mpr hm
  obtain ⟨site, hsite, heq⟩ :=
    List.mem_map.mp (List.count_pos_iff.mp (Nat.lt_of_lt_of_le hpos (hfills m)))
  exact ⟨site, hsite, heq.symm⟩

end Chunk

namespace Index

variable {document : DocumentId} {revision : Revision} {text : String} {options : ParserOptions}
  {loader : Loader σ} {world : σ} {chunk : Chunk}

theorem symbol_id (htext : Chunk.ofChars? text.toList = some chunk) {id : SymbolId} {x : Symbol}
    (hx : (Index.build document revision text options loader world).1.symbol? id = some x) :
    x.id = id := by
  obtain ⟨s, _, _, htable, _⟩ := build_eq htext document revision options loader world
  rw [Index.symbol?, htable] at hx
  exact chunk.walked_numbered s world id x hx

theorem occurrences_spots (htext : Chunk.ofChars? text.toList = some chunk)
    (document : DocumentId) (revision : Revision) (options : ParserOptions) (loader : Loader σ)
    (world : σ) :
    ∃ s : Setting σ, s.source = .ofString text ∧
      (Index.build document revision text options loader world).1.occurrences.map Occurrence.spot =
        (chunk.walked s world).spots := by
  obtain ⟨s, hsource, _, htable, hreferences⟩ :=
    build_eq htext document revision options loader world
  refine ⟨s, hsource, ?_⟩
  have hlate : ∀ r, (Occurrence.spot ∘ ReferenceOver.occurrence)
      ((chunk.walked s world).resolveLate r) = r.spot :=
    (chunk.walked s world).spot_resolveLate
  simp only [occurrences, htable, hreferences, Array.toList_map, List.map_append, List.map_map,
    Binder.spots]
  exact congrArg (_ ++ ·) (List.map_congr_left fun r _ => hlate r)

/-- Two occurrences that start at one position are one. -/
theorem occurrence_eq_of_start_eq (htext : Chunk.ofChars? text.toList = some chunk)
    {o o' : Occurrence}
    (ho : o ∈ (Index.build document revision text options loader world).1.occurrences)
    (ho' : o' ∈ (Index.build document revision text options loader world).1.occurrences)
    (heq : o.range.start = o'.range.start) : o = o' := by
  obtain ⟨s, hsource, hspots⟩ := occurrences_spots htext document revision options loader world
  have hlines : s.source.lines = LineTable.ofChars text.toList := by rw [hsource]; rfl
  obtain ⟨hnodup, hsites⟩ := chunk.walked_spots s world hlines htext
  rw [← hspots] at hnodup hsites
  obtain ⟨site, hsite, hspot⟩ := hsites _ (List.mem_map_of_mem ho)
  obtain ⟨site', hsite', hspot'⟩ := hsites _ (List.mem_map_of_mem ho')
  have hposition : (LineTable.ofChars text.toList).position site.start =
      (LineTable.ofChars text.toList).position site'.start := by
    rw [← hlines, ← Chunk.start_spot, ← Chunk.start_spot, ← hspot, ← hspot']
    exact heq
  have hsame := Chunk.site_eq_of_position_eq htext hsite hsite' hposition
  exact List.inj_on_of_nodup_map hnodup ho ho' (by rw [hspot, hspot', hsame])

end Index

end LuaScope

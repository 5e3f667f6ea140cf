import LuaScope.Proofs.Editor.Occurrence
import LuaScope.Proofs.Symbol.Lookup

/-!
# LuaScope.Proofs.Symbol.Walked

The table that a walk leaves behind, as one that a history of changes leads to. Besides, a walk only
changes the types of symbols, and no lookup reads these.

* `SymbolTableOver.untyped`            — the table without what became known of values.
* `Chunk.walked_arises`                — without that, a history leads to the table of every walk.
* `SymbolTableOver.Arises.lookup_here` — a symbol that stands alone at its start is what a lookup of
  its name finds where it was declared.
-/

namespace LuaScope

variable {σ : Type}

namespace SymbolTableOver

variable {ρ : Type} {t t' : SymbolTableOver ρ}

/-! ## Lookups without types -/

theorem chain_congr (hscopes : t'.scopes = t.scopes) :
    ∀ (fuel : Nat) (id? : Option ScopeId), t'.chain fuel id? = t.chain fuel id?
  | 0, id? => by cases id? <;> rfl
  | _ + 1, none => rfl
  | fuel + 1, some id => by
    unfold chain
    rw [show t'.scope? id = t.scope? id by rw [scope?, hscopes, scope?]]
    cases t.scope? id with
    | none => rfl
    | some s => exact congrArg (s :: ·) (chain_congr hscopes fuel s.parent)

theorem lookup_congr (hscopes : t'.scopes = t.scopes) (hentries : t'.entries = t.entries)
    (scope : ScopeId) (name : String) (offset : Nat) :
    t'.lookup scope name offset = t.lookup scope name offset := by
  have hstarts : t'.startsBy = t.startsBy := by
    funext offset id
    rw [startsBy_eq, startsBy_eq, hentries]
  have hglobal : t'.isGlobal = t.isGlobal := by
    funext id
    rw [isGlobal_eq, isGlobal_eq, hentries]
  have hin : t'.lookupIn name offset = t.lookupIn name offset := by
    funext s
    rw [lookupIn, lookupIn, hstarts]
  have hlater : t'.laterGlobal name = t.laterGlobal name := by
    rw [laterGlobal, laterGlobal, hglobal, scope?, scope?, hscopes]
  rw [lookup, lookup, hin, hlater, ancestors, ancestors, chain_congr hscopes, hscopes]

/-- The table without the types of its symbols, and without what comes with these. -/
def untyped (t : SymbolTableOver ρ) : SymbolTableOver ρ :=
  { t with symbols := t.symbols.map SymbolOver.core }

theorem symbol?_untyped (t : SymbolTableOver ρ) (id : SymbolId) :
    t.untyped.symbol? id = (t.symbol? id).map SymbolOver.core := Array.getElem?_map

@[simp] theorem nextSymbolId_untyped (t : SymbolTableOver ρ) :
    t.untyped.nextSymbolId = t.nextSymbolId := Array.size_map

@[simp] theorem entries_untyped (t : SymbolTableOver ρ) : t.untyped.entries = t.entries := by
  rw [entries, untyped, Array.toList_map, List.map_map]
  rfl

theorem lookup_untyped (t : SymbolTableOver ρ) (scope : ScopeId) (name : String) (offset : Nat) :
    t.untyped.lookup scope name offset = t.lookup scope name offset :=
  @lookup_congr ρ t t.untyped rfl t.entries_untyped scope name offset

theorem untyped_addMember (t : SymbolTableOver ρ) (x : SymbolOver ρ) :
    (t.addMember x).untyped = t.untyped.addMember x.core := by
  rw [untyped, addMember, Array.map_push]
  rfl

theorem untyped_declare (t : SymbolTableOver ρ) (x : SymbolOver ρ) :
    (t.declare x).untyped = t.untyped.declare x.core := by
  have hinsert : t.untyped.insertByStart = t.insertByStart := by
    funext start id ids
    have hstarts : t.untyped.startsBy start = t.startsBy start := by
      funext id
      rw [startsBy_eq, startsBy_eq, entries_untyped]
    rw [insertByStart, insertByStart, hstarts]
  rw [untyped, declare, declare, hinsert, Array.map_push]
  rfl

theorem untyped_modifySymbol (t : SymbolTableOver ρ) (id : SymbolId)
    {f : SymbolOver ρ → SymbolOver ρ} (hf : SymbolOver.Keeps f) :
    (t.modifySymbol id f).untyped = t.untyped := by
  have hcores : (t.modifySymbol id f).symbols.map SymbolOver.core =
      t.symbols.map SymbolOver.core :=
    Array.toList_inj.mp (by simpa only [cores, Array.toList_map] using t.cores_modifySymbol id hf)
  rw [untyped, hcores]
  rfl

/-! ## Tables that come from a history -/

/-- Without types a history leads to the table. -/
def Arises (length : Nat) (t : SymbolTableOver ρ) : Prop :=
  ∃ history, TableHistory.Reaches length history t.untyped

namespace Arises

variable {length : Nat}

theorem new (length : Nat) : (SymbolTableOver.new length : SymbolTableOver ρ).Arises length :=
  ⟨[], by rw [untyped, SymbolTableOver.new, Array.map_empty]; exact .new⟩

theorem addScope (h : t.Arises length) {parent : ScopeId} (hparent : parent < t.scopes.size)
    (kind : ScopeKind) (span : Span) : (t.addScope parent kind span).Arises length := by
  obtain ⟨history, hreaches⟩ := h
  have hfits : (TableChange.scope parent kind span).Fits t.untyped := hparent
  exact ⟨history ++ [.scope parent kind span], hreaches.change hfits⟩

theorem declare (h : t.Arises length) {x : SymbolOver ρ} (hid : x.id = t.nextSymbolId)
    (hscope : x.scope < t.scopes.size) : (t.declare x).Arises length := by
  obtain ⟨history, hreaches⟩ := h
  have hfits : (TableChange.declared x.core).Fits t.untyped :=
    ⟨hid.trans t.nextSymbolId_untyped.symm, hscope⟩
  refine ⟨history ++ [.declared x.core], ?_⟩
  rw [untyped_declare]
  exact hreaches.change hfits

theorem addMember (h : t.Arises length) {x : SymbolOver ρ} (hid : x.id = t.nextSymbolId) :
    (t.addMember x).Arises length := by
  obtain ⟨history, hreaches⟩ := h
  have hfits : (TableChange.member x.core).Fits t.untyped := hid.trans t.nextSymbolId_untyped.symm
  refine ⟨history ++ [.member x.core], ?_⟩
  rw [untyped_addMember]
  exact hreaches.change hfits

theorem modifySymbol (h : t.Arises length) (id : SymbolId) {f : SymbolOver ρ → SymbolOver ρ}
    (hf : SymbolOver.Keeps f) : (t.modifySymbol id f).Arises length := by
  rw [Arises, untyped_modifySymbol t id hf]
  exact h

end Arises

end SymbolTableOver

/-! ## Declared where it is looked up -/

/-- The only one of some symbols that starts where it does is the latest one there. -/
theorem SymbolOver.latest_eq_some {ρ : Type} {xs : List (SymbolOver ρ)} {x : SymbolOver ρ}
    (hx : x ∈ xs) (hunique : ∀ y ∈ xs, y.start = x.start → y = x) :
    latest x.start xs = some x := by
  have hin : x ∈ (xs.filter (·.start ≤ x.start)).reverse :=
    List.mem_reverse.mpr (List.mem_filter.mpr ⟨hx, decide_eq_true (Nat.le_refl _)⟩)
  unfold latest
  cases hmax : (xs.filter (·.start ≤ x.start)).reverse.argmax start with
  | none => exact absurd (List.argmax_eq_none.mp hmax) (List.ne_nil_of_mem hin)
  | some y =>
    obtain ⟨hy, hle⟩ := List.mem_filter.mp (List.mem_reverse.mp (List.argmax_mem hmax))
    have hge : x.start ≤ y.start := List.le_of_mem_argmax hin hmax
    rw [hunique y hy (Nat.le_antisymm (of_decide_eq_true hle) hge)]

namespace TableHistory

variable {ρ : Type} {history : TableHistory ρ} {t : SymbolTableOver ρ}

/-- The scope in which a declared symbol stands alone at its start says that its name means it. -/
theorem Recorded.lookup_declared (h : Recorded history t) {x : SymbolOver ρ}
    (hx : .declared x ∈ history)
    (hunique : ∀ y, .declared y ∈ history → y.start = x.start → y = x) :
    t.lookup x.scope x.name x.start = some x.id := by
  have hmem : x ∈ history.declarations x.scope x.name := mem_declarations.mpr ⟨hx, rfl, rfl⟩
  have hlatest : SymbolOver.latest x.start (history.declarations x.scope x.name) = some x :=
    SymbolOver.latest_eq_some hmem fun y hy => hunique y (mem_declarations.mp hy).1
  have hin : history.meaningIn x.name x.start x.scope = some x := by
    rw [meaningIn, hlatest, Option.some_or]
  obtain ⟨outer, hchain⟩ : ∃ outer, history.around x.scope = x.scope :: outer := by
    have hlt := h.declared hx
    have hscope := (h.scope (Array.getElem?_eq_getElem hlt)).chain
    rw [around, List.getD_eq_getElem?_getD]
    split at hscope
    · exact ⟨[], by rw [hscope.2, Option.getD_some]⟩
    · obtain ⟨-, outer, -, hchain⟩ := hscope
      exact ⟨outer, by rw [hchain, Option.getD_some]⟩
  rw [h.lookup_eq, meaning, hchain, List.findSome?_cons, hin]
  rfl

end TableHistory

namespace SymbolTableOver

variable {ρ : Type} {t : SymbolTableOver ρ} {length : Nat}

/-- What a scope lists was declared in it. If no other symbol starts where it does, it is what a
lookup of its name finds from there. -/
theorem Arises.lookup_here (h : t.Arises length) {scope : ScopeId} {s : Scope} {id : SymbolId}
    {x : SymbolOver ρ} (hs : t.scope? scope = some s) (hid : id ∈ s.symbols)
    (hx : t.symbol? id = some x)
    (hunique : ∀ id' y, t.symbol? id' = some y → y.start = x.start → id' = id) :
    t.lookup scope x.name x.start = some id := by
  obtain ⟨history, hreaches⟩ := h
  have hrecorded := hreaches.recorded
  have hs : t.untyped.scopes[scope]? = some s := hs
  rw [(hrecorded.scope hs).symbols] at hid
  obtain ⟨y, hy, rfl⟩ := List.mem_map.mp hid
  obtain ⟨hdeclared, rfl⟩ := TableHistory.mem_declaredIn.mp hy
  have hcore : y = x.core := by
    have hfound := hrecorded.symbol?_declared hdeclared
    rw [symbol?_untyped, hx] at hfound
    exact (Option.some.inj hfound).symm
  have hname : x.name = y.name := by rw [hcore]; rfl
  have hstart : x.start = y.start := by rw [hcore]; rfl
  rw [← lookup_untyped, hname, hstart]
  refine hrecorded.lookup_declared hdeclared fun z hz heq => ?_
  have hfound := hrecorded.symbol?_declared hz
  rw [symbol?_untyped] at hfound
  obtain ⟨x', hx', rfl⟩ := Option.map_eq_some_iff.mp hfound
  have hsame := hunique _ x' hx' (heq.trans hstart.symm)
  rw [hsame, hx] at hx'
  rw [hcore, Option.some.inj hx']

end SymbolTableOver

/-! ## The table of a walk -/

theorem Binder.arisesLaws (s : Setting σ) (length : Nat) :
    let R := fun b b' : Binder σ => b'.scope = b.scope ∧
      b.table.scopes.size ≤ b'.table.scopes.size ∧
      (b.scope < b.table.scopes.size ∧ b.table.Arises length →
        b'.scope < b'.table.scopes.size ∧ b'.table.Arises length)
    Binder.Laws s R R :=
  .of_invariant
    (fun _ h => h.1)
    (fun _ _ _ h => h)
    (fun _ _ _ _ h => h)
    (fun id _ _ hf h => ⟨h.1, h.2.modifySymbol id hf⟩)
    (fun _ _ hid h => ⟨h.1, h.2.addMember hid⟩)
    (fun _ _ hid hscope h => ⟨Nat.lt_of_lt_of_eq h.1 Array.size_modify.symm,
      h.2.declare hid (hscope ▸ h.1)⟩)
    (fun kind span _ h => ⟨by simp [enterScope, SymbolTableOver.addScope,
      SymbolTableOver.nextScopeId], h.2.addScope h.1 kind span⟩)
    (fun _ _ hlt h => ⟨hlt, h.2⟩)

namespace Chunk

variable {chunk : Chunk} {cs : List Char}

theorem walked_arises (s : Setting σ) (chunk : Chunk) (world : σ) :
    (chunk.walked s world).table.Arises s.source.size :=
  ((Walk.statements_moves (Binder.arisesLaws s s.source.size) chunk.statements 1
    (.start s.source world)).2.2 ⟨Nat.zero_lt_one, .new s.source.size⟩).2

/-- No two symbols start at one offset. -/
theorem walked_starts (s : Setting σ) (world : σ) (hlines : s.source.lines = LineTable.ofChars cs)
    (h : Chunk.ofChars? cs = some chunk) {id id' : SymbolId} {x x' : Symbol}
    (hx : (chunk.walked s world).table.symbol? id = some x)
    (hx' : (chunk.walked s world).table.symbol? id' = some x')
    (hstart : x'.start = x.start) : id' = id := by
  obtain ⟨hnodup, hsites⟩ := chunk.walked_spots s world hlines h
  have hspot : ∀ {id : SymbolId} {x : Symbol}, (chunk.walked s world).table.symbol? id = some x →
      ((chunk.walked s world).table.symbols.toList.map SymbolOver.spot)[id]? = some x.spot := by
    intro id x hx
    rw [List.getElem?_map, Array.getElem?_toList]
    exact congrArg (Option.map SymbolOver.spot) hx
  have hsame : x'.spot = x.spot := by
    obtain ⟨site, hsite, heq⟩ := hsites x.spot
      (List.mem_append_left _ (List.mem_of_getElem? (hspot hx)))
    obtain ⟨site', hsite', heq'⟩ := hsites x'.spot
      (List.mem_append_left _ (List.mem_of_getElem? (hspot hx')))
    have hstart_spot : ∀ site : Site, (site.spot s.source).span.start = site.start :=
      fun site => by cases site <;> rfl
    have hsites : site' = site :=
      List.inj_on_of_nodup_map (Chunk.sites_ascending h).nodup_starts hsite' hsite (by
        rw [← hstart_spot, ← hstart_spot, ← heq, ← heq']
        exact hstart)
    rw [heq, heq', hsites]
  have hlt := (List.getElem?_eq_some_iff.mp (hspot hx')).1
  refine (List.getElem?_inj hlt (List.nodup_append.mp hnodup).1).mp ?_
  rw [hspot hx, hspot hx', hsame]

end Chunk

end LuaScope

import LuaScope.Proofs.Binding.Spot
import LuaScope.Proofs.Scoping.Table
import Mathlib.Data.List.Infix

/-!
# LuaScope.Proofs.Scoping.Continued

What a walk leaves of the state it starts in, where all that it declares stands behind all that was
declared before.

* `Binder.Ordered`          — scopes stand behind those around them, and list symbols that are there.
* `Binder.Continues`        — of the earlier state's scopes only the root scope lists more, and what
  it lists more is new.
* `Binder.continuesLaws`    — every walk goes on so.
* `Binder.Continues.lookup` — a lookup in front of the new symbols then finds what it found before.
-/

namespace LuaScope

variable {σ : Type}

/-! ## What never changes of a symbol -/

/-- The symbol without its type, and without what comes with a type. -/
def SymbolOver.core {ρ : Type} (x : SymbolOver ρ) : SymbolOver ρ :=
  { x with kind := .variable, container := none, ty := .unknown, «alias» := none }

theorem SymbolOver.Keeps.core {ρ : Type} {f : SymbolOver ρ → SymbolOver ρ} (hf : Keeps f)
    (x : SymbolOver ρ) : (f x).core = x.core := by
  simp only [SymbolOver.core, hf.id, hf.name, hf.document, hf.range, hf.span, hf.fullRange,
    hf.scope, hf.isLocal, hf.doc]

namespace SymbolTableOver

variable {ρ : Type} (t : SymbolTableOver ρ)

def cores : List (SymbolOver ρ) := t.symbols.toList.map SymbolOver.core

theorem length_cores : t.cores.length = t.nextSymbolId := by
  simp [cores, nextSymbolId]

theorem cores_getElem? (id : SymbolId) : t.cores[id]? = (t.symbol? id).map SymbolOver.core := by
  simp [cores, symbol?]

theorem entries_eq_cores : t.entries = t.cores.map SymbolOver.entry := by
  rw [entries, cores, List.map_map]
  rfl

theorem cores_declare (x : SymbolOver ρ) : (t.declare x).cores = t.cores ++ [x.core] := by
  simp [cores, declare]

theorem cores_addMember (x : SymbolOver ρ) : (t.addMember x).cores = t.cores ++ [x.core] := by
  simp [cores, addMember]

theorem cores_modifySymbol (id : SymbolId) {f : SymbolOver ρ → SymbolOver ρ}
    (hf : SymbolOver.Keeps f) : (t.modifySymbol id f).cores = t.cores := by
  refine List.ext_getElem? fun i => ?_
  simp only [cores_getElem?, symbol?, modifySymbol, Array.getElem?_modify]
  split
  · rw [Option.map_map]
    congr 1
    exact funext hf.core
  · rfl

/-- A symbol more leaves every symbol where it is. -/
theorem symbol?_of_push {t t' : SymbolTableOver ρ} {new : SymbolOver ρ}
    (hpush : t'.symbols = t.symbols.push new) {id : SymbolId} {x : SymbolOver ρ}
    (hx : t.symbol? id = some x) : t'.symbol? id = some x := by
  rw [symbol?, hpush, Array.getElem?_push,
    if_neg (Nat.ne_of_lt (Array.getElem?_eq_some_iff.mp hx).1)]
  exact hx

end SymbolTableOver

theorem getElem?_of_prefix {α : Type} {as bs : List α} (h : as <+: bs) {i : Nat} {a : α}
    (ha : as[i]? = some a) : bs[i]? = some a := by
  obtain ⟨more, rfl⟩ := h
  rw [List.getElem?_append_left (List.getElem?_eq_some_iff.mp ha).1, ha]

theorem takeWhile_congr {α : Type} {p q : α → Bool} {as : List α} (h : ∀ a ∈ as, p a = q a) :
    as.takeWhile p = as.takeWhile q := by
  induction as with
  | nil => rfl
  | cons a as ih =>
    rw [List.takeWhile_cons, List.takeWhile_cons, h a List.mem_cons_self,
      ih fun a ha => h a (List.mem_cons_of_mem _ ha)]

/-! ## What the changes of a table do to one scope -/

/-- The same scope, up to its children. -/
structure Scope.Stays (s s' : Scope) : Prop where
  id : s'.id = s.id
  kind : s'.kind = s.kind
  parent : s'.parent = s.parent
  declarations : ∀ name, s'.declarations name = s.declarations name

/-- The scope after this symbol was declared; it lists one more if it is the scope of the symbol. -/
structure Scope.Enters {ρ : Type} (t : SymbolTableOver ρ) (x : SymbolOver ρ) (i : Nat)
    (s s' : Scope) : Prop where
  id : s'.id = s.id
  kind : s'.kind = s.kind
  parent : s'.parent = s.parent
  declarations : ∀ name, s'.declarations name =
    if i = x.scope ∧ name = x.name then
      t.insertByStart x.span.start x.id (s.declarations name)
    else s.declarations name

namespace SymbolTableOver

variable {ρ : Type} (t : SymbolTableOver ρ)

theorem scopes_declare (x : SymbolOver ρ) (i : Nat) :
    (t.scopes[i]? = none ∧ (t.declare x).scopes[i]? = none) ∨
      ∃ s s', t.scopes[i]? = some s ∧ (t.declare x).scopes[i]? = some s' ∧ s.Enters t x i s' := by
  cases hs : t.scopes[i]? with
  | none =>
    refine .inl ⟨rfl, ?_⟩
    simp only [declare, Array.getElem?_modify, hs, Option.map_none, ite_self]
  | some s =>
    by_cases hi : i = x.scope
    · subst hi
      refine .inr ⟨s, _, rfl, t.getElem?_declare_self x hs, rfl, rfl, rfl, fun name => ?_⟩
      rw [Scope.declarations_eq, Scope.declarations_eq, lookup_modifyUnder]
      by_cases hname : name = x.name
      · simp [hname]
      · simp [hname]
    · refine .inr ⟨s, s, rfl, by rw [t.getElem?_declare x hi, hs], rfl, rfl, rfl, fun name => ?_⟩
      rw [if_neg fun h => hi h.1]

theorem scopes_addScope (parent : ScopeId) (kind : ScopeKind) (span : Span) {i : Nat} {s' : Scope}
    (h : (t.addScope parent kind span).scopes[i]? = some s') :
    (∃ s, t.scopes[i]? = some s ∧ s.Stays s') ∨
      (i = t.scopes.size ∧ s'.parent = some parent ∧ ∀ name, s'.declarations name = []) := by
  have hpush : ∃ s, (t.scopes.push ⟨t.nextScopeId, kind, some parent, span, [], [], []⟩)[i]? =
      some s ∧ s.Stays s' := by
    simp only [addScope, Array.getElem?_modify] at h
    split at h
    · obtain ⟨s, hs, rfl⟩ := Option.map_eq_some_iff.mp h
      exact ⟨s, hs, rfl, rfl, rfl, fun _ => rfl⟩
    · exact ⟨s', h, rfl, rfl, rfl, fun _ => rfl⟩
  obtain ⟨s, hs, hstays⟩ := hpush
  rw [Array.getElem?_push] at hs
  split at hs
  · rename_i hi
    obtain rfl := Option.some.inj hs
    exact .inr ⟨hi, hstays.parent, fun name => hstays.declarations name⟩
  · exact .inl ⟨s, hs, hstays⟩

theorem mem_insertByStart {start : Nat} {id id' : SymbolId} {ids : List SymbolId} :
    id' ∈ t.insertByStart start id ids ↔ id' = id ∨ id' ∈ ids := by
  have hsplit : id' ∈ ids ↔
      id' ∈ ids.takeWhile (t.startsBy start) ∨ id' ∈ ids.dropWhile (t.startsBy start) := by
    rw [← List.mem_append, List.takeWhile_append_dropWhile]
  rw [insertByStart, List.mem_append, List.mem_cons, hsplit]
  tauto

end SymbolTableOver

namespace Binder

theorem noteReturn_eq (b : Binder σ) (value : Inferred) :
    ∃ returns, b.noteReturn value = { b with returns := returns } := by
  unfold noteReturn
  split
  · exact ⟨b.returns, rfl⟩
  · dsimp only
    split <;> split <;> exact ⟨_, rfl⟩

theorem popFrame_eq (b : Binder σ) : ∃ returns, b.popFrame.2 = { b with returns := returns } := by
  unfold popFrame
  split <;> exact ⟨_, rfl⟩

/-! ## Scopes in their order -/

/-- Scopes stand behind those around them, and list symbols that are there. -/
structure Ordered (b : Binder σ) : Prop where
  scope : b.scope < b.table.scopes.size
  parent : ∀ {i : Nat} {s p}, b.table.scopes[i]? = some s → s.parent = some p → p < i
  listed : ∀ {i : Nat} {s name id}, b.table.scopes[i]? = some s → id ∈ s.declarations name →
    id < b.table.nextSymbolId
  references : ∀ r ∈ b.references, r.scope < b.table.scopes.size

namespace Ordered

variable {b : Binder σ}

theorem start (source : Source) (world : σ) : (Binder.start source world).Ordered := by
  have hroot : ∀ {i : Nat} {s : Scope},
      (Binder.start source world).table.scopes[i]? = some s → s.parent = none ∧ s.byName = [] := by
    intro i s hs
    obtain ⟨hlt, heq⟩ := Array.getElem?_eq_some_iff.mp hs
    obtain rfl : i = 0 := Nat.lt_one_iff.mp hlt
    cases heq
    exact ⟨rfl, rfl⟩
  constructor
  case scope => exact Nat.zero_lt_one
  case parent =>
    intro i s p hs hp
    rw [(hroot hs).1] at hp
    cases hp
  case listed =>
    intro i s name id hs hid
    rw [Scope.declarations, (hroot hs).2] at hid
    cases hid
  case references => exact fun r hr => absurd hr (Array.not_mem_empty r)

theorem declare (h : b.Ordered) {x : Symbol} (hid : x.id = b.table.nextSymbolId) :
    (b.declare x).Ordered := by
  have hscopes : (b.declare x).table.scopes.size = b.table.scopes.size := Array.size_modify
  have hsymbols : (b.declare x).table.nextSymbolId = b.table.nextSymbolId + 1 :=
    Array.size_push x
  have hold : ∀ {i : Nat} {s'}, (b.declare x).table.scopes[i]? = some s' →
      ∃ s, b.table.scopes[i]? = some s ∧ s.Enters b.table x i s' := by
    intro i s' hs'
    obtain ⟨_, hnone⟩ | ⟨s, s₁, hs, hs₁, henters⟩ := b.table.scopes_declare x i
    · cases hnone.symm.trans hs'
    · obtain rfl := Option.some.inj (hs₁.symm.trans hs')
      exact ⟨s, hs, henters⟩
  constructor
  case scope => exact hscopes ▸ h.scope
  case parent =>
    intro i s' p hs' hp
    obtain ⟨s, hs, henters⟩ := hold hs'
    exact h.parent hs (henters.parent ▸ hp)
  case listed =>
    intro i s' name id hs' hmem
    obtain ⟨s, hs, henters⟩ := hold hs'
    rw [henters.declarations] at hmem
    rw [hsymbols]
    split at hmem
    · rcases b.table.mem_insertByStart.mp hmem with rfl | hmem
      · exact hid ▸ Nat.lt_succ_self _
      · exact Nat.lt_succ_of_lt (h.listed hs hmem)
    · exact Nat.lt_succ_of_lt (h.listed hs hmem)
  case references => exact hscopes ▸ h.references

theorem enterScope (h : b.Ordered) (kind : ScopeKind) (span : Span) :
    (b.enterScope kind span).Ordered := by
  have hscopes : (b.enterScope kind span).table.scopes.size = b.table.scopes.size + 1 := by
    simp [Binder.enterScope, SymbolTableOver.addScope]
  constructor
  case scope =>
    rw [hscopes]
    exact Nat.lt_succ_self _
  case parent =>
    intro i s' p hs' hp
    obtain ⟨s, hs, hstays⟩ | ⟨rfl, hparent, _⟩ := b.table.scopes_addScope _ kind span hs'
    · exact h.parent hs (hstays.parent ▸ hp)
    · obtain rfl := Option.some.inj (hparent.symm.trans hp)
      exact h.scope
  case listed =>
    intro i s' name id hs' hmem
    obtain ⟨s, hs, hstays⟩ | ⟨_, _, hempty⟩ := b.table.scopes_addScope _ kind span hs'
    · exact h.listed hs (hstays.declarations name ▸ hmem)
    · rw [hempty] at hmem
      cases hmem
  case references =>
    rw [hscopes]
    exact fun r hr => Nat.lt_succ_of_lt (h.references r hr)

/-- Only the symbols are others, and there are no fewer. -/
theorem withSymbols (h : b.Ordered) {symbols : Array Symbol}
    (hsize : b.table.symbols.size ≤ symbols.size) :
    Ordered { b with table := { b.table with symbols := symbols } } where
  scope := h.scope
  parent := h.parent
  listed hs hid := Nat.lt_of_lt_of_le (h.listed hs hid) hsize
  references := h.references

theorem record (h : b.Ordered) (s : Setting σ) (first last : Ident) (target : Option Link) :
    (b.record s first last target).Ordered where
  scope := h.scope
  parent := h.parent
  listed := h.listed
  references r hr := by
    rcases Array.mem_push.mp hr with hr | rfl
    · exact h.references r hr
    · exact h.scope

end Ordered

/-- Every walk comes back to its scope, makes scopes only, and keeps what each single change of the
state keeps. -/
theorem Laws.of_invariant {s : Setting σ} {P : Binder σ → Prop}
    (hscope : ∀ b, P b → b.scope < b.table.scopes.size)
    (hsame : ∀ b returns world, P b → P { b with returns := returns, world := world })
    (hrecord : ∀ first last target b, P b → P (b.record s first last target))
    (hmodify : ∀ id f b, SymbolOver.Keeps f → P b → P (b.modifySymbol id f))
    (hmember : ∀ (x : Symbol) b, x.id = b.table.nextSymbolId → P b → P (b.addMember x))
    (hdeclare : ∀ (x : Symbol) b, x.id = b.table.nextSymbolId → x.scope = b.scope → P b →
      P (b.declare x))
    (henter : ∀ kind span b, P b → P (b.enterScope kind span))
    (hback : ∀ b scope, scope < b.table.scopes.size → P b → P (b.backTo scope)) :
    let R := fun b b' : Binder σ => b'.scope = b.scope ∧
      b.table.scopes.size ≤ b'.table.scopes.size ∧ (P b → P b')
    Laws s R R := by
  intro R
  have htrans : ∀ a b c : Binder σ, R a b → R b c → R a c := fun a b c h h' =>
    ⟨h'.1.trans h.1, Nat.le_trans h.2.1 h'.2.1, h'.2.2 ∘ h.2.2⟩
  have hkept : ∀ b returns world, R b { b with returns := returns, world := world } :=
    fun b returns world => ⟨rfl, Nat.le_refl _, hsame b returns world⟩
  refine
    { refl := fun b => hkept b b.returns b.world
      trans := htrans
      outerTrans := htrans
      weaken := fun _ _ h => h
      load := fun name b => hkept b b.returns _
      record := fun first last target b => ⟨rfl, Nat.le_refl _, hrecord first last target b⟩
      modify := fun id f b hf => ⟨rfl, Nat.le_refl _, hmodify id f b hf⟩
      member := fun x b hid => ⟨rfl, Nat.le_refl _, hmember x b hid⟩
      declare := fun x b hid heq =>
        ⟨rfl, Nat.le_of_eq Array.size_modify.symm, hdeclare x b hid heq⟩
      note := ?note, scope := ?scope, frame := ?frame }
  case note =>
    intro value b
    obtain ⟨returns, heq⟩ := b.noteReturn_eq value
    rw [heq]
    exact hkept b returns b.world
  case scope =>
    intro kind span b b' h
    have hsize : b.table.scopes.size < (b.enterScope kind span).table.scopes.size := by
      simp [Binder.enterScope, SymbolTableOver.addScope]
    have hlt := Nat.lt_of_lt_of_le hsize h.2.1
    refine ⟨rfl, Nat.le_of_lt hlt, fun hb => ?_⟩
    exact hback b' b.scope (Nat.lt_trans (hscope b hb) hlt) (h.2.2 (henter kind span b hb))
  case frame =>
    intro b b' h
    obtain ⟨returns, heq⟩ := b'.popFrame_eq
    have hpushed : R b b.pushFrame := hkept b (none :: b.returns) b.world
    rw [heq]
    exact htrans _ _ _ (htrans _ _ _ hpushed h) (hkept b' returns b'.world)

/-- Every walk comes back to its scope, and keeps the scopes in their order. -/
theorem orderedLaws (s : Setting σ) :
    let R := fun b b' : Binder σ => b'.scope = b.scope ∧
      b.table.scopes.size ≤ b'.table.scopes.size ∧ (b.Ordered → b'.Ordered)
    Laws s R R :=
  .of_invariant
    (fun _ h => h.scope)
    (fun _ _ _ h => ⟨h.scope, h.parent, h.listed, h.references⟩)
    (fun first last target _ h => h.record s first last target)
    (fun _ _ _ _ h => h.withSymbols (Nat.le_of_eq Array.size_modify.symm))
    (fun _ _ _ h => h.withSymbols (by simp))
    (fun _ _ hid _ h => h.declare hid)
    (fun kind span _ h => h.enterScope kind span)
    (fun _ _ hlt h => ⟨hlt, h.parent, h.listed, h.references⟩)

/-! ## Going on behind an earlier state -/

/-- Symbols, references and scopes are only added. -/
structure Extends (b b' : Binder σ) : Prop where
  cores : b.table.cores <+: b'.table.cores
  references : b.references.toList <+: b'.references.toList
  size : b.table.scopes.size ≤ b'.table.scopes.size

namespace Extends

variable {b b' b'' : Binder σ}

theorem refl (b : Binder σ) : Extends b b := ⟨List.prefix_rfl, List.prefix_rfl, Nat.le_refl _⟩

theorem trans (h : b.Extends b') (h' : b'.Extends b'') : b.Extends b'' :=
  ⟨h.cores.trans h'.cores, h.references.trans h'.references, Nat.le_trans h.size h'.size⟩

/-- Neither the table nor the references are others. -/
theorem of_eq (htable : b'.table = b.table) (hreferences : b'.references = b.references) :
    b.Extends b' := by
  refine ⟨?_, ?_, ?_⟩
  · rw [htable]
  · rw [hreferences]
  · rw [htable]

theorem entries (h : b.Extends b') : b.table.entries <+: b'.table.entries := by
  rw [SymbolTableOver.entries_eq_cores, SymbolTableOver.entries_eq_cores]
  exact h.cores.map _

theorem nextSymbolId (h : b.Extends b') : b.table.nextSymbolId ≤ b'.table.nextSymbolId := by
  rw [← SymbolTableOver.length_cores, ← SymbolTableOver.length_cores]
  exact h.cores.length_le

theorem symbol? (h : b.Extends b') {id : SymbolId} {x : Symbol}
    (hx : b.table.symbol? id = some x) : ∃ x', b'.table.symbol? id = some x' ∧ x'.core = x.core := by
  have hcore : b.table.cores[id]? = some x.core := by
    rw [SymbolTableOver.cores_getElem?, hx, Option.map_some]
  have hcore' := getElem?_of_prefix h.cores hcore
  rw [SymbolTableOver.cores_getElem?] at hcore'
  exact Option.map_eq_some_iff.mp hcore'

theorem reference? (h : b.Extends b') {k : Nat} {r : Reference} (hr : b.references[k]? = some r) :
    b'.references[k]? = some r := by
  rw [← Array.getElem?_toList] at hr ⊢
  exact getElem?_of_prefix h.references hr

/-- Earlier symbols start where they did. -/
theorem startsBy (h : b.Extends b') (offset : Nat) {id : SymbolId}
    (hid : id < b.table.nextSymbolId) :
    b'.table.startsBy offset id = b.table.startsBy offset id := by
  obtain ⟨extra, heq⟩ := h.entries
  rw [SymbolTableOver.startsBy_eq, SymbolTableOver.startsBy_eq, ← heq,
    List.getElem?_append_left (b.table.length_entries ▸ hid)]

theorem isGlobal (h : b.Extends b') {id : SymbolId} (hid : id < b.table.nextSymbolId) :
    b'.table.isGlobal id = b.table.isGlobal id := by
  obtain ⟨extra, heq⟩ := h.entries
  rw [SymbolTableOver.isGlobal_eq, SymbolTableOver.isGlobal_eq, ← heq,
    List.getElem?_append_left (b.table.length_entries ▸ hid)]

end Extends

/-- What `b` has on top of `b₀` starts behind the offset. -/
def NewBehind (b₀ b : Binder σ) (offset : Nat) : Prop :=
  ∀ e ∈ b.table.entries.drop b₀.table.nextSymbolId, offset < e.span.start

/-- What `b` has on top of `b₀` starts behind all of `b₀`. -/
def Later (b₀ b : Binder σ) : Prop := ∀ e ∈ b₀.table.entries, NewBehind b₀ b e.span.start

theorem Later.before {b₀ b b' : Binder σ} (h : Later b₀ b') (hextends : b.Extends b') :
    Later b₀ b :=
  fun e he e' he' => h e he e' ((hextends.entries.drop _).subset he')

/-- A new symbol does not start by the offset. -/
theorem NewBehind.startsBy {b₀ b : Binder σ} {offset : Nat} (h : NewBehind b₀ b offset)
    {id : SymbolId} (hid : b₀.table.nextSymbolId ≤ id) : b.table.startsBy offset id = false := by
  rw [SymbolTableOver.startsBy_eq]
  cases hentry : b.table.entries[id]? with
  | none => rfl
  | some e =>
    have hmem : e ∈ b.table.entries.drop b₀.table.nextSymbolId := by
      refine List.mem_of_getElem? (i := id - b₀.table.nextSymbolId) ?_
      rw [List.getElem?_drop, Nat.add_sub_cancel' hid, hentry]
    exact decide_eq_false (Nat.not_le.mpr (h e hmem))

end Binder

/-- The scope with this number has listed more; nothing but new symbols, and only the root scope
has. -/
structure Scope.Continues (first : SymbolId) (i : Nat) (s s' : Scope) : Prop where
  id : s'.id = s.id
  kind : s'.kind = s.kind
  parent : s'.parent = s.parent
  declarations : ∀ name, ∃ new, s'.declarations name = s.declarations name ++ new ∧
    (∀ id ∈ new, first ≤ id) ∧ (i ≠ SymbolTableOver.rootId → new = [])

namespace Binder

/-- The state is one that a walk may reach from `b₀` on, while it stands in the root scope or in a
scope that it has opened. -/
structure Continues (b₀ b : Binder σ) : Prop extends Extends b₀ b where
  scope : b.scope = SymbolTableOver.rootId ∨ b₀.table.scopes.size ≤ b.scope
  scopes : ∀ {i : Nat} {s}, b₀.table.scopes[i]? = some s →
    ∃ s', b.table.scopes[i]? = some s' ∧ s.Continues b₀.table.nextSymbolId i s'

namespace Continues

variable {b₀ b b' : Binder σ}

theorem refl (h : b₀.scope = SymbolTableOver.rootId) : Continues b₀ b₀ where
  toExtends := .refl b₀
  scope := .inl h
  scopes hs := ⟨_, hs, rfl, rfl, rfl, fun _ => ⟨[], by simp, by simp, fun _ => rfl⟩⟩

/-- The scopes are the same. -/
theorem of_scopes_eq (h : Continues b₀ b) (hextends : b.Extends b')
    (hscopes : b'.table.scopes = b.table.scopes) (hscope : b'.scope = b.scope) :
    Continues b₀ b' where
  toExtends := h.toExtends.trans hextends
  scope := hscope ▸ h.scope
  scopes hs := hscopes ▸ h.scopes hs

end Continues

end Binder

theorem SymbolTableOver.insertByStart_append {ρ : Type} {t : SymbolTableOver ρ} {start : Nat}
    {ids : List SymbolId} (h : ∀ id ∈ ids, t.startsBy start id = true) (id : SymbolId)
    (new : List SymbolId) :
    t.insertByStart start id (ids ++ new) = ids ++ t.insertByStart start id new := by
  unfold insertByStart
  rw [List.takeWhile_append_of_pos h, List.dropWhile_append_of_pos h, List.append_assoc]

namespace Binder

namespace Continues

variable {b₀ b b' : Binder σ}

/-- The root scope lists the new symbol behind the earlier ones, as it starts behind them. -/
theorem declare (h : Continues b₀ b) (hb₀ : b₀.Ordered) {x : Symbol}
    (hid : x.id = b.table.nextSymbolId) (hscope : x.scope = b.scope)
    (hlater : Later b₀ (b.declare x)) : Continues b₀ (b.declare x) := by
  have hextends : b.Extends (b.declare x) :=
    ⟨⟨[x.core], (b.table.cores_declare x).symm⟩, List.prefix_rfl,
      Nat.le_of_eq Array.size_modify.symm⟩
  have hnew : x.entry ∈ (b.declare x).table.entries.drop b₀.table.nextSymbolId := by
    have hle : b₀.table.nextSymbolId ≤ b.table.entries.length :=
      b.table.length_entries ▸ h.nextSymbolId
    rw [Binder.declare, SymbolTableOver.entries_declare, List.drop_append_of_le_length hle]
    exact List.mem_append_right _ (List.mem_singleton.mpr rfl)
  have hstarts : ∀ id, id < b₀.table.nextSymbolId → b.table.startsBy x.span.start id = true := by
    intro id hlt
    rw [h.startsBy _ hlt, SymbolTableOver.startsBy_eq,
      List.getElem?_eq_getElem (b₀.table.length_entries ▸ hlt)]
    exact decide_eq_true (Nat.le_of_lt (hlater _ (List.getElem_mem _) _ hnew))
  refine ⟨h.toExtends.trans hextends, h.scope, fun {i s} hs => ?_⟩
  obtain ⟨s₁, hs₁, hcontinues⟩ := h.scopes hs
  obtain ⟨hnone, _⟩ | ⟨_, s₂, hs₁', hs₂, henters⟩ := b.table.scopes_declare x i
  · cases hnone.symm.trans hs₁
  obtain rfl := Option.some.inj (hs₁.symm.trans hs₁')
  refine ⟨s₂, hs₂, henters.id.trans hcontinues.id, henters.kind.trans hcontinues.kind,
    henters.parent.trans hcontinues.parent, fun name => ?_⟩
  obtain ⟨new, heq, hnew, hinner⟩ := hcontinues.declarations name
  rw [henters.declarations, heq]
  by_cases hhere : i = x.scope ∧ name = x.name
  · have hroot : i = SymbolTableOver.rootId := by
      rcases h.scope with hroot | hle
      · exact hhere.1.trans (hscope.trans hroot)
      · have hlt := (Array.getElem?_eq_some_iff.mp hs).1
        exact absurd (hhere.1.trans hscope ▸ hle) (Nat.not_le.mpr hlt)
    rw [if_pos hhere, SymbolTableOver.insertByStart_append fun id hid =>
      hstarts id (hb₀.listed hs hid)]
    refine ⟨_, rfl, fun id' hid' => ?_, fun hne => absurd hroot hne⟩
    rcases b.table.mem_insertByStart.mp hid' with rfl | hid'
    · exact hid ▸ h.nextSymbolId
    · exact hnew id' hid'
  · rw [if_neg hhere]
    exact ⟨new, rfl, hnew, hinner⟩

theorem enterScope (h : Continues b₀ b) (kind : ScopeKind) (span : Span) :
    Continues b₀ (b.enterScope kind span) := by
  have hsize : (b.enterScope kind span).table.scopes.size = b.table.scopes.size + 1 := by
    simp [Binder.enterScope, SymbolTableOver.addScope]
  have hextends : b.Extends (b.enterScope kind span) :=
    ⟨List.prefix_rfl, List.prefix_rfl, by omega⟩
  refine ⟨h.toExtends.trans hextends, .inr h.size, fun {i s} hs => ?_⟩
  obtain ⟨s₁, hs₁, hcontinues⟩ := h.scopes hs
  have hlt := (Array.getElem?_eq_some_iff.mp hs₁).1
  have hlt₂ : i < (b.enterScope kind span).table.scopes.size := by omega
  have hs₂ := Array.getElem?_eq_getElem hlt₂
  obtain ⟨_, hs₁', hstays⟩ | ⟨heq, _⟩ := b.table.scopes_addScope b.scope kind span hs₂
  · obtain rfl := Option.some.inj (hs₁.symm.trans hs₁')
    refine ⟨_, hs₂, hstays.id.trans hcontinues.id, hstays.kind.trans hcontinues.kind,
      hstays.parent.trans hcontinues.parent, fun name => ?_⟩
    rw [hstays.declarations]
    exact hcontinues.declarations name
  · exact absurd heq (Nat.ne_of_lt hlt)

end Continues

/-- Every walk goes on behind an earlier state, if all that it declares stands behind it. -/
theorem continuesLaws (s : Setting σ) :
    let R := fun b b' : Binder σ => b.Extends b' ∧ ∀ b₀ : Binder σ, b₀.Ordered → Later b₀ b' →
      Continues b₀ b → Continues b₀ b'
    Laws s R R := by
  intro R
  have htrans : ∀ a b c : Binder σ, R a b → R b c → R a c := fun a b c h h' =>
    ⟨h.1.trans h'.1, fun b₀ hb₀ hlater hstart =>
      h'.2 b₀ hb₀ hlater (h.2 b₀ hb₀ (hlater.before h'.1) hstart)⟩
  have hquiet : ∀ b b' : Binder σ, b.Extends b' → b'.table.scopes = b.table.scopes →
      b'.scope = b.scope → R b b' := fun b b' hextends hscopes hscope =>
    ⟨hextends, fun b₀ _ _ hstart => hstart.of_scopes_eq hextends hscopes hscope⟩
  refine
    { refl := fun b => hquiet b b (.refl b) rfl rfl
      trans := htrans
      outerTrans := htrans
      weaken := fun _ _ h => h
      load := fun _ b => hquiet b _ (.of_eq rfl rfl) rfl rfl
      record := ?record, modify := ?modify, member := ?member, declare := ?declare
      note := ?note, scope := ?scope, frame := ?frame }
  case record =>
    intro first last target b
    refine hquiet b _ ⟨List.prefix_rfl, ?_, Nat.le_refl _⟩ rfl rfl
    simp [Binder.record]
  case modify =>
    intro id f b hf
    refine hquiet b _ ⟨?_, List.prefix_rfl, Nat.le_refl _⟩ rfl rfl
    rw [Binder.modifySymbol, b.table.cores_modifySymbol id hf]
  case member =>
    intro x b _
    exact hquiet b _ ⟨⟨[x.core], (b.table.cores_addMember x).symm⟩, List.prefix_rfl, Nat.le_refl _⟩
      rfl rfl
  case declare =>
    intro x b hid hscope
    refine ⟨⟨⟨[x.core], (b.table.cores_declare x).symm⟩, List.prefix_rfl,
      Nat.le_of_eq Array.size_modify.symm⟩, fun b₀ hb₀ hlater hstart => ?_⟩
    exact hstart.declare hb₀ hid hscope hlater
  case note =>
    intro value b
    obtain ⟨returns, heq⟩ := b.noteReturn_eq value
    rw [heq]
    exact hquiet b _ (.of_eq rfl rfl) rfl rfl
  case scope =>
    intro kind span b b' h
    have hsize : (b.enterScope kind span).table.scopes.size = b.table.scopes.size + 1 := by
      simp [Binder.enterScope, SymbolTableOver.addScope]
    have hle : b.table.scopes.size ≤ b'.table.scopes.size :=
      Nat.le_trans (by omega) h.1.size
    refine ⟨⟨h.1.cores, h.1.references, hle⟩, fun b₀ hb₀ hlater hstart => ?_⟩
    have hend := h.2 b₀ hb₀ hlater (hstart.enterScope kind span)
    exact ⟨⟨hend.cores, hend.references, hend.size⟩, hstart.scope, hend.scopes⟩
  case frame =>
    intro b b' h
    obtain ⟨returns, heq⟩ := b'.popFrame_eq
    rw [heq]
    refine ⟨⟨h.1.cores, h.1.references, h.1.size⟩, fun b₀ hb₀ hlater hstart => ?_⟩
    have hpushed : Continues b₀ b.pushFrame :=
      ⟨⟨hstart.cores, hstart.references, hstart.size⟩, hstart.scope, hstart.scopes⟩
    have hend := h.2 b₀ hb₀ hlater hpushed
    exact ⟨⟨hend.cores, hend.references, hend.size⟩, hend.scope, hend.scopes⟩

/-! ## Lookups -/

theorem chain_none (t : SymbolTable) (fuel : Nat) : t.chain fuel none = [] := by
  cases fuel <;> rfl

namespace Continues

variable {b₀ b : Binder σ} {offset : Nat} {i : Nat} {s s' : Scope}

/-- A scope answers as before: what it lists more starts behind the offset. -/
theorem lookupIn (h : Continues b₀ b) (hb₀ : b₀.Ordered) (hnew : NewBehind b₀ b offset)
    (hs : b₀.table.scopes[i]? = some s) (hs' : s.Continues b₀.table.nextSymbolId i s')
    (name : String) : b.table.lookupIn name offset s' = b₀.table.lookupIn name offset s := by
  obtain ⟨new, heq, hids, hinner⟩ := hs'.declarations name
  have hold : (s.declarations name).takeWhile (b.table.startsBy offset) =
      (s.declarations name).takeWhile (b₀.table.startsBy offset) :=
    takeWhile_congr fun id hid => h.startsBy offset (hb₀.listed hs hid)
  have hnone : new.takeWhile (b.table.startsBy offset) = [] := by
    cases new with
    | nil => rfl
    | cons id rest =>
      rw [List.takeWhile_cons, hnew.startsBy (hids id List.mem_cons_self)]
      rfl
  have htake : (s'.declarations name).takeWhile (b.table.startsBy offset) =
      (s.declarations name).takeWhile (b₀.table.startsBy offset) := by
    rw [heq, List.takeWhile_append, hnone, List.append_nil, hold]
    split
    · rename_i hlength
      exact ((List.takeWhile_prefix _).eq_of_length hlength).symm
    · rfl
  unfold SymbolTableOver.lookupIn
  simp only
  rw [htake, hs'.parent]
  split
  · rfl
  · split
    · rename_i hparent
      obtain ⟨p, hp⟩ := Option.isSome_iff_exists.mp hparent
      have hne : i ≠ SymbolTableOver.rootId :=
        Nat.ne_of_gt (Nat.lt_of_le_of_lt (Nat.zero_le p) (hb₀.parent hs hp))
      rw [heq, hinner hne, List.append_nil]
    · rfl

/-- By induction on the scopes, from the outside in. -/
theorem findSome?_chain (h : Continues b₀ b) (hb₀ : b₀.Ordered) (hnew : NewBehind b₀ b offset)
    (name : String) : ∀ {i fuel fuel' : Nat}, i < b₀.table.scopes.size → i < fuel → i < fuel' →
      (b.table.chain fuel' (some i)).findSome? (b.table.lookupIn name offset) =
        (b₀.table.chain fuel (some i)).findSome? (b₀.table.lookupIn name offset) := by
  intro i
  induction i using Nat.strongRecOn with
  | ind i ih =>
    intro fuel fuel' hi hfuel hfuel'
    obtain ⟨fuel, rfl⟩ := Nat.exists_eq_add_of_lt hfuel
    obtain ⟨fuel', rfl⟩ := Nat.exists_eq_add_of_lt hfuel'
    have hs := Array.getElem?_eq_getElem hi
    generalize b₀.table.scopes[i] = s at hs
    obtain ⟨s', hs', hcontinues⟩ := h.scopes hs
    have hin := h.lookupIn hb₀ hnew hs hcontinues name
    unfold SymbolTableOver.chain SymbolTableOver.scope?
    rw [hs, hs']
    simp only [List.findSome?_cons, hin, hcontinues.parent]
    cases hparent : s.parent with
    | none =>
      rw [chain_none, chain_none]
      rfl
    | some p =>
      have hlt := hb₀.parent hs hparent
      rw [ih p hlt (Nat.lt_trans hlt hi) (Nat.lt_of_lt_of_le hlt (Nat.le_add_right i fuel))
        (Nat.lt_of_lt_of_le hlt (Nat.le_add_right i fuel'))]

theorem laterGlobal (h : Continues b₀ b) (hb₀ : b₀.Ordered) {name : String} {id : SymbolId}
    (hfound : b₀.table.laterGlobal name = some id) : b.table.laterGlobal name = some id := by
  unfold SymbolTableOver.laterGlobal SymbolTableOver.scope? at hfound ⊢
  cases hs : b₀.table.scopes[SymbolTableOver.rootId]? with
  | none =>
    rw [hs] at hfound
    cases hfound
  | some s =>
    rw [hs] at hfound
    obtain ⟨s', hs', hcontinues⟩ := h.scopes hs
    obtain ⟨new, heq, -, -⟩ := hcontinues.declarations name
    have hglobal : ∀ id ∈ s.declarations name, b.table.isGlobal id = b₀.table.isGlobal id :=
      fun id hid => h.isGlobal (hb₀.listed hs hid)
    have hfind : (s.declarations name).find? b.table.isGlobal =
        (s.declarations name).find? b₀.table.isGlobal := by
      rw [← List.head?_filter, ← List.head?_filter, List.filter_congr hglobal]
    rw [hs']
    simp only at hfound ⊢
    rw [heq, List.find?_append, hfind, hfound]
    rfl

/-- A lookup in front of what is new finds what it found before. -/
theorem lookup (h : Continues b₀ b) (hb₀ : b₀.Ordered) (hnew : NewBehind b₀ b offset)
    {scope : ScopeId} (hscope : scope < b₀.table.scopes.size) {name : String} {id : SymbolId}
    (hfound : b₀.table.lookup scope name offset = some id) :
    b.table.lookup scope name offset = some id := by
  have hchain := h.findSome?_chain hb₀ hnew name hscope hscope
    (Nat.lt_of_lt_of_le hscope h.size)
  unfold SymbolTableOver.lookup SymbolTableOver.ancestors at hfound ⊢
  rw [hchain]
  split at hfound
  · exact hfound
  · exact h.laterGlobal hb₀ hfound

end Continues

end Binder

end LuaScope

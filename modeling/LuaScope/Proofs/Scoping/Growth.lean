import LuaScope.Proofs.Scoping.Descent
import LuaScope.Proofs.Scoping.Step
import Mathlib.Order.Interval.Set.Basic

/-!
# LuaScope.Proofs.Scoping.Growth

What a step of a walk adds to the scopes, and where a query finds it again: at the offset of a name
the way down the scopes ends in the scope in which the name was bound.

* `Binder.Stands`   — a symbol or a use of a name stands at an offset, bound in a scope.
* `Binder.Branches` — all that a step adds stands at some offsets, its new scopes between two
  bounds, and what was added is found on the way down through the new scopes.
* `Branches.trans`, `Branches.enter`, `Branches.loop` — steps at separate places one behind the
  other, a step in a scope of its own, and a loop whose scope covers also what is walked in front
  of it.
-/

namespace LuaScope

namespace SymbolTableOver

variable {ρ : Type} {t : SymbolTableOver ρ} {offset : Nat}

/-- Where the way down may end for what was bound in a scope: there, or for a use of a name in a loop
of that scope. -/
def EndsFor (t : SymbolTableOver ρ) (isUse : Bool) (scope last : ScopeId) : Prop :=
  last = scope ∨
    isUse = true ∧ ∃ s, t.scope? last = some s ∧ s.kind = .loop ∧ s.parent = some scope

theorem Gains.endsFor {t' : SymbolTableOver ρ} {outer : ScopeId} {new : List ScopeId}
    (h : Gains outer new t t') {isUse : Bool} {scope last : ScopeId}
    (hends : t.EndsFor isUse scope last) : t'.EndsFor isUse scope last := by
  rcases hends with rfl | ⟨huse, s, hs, hkind, hparent⟩
  · exact .inl rfl
  · obtain ⟨s', hs', hkind', hparent', -⟩ := h.kept hs
    exact .inr ⟨huse, s', hs', hkind'.trans hkind, hparent'.trans hparent⟩

/-- Scopes between two bounds do not contain an offset outside of them, nor one at a bound where no
scope but another one ends. -/
theorem firstAt_eq_none_of_clear {ids : List ScopeId} {scope : ScopeId} {lo hi : Nat}
    (hclear : t.Clear offset scope) (hne : ∀ id ∈ ids, id ≠ scope)
    (hinside : ∀ id ∈ ids, ∀ s, t.scope? id = some s → lo ≤ s.span.start ∧ s.span.stop ≤ hi)
    (haway : offset < lo ∨ hi ≤ offset) : t.firstAt offset ids = none := by
  refine firstAt_eq_none fun id hid s hs => ?_
  obtain ⟨hstart, hstop⟩ := hinside id hid s hs
  have hend : s.span.stop ≠ offset := fun heq => hne id hid (hclear id s hs heq)
  omega

end SymbolTableOver

open SymbolTableOver

variable {σ : Type}

namespace Binder

/-- A use of a name, or else a symbol whose name covers text, stands at an offset and was bound in a
scope. -/
inductive Stands (b : Binder σ) : (isUse : Bool) → (scope : ScopeId) → (offset : Nat) → Prop where
  | symbol {scope : ScopeId} {s : Scope} {id : SymbolId} {e : Entry} :
      b.table.scope? scope = some s → id ∈ s.symbols → b.table.entries[id]? = some e →
      e.span.start < e.span.stop → Stands b false scope e.span.start
  | use {r : Reference} : r ∈ b.references → Stands b true r.scope r.anchor

/-- The walk stands in a scope that is there, and the scopes are a tree. -/
structure Placed (b : Binder σ) : Prop where
  lt : b.scope < b.table.scopes.size
  grounded : b.table.Grounded

/-- On the way from `b` to `b'`, where the current scope got the new children, this came to stand at
one of the places. It was bound in the current scope, where symbols only come if the step `declares`
something, or in a scope below it. -/
structure Added (declares : Prop) (places : Set Nat) (new : List ScopeId) (b b' : Binder σ)
    (isUse : Bool) (scope : ScopeId) (offset : Nat) : Prop where
  place : offset ∈ places
  bound : scope = b.scope ∧ (isUse = true ∨ declares) ∨ b.table.scopes.size ≤ scope
  lt : scope < b'.table.scopes.size
  found : b'.table.Clear offset scope → ∃ last, b'.table.EndsFor isUse scope last ∧
    b'.table.LandsIn offset new b.scope last

/-- From `b` to `b'` the walk is back in its scope, which got the new children, between the two
bounds; and all that came to stand anywhere stands at one of the places. -/
structure Branches (declares : Prop) (places : Set Nat) (lo hi : Nat) (new : List ScopeId)
    (b b' : Binder σ) : Prop where
  scope : b'.scope = b.scope
  grounded : b'.table.Grounded
  gains : b.table.Gains b.scope new b'.table
  inside : ∀ id ∈ new, ∀ s, b'.table.scope? id = some s → lo ≤ s.span.start ∧ s.span.stop ≤ hi
  stands : ∀ {isUse scope offset}, b'.Stands isUse scope offset →
    b.Stands isUse scope offset ∨ b.Added declares places new b' isUse scope offset

variable {declares : Prop} {places places' : Set Nat} {lo hi lo' hi' : Nat}
  {new more : List ScopeId} {b b' b'' : Binder σ} {isUse : Bool} {scope : ScopeId} {offset : Nat}

theorem Stands.congr (h : b'.Stands isUse scope offset)
    (hscopes : b'.table.scopes = b.table.scopes) (hentries : b'.table.entries = b.table.entries)
    (hreferences : b'.references = b.references) : b.Stands isUse scope offset := by
  cases h with
  | symbol hs hmem he hcovers =>
    rw [scope?, hscopes] at hs
    rw [hentries] at he
    exact .symbol hs hmem he hcovers
  | use hr => exact .use (hreferences ▸ hr)

theorem Branches.placed (h : b.Branches declares places lo hi new b') (hplaced : b.Placed) :
    b'.Placed where
  lt := by
    rw [h.scope]
    exact Nat.lt_of_lt_of_le hplaced.lt h.gains.size
  grounded := h.grounded

/-- A step behind it leaves a new scope as it is. -/
theorem Branches.scope?_eq (hplaced : b.Placed) (h : b.Branches declares places lo hi new b')
    {declares' : Prop} (h' : b'.Branches declares' places' lo' hi' more b'') {id : ScopeId}
    (hid : id ∈ new) {s : Scope} (hs : b''.table.scope? id = some s) :
    b'.table.scope? id = some s := by
  obtain ⟨hle, hlt⟩ := h.gains.fresh id hid
  obtain ⟨s', hs'⟩ := exists_scope? hlt
  have hne : id ≠ b'.scope := by
    rw [h.scope]
    exact Nat.ne_of_gt (Nat.lt_of_lt_of_le hplaced.lt hle)
  rw [hs', ← hs, h'.gains.others hne hs']

namespace Added

/-- The next step is at another place. -/
theorem before (hplaced : b.Placed) (hstep : b.Branches declares places lo hi new b')
    (h : b.Added declares places new b' isUse scope offset) {declares' : Prop}
    (hnext : b'.Branches declares' places' lo' hi' more b'') (haway : offset < lo' ∨ hi' ≤ offset) :
    b.Added declares places (new ++ more) b'' isUse scope offset where
  place := h.place
  bound := h.bound
  lt := Nat.lt_of_lt_of_le h.lt hnext.gains.size
  found hclear := by
    obtain ⟨last, hends, hlands⟩ := h.found (hnext.gains.clear hclear)
    have hgains := hnext.gains
    rw [hstep.scope] at hgains
    have hnone : b''.table.firstAt offset more = none := by
      refine firstAt_eq_none_of_clear hclear (fun id hid => ?_) hnext.inside haway
      exact Nat.ne_of_gt (Nat.lt_of_lt_of_le h.lt (hnext.gains.fresh id hid).1)
    refine ⟨last, hgains.endsFor hends, LandsIn.before ?_ hnone⟩
    refine hgains.landsIn hstep.grounded (fun id hid => ?_) hlands
    obtain ⟨hle, hlt⟩ := hstep.gains.fresh id hid
    exact ⟨Nat.lt_of_lt_of_le hplaced.lt hle, hlt⟩

/-- The step in front was at another place. -/
theorem behind (hplaced : b.Placed) {declares' : Prop}
    (hfirst : b.Branches declares' places' lo' hi' new b')
    (hstep : b'.Branches declares places lo hi more b'')
    (h : b'.Added declares places more b'' isUse scope offset)
    (haway : offset < lo' ∨ hi' ≤ offset) :
    b.Added declares places (new ++ more) b'' isUse scope offset where
  place := h.place
  bound := h.bound.imp (fun hown => ⟨hown.1.trans hfirst.scope, hown.2⟩)
    (Nat.le_trans hfirst.gains.size)
  lt := h.lt
  found hclear := by
    obtain ⟨last, hends, hlands⟩ := h.found hclear
    rw [hfirst.scope] at hlands
    refine ⟨last, hends, hlands.behind ?_⟩
    refine firstAt_eq_none_of_clear hclear (fun id hid => ?_) (fun id hid s hs => ?_) haway
    · obtain ⟨hle, hlt⟩ := hfirst.gains.fresh id hid
      rcases h.bound with ⟨rfl, -⟩ | hscope
      · rw [hfirst.scope]
        exact Nat.ne_of_gt (Nat.lt_of_lt_of_le hplaced.lt hle)
      · exact Nat.ne_of_lt (Nat.lt_of_lt_of_le hlt hscope)
    · exact hfirst.inside id hid s (hfirst.scope?_eq hplaced hstep hid hs)

theorem mono (h : b.Added declares places new b' isUse scope offset) {declares' : Prop}
    (hdeclares : declares → declares') (hplaces : places ⊆ places') :
    b.Added declares' places' new b' isUse scope offset where
  place := hplaces h.place
  bound := h.bound.imp_left fun hown => ⟨hown.1, hown.2.imp_right hdeclares⟩
  lt := h.lt
  found := h.found

end Added

namespace Branches

theorem mono (h : b.Branches declares places lo hi new b') {declares' : Prop}
    (hdeclares : declares → declares') (hplaces : places ⊆ places') (hlo : lo' ≤ lo)
    (hhi : hi ≤ hi') : b.Branches declares' places' lo' hi' new b' where
  scope := h.scope
  grounded := h.grounded
  gains := h.gains
  inside id hid s hs :=
    ⟨Nat.le_trans hlo (h.inside id hid s hs).1, Nat.le_trans (h.inside id hid s hs).2 hhi⟩
  stands hstands := (h.stands hstands).imp_right (·.mono hdeclares hplaces)

/-- Where no scope was made there is nothing to bound. -/
theorem flat (h : b.Branches declares places lo hi [] b') (lo' hi' : Nat) :
    b.Branches declares places lo' hi' [] b' where
  scope := h.scope
  grounded := h.grounded
  gains := h.gains
  inside := nofun
  stands := h.stands

/-- The scopes of both steps lie between the bounds of both. -/
theorem inside_append (hplaced : b.Placed) {declares' : Prop}
    (h : b.Branches declares places lo hi new b')
    (h' : b'.Branches declares' places' lo' hi' more b'') :
    ∀ id ∈ new ++ more, ∀ s, b''.table.scope? id = some s →
      min lo lo' ≤ s.span.start ∧ s.span.stop ≤ max hi hi' := by
  intro id hid s hs
  rcases List.mem_append.mp hid with hid | hid
  · have hbounds := h.inside id hid s (h.scope?_eq hplaced h' hid hs)
    omega
  · have hbounds := h'.inside id hid s hs
    omega

/-- Two steps, neither of which adds anything between the bounds of the other. -/
theorem trans (hplaced : b.Placed) (h : b.Branches declares places lo hi new b')
    (h' : b'.Branches declares places' lo' hi' more b'')
    (haway : ∀ offset ∈ places, offset < lo' ∨ hi' ≤ offset)
    (haway' : ∀ offset ∈ places', offset < lo ∨ hi ≤ offset) :
    b.Branches declares (places ∪ places') (min lo lo') (max hi hi') (new ++ more) b'' where
  scope := h'.scope.trans h.scope
  grounded := h'.grounded
  gains := h.gains.trans (h.scope ▸ h'.gains)
  inside := h.inside_append hplaced h'
  stands hstands := by
    rcases h'.stands hstands with hstands | hadded
    · refine (h.stands hstands).imp_right fun hadded => ?_
      exact (hadded.before hplaced h h' (haway _ hadded.place)).mono id Set.subset_union_left
    · exact .inr ((hadded.behind hplaced h h' (haway' _ hadded.place)).mono id
        Set.subset_union_right)

/-! ## Single steps -/

theorem quiet (hplaced : b.Placed) (h : b.Quiet b') (lo hi : Nat) :
    b.Branches declares ∅ lo hi [] b' where
  scope := h.scope
  grounded := hplaced.grounded.congr h.scopes (Nat.le_of_eq (by rw [h.entries]))
  gains := .of_scopes_eq h.scopes
  inside := nofun
  stands hstands := .inl (hstands.congr h.scopes h.entries h.references)

/-- No scope is made behind the step. -/
theorem andFlat (hplaced : b.Placed) (h : b.Branches declares places lo hi new b')
    (h' : b'.Branches declares places' lo' hi' [] b'')
    (haway : ∀ offset ∈ places', offset < lo ∨ hi ≤ offset) :
    b.Branches declares (places ∪ places') lo hi new b'' := by
  have hstep := h.trans hplaced (h'.flat 0 0) (fun offset _ => .inr (Nat.zero_le offset)) haway
  rw [List.append_nil] at hstep
  exact { hstep with inside := fun id hid s hs => h.inside id hid s (h.scope?_eq hplaced h' hid hs) }

/-- No scope is made in front of the step. -/
theorem ofFlat (hplaced : b.Placed) (h : b.Branches declares places lo hi [] b')
    (h' : b'.Branches declares places' lo' hi' new b'')
    (haway : ∀ offset ∈ places, offset < lo' ∨ hi' ≤ offset) :
    b.Branches declares (places ∪ places') lo' hi' new b'' :=
  { (h.flat 0 0).trans hplaced h' haway fun offset _ => .inr (Nat.zero_le offset) with
    inside := h'.inside }

theorem andQuiet (hplaced : b.Placed) (h : b.Branches declares places lo hi new b')
    (hquiet : b'.Quiet b'') : b.Branches declares places lo hi new b'' := by
  have hstep := h.andFlat hplaced (quiet (h.placed hplaced) hquiet 0 0) nofun
  rwa [Set.union_empty] at hstep

/-- What comes to stand in the current scope is found there, if no scope is made. -/
theorem of_current (hscope : b'.scope = b.scope) (hplaced : b.Placed) (hgrounded : b'.table.Grounded)
    (hgains : b.table.Gains b.scope [] b'.table)
    (hstands : ∀ {isUse scope offset}, b'.Stands isUse scope offset → b.Stands isUse scope offset ∨
      offset ∈ places ∧ scope = b.scope ∧ (isUse = true ∨ declares)) :
    b.Branches declares places lo hi [] b' where
  scope := hscope
  grounded := hgrounded
  gains := hgains
  inside := nofun
  stands h := by
    refine (hstands h).imp_right fun ⟨hplace, heq, hkind⟩ => ?_
    refine ⟨hplace, .inl ⟨heq, hkind⟩, ?_, fun _ => ⟨b.scope, .inl heq.symm, .inl ⟨rfl, rfl⟩⟩⟩
    rw [heq]
    exact Nat.lt_of_lt_of_le hplaced.lt hgains.size

theorem record (hplaced : b.Placed) (s : Setting σ) (first last : Ident) (target : Option Link) :
    b.Branches declares {first.span.start} lo hi [] (b.record s first last target) := by
  refine .of_current rfl hplaced hplaced.grounded (.of_scopes_eq rfl) fun hstands => ?_
  cases hstands with
  | symbol hs hid he hcovers => exact .inl (.symbol hs hid he hcovers)
  | use hr =>
    rcases Array.mem_push.mp hr with hr | rfl
    · exact .inl (.use hr)
    · exact .inr ⟨rfl, rfl, .inl rfl⟩

/-- A new symbol stands at its start, if its name covers text. -/
theorem declare (hplaced : b.Placed) {x : Symbol} (hid : x.id = b.table.nextSymbolId)
    (hscope : x.scope = b.scope) :
    b.Branches True {offset | offset = x.span.start ∧ x.span.start < x.span.stop} lo hi []
      (b.declare x) := by
  refine .of_current rfl hplaced (hplaced.grounded.declare hid) (.declare hscope)
    fun {_ outer _} hstands => ?_
  cases hstands with
  | @symbol outer s' id e hs hmem he hcovers =>
    change (b.table.declare x).scope? outer = some s' at hs
    change (b.table.declare x).entries[id]? = some e at he
    rw [entries_declare] at he
    -- A symbol that was there has a smaller number.
    have hold : ∀ {s}, b.table.scope? outer = some s → id ∈ s.symbols →
        b.Stands false outer e.span.start := by
      intro s hs hmem
      rw [List.getElem?_append_left (hplaced.grounded.symbols hs hmem)] at he
      exact .symbol hs hmem he hcovers
    rw [scope?_declare] at hs
    split at hs
    · rename_i heq
      obtain ⟨s, hbefore, rfl⟩ := Option.map_eq_some_iff.mp hs
      rcases List.mem_append.mp hmem with hmem | hnew
      · exact .inl (hold hbefore hmem)
      · rw [List.mem_singleton.mp hnew, hid, ← length_entries, List.getElem?_concat_length] at he
        cases he
        exact .inr ⟨⟨rfl, hcovers⟩, heq.trans hscope, .inr trivial⟩
    · exact .inl (hold hs hmem)
  | use hr => exact .inl (.use hr)

/-- No scope lists a member. -/
theorem addMember (hplaced : b.Placed) (x : Symbol) :
    b.Branches declares ∅ lo hi [] (b.addMember x) := by
  have hentries : (b.addMember x).table.entries = b.table.entries ++ [x.entry] := by
    simp [Binder.addMember, SymbolTableOver.addMember, entries]
  refine .of_current rfl hplaced (hplaced.grounded.congr rfl ?_) (.of_scopes_eq rfl)
    fun hstands => ?_
  · rw [hentries, List.length_append]
    exact Nat.le_add_right _ _
  · cases hstands with
    | symbol hs hmem he hcovers =>
      have hlt := hplaced.grounded.symbols hs hmem
      rw [hentries, List.getElem?_append_left hlt] at he
      exact .inl (.symbol hs hmem he hcovers)
    | use hr => exact .inl (.use hr)

end Branches

/-! ## Scopes -/

theorem Placed.enterScope (hplaced : b.Placed) (kind : ScopeKind)
    (span : Span) : (b.enterScope kind span).Placed where
  lt := by simp [Binder.enterScope, nextScopeId]
  grounded := hplaced.grounded.addScope hplaced.lt kind span

/-- Below the current scope no loop ends but one that was made there. -/
theorem Added.of_current (hplaced : b.Placed) (hgrounded : b'.table.Grounded)
    (h : b.Added False places new b' isUse scope offset)
    (hends : b'.table.EndsFor isUse scope b.scope) : scope = b.scope ∧ isUse = true := by
  rcases h.bound with ⟨hscope, huse⟩ | hle
  · exact ⟨hscope, huse.resolve_right id⟩
  · refine absurd hle (Nat.not_le_of_lt ?_)
    rcases hends with heq | ⟨-, s, hs, -, hparent⟩
    · exact heq ▸ hplaced.lt
    · obtain ⟨around, haround, hmem⟩ := hgrounded.parent hs hparent
      exact Nat.lt_trans (hgrounded.children haround hmem).1 hplaced.lt

namespace Branches

/-- All that a step adds in a scope of its own stands inside that scope. -/
theorem enter (hplaced : b.Placed) {kind : ScopeKind} {span : Span} {inner : List ScopeId}
    (h : (b.enterScope kind span).Branches True places lo hi inner b')
    (hplaces : ∀ offset ∈ places, span.contains offset = true) :
    b.Branches declares places span.start span.stop [b.table.nextScopeId] (b'.backTo b.scope) := by
  have hopened : (b.enterScope kind span).table.scope? b.table.nextScopeId =
      some { id := b.table.nextScopeId, kind := kind, parent := some b.scope, span := span } :=
    b.table.getElem?_addScope_new hplaced.lt kind span
  obtain ⟨s, hs, -, -, hspan, hchildren⟩ := h.gains.own hopened
  change b'.table.scope? b.table.nextScopeId = some s at hs
  have hgains := Gains.enter hplaced.lt h.gains
  refine ⟨rfl, h.grounded, hgains, fun id hid s' hs' => ?_, fun hstands => ?_⟩
  · rw [List.mem_singleton.mp hid] at hs'
    obtain rfl := Option.some.inj (hs.symm.trans hs')
    exact ⟨Nat.le_of_eq (congrArg Span.start hspan).symm, Nat.le_of_eq (congrArg Span.stop hspan)⟩
  · rcases h.stands (hstands.congr rfl rfl rfl) with hold | hadded
    · -- Nothing stood in the scope when it was opened.
      refine .inl ?_
      cases hold with
      | symbol hs hmem he hcovers =>
        rcases of_scope?_addScope hplaced.lt hs with ⟨-, rfl⟩ | ⟨s, hs, -, hsymbols, -⟩
        · cases hmem
        · exact .symbol hs (hsymbols ▸ hmem) he hcovers
      | use hr => exact .use hr
    · refine .inr ⟨hadded.place, .inr ?_, hadded.lt, fun hclear => ?_⟩
      · rcases hadded.bound with ⟨rfl, -⟩ | hle
        · exact Nat.le_refl _
        · exact Nat.le_trans (by simp [Binder.enterScope]) hle
      · obtain ⟨last, hends, hlands⟩ := hadded.found hclear
        refine ⟨last, hends, .inr ⟨b.table.nextScopeId, ?_, hlands.descends hs hchildren⟩⟩
        refine firstAt_singleton hs ?_
        rw [hspan]
        exact hplaces _ hadded.place

/-- The scope of a loop, and what is walked in front of it, in the scope around, but stands inside of
the loop: uses of names from there are found in the loop, or in a scope that was made for them. -/
theorem loop (hplaced : b.Placed) {span : Span} {inner : List ScopeId}
    (hheader : b.Branches False (Set.Ico lo hi) lo hi new b')
    (hinside : (b'.enterScope .loop span).Branches True places hi hi' inner b'')
    (hplaces : ∀ offset ∈ places, (offset < lo ∨ hi ≤ offset) ∧ span.contains offset = true)
    (hstart : span.start ≤ lo) (hstop : hi ≤ span.stop) :
    b.Branches declares (Set.Ico lo hi ∪ places) span.start span.stop (new ++ [b'.table.nextScopeId])
      (b''.backTo b'.scope) := by
  have hplaced' := hheader.placed hplaced
  have hloop : b'.Branches declares places span.start span.stop [b'.table.nextScopeId]
      (b''.backTo b'.scope) :=
    enter hplaced' hinside fun offset hoffset => (hplaces offset hoffset).2
  have hopened : (b'.enterScope .loop span).table.scope? b'.table.nextScopeId =
      some { id := b'.table.nextScopeId, kind := .loop, parent := some b'.scope, span := span } :=
    b'.table.getElem?_addScope_new hplaced'.lt .loop span
  obtain ⟨s, hs, hkind, hparent, hspan, hchildren⟩ := hinside.gains.own hopened
  change b''.table.scope? b'.table.nextScopeId = some s at hs
  have hgains : b'.table.Gains b.scope [b'.table.nextScopeId] b''.table :=
    hheader.scope ▸ hloop.gains
  refine ⟨hloop.scope.trans hheader.scope, hloop.grounded, hheader.gains.trans hgains,
    fun id hid s' hs' => ?_, fun {isUse scope offset} hstands => ?_⟩
  · have hbounds := hheader.inside_append hplaced hloop id hid s' hs'
    omega
  rcases hloop.stands hstands with hstands | hadded
  · refine (hheader.stands hstands).imp_right fun hadded => ?_
    obtain ⟨hge, hlt⟩ := hadded.place
    refine ⟨.inl hadded.place, hadded.bound.imp_left fun hown => ⟨hown.1, ?_⟩,
      Nat.lt_of_lt_of_le hadded.lt hgains.size, fun hclear => ?_⟩
    · exact hown.2.imp_right False.elim
    obtain ⟨last, hends, hlands⟩ := hadded.found (hgains.clear hclear)
    have hlands : b''.table.LandsIn offset new b.scope last := by
      refine hgains.landsIn hheader.grounded (fun id hid => ?_) hlands
      obtain ⟨hle, hlt⟩ := hheader.gains.fresh id hid
      exact ⟨Nat.lt_of_lt_of_le hplaced.lt hle, hlt⟩
    rcases hlands with ⟨hnone, rfl⟩ | ⟨child, hchild, hdescends⟩
    · -- Nothing in front of the loop contains the offset, and nothing inside of it does.
      obtain ⟨rfl, huse⟩ := hadded.of_current hplaced hheader.grounded hends
      have hempty : b''.table.childAt s offset = none := by
        rw [childAt_eq, hchildren]
        exact firstAt_eq_none fun id hid s' hs' =>
          .inl (Nat.lt_of_lt_of_le hlt (hinside.inside id hid s' hs').1)
      refine ⟨b'.table.nextScopeId, .inr ⟨huse, s, hs, hkind, ?_⟩, .inr ⟨b'.table.nextScopeId, ?_,
        .stop hs hempty⟩⟩
      · rw [hparent, hheader.scope]
      · change b''.table.firstAt offset _ = _
        rw [firstAt_append, hnone, Option.none_or]
        refine firstAt_singleton hs ?_
        rw [hspan]
        exact Span.contains_iff.mpr ⟨Nat.le_trans hstart hge, Nat.le_trans (Nat.le_of_lt hlt) hstop⟩
    · refine ⟨last, hgains.endsFor hends, .inr ⟨child, ?_, hdescends⟩⟩
      change b''.table.firstAt offset _ = _
      rw [firstAt_append, hchild, Option.some_or]
  · refine .inr ((hadded.behind hplaced hheader hloop (hplaces _ hadded.place).1).mono id ?_)
    exact Set.subset_union_right

end Branches

end Binder

end LuaScope

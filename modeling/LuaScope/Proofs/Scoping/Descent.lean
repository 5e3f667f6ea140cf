import LuaScope.Proofs.Scoping.Table
import Mathlib.Data.List.Find

/-!
# LuaScope.Proofs.Scoping.Descent

The way down the scopes of a table that a query takes at an offset: from a scope always to the first
of its children that contains the offset.

* `SymbolTableOver.Grounded` — the scopes are a tree, in which children come behind their parents.
* `SymbolTableOver.Descends` — where the way down from a scope ends; from the root scope this is the
  innermost scope.
* `SymbolTableOver.Gains`    — one scope got new children, below which others may stand; a way down
  through scopes that were there is the same.
-/

namespace LuaScope

namespace SymbolTableOver

variable {ρ : Type} {t t' t'' : SymbolTableOver ρ} {offset : Nat}

/-! ## The first scope at an offset -/

/-- First of these scopes whose span contains the offset. -/
def firstAt (t : SymbolTableOver ρ) (offset : Nat) (ids : List ScopeId) : Option ScopeId :=
  ids.find? (fun id =>
    match t.scope? id with
    | some child => child.span.contains offset
    | none => false)

theorem childAt_eq (t : SymbolTableOver ρ) (s : Scope) (offset : Nat) :
    t.childAt s offset = t.firstAt offset s.children := rfl

theorem firstAt_append (t : SymbolTableOver ρ) (offset : Nat) (ids more : List ScopeId) :
    t.firstAt offset (ids ++ more) = (t.firstAt offset ids).or (t.firstAt offset more) :=
  List.find?_append

theorem mem_of_firstAt {ids : List ScopeId} {id : ScopeId} (h : t.firstAt offset ids = some id) :
    id ∈ ids := List.mem_of_find?_eq_some h

theorem firstAt_eq_none {ids : List ScopeId}
    (h : ∀ id ∈ ids, ∀ s, t.scope? id = some s → offset < s.span.start ∨ s.span.stop < offset) :
    t.firstAt offset ids = none := by
  refine List.find?_eq_none.mpr fun id hid => ?_
  cases hs : t.scope? id with
  | none => exact Bool.false_ne_true
  | some s =>
    intro hcontains
    obtain ⟨hstart, hstop⟩ := Span.contains_iff.mp hcontains
    have haway := h id hid s hs
    omega

theorem firstAt_singleton {id : ScopeId} {s : Scope} (hs : t.scope? id = some s)
    (hcontains : s.span.contains offset = true) : t.firstAt offset [id] = some id := by
  simp [firstAt, hs, hcontains]

theorem firstAt_congr {ids : List ScopeId} (h : ∀ id ∈ ids, t'.scope? id = t.scope? id) :
    t'.firstAt offset ids = t.firstAt offset ids :=
  List.find?_congr fun id hid => by rw [h id hid]

/-! ## Trees of scopes -/

/-- The scopes are a tree, in which children come behind their parents, and every symbol that a scope
lists is there. -/
structure Grounded (t : SymbolTableOver ρ) : Prop where
  children : ∀ {id child s}, t.scope? id = some s → child ∈ s.children →
    id < child ∧ child < t.scopes.size
  parent : ∀ {id outer s}, t.scope? id = some s → s.parent = some outer →
    ∃ around, t.scope? outer = some around ∧ id ∈ around.children
  symbols : ∀ {id x s}, t.scope? id = some s → x ∈ s.symbols → x < t.entries.length

theorem lt_of_scope? {id : ScopeId} {s : Scope} (h : t.scope? id = some s) :
    id < t.scopes.size := (Array.getElem?_eq_some_iff.mp h).1

theorem exists_scope? {id : ScopeId} (h : id < t.scopes.size) : ∃ s, t.scope? id = some s :=
  ⟨_, Array.getElem?_eq_getElem h⟩

theorem scope?_addScope {parent : ScopeId} (hparent : parent < t.scopes.size) (kind : ScopeKind)
    (span : Span) (id : ScopeId) : (t.addScope parent kind span).scope? id =
      if id = t.scopes.size then
        some { id := t.nextScopeId, kind := kind, parent := some parent, span := span }
      else if id = parent then
        (t.scope? id).map fun s => { s with children := s.children ++ [t.nextScopeId] }
      else t.scope? id := by
  have hne : t.scopes.size ≠ parent := Nat.ne_of_gt hparent
  simp only [scope?, addScope, nextScopeId, Array.getElem?_modify, Array.getElem?_push]
  by_cases hid : id = t.scopes.size
  · subst hid
    simp [Ne.symm hne]
  · by_cases heq : parent = id
    · simp [heq, hid]
    · simp [heq, Ne.symm heq, hid]

/-- A scope with a new child was there, or is the new one. -/
theorem of_scope?_addScope {parent : ScopeId} (hparent : parent < t.scopes.size) {kind : ScopeKind}
    {span : Span} {id : ScopeId} {s' : Scope}
    (h : (t.addScope parent kind span).scope? id = some s') :
    id = t.scopes.size ∧
        s' = { id := t.nextScopeId, kind := kind, parent := some parent, span := span } ∨
      ∃ s, t.scope? id = some s ∧ s'.parent = s.parent ∧ s'.symbols = s.symbols ∧
        ∀ child ∈ s'.children, child ∈ s.children ∨ id = parent ∧ child = t.scopes.size := by
  rw [scope?_addScope hparent] at h
  split at h
  · rename_i hid
    exact .inl ⟨hid, (Option.some.inj h).symm⟩
  · split at h
    · rename_i hid
      obtain ⟨s, hs, rfl⟩ := Option.map_eq_some_iff.mp h
      refine .inr ⟨s, hs, rfl, rfl, fun child hchild => ?_⟩
      exact (List.mem_append.mp hchild).imp_right fun hnew => ⟨hid, List.mem_singleton.mp hnew⟩
    · exact .inr ⟨s', h, rfl, rfl, fun child => .inl⟩

@[simp] theorem size_addScope (t : SymbolTableOver ρ) (parent : ScopeId) (kind : ScopeKind)
    (span : Span) : (t.addScope parent kind span).scopes.size = t.scopes.size + 1 := by
  simp [addScope]

@[simp] theorem size_declare (t : SymbolTableOver ρ) (x : SymbolOver ρ) :
    (t.declare x).scopes.size = t.scopes.size := Array.size_modify

theorem scope?_declare (t : SymbolTableOver ρ) (x : SymbolOver ρ) (id : ScopeId) :
    (t.declare x).scope? id =
      if id = x.scope then
        (t.scope? id).map fun s => { s with
          symbols := s.symbols ++ [x.id]
          byName := modifyUnder x.name (t.insertByStart x.span.start x.id) s.byName }
      else t.scope? id := by
  simp only [scope?, declare, Array.getElem?_modify]
  by_cases heq : x.scope = id
  · rw [if_pos heq, if_pos heq.symm]
  · rw [if_neg heq, if_neg (Ne.symm heq)]

namespace Grounded

/-- The scopes decide, and that all symbols are still there. -/
theorem congr (h : t.Grounded) (hscopes : t'.scopes = t.scopes)
    (hentries : t.entries.length ≤ t'.entries.length) : t'.Grounded where
  children hs := by
    rw [scope?, hscopes] at hs
    rw [hscopes]
    exact h.children hs
  parent hs hparent := by
    rw [scope?, hscopes] at hs
    simpa only [scope?, hscopes] using h.parent hs hparent
  symbols hs hx := by
    rw [scope?, hscopes] at hs
    exact Nat.lt_of_lt_of_le (h.symbols hs hx) hentries

theorem addScope (h : t.Grounded) {outer : ScopeId} (houter : outer < t.scopes.size)
    (kind : ScopeKind) (span : Span) : (t.addScope outer kind span).Grounded := by
  have hkept : ∀ {id s}, t.scope? id = some s → ∃ s', (t.addScope outer kind span).scope? id =
      some s' ∧ ∀ child ∈ s.children, child ∈ s'.children := by
    intro id s hs
    rw [scope?_addScope houter, if_neg (Nat.ne_of_lt (lt_of_scope? hs)), hs]
    split
    · exact ⟨_, rfl, fun child => List.mem_append_left _⟩
    · exact ⟨s, rfl, fun _ hchild => hchild⟩
  constructor
  case children =>
    intro id child s' hs' hchild
    rw [size_addScope]
    rcases of_scope?_addScope houter hs' with ⟨-, rfl⟩ | ⟨s, hs, -, -, hchildren⟩
    · cases hchild
    · rcases hchildren child hchild with hchild | ⟨rfl, rfl⟩
      · exact ⟨(h.children hs hchild).1, Nat.lt_succ_of_lt (h.children hs hchild).2⟩
      · exact ⟨houter, Nat.lt_succ_self _⟩
  case parent =>
    intro id p s' hs' hparent
    rcases of_scope?_addScope houter hs' with ⟨rfl, rfl⟩ | ⟨s, hs, hsame, -, -⟩
    · obtain rfl := Option.some.inj hparent
      obtain ⟨around, haround⟩ := exists_scope? houter
      refine ⟨{ around with children := around.children ++ [t.nextScopeId] }, ?_, ?_⟩
      · rw [scope?_addScope houter, if_neg (Nat.ne_of_lt houter), if_pos rfl, haround]
        rfl
      · exact List.mem_append_right _ (List.mem_singleton_self _)
    · obtain ⟨around, haround, hmem⟩ := h.parent hs (hsame ▸ hparent)
      obtain ⟨around', haround', hsub⟩ := hkept haround
      exact ⟨around', haround', hsub id hmem⟩
  case symbols =>
    intro id x s' hs' hx
    rcases of_scope?_addScope houter hs' with ⟨-, rfl⟩ | ⟨s, hs, -, hsymbols, -⟩
    · cases hx
    · exact h.symbols hs (hsymbols ▸ hx)

theorem declare (h : t.Grounded) {x : SymbolOver ρ} (hid : x.id = t.nextSymbolId) :
    (t.declare x).Grounded := by
  have hlength : (t.declare x).entries.length = t.entries.length + 1 := by
    rw [entries_declare, List.length_append, List.length_singleton]
  -- Of a scope only the symbols and their names change.
  have hold : ∀ {id s'}, (t.declare x).scope? id = some s' → ∃ s, t.scope? id = some s ∧
      s'.children = s.children ∧ s'.parent = s.parent ∧
        ∀ y ∈ s'.symbols, y ∈ s.symbols ∨ y = x.id := by
    intro id s' hs'
    rw [scope?_declare] at hs'
    split at hs'
    · obtain ⟨s, hs, rfl⟩ := Option.map_eq_some_iff.mp hs'
      exact ⟨s, hs, rfl, rfl, fun y hy => by simpa using hy⟩
    · exact ⟨s', hs', rfl, rfl, fun y hy => .inl hy⟩
  constructor
  case children =>
    intro id child s' hs' hchild
    obtain ⟨s, hs, hchildren, -⟩ := hold hs'
    rw [size_declare]
    exact h.children hs (hchildren ▸ hchild)
  case parent =>
    intro id outer s' hs' hparent
    obtain ⟨s, hs, -, hsame, -⟩ := hold hs'
    obtain ⟨around, haround, hmem⟩ := h.parent hs (hsame ▸ hparent)
    rw [scope?_declare, haround]
    split
    · exact ⟨_, rfl, hmem⟩
    · exact ⟨around, rfl, hmem⟩
  case symbols =>
    intro id y s' hs' hy
    obtain ⟨s, hs, -, -, hsymbols⟩ := hold hs'
    rw [hlength]
    rcases hsymbols y hy with hy | rfl
    · exact Nat.lt_succ_of_lt (h.symbols hs hy)
    · rw [hid, t.length_entries]
      exact Nat.lt_succ_self _

theorem new (length : Nat) : (SymbolTableOver.new length : SymbolTableOver ρ).Grounded := by
  have hroot : ∀ {id s}, (SymbolTableOver.new length : SymbolTableOver ρ).scope? id = some s →
      s = { id := rootId, kind := .chunk, parent := none, span := ⟨0, length⟩ } := by
    intro id s hs
    obtain ⟨hlt, rfl⟩ := Array.getElem?_eq_some_iff.mp hs
    obtain rfl : id = 0 := Nat.lt_one_iff.mp hlt
    rfl
  constructor <;> intro _ _ s hs hmem <;> obtain rfl := hroot hs <;> cases hmem

end Grounded

/-! ## The way down -/

/-- From the first scope the way down ends in the second. -/
inductive Descends (t : SymbolTableOver ρ) (offset : Nat) : ScopeId → ScopeId → Prop where
  | stop {id : ScopeId} {s : Scope} :
      t.scope? id = some s → t.childAt s offset = none → Descends t offset id id
  | step {id child last : ScopeId} {s : Scope} :
      t.scope? id = some s → t.childAt s offset = some child → Descends t offset child last →
      Descends t offset id last

namespace Descends

variable {id last : ScopeId}

/-- By induction on the way, as each scope has a greater number than the one before. -/
theorem descend_eq (hgrounded : t.Grounded) (h : t.Descends offset id last) :
    ∀ fuel : Nat, t.scopes.size ≤ fuel + (id : Nat) → t.descend offset fuel id = last := by
  induction h with
  | @stop id s hs hnone =>
    intro fuel _
    cases fuel with
    | zero => rfl
    | succ fuel => simp [descend, hs, hnone]
  | @step id child last s hs hchild _ ih =>
    intro fuel hfuel
    cases fuel with
    | zero =>
      rw [Nat.zero_add] at hfuel
      exact absurd (lt_of_scope? hs) (Nat.not_lt.mpr hfuel)
    | succ fuel =>
      have hbehind := (hgrounded.children hs (mem_of_firstAt hchild)).1
      simp only [descend, hs, Option.bind_some, hchild]
      refine ih fuel (Nat.le_trans hfuel ?_)
      rw [Nat.add_right_comm, Nat.add_assoc]
      exact Nat.add_le_add_left hbehind fuel

theorem innermostScope_eq (hgrounded : t.Grounded) (h : t.Descends offset rootId last) :
    t.innermostScope offset = last := h.descend_eq hgrounded _ (Nat.le_add_right _ _)

end Descends

/-- Where the way down ends that goes on with the first of these scopes, children of `outer`, at the
offset: in `outer` itself if there is none. -/
def LandsIn (t : SymbolTableOver ρ) (offset : Nat) (ids : List ScopeId) (outer last : ScopeId) :
    Prop :=
  t.firstAt offset ids = none ∧ last = outer ∨
    ∃ child, t.firstAt offset ids = some child ∧ t.Descends offset child last

theorem LandsIn.descends {ids : List ScopeId} {outer last : ScopeId} {s : Scope}
    (h : t.LandsIn offset ids outer last) (hs : t.scope? outer = some s) (hids : s.children = ids) :
    t.Descends offset outer last := by
  subst hids
  rcases h with ⟨hnone, rfl⟩ | ⟨child, hchild, hdescends⟩
  · exact .stop hs hnone
  · exact .step hs hchild hdescends

/-- Scopes without the offset do not matter. -/
theorem LandsIn.behind {ids more : List ScopeId} {outer last : ScopeId}
    (h : t.LandsIn offset more outer last) (hnone : t.firstAt offset ids = none) :
    t.LandsIn offset (ids ++ more) outer last := by
  rw [LandsIn, firstAt_append, hnone, Option.none_or]
  exact h

theorem LandsIn.before {ids more : List ScopeId} {outer last : ScopeId}
    (h : t.LandsIn offset ids outer last) (hnone : t.firstAt offset more = none) :
    t.LandsIn offset (ids ++ more) outer last := by
  rw [LandsIn, firstAt_append, hnone, Option.or_none]
  exact h

/-! ## Tables that grow -/

/-- No other scope ends at the offset. -/
def Clear (t : SymbolTableOver ρ) (offset : Nat) (id : ScopeId) : Prop :=
  ∀ other s, t.scope? other = some s → s.span.stop = offset → other = id

theorem clear_iff {id : ScopeId} : t.Clear offset id ↔
    ∀ other < t.scopes.size, ∀ s ∈ t.scope? other, s.span.stop = offset → other = id :=
  ⟨fun h other _ s hs => h other s hs, fun h other s hs => h other (lt_of_scope? hs) s hs⟩

instance (t : SymbolTableOver ρ) (offset : Nat) (id : ScopeId) : Decidable (t.Clear offset id) :=
  decidable_of_iff _ clear_iff.symm

/-- The scope `outer` got new children; symbols and further scopes below those may have come with
them, and nothing else changed. -/
structure Gains (outer : ScopeId) (new : List ScopeId) (t t' : SymbolTableOver ρ) : Prop where
  size : t.scopes.size ≤ t'.scopes.size
  others : ∀ {id s}, id ≠ outer → t.scope? id = some s → t'.scope? id = some s
  own : ∀ {s}, t.scope? outer = some s → ∃ s', t'.scope? outer = some s' ∧ s'.kind = s.kind ∧
    s'.parent = s.parent ∧ s'.span = s.span ∧ s'.children = s.children ++ new
  fresh : ∀ child ∈ new, t.scopes.size ≤ child ∧ child < t'.scopes.size

namespace Gains

variable {outer : ScopeId} {new more : List ScopeId}

theorem of_scopes_eq (hscopes : t'.scopes = t.scopes) : Gains outer [] t t' where
  size := Nat.le_of_eq (by rw [hscopes])
  others _ hs := by rwa [scope?, hscopes]
  own hs := ⟨_, by rwa [scope?, hscopes], rfl, rfl, rfl, (List.append_nil _).symm⟩
  fresh := nofun

theorem trans (h : Gains outer new t t') (h' : Gains outer more t' t'') :
    Gains outer (new ++ more) t t'' where
  size := Nat.le_trans h.size h'.size
  others hne hs := h'.others hne (h.others hne hs)
  own hs := by
    obtain ⟨s', hs', hkind, hparent, hspan, hchildren⟩ := h.own hs
    obtain ⟨s'', hs'', hkind', hparent', hspan', hchildren'⟩ := h'.own hs'
    refine ⟨s'', hs'', hkind'.trans hkind, hparent'.trans hparent, hspan'.trans hspan, ?_⟩
    rw [hchildren', hchildren, List.append_assoc]
  fresh child hchild := by
    rcases List.mem_append.mp hchild with hchild | hchild
    · exact ⟨(h.fresh child hchild).1, Nat.lt_of_lt_of_le (h.fresh child hchild).2 h'.size⟩
    · exact ⟨Nat.le_trans h.size (h'.fresh child hchild).1, (h'.fresh child hchild).2⟩

theorem kept (h : Gains outer new t t') {id : ScopeId} {s : Scope} (hs : t.scope? id = some s) :
    ∃ s', t'.scope? id = some s' ∧ s'.kind = s.kind ∧ s'.parent = s.parent ∧ s'.span = s.span := by
  by_cases hid : id = outer
  · subst hid
    obtain ⟨s', hs', hkind, hparent, hspan, -⟩ := h.own hs
    exact ⟨s', hs', hkind, hparent, hspan⟩
  · exact ⟨s, h.others hid hs, rfl, rfl, rfl⟩

theorem declare {x : SymbolOver ρ} (hscope : x.scope = outer) : Gains outer [] t (t.declare x) where
  size := Nat.le_of_eq (t.size_declare x).symm
  others hne hs := by rwa [scope?_declare, if_neg (hscope ▸ hne)]
  own {s} hs := by
    refine ⟨{ s with
      symbols := s.symbols ++ [x.id]
      byName := modifyUnder x.name (t.insertByStart x.span.start x.id) s.byName }, ?_, rfl, rfl, rfl,
      (List.append_nil _).symm⟩
    rw [scope?_declare, if_pos hscope.symm, hs]
    rfl
  fresh := nofun

/-- What went on inside a new scope is a gain of the scope around it. -/
theorem enter {kind : ScopeKind} {span : Span} {inner : List ScopeId}
    (houter : outer < t.scopes.size)
    (h : Gains t.nextScopeId inner (t.addScope outer kind span) t') :
    Gains outer [t.nextScopeId] t t' where
  size := Nat.le_trans (by simp) h.size
  others hne hs := by
    have hold := Nat.ne_of_lt (lt_of_scope? hs)
    refine h.others hold ?_
    rw [scope?_addScope houter, if_neg hold, if_neg hne, hs]
  own {s} hs := by
    have hne := Nat.ne_of_lt houter
    refine ⟨{ s with children := s.children ++ [t.nextScopeId] }, h.others hne ?_, rfl, rfl, rfl,
      rfl⟩
    rw [scope?_addScope houter, if_neg hne, if_pos rfl, hs]
    rfl
  fresh child hchild := by
    rw [List.mem_singleton.mp hchild]
    exact ⟨Nat.le_refl _, Nat.lt_of_lt_of_le (by simp [nextScopeId]) h.size⟩

theorem firstAt_eq (h : Gains outer new t t') {ids : List ScopeId}
    (hids : ∀ id ∈ ids, outer < id ∧ id < t.scopes.size) :
    t'.firstAt offset ids = t.firstAt offset ids := by
  refine firstAt_congr fun id hid => ?_
  obtain ⟨s, hs⟩ := exists_scope? (hids id hid).2
  rw [hs]
  exact h.others (Nat.ne_of_gt (hids id hid).1) hs

/-- Below the scope that got children all is as it was. -/
theorem descends (h : Gains outer new t t') (hgrounded : t.Grounded) {id last : ScopeId}
    (hdescends : t.Descends offset id last) (hlt : outer < id) : t'.Descends offset id last := by
  have hchildren : ∀ {id s}, outer < id → t.scope? id = some s →
      t'.childAt s offset = t.childAt s offset := fun hlt hs =>
    h.firstAt_eq fun child hchild =>
      ⟨Nat.lt_trans hlt (hgrounded.children hs hchild).1, (hgrounded.children hs hchild).2⟩
  induction hdescends with
  | stop hs hnone =>
    exact .stop (h.others (Nat.ne_of_gt hlt) hs) ((hchildren hlt hs).trans hnone)
  | step hs hchild _ ih =>
    refine .step (h.others (Nat.ne_of_gt hlt) hs) ((hchildren hlt hs).trans hchild) (ih ?_)
    exact Nat.lt_trans hlt (hgrounded.children hs (mem_of_firstAt hchild)).1

theorem landsIn (h : Gains outer new t t') (hgrounded : t.Grounded) {ids : List ScopeId}
    {last : ScopeId} (hids : ∀ id ∈ ids, outer < id ∧ id < t.scopes.size)
    (hlands : t.LandsIn offset ids outer last) : t'.LandsIn offset ids outer last := by
  rcases hlands with ⟨hnone, rfl⟩ | ⟨child, hchild, hdescends⟩
  · exact .inl ⟨(h.firstAt_eq hids).trans hnone, rfl⟩
  · exact .inr ⟨child, (h.firstAt_eq hids).trans hchild,
      h.descends hgrounded hdescends (hids child (mem_of_firstAt hchild)).1⟩

theorem clear (h : Gains outer new t t') {id : ScopeId} (hclear : t'.Clear offset id) :
    t.Clear offset id := by
  intro other s hs hstop
  obtain ⟨s', hs', -, -, hspan⟩ := h.kept hs
  exact hclear other s' hs' (hspan ▸ hstop)

end Gains

end SymbolTableOver

end LuaScope

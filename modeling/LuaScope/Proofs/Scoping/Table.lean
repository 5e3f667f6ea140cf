import LuaScope.Index.Basic
import LuaScope.Proofs.Scoping.Lexical
import Mathlib.Data.List.TakeWhile

/-!
# LuaScope.Proofs.Scoping.Table

Symbol tables as lists of entries.

* `Holds`                        — a scope of a table and those around it hold these levels of
  entries.
* `SymbolTableOver.lookup_finds` — a lookup is a look back into the levels.
* `Holds.declare`, `Holds.addScope`, `Holds.mono` — what the changes of a table do to them.
-/

namespace LuaScope

/-- A symbol as what was declared. -/
def SymbolOver.entry {ρ : Type} (x : SymbolOver ρ) : Entry := ⟨x.name, x.span, x.isLocal⟩

namespace SymbolTableOver

variable {ρ : Type}

def entries (t : SymbolTableOver ρ) : List Entry := t.symbols.toList.map SymbolOver.entry

theorem entries_getElem? (t : SymbolTableOver ρ) (id : SymbolId) :
    t.entries[id]? = (t.symbol? id).map SymbolOver.entry := by
  simp [entries, symbol?]

theorem length_entries (t : SymbolTableOver ρ) : t.entries.length = t.nextSymbolId := by
  simp [entries, nextSymbolId]

theorem startsBy_eq (t : SymbolTableOver ρ) (offset : Nat) (id : SymbolId) :
    t.startsBy offset id = t.entries[id]?.any (·.span.start ≤ offset) := by
  rw [entries_getElem?, startsBy, startOf]
  cases t.symbol? id <;> rfl

theorem isGlobal_eq (t : SymbolTableOver ρ) (id : SymbolId) :
    t.isGlobal id = t.entries[id]?.any (fun e => !e.isLocal) := by
  rw [entries_getElem?, isGlobal]
  cases t.symbol? id <;> rfl

/-- The symbols that the scope lists under each name are those of the level. -/
def Lists (t : SymbolTableOver ρ) (scope : Scope) (level : Level) : Prop :=
  ∀ name, (scope.declarations name).map (t.entries[·]?) =
    (level.reverse.filter (·.name == name)).map some

/-- What was found is the symbol of this entry; without an entry nothing was. -/
def Finds (t : SymbolTableOver ρ) (found : Option SymbolId) (e? : Option Entry) : Prop :=
  found.map (t.entries[·]?) = e?.map some

theorem finds_some {t : SymbolTableOver ρ} {found : Option SymbolId} {e : Entry} :
    t.Finds found (some e) ↔ ∃ id, found = some id ∧ t.entries[id]? = some e :=
  Option.map_eq_some_iff

theorem finds_none {t : SymbolTableOver ρ} {found : Option SymbolId} :
    t.Finds found none ↔ found = none :=
  Option.map_eq_none_iff

end SymbolTableOver

/-- Nothing but the children of the scope changed. -/
def Scope.Agrees (s s' : Scope) : Prop := s'.parent = s.parent ∧ s'.byName = s.byName

theorem Scope.Agrees.trans {s s' s'' : Scope} (h : s.Agrees s') (h' : s'.Agrees s'') :
    s.Agrees s'' := ⟨h'.1.trans h.1, h'.2.trans h.2⟩

/-- The scope, and those around it from the inside out, hold these entries. -/
inductive Holds {ρ : Type} (t : SymbolTableOver ρ) : ScopeId → List Level → Prop where
  | root {scope : Scope} {level : Level} :
      t.scopes[SymbolTableOver.rootId]? = some scope → scope.parent = none →
      t.Lists scope level → Holds t SymbolTableOver.rootId [level]
  | inner {id outer : ScopeId} {scope : Scope} {level : Level} {levels : List Level} :
      t.scopes[id]? = some scope → scope.parent = some outer → outer < id →
      t.Lists scope level → Holds t outer levels → Holds t id (level :: levels)

theorem Holds.lt_size {ρ : Type} {t : SymbolTableOver ρ} {id : ScopeId} {levels : List Level}
    (h : Holds t id levels) : (id : Nat) < t.scopes.size := by
  cases h with
  | root hscope => exact (Array.getElem?_eq_some_iff.mp hscope).1
  | inner hscope => exact (Array.getElem?_eq_some_iff.mp hscope).1

namespace SymbolTableOver

variable {ρ : Type} {t t' : SymbolTableOver ρ}

/-! ## Lookup -/

section Lookup

variable {scope : Scope} {level : Level} {ids : List SymbolId} {es : List Entry}

theorem map_takeWhile_startsBy (offset : Nat) (h : ids.map (t.entries[·]?) = es.map some) :
    (ids.takeWhile (t.startsBy offset)).map (t.entries[·]?) =
      (es.takeWhile (·.span.start ≤ offset)).map some := by
  have hids : t.startsBy offset =
      (fun e? : Option Entry => e?.any (·.span.start ≤ offset)) ∘ (t.entries[·]?) := by
    funext id
    exact t.startsBy_eq offset id
  rw [hids, ← List.takeWhile_map, h, List.takeWhile_map]
  rfl

theorem map_lookupIn (name : String) (offset : Nat) (h : t.Lists scope level) :
    (t.lookupIn name offset scope).map (t.entries[·]?) =
      ((level.upTo name offset).or
        (if scope.parent.isSome then level.reverse.find? (·.name == name) else none)).map some := by
  have hlast := congrArg List.getLast? (map_takeWhile_startsBy offset (h name))
  rw [List.getLast?_map, List.getLast?_map] at hlast
  have hhead := congrArg List.head? (h name)
  rw [List.head?_map, List.head?_map, List.head?_filter] at hhead
  unfold lookupIn Level.upTo
  simp only
  split
  · rename_i id hid
    rw [hid] at hlast
    cases hup : ((level.reverse.filter (·.name == name)).takeWhile
        (·.span.start ≤ offset)).getLast? with
    | none => rw [hup] at hlast; cases hlast
    | some e => rw [hup] at hlast; exact hlast
  · rename_i hnone
    rw [hnone] at hlast
    rw [Option.map_eq_none_iff.mp hlast.symm, Option.none_or]
    split
    · exact hhead
    · rfl

theorem map_laterGlobal (name : String) (h : t.scopes[rootId]? = some scope)
    (hlists : t.Lists scope level) :
    (t.laterGlobal name).map (t.entries[·]?) =
      (level.reverse.find? (fun e => e.name == name && !e.isLocal)).map some := by
  have hids : t.isGlobal = (fun e? : Option Entry => e?.any (fun e => !e.isLocal)) ∘
      (t.entries[·]?) := by
    funext id
    exact t.isGlobal_eq id
  unfold laterGlobal scope?
  rw [h]
  simp only
  rw [hids, ← List.find?_map, hlists name, List.find?_map, List.find?_filter]
  congr 2
  funext e
  show decide ((e.name == name) = true ∧ (!e.isLocal) = true) = _
  rw [Bool.decide_and, Bool.decide_eq_true, Bool.decide_eq_true]

end Lookup

/-- By induction on the scopes: the last of them is the root scope, whose globals are looked at when
no scope answers. -/
theorem map_lookupChain (name : String) (offset : Nat) {id : ScopeId} {levels : List Level}
    (h : Holds t id levels) : ∀ fuel, (id : Nat) < fuel →
      (((t.chain fuel (some id)).findSome? (t.lookupIn name offset)).or
        (t.laterGlobal name)).map (t.entries[·]?) = (lookBack name offset levels).map some := by
  induction h with
  | @root scope level hscope hparent hlists =>
    intro fuel hfuel
    obtain ⟨fuel, rfl⟩ := Nat.exists_eq_succ_of_ne_zero (Nat.ne_zero_of_lt hfuel)
    have hchain : t.chain (fuel + 1) (some rootId) = [scope] := by
      unfold chain scope?
      simp only [hscope, hparent]
      cases fuel <;> rfl
    rw [hchain, List.findSome?_singleton, Option.map_or, map_lookupIn name offset hlists,
      map_laterGlobal name hscope hlists, hparent, Option.isSome_none, if_neg Bool.false_ne_true,
      Option.or_none, ← Option.map_or]
    rfl
  | @inner id outer scope level levels hscope hparent hlt hlists houter ih =>
    intro fuel hfuel
    obtain ⟨fuel, rfl⟩ := Nat.exists_eq_succ_of_ne_zero (Nat.ne_zero_of_lt hfuel)
    have hchain : t.chain (fuel + 1) (some id) = scope :: t.chain fuel (some outer) := by
      rw [chain, scope?, hscope, ← hparent]
    have hback : lookBack name offset (level :: levels) =
        ((level.upTo name offset).or (level.reverse.find? (·.name == name))).or
          (lookBack name offset levels) := by
      cases houter <;> rfl
    have hsome : (t.chain (fuel + 1) (some id)).findSome? (t.lookupIn name offset) =
        (t.lookupIn name offset scope).or
          ((t.chain fuel (some outer)).findSome? (t.lookupIn name offset)) := by
      rw [hchain, List.findSome?_cons]
      cases t.lookupIn name offset scope <;> rfl
    have hin := map_lookupIn name offset hlists
    rw [hparent, Option.isSome_some, if_pos rfl] at hin
    have houter := ih fuel (Nat.lt_of_lt_of_le hlt (Nat.le_of_lt_succ hfuel))
    rw [hsome, Option.or_assoc, Option.map_or, hin, houter, hback, ← Option.map_or]

/-- A lookup finds the symbol of the entry that a look back finds. -/
theorem lookup_finds {id : ScopeId} {levels : List Level} (h : Holds t id levels) (name : String)
    (offset : Nat) : t.Finds (t.lookup id name offset) (lookBack name offset levels) := by
  have heq : t.lookup id name offset =
      ((t.chain t.scopes.size (some id)).findSome? (t.lookupIn name offset)).or
        (t.laterGlobal name) := by
    unfold lookup ancestors
    cases (t.chain t.scopes.size (some id)).findSome? (t.lookupIn name offset) <;> rfl
  rw [heq]
  exact map_lookupChain name offset h _ h.lt_size

end SymbolTableOver

/-! ## Looking back when nothing comes later -/

/-- Where all entries start by the offset, the last one for the name is found. -/
theorem Level.upTo_eq {name : String} {offset : Nat} {level : Level}
    (h : ∀ e ∈ level, e.span.start ≤ offset) :
    level.upTo name offset = level.find? (·.name == name) := by
  unfold Level.upTo
  rw [List.takeWhile_eq_self_iff.mpr, List.filter_reverse, List.getLast?_reverse,
    List.head?_filter]
  intro e he
  have hmem := List.mem_reverse.mp (List.mem_filter.mp he).1
  exact decide_eq_true (h e hmem)

theorem lookBack_eq (name : String) (offset : Nat) :
    ∀ levels : List Level, (∀ e ∈ levels.flatten, e.span.start ≤ offset) →
      lookBack name offset levels = levels.flatten.find? (·.name == name)
  | [], _ => rfl
  | [root], h => by
    have hroot : ∀ e ∈ root, e.span.start ≤ offset := fun e he => h e (by simpa using he)
    rw [lookBack, Level.upTo_eq hroot, List.flatten_singleton]
    cases hfind : root.find? (·.name == name) with
    | some e => rfl
    | none =>
      rw [Option.none_or, List.find?_eq_none]
      intro e he hname
      have hnone := List.find?_eq_none.mp hfind e (List.mem_reverse.mp he)
      simp_all
  | level :: next :: outer, h => by
    have hlevel : ∀ e ∈ level, e.span.start ≤ offset :=
      fun e he => h e (List.mem_flatten_of_mem (.head _) he)
    have houter : ∀ e ∈ (next :: outer).flatten, e.span.start ≤ offset :=
      fun e he => h e (by rw [List.flatten_cons]; exact List.mem_append_right _ he)
    have hflat : (level :: next :: outer).flatten.find? (·.name == name) =
        (level.find? (·.name == name)).or ((next :: outer).flatten.find? (·.name == name)) := by
      rw [List.flatten_cons, List.find?_append]
    rw [lookBack, Level.upTo_eq hlevel, lookBack_eq name offset (next :: outer) houter, hflat]
    · cases hfind : level.find? (·.name == name) with
      | some e => rfl
      | none =>
        have hfirst : level.reverse.find? (·.name == name) = none := by
          rw [List.find?_eq_none] at hfind ⊢
          exact fun e he => hfind e (List.mem_reverse.mp he)
        rw [hfirst]
        rfl
    · nofun

/-! ## Changes of a table -/

namespace Holds

variable {ρ : Type} {t t' : SymbolTableOver ρ} {id : ScopeId} {levels : List Level}

theorem lists {level : Level} (h : Holds t id (level :: levels)) :
    ∃ scope, t.scopes[id]? = some scope ∧ t.Lists scope level := by
  cases h with
  | root hscope _ hlists => exact ⟨_, hscope, hlists⟩
  | inner hscope _ _ hlists => exact ⟨_, hscope, hlists⟩

theorem ne_nil (h : Holds t id levels) : levels ≠ [] := by
  cases h <;> nofun

/-- Only the outermost scope is the root scope. -/
theorem eq_root_iff {level : Level} (h : Holds t id (level :: levels)) :
    id = SymbolTableOver.rootId ↔ levels = [] := by
  cases h with
  | root => exact ⟨fun _ => rfl, fun _ => rfl⟩
  | inner _ _ hlt _ houter =>
    refine ⟨fun heq => ?_, fun heq => ?_⟩
    · exact absurd (heq ▸ hlt) (Nat.not_lt_zero _)
    · rw [heq] at houter
      cases houter

end Holds

namespace SymbolTableOver

variable {ρ : Type} {t t' : SymbolTableOver ρ}

/-- Every symbol of the first table is the same declaration in the second. -/
def Keeps (t t' : SymbolTableOver ρ) : Prop :=
  ∀ (id : SymbolId) (e : Entry), t.entries[id]? = some e → t'.entries[id]? = some e

theorem Keeps.of_append {extra : List Entry} (h : t'.entries = t.entries ++ extra) :
    t.Keeps t' := by
  intro id e he
  rw [h, List.getElem?_append_left (List.getElem?_eq_some_iff.mp he).1]
  exact he

theorem Finds.mono {found : Option SymbolId} {e? : Option Entry} (h : t.Finds found e?)
    (hkeeps : t.Keeps t') : t'.Finds found e? := by
  cases e? with
  | none => exact finds_none.mpr (finds_none.mp h)
  | some e =>
    obtain ⟨id, hid, he⟩ := finds_some.mp h
    exact finds_some.mpr ⟨id, hid, hkeeps id e he⟩

/-- The listed symbols are there. -/
theorem Lists.getElem?_of_mem {scope : Scope} {level : Level} (h : t.Lists scope level)
    {name : String} {id : SymbolId} (hid : id ∈ scope.declarations name) :
    ∃ e ∈ level, e.name = name ∧ t.entries[id]? = some e := by
  have hmem : t.entries[id]? ∈ (scope.declarations name).map (t.entries[·]?) :=
    List.mem_map_of_mem hid
  rw [h name] at hmem
  obtain ⟨e, he, heq⟩ := List.mem_map.mp hmem
  obtain ⟨hlevel, hname⟩ := List.mem_filter.mp he
  exact ⟨e, List.mem_reverse.mp hlevel, beq_iff_eq.mp hname, heq.symm⟩

theorem Lists.mono {scope scope' : Scope} {level : Level} (h : t.Lists scope level)
    (hkeeps : t.Keeps t') (hnames : scope'.byName = scope.byName) : t'.Lists scope' level := by
  intro name
  have hsame : scope'.declarations name = scope.declarations name := by
    unfold Scope.declarations
    rw [hnames]
  rw [hsame, ← h name]
  refine List.map_congr_left fun id hid => ?_
  obtain ⟨e, _, _, he⟩ := h.getElem?_of_mem hid
  rw [he, hkeeps id e he]

end SymbolTableOver

namespace Holds

variable {ρ : Type} {t t' : SymbolTableOver ρ} {id : ScopeId} {levels : List Level}

/-- Only the scope and those around it matter. -/
theorem mono (h : Holds t id levels) (hkeeps : t.Keeps t')
    (hscopes : ∀ (i : Nat) s, i ≤ id → t.scopes[i]? = some s →
      ∃ s', t'.scopes[i]? = some s' ∧ s.Agrees s') : Holds t' id levels := by
  induction h with
  | root hscope hparent hlists =>
    obtain ⟨s', hs', hagrees⟩ := hscopes _ _ (Nat.le_refl _) hscope
    exact .root hs' (hagrees.1.trans hparent) (hlists.mono hkeeps hagrees.2)
  | inner hscope hparent hlt hlists _ ih =>
    obtain ⟨s', hs', hagrees⟩ := hscopes _ _ (Nat.le_refl _) hscope
    refine .inner hs' (hagrees.1.trans hparent) hlt (hlists.mono hkeeps hagrees.2) ?_
    exact ih fun i s hi => hscopes i s (Nat.le_trans hi (Nat.le_of_lt hlt))

end Holds

/-! ### Opening a scope -/

theorem SymbolTableOver.getElem?_addScope {ρ : Type} (t : SymbolTableOver ρ) (parent : ScopeId)
    (kind : ScopeKind) (span : Span) {i : Nat} {s : Scope} (h : t.scopes[i]? = some s) :
    ∃ s', (t.addScope parent kind span).scopes[i]? = some s' ∧ s.Agrees s' := by
  have hlt := (Array.getElem?_eq_some_iff.mp h).1
  unfold addScope
  simp only [Array.getElem?_modify, Array.getElem?_push, if_neg (Nat.ne_of_lt hlt), h]
  split
  · exact ⟨_, rfl, rfl, rfl⟩
  · exact ⟨s, rfl, rfl, rfl⟩

theorem SymbolTableOver.getElem?_addScope_new {ρ : Type} (t : SymbolTableOver ρ)
    {parent : ScopeId} (hparent : (parent : Nat) < t.scopes.size) (kind : ScopeKind)
    (span : Span) : (t.addScope parent kind span).scopes[t.nextScopeId]? =
      some { id := t.nextScopeId, kind := kind, parent := some parent, span := span } := by
  unfold addScope nextScopeId
  simp only [Array.getElem?_modify, Array.getElem?_push, if_neg (Nat.ne_of_lt hparent), if_true]

theorem Holds.addScope {ρ : Type} {t : SymbolTableOver ρ} {id : ScopeId} {levels : List Level}
    (h : Holds t id levels) (kind : ScopeKind) (span : Span) :
    Holds (t.addScope id kind span) t.nextScopeId ([] :: levels) := by
  refine .inner (t.getElem?_addScope_new h.lt_size kind span) rfl h.lt_size (fun name => rfl) ?_
  exact h.mono (fun _ _ he => he) fun i s _ hs => t.getElem?_addScope id kind span hs

/-! ### Declaring a name -/

theorem lookup_modifyUnder (name : String) (f : List SymbolId → List SymbolId) (x : String) :
    ∀ names : List (String × List SymbolId),
      (modifyUnder name f names).lookup x =
        if x = name then some (f ((names.lookup x).getD [])) else names.lookup x
  | [] => by
    unfold modifyUnder
    rw [List.lookup_cons]
    by_cases hx : x = name
    · simp [hx]
    · simp [hx, beq_false_of_ne hx]
  | (n, ids) :: rest => by
    unfold modifyUnder
    rw [List.lookup_cons]
    split
    · rename_i hn
      rw [List.lookup_cons, hn]
      by_cases hx : x = name
      · simp [hx]
      · simp [hx, beq_false_of_ne hx]
    · rename_i hn
      rw [List.lookup_cons, lookup_modifyUnder name f x rest]
      by_cases hx : x = n
      · subst hx
        simp [hn]
      · simp [beq_false_of_ne hx]

theorem SymbolTableOver.entries_declare {ρ : Type} (t : SymbolTableOver ρ) (x : SymbolOver ρ) :
    (t.declare x).entries = t.entries ++ [x.entry] := by
  simp [entries, declare]

theorem SymbolTableOver.getElem?_declare {ρ : Type} (t : SymbolTableOver ρ) (x : SymbolOver ρ)
    {i : Nat} (hi : i ≠ x.scope) : (t.declare x).scopes[i]? = t.scopes[i]? := by
  unfold declare
  simp only [Array.getElem?_modify, if_neg (Ne.symm hi)]

theorem Scope.declarations_eq (s : Scope) (name : String) :
    s.declarations name = (s.byName.lookup name).getD [] := by
  unfold declarations
  cases s.byName.lookup name <;> rfl

theorem SymbolTableOver.getElem?_declare_self {ρ : Type} (t : SymbolTableOver ρ)
    (x : SymbolOver ρ) {scope : Scope} (h : t.scopes[x.scope]? = some scope) :
    (t.declare x).scopes[x.scope]? = some { scope with
      symbols := scope.symbols ++ [x.id]
      byName := modifyUnder x.name (t.insertByStart x.span.start x.id) scope.byName } := by
  unfold declare
  simp only [Array.getElem?_modify, if_true, h]
  rfl

/-- The new symbol goes behind those that the scope lists under its name, as it starts behind
them. -/
theorem SymbolTableOver.Lists.declare {ρ : Type} {t : SymbolTableOver ρ} {x : SymbolOver ρ}
    {scope : Scope} {level : Level} (h : t.Lists scope level) (hid : x.id = t.nextSymbolId)
    (hstart : ∀ e ∈ level, e.span.start ≤ x.span.start) (scope' : Scope)
    (hnames : scope'.byName =
      modifyUnder x.name (t.insertByStart x.span.start x.id) scope.byName) :
    (t.declare x).Lists scope' (x.entry :: level) := by
  intro name
  have hold : ∀ id ∈ scope.declarations name, (t.declare x).entries[id]? = t.entries[id]? := by
    intro id hmem
    obtain ⟨e, _, _, he⟩ := h.getElem?_of_mem hmem
    rw [he]
    exact Keeps.of_append (t.entries_declare x) id e he
  have hlater : ∀ id ∈ scope.declarations name, t.startsBy x.span.start id = true := by
    intro id hmem
    obtain ⟨e, he, _, hentry⟩ := h.getElem?_of_mem hmem
    rw [t.startsBy_eq, hentry]
    exact decide_eq_true (hstart e he)
  have hnew : (t.declare x).entries[x.id]? = some x.entry := by
    rw [t.entries_declare, hid, ← t.length_entries]
    exact List.getElem?_concat_length
  have hinsert : t.insertByStart x.span.start x.id (scope.declarations name) =
      scope.declarations name ++ [x.id] := by
    unfold insertByStart
    rw [List.takeWhile_eq_self_iff.mpr hlater, List.dropWhile_eq_nil_iff.mpr hlater]
  have hkept : (scope.declarations name).map ((t.declare x).entries[·]?) =
      (scope.declarations name).map (t.entries[·]?) := List.map_congr_left hold
  rw [List.reverse_cons, List.filter_append, List.map_append, ← h name, ← hkept,
    scope'.declarations_eq, hnames, lookup_modifyUnder]
  by_cases hname : name = x.name
  · rw [if_pos hname, ← scope.declarations_eq, Option.getD_some, hinsert, List.map_append]
    simp [SymbolOver.entry, hname, hnew]
  · rw [if_neg hname, ← scope.declarations_eq]
    simp [SymbolOver.entry, Ne.symm hname]

theorem Holds.declare {ρ : Type} {t : SymbolTableOver ρ} {x : SymbolOver ρ} {level : Level}
    {levels : List Level} (h : Holds t x.scope (level :: levels)) (hid : x.id = t.nextSymbolId)
    (hstart : ∀ e ∈ level, e.span.start ≤ x.span.start) :
    Holds (t.declare x) x.scope ((x.entry :: level) :: levels) := by
  have hkeeps : t.Keeps (t.declare x) := .of_append (t.entries_declare x)
  have hscope := @SymbolTableOver.getElem?_declare_self ρ t x
  generalize hx : x.scope = at_ at h hscope ⊢
  cases h with
  | root hs hparent hlists =>
    exact .root (hscope hs) hparent (hlists.declare hid hstart _ rfl)
  | inner hs hparent hlt hlists houter =>
    refine .inner (hscope hs) hparent hlt (hlists.declare hid hstart _ rfl) ?_
    refine houter.mono hkeeps fun i s hi hs' => ⟨s, ?_, rfl, rfl⟩
    rw [t.getElem?_declare x (by rw [hx]; exact Nat.ne_of_lt (Nat.lt_of_le_of_lt hi hlt))]
    exact hs'

end LuaScope

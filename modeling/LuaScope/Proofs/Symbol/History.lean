import LuaScope.Proofs.Scoping.Continued
import Mathlib.Data.List.MinMax

/-!
# LuaScope.Proofs.Symbol.History

Symbol tables and the changes that they come from.

* `TableHistory.Reaches`  — a history of changes, made one after the other, leads to a table.
* `TableHistory.Recorded` — what such a table holds, said by its history: each symbol under its
  number, for each scope the chain of scopes around it, the symbols declared in it in their order,
  and those of one name in the order of their starts.
* `TableHistory.Reaches.recorded` — every table that is reached holds this.
-/

namespace LuaScope

/-- One change of a symbol table. -/
inductive TableChange (ρ : Type) where
  | scope (parent : ScopeId) (kind : ScopeKind) (span : Span)
  | declared (x : SymbolOver ρ)
  | member (x : SymbolOver ρ)

namespace TableChange

variable {ρ : Type}

def apply (t : SymbolTableOver ρ) : TableChange ρ → SymbolTableOver ρ
  | .scope parent kind span => t.addScope parent kind span
  | .declared x => t.declare x
  | .member x => t.addMember x

/-- A new scope stands in one that is there; a new symbol has the next number, and a declared one
a scope that is there. -/
def Fits (t : SymbolTableOver ρ) : TableChange ρ → Prop
  | .scope parent _ _ => parent < t.scopes.size
  | .declared x => x.id = t.nextSymbolId ∧ x.scope < t.scopes.size
  | .member x => x.id = t.nextSymbolId

instance (t : SymbolTableOver ρ) : (change : TableChange ρ) → Decidable (change.Fits t)
  | .scope parent _ _ => inferInstanceAs (Decidable (parent < t.scopes.size))
  | .declared x => inferInstanceAs (Decidable (x.id = t.nextSymbolId ∧ x.scope < t.scopes.size))
  | .member x => inferInstanceAs (Decidable (x.id = t.nextSymbolId))

/-- The symbol that the change adds, visible by its name or not. -/
def symbol? : TableChange ρ → Option (SymbolOver ρ)
  | .scope _ _ _ => none
  | .declared x => some x
  | .member x => some x

/-- The symbol that the change declares in this scope. -/
def declaredIn? (scope : ScopeId) : TableChange ρ → Option (SymbolOver ρ)
  | .declared x => if x.scope = scope then some x else none
  | _ => none

theorem symbol?_of_declaredIn? {scope : ScopeId} {change : TableChange ρ} {x : SymbolOver ρ}
    (h : change.declaredIn? scope = some x) : change = .declared x ∧ x.scope = scope := by
  cases change with
  | scope => simp [declaredIn?] at h
  | member => simp [declaredIn?] at h
  | declared y =>
    simp only [declaredIn?, Option.ite_none_right_eq_some, Option.some.injEq] at h
    obtain ⟨hscope, rfl⟩ := h
    exact ⟨rfl, hscope⟩

end TableChange

/-- Changes of a table, the first one first. -/
abbrev TableHistory (ρ : Type) := List (TableChange ρ)

/-! ## Symbols in the order of their starts -/

namespace SymbolOver

variable {ρ : Type} {x y : SymbolOver ρ} {xs : List (SymbolOver ρ)}

def start (x : SymbolOver ρ) : Nat := x.span.start

/-- A variable of one letter, with nothing known of its value. -/
def plain (id : SymbolId) (name : String) (scope : ScopeId) (start : Nat) (isLocal : Bool) :
    SymbolOver ρ :=
  { id, name, scope, isLocal
    kind := .variable
    document := ⟨""⟩
    range := ⟨⟨0, start⟩, ⟨0, start + 1⟩⟩
    span := ⟨start, start + 1⟩
    fullRange := ⟨⟨0, start⟩, ⟨0, start + 1⟩⟩
    container := none
    ty := .unknown
    «alias» := none
    doc := none }

/-- Put a symbol behind those that start at or before it. -/
def insertLate (xs : List (SymbolOver ρ)) (x : SymbolOver ρ) : List (SymbolOver ρ) :=
  xs.takeWhile (·.start ≤ x.start) ++ x :: xs.dropWhile (·.start ≤ x.start)

/-- The symbols in the order of their starts; those with one start keep their order. -/
def byStart (xs : List (SymbolOver ρ)) : List (SymbolOver ρ) := xs.foldl insertLate []

@[simp] theorem byStart_nil : byStart ([] : List (SymbolOver ρ)) = [] := rfl

@[simp] theorem byStart_concat (xs : List (SymbolOver ρ)) (x : SymbolOver ρ) :
    byStart (xs ++ [x]) = insertLate (byStart xs) x := by
  simp [byStart]

theorem insertLate_perm (xs : List (SymbolOver ρ)) (x : SymbolOver ρ) :
    (insertLate xs x).Perm (x :: xs) := by
  have hmiddle : (insertLate xs x).Perm
      (x :: (xs.takeWhile (·.start ≤ x.start) ++ xs.dropWhile (·.start ≤ x.start))) :=
    List.perm_middle
  rwa [List.takeWhile_append_dropWhile] at hmiddle

theorem byStart_perm (xs : List (SymbolOver ρ)) : (byStart xs).Perm xs := by
  induction xs using List.reverseRecOn with
  | nil => rfl
  | append_singleton xs x ih =>
    rw [byStart_concat]
    calc (insertLate (byStart xs) x).Perm (x :: byStart xs) := insertLate_perm _ _
      _ |>.Perm (x :: xs) := ih.cons x
      _ |>.Perm (xs ++ [x]) := (List.perm_append_singleton x xs).symm

theorem mem_byStart : x ∈ byStart xs ↔ x ∈ xs := (byStart_perm xs).mem_iff

/-- The symbols start one behind the other, or at one place. -/
def Sorted (xs : List (SymbolOver ρ)) : Prop := xs.Pairwise (fun a b => a.start ≤ b.start)

/-- What follows the first symbol that starts late starts late as well. -/
theorem Sorted.lt_of_mem_dropWhile (h : Sorted xs) {offset : Nat}
    (hy : y ∈ xs.dropWhile (·.start ≤ offset)) : offset < y.start := by
  induction xs with
  | nil => cases hy
  | cons z zs ih =>
    obtain ⟨hz, hzs⟩ := List.pairwise_cons.mp h
    rw [List.dropWhile_cons] at hy
    split at hy
    · exact ih hzs hy
    · rename_i hlate
      have hlate : offset < z.start := by simpa using hlate
      rcases List.mem_cons.mp hy with rfl | hy
      · exact hlate
      · exact Nat.lt_of_lt_of_le hlate (hz y hy)

theorem Sorted.insertLate (h : Sorted xs) (x : SymbolOver ρ) : Sorted (insertLate xs x) := by
  have hfront : ∀ a ∈ xs.takeWhile (·.start ≤ x.start), a.start ≤ x.start :=
    fun a ha => by simpa using List.mem_takeWhile_imp ha
  have hback : ∀ b ∈ xs.dropWhile (·.start ≤ x.start), x.start ≤ b.start :=
    fun b hb => Nat.le_of_lt (h.lt_of_mem_dropWhile hb)
  refine List.pairwise_append.mpr ⟨?_, List.pairwise_cons.mpr ⟨hback, ?_⟩, ?_⟩
  · exact h.sublist (List.takeWhile_sublist _)
  · exact h.sublist (List.dropWhile_sublist _)
  · intro a ha b hb
    rcases List.mem_cons.mp hb with rfl | hb
    · exact hfront a ha
    · exact Nat.le_trans (hfront a ha) (hback b hb)

theorem byStart_sorted (xs : List (SymbolOver ρ)) : Sorted (byStart xs) := by
  induction xs using List.reverseRecOn with
  | nil => exact .nil
  | append_singleton xs x ih =>
    rw [byStart_concat]
    exact ih.insertLate x

end SymbolOver

namespace SymbolTableOver

variable {ρ : Type} {t : SymbolTableOver ρ}

theorem startsBy_of_symbol? {x : SymbolOver ρ} (h : t.symbol? x.id = some x) (offset : Nat) :
    t.startsBy offset x.id = decide (x.start ≤ offset) := by
  rw [startsBy, startOf, h]
  rfl

theorem takeWhile_startsBy {xs : List (SymbolOver ρ)} (h : ∀ x ∈ xs, t.symbol? x.id = some x)
    (offset : Nat) : (xs.map (·.id)).takeWhile (t.startsBy offset) =
      (xs.takeWhile (·.start ≤ offset)).map (·.id) := by
  rw [List.takeWhile_map]
  congr 1
  exact takeWhile_congr fun x hx => startsBy_of_symbol? (h x hx) offset

theorem dropWhile_startsBy {xs : List (SymbolOver ρ)} (h : ∀ x ∈ xs, t.symbol? x.id = some x)
    (offset : Nat) : (xs.map (·.id)).dropWhile (t.startsBy offset) =
      (xs.dropWhile (·.start ≤ offset)).map (·.id) := by
  have hsplit := congrArg (List.map (·.id))
    (xs.takeWhile_append_dropWhile (p := fun x => x.start ≤ offset))
  rw [List.map_append, ← takeWhile_startsBy h offset] at hsplit
  exact List.append_cancel_left
    ((List.takeWhile_append_dropWhile (p := t.startsBy offset)).trans hsplit.symm)

theorem insertByStart_map {xs : List (SymbolOver ρ)} (h : ∀ x ∈ xs, t.symbol? x.id = some x)
    (x : SymbolOver ρ) : t.insertByStart x.span.start x.id (xs.map (·.id)) =
      (SymbolOver.insertLate xs x).map (·.id) := by
  rw [insertByStart, takeWhile_startsBy h, dropWhile_startsBy h, SymbolOver.insertLate,
    List.map_append, List.map_cons]
  rfl

/-- Opening a scope changes nothing but the children of the scopes that are there. -/
theorem eq_of_getElem?_addScope (t : SymbolTableOver ρ) {parent : ScopeId} {kind : ScopeKind}
    {span : Span} {i : Nat} {s' : Scope} (hi : i ≠ t.scopes.size)
    (h : (t.addScope parent kind span).scopes[i]? = some s') :
    ∃ s children, t.scopes[i]? = some s ∧ s' = { s with children := children } := by
  simp only [addScope, Array.getElem?_modify, Array.getElem?_push, if_neg hi] at h
  split at h
  · obtain ⟨s, hs, rfl⟩ := Option.map_eq_some_iff.mp h
    exact ⟨s, _, hs, rfl⟩
  · exact ⟨s', s'.children, h, rfl⟩

end SymbolTableOver

/-! ## What a history says -/

namespace TableHistory

variable {ρ : Type}

/-- Symbols that were declared in a scope, in their order. -/
def declaredIn (history : TableHistory ρ) (scope : ScopeId) : List (SymbolOver ρ) :=
  history.filterMap (·.declaredIn? scope)

/-- Those of one name. -/
def declarations (history : TableHistory ρ) (scope : ScopeId) (name : String) :
    List (SymbolOver ρ) :=
  (history.declaredIn scope).filter (·.name == name)

/-- One chain of scopes more for a new scope: itself, and the chain of the scope it stands in. -/
def addChain (chains : List (List ScopeId)) : TableChange ρ → List (List ScopeId)
  | .scope parent _ _ => chains ++ [chains.length :: chains.getD parent []]
  | _ => chains

/-- For each scope the scopes from it outwards. -/
def chains (history : TableHistory ρ) : List (List ScopeId) :=
  history.foldl addChain [[SymbolTableOver.rootId]]

/-- The scope and those around it, from the inside out. -/
def around (history : TableHistory ρ) (scope : ScopeId) : List ScopeId :=
  history.chains.getD scope []

@[simp] theorem chains_concat (history : TableHistory ρ) (change : TableChange ρ) :
    chains (history ++ [change]) = addChain history.chains change := by
  simp [chains]

theorem length_chains_pos (history : TableHistory ρ) : 0 < history.chains.length := by
  induction history using List.reverseRecOn with
  | nil => exact Nat.zero_lt_one
  | append_singleton history change ih =>
    rw [chains_concat]
    cases change <;> simp [addChain, ih]

@[simp] theorem declaredIn_concat (history : TableHistory ρ) (change : TableChange ρ)
    (scope : ScopeId) : declaredIn (history ++ [change]) scope =
      history.declaredIn scope ++ (change.declaredIn? scope).toList := by
  unfold declaredIn
  rw [List.filterMap_append]
  cases hlast : change.declaredIn? scope <;> simp [hlast]

theorem mem_declaredIn {history : TableHistory ρ} {scope : ScopeId} {x : SymbolOver ρ} :
    x ∈ history.declaredIn scope ↔ .declared x ∈ history ∧ x.scope = scope := by
  unfold declaredIn
  rw [List.mem_filterMap]
  constructor
  · rintro ⟨change, hchange, hx⟩
    obtain ⟨rfl, hscope⟩ := TableChange.symbol?_of_declaredIn? hx
    exact ⟨hchange, hscope⟩
  · rintro ⟨hx, hscope⟩
    exact ⟨.declared x, hx, by simp [TableChange.declaredIn?, hscope]⟩

theorem mem_declarations {history : TableHistory ρ} {scope : ScopeId} {name : String}
    {x : SymbolOver ρ} : x ∈ history.declarations scope name ↔
      .declared x ∈ history ∧ x.scope = scope ∧ x.name = name := by
  unfold declarations
  rw [List.mem_filter, mem_declaredIn, beq_iff_eq, and_assoc]

/-- The changes, each of which fits the table it is made to, lead from the table of an empty text
to this one. -/
inductive Reaches (length : Nat) : TableHistory ρ → SymbolTableOver ρ → Prop where
  | new : Reaches length [] (.new length)
  | change {history : TableHistory ρ} {t : SymbolTableOver ρ} {change : TableChange ρ} :
      Reaches length history t → change.Fits t → Reaches length (history ++ [change]) (change.apply t)

/-- The scope as the history of its table says. -/
structure RecordedScope (history : TableHistory ρ) (i : ScopeId) (s : Scope) : Prop where
  id : s.id = i
  /-- The root scope alone has no parent; any other stands behind its parent. -/
  chain : match s.parent with
    | none => i = SymbolTableOver.rootId ∧ history.chains[i]? = some [i]
    | some p => p < i ∧ ∃ outer, history.chains[p]? = some outer ∧
        history.chains[i]? = some (i :: outer)
  symbols : s.symbols = (history.declaredIn i).map (·.id)
  declarations : ∀ name, s.declarations name =
    (SymbolOver.byStart (history.declarations i name)).map (·.id)

/-- The table as its history says. -/
structure Recorded (history : TableHistory ρ) (t : SymbolTableOver ρ) : Prop where
  /-- Every symbol stands under its number. -/
  symbol : ∀ {change x}, change ∈ history → change.symbol? = some x → t.symbol? x.id = some x
  /-- No number was given to a declared symbol and to a member. -/
  apart : ∀ {x y}, .declared x ∈ history → .member y ∈ history → x.id ≠ y.id
  size : history.chains.length = t.scopes.size
  scope : ∀ {i : Nat} {s}, t.scopes[i]? = some s → RecordedScope history i s
  /-- What was declared was declared in a scope. -/
  declared : ∀ {x}, .declared x ∈ history → x.scope < t.scopes.size

namespace Recorded

variable {history : TableHistory ρ} {t : SymbolTableOver ρ} {change : TableChange ρ}

theorem lt_of_mem (h : Recorded history t) {x : SymbolOver ρ} (hchange : change ∈ history)
    (hx : change.symbol? = some x) : x.id < t.nextSymbolId :=
  (Array.getElem?_eq_some_iff.mp (h.symbol hchange hx)).1

theorem symbol?_declared (h : Recorded history t) {x : SymbolOver ρ}
    (hx : .declared x ∈ history) : t.symbol? x.id = some x := h.symbol hx rfl

/-- Nothing was declared in a scope that is not there. -/
theorem declaredIn_eq_nil (h : Recorded history t) {i : ScopeId} (hi : t.scopes.size ≤ i) :
    history.declaredIn i = [] := by
  refine List.eq_nil_iff_forall_not_mem.mpr fun x hx => ?_
  obtain ⟨hdeclared, rfl⟩ := mem_declaredIn.mp hx
  exact absurd (h.declared hdeclared) (Nat.not_lt.mpr hi)

theorem new (length : Nat) : Recorded [] (.new length : SymbolTableOver ρ) where
  symbol := nofun
  apart := nofun
  size := rfl
  scope := by
    intro i s hs
    obtain ⟨hlt, rfl⟩ := Array.getElem?_eq_some_iff.mp hs
    obtain rfl : i = 0 := Nat.lt_one_iff.mp hlt
    exact ⟨rfl, ⟨rfl, rfl⟩, rfl, fun _ => rfl⟩
  declared := nofun

/-- A symbol more in the arena leaves every symbol where it is. -/
theorem symbol?_push (h : Recorded history t) {x : SymbolOver ρ} {new : SymbolOver ρ}
    {t' : SymbolTableOver ρ} (hpush : t'.symbols = t.symbols.push new)
    (hnew : new.id = t.nextSymbolId) (hadds : change.symbol? = some new) {change' : TableChange ρ}
    (hchange : change' ∈ history ++ [change]) (hx : change'.symbol? = some x) :
    t'.symbol? x.id = some x := by
  rw [SymbolTableOver.symbol?, hpush, Array.getElem?_push]
  rcases List.mem_append.mp hchange with hold | hlast
  · have hlt : x.id < t.symbols.size := h.lt_of_mem hold hx
    rw [if_neg (Nat.ne_of_lt hlt)]
    exact h.symbol hold hx
  · obtain rfl := List.mem_singleton.mp hlast
    obtain rfl := Option.some.inj (hadds.symm.trans hx)
    exact if_pos hnew

theorem member (h : Recorded history t) {x : SymbolOver ρ} (hx : x.id = t.nextSymbolId) :
    Recorded (history ++ [.member x]) (t.addMember x) where
  symbol := h.symbol?_push rfl hx rfl
  apart := by
    intro y z hy hz
    have hdeclared : .declared y ∈ history := by simpa using hy
    rcases List.mem_append.mp hz with hold | hlast
    · exact h.apart hdeclared hold
    · obtain rfl : z = x := by simpa using hlast
      rw [hx]
      exact Nat.ne_of_lt (h.lt_of_mem hdeclared rfl)
  size := by simpa [addChain, SymbolTableOver.addMember] using h.size
  scope := by
    intro i s hs
    have hscope := h.scope (i := i) hs
    refine ⟨hscope.id, ?_, ?_, ?_⟩
    · simpa [addChain] using hscope.chain
    · simpa [TableChange.declaredIn?] using hscope.symbols
    · intro name
      simpa [declarations, TableChange.declaredIn?] using hscope.declarations name
  declared := fun hy => h.declared (by simpa using hy)

theorem declare (h : Recorded history t) {x : SymbolOver ρ} (hx : x.id = t.nextSymbolId)
    (hscope : x.scope < t.scopes.size) : Recorded (history ++ [.declared x]) (t.declare x) where
  symbol := h.symbol?_push rfl hx rfl
  apart := by
    intro y z hy hz
    have hmember : .member z ∈ history := by simpa using hz
    rcases List.mem_append.mp hy with hold | hlast
    · exact h.apart hold hmember
    · obtain rfl : y = x := by simpa using hlast
      rw [hx]
      exact (Nat.ne_of_lt (h.lt_of_mem hmember rfl)).symm
  size := by simpa [addChain, SymbolTableOver.declare] using h.size
  scope := by
    intro i s' hs'
    by_cases hi : i = x.scope
    · subst hi
      obtain ⟨s, hs⟩ : ∃ s, t.scopes[x.scope]? = some s := ⟨_, Array.getElem?_eq_getElem hscope⟩
      obtain rfl := Option.some.inj ((t.getElem?_declare_self x hs).symm.trans hs')
      have hold := h.scope hs
      refine ⟨hold.id, ?_, ?_, ?_⟩
      · simpa [addChain] using hold.chain
      · simp [TableChange.declaredIn?, hold.symbols]
      · intro name
        have hlist : ∀ y ∈ SymbolOver.byStart (history.declarations x.scope name),
            t.symbol? y.id = some y := fun y hy =>
          h.symbol?_declared (mem_declarations.mp (SymbolOver.mem_byStart.mp hy)).1
        rw [Scope.declarations_eq, lookup_modifyUnder]
        by_cases hname : name = x.name
        · subst hname
          rw [if_pos rfl, ← Scope.declarations_eq, hold.declarations, Option.getD_some,
            SymbolTableOver.insertByStart_map hlist]
          simp [declarations, TableChange.declaredIn?]
        · rw [if_neg hname, ← Scope.declarations_eq, hold.declarations]
          simp [declarations, TableChange.declaredIn?, Ne.symm hname]
    · rw [t.getElem?_declare x hi] at hs'
      have hold := h.scope hs'
      refine ⟨hold.id, ?_, ?_, ?_⟩
      · simpa [addChain] using hold.chain
      · simpa [TableChange.declaredIn?, Ne.symm hi] using hold.symbols
      · intro name
        simpa [declarations, TableChange.declaredIn?, Ne.symm hi] using hold.declarations name
  declared := by
    intro y hy
    have hsize : (t.declare x).scopes.size = t.scopes.size := Array.size_modify
    rw [hsize]
    rcases List.mem_append.mp hy with hold | hlast
    · exact h.declared hold
    · obtain rfl : y = x := by simpa using hlast
      exact hscope

/-- A new scope has the next number, and goes on outwards where its parent stands. -/
theorem addScope (h : Recorded history t) {parent : ScopeId} (hparent : parent < t.scopes.size)
    (kind : ScopeKind) (span : Span) :
    Recorded (history ++ [.scope parent kind span]) (t.addScope parent kind span) := by
  have hchains : chains (history ++ [.scope parent kind span]) =
      history.chains ++ [t.scopes.size :: history.chains.getD parent []] := by
    rw [chains_concat, addChain, h.size]
  have hold : ∀ {i : ScopeId} {c}, history.chains[i]? = some c →
      (chains (history ++ [.scope parent kind span]))[i]? = some c := by
    intro i c hc
    rw [hchains, List.getElem?_append_left (List.getElem?_eq_some_iff.mp hc).1, hc]
  constructor
  case symbol =>
    intro change x hchange hx
    rcases List.mem_append.mp hchange with hchange | hchange
    · exact h.symbol hchange hx
    · obtain rfl := List.mem_singleton.mp hchange
      cases hx
  case apart => exact fun hx hy => h.apart (by simpa using hx) (by simpa using hy)
  case size => simp [hchains, h.size, SymbolTableOver.addScope]
  case declared =>
    intro x hx
    have hsize : (t.addScope parent kind span).scopes.size = t.scopes.size + 1 := by
      simp [SymbolTableOver.addScope]
    rw [hsize]
    exact Nat.lt_succ_of_lt (h.declared (by simpa using hx))
  case scope =>
    intro i s' hs'
    by_cases hi : i = t.scopes.size
    · subst hi
      obtain rfl := Option.some.inj ((t.getElem?_addScope_new hparent kind span).symm.trans hs')
      have hnone := h.declaredIn_eq_nil (Nat.le_refl t.scopes.size)
      have houter : history.chains[parent]? = some (history.chains.getD parent []) := by
        have hlt : parent < history.chains.length := h.size ▸ hparent
        simp [List.getD_eq_getElem?_getD, List.getElem?_eq_getElem hlt]
      refine ⟨rfl, ⟨hparent, _, hold houter, ?_⟩, ?_, ?_⟩
      · rw [hchains, List.getElem?_append_right (Nat.le_of_eq h.size), h.size]
        simp
      · simp [hnone, TableChange.declaredIn?]
      · intro name
        simp [declarations, hnone, TableChange.declaredIn?, Scope.declarations]
    · obtain ⟨s, children, hs, rfl⟩ := t.eq_of_getElem?_addScope hi hs'
      have hscope := h.scope hs
      refine ⟨hscope.id, ?_, ?_, fun name => ?_⟩
      · have hchain := hscope.chain
        show match s.parent with | none => _ | some p => _
        cases hp : s.parent with
        | none =>
          rw [hp] at hchain
          exact ⟨hchain.1, hold hchain.2⟩
        | some p =>
          rw [hp] at hchain
          obtain ⟨hlt, outer, houter, hi⟩ := hchain
          exact ⟨hlt, outer, hold houter, hold hi⟩
      · simpa [TableChange.declaredIn?] using hscope.symbols
      · show s.declarations name = _
        simpa [declarations, TableChange.declaredIn?] using hscope.declarations name

end Recorded

/-- Whatever the changes were, the table holds what they say. -/
theorem Reaches.recorded {length : Nat} {history : TableHistory ρ} {t : SymbolTableOver ρ}
    (h : Reaches length history t) : Recorded history t := by
  induction h with
  | new => exact .new length
  | @change history t change _ hfits ih =>
    cases change with
    | scope parent kind span => exact ih.addScope hfits kind span
    | declared x => exact ih.declare hfits.1 hfits.2
    | member x => exact ih.member hfits

/-! ### Runs of changes -/

/-- Each change fits the table that the changes in front of it lead to. -/
def FitsFrom (t : SymbolTableOver ρ) : TableHistory ρ → Prop
  | [] => True
  | change :: rest => change.Fits t ∧ FitsFrom (change.apply t) rest

instance decidableFitsFrom (t : SymbolTableOver ρ) :
    (history : TableHistory ρ) → Decidable (FitsFrom t history)
  | [] => inferInstanceAs (Decidable True)
  | change :: rest =>
    have := decidableFitsFrom (change.apply t) rest
    inferInstanceAs (Decidable (change.Fits t ∧ FitsFrom (change.apply t) rest))

/-- The table at the end of the changes. -/
def table (length : Nat) (history : TableHistory ρ) : SymbolTableOver ρ :=
  history.foldl TableChange.apply (.new length)

theorem reaches_table {length : Nat} {history : TableHistory ρ} (h : FitsFrom (.new length) history) :
    Reaches length history (history.table length) := by
  have hrun : ∀ (more before : TableHistory ρ) (t : SymbolTableOver ρ), Reaches length before t →
      FitsFrom t more → Reaches length (before ++ more) (more.foldl TableChange.apply t) := by
    intro more
    induction more with
    | nil =>
      intro before t hreaches _
      rwa [List.append_nil]
    | cons change rest ih =>
      intro before t hreaches hfits
      have hnext := ih (before ++ [change]) (change.apply t) (.change hreaches hfits.1) hfits.2
      rwa [List.append_assoc] at hnext
  exact hrun history [] _ .new h

/-- A global that comes late, a block with two locals of its name, the later one first, and a member
between them. -/
def outOfOrder : TableHistory Empty :=
  [.declared (.plain 0 "x" 0 40 false), .scope 0 .block ⟨10, 30⟩, .declared (.plain 1 "x" 1 25 true),
    .member (.plain 2 "x" 1 20 true), .declared (.plain 3 "x" 1 12 true),
    .declared (.plain 4 "y" 0 5 true)]

end TableHistory

end LuaScope

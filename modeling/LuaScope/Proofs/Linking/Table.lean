import LuaScope.Proofs.Linking.Safe
import LuaScope.Proofs.Binding.Walk

/-!
# LuaScope.Proofs.Linking.Table

The changes of a symbol table keep it safe, and let it grow: a symbol changes its type and what goes
with it, a symbol or a scope is added.
-/

namespace LuaScope

namespace SymbolTableOver

variable {t : SymbolTable}

theorem extends_push {t t' : SymbolTable} {x : Symbol} (hsymbols : t'.symbols = t.symbols.push x)
    (hscopes : t.scopes.size ≤ t'.scopes.size) : t.Extends t' where
  names h := by
    obtain ⟨y, hy, hname⟩ := h
    refine ⟨y, ?_, hname⟩
    have hlt := (Array.getElem?_eq_some_iff.mp hy).1
    rw [symbol?, hsymbols, Array.getElem?_push, if_neg (Nat.ne_of_lt hlt)]
    exact hy
  scopes := hscopes

theorem symbol?_modifySymbol (t : SymbolTable) (id id' : SymbolId) (f : Symbol → Symbol) :
    (t.modifySymbol id f).symbol? id' =
      if id = id' then (t.symbol? id').map f else t.symbol? id' := by
  simp only [symbol?, modifySymbol, Array.getElem?_modify]

theorem extends_modifySymbol {f : Symbol → Symbol} (hf : SymbolOver.Keeps f) (id : SymbolId) :
    t.Extends (t.modifySymbol id f) where
  names := by
    rintro id' name ⟨x, hx, rfl⟩
    unfold Names
    rw [symbol?_modifySymbol]
    split
    · exact ⟨f x, by rw [hx, Option.map_some], hf.name x⟩
    · exact ⟨x, hx, rfl⟩
  scopes := Nat.le_refl _

end SymbolTableOver

namespace SymbolTable.Safe

variable {D : Demand} {t : SymbolTable}

/-- A symbol is changed into one that is safe as well. -/
theorem modifySymbol (h : SymbolTable.Safe D t) {id : SymbolId} {f : Symbol → Symbol}
    (hf : SymbolOver.Keeps f) (hsafe : ∀ x, t.symbol? id = some x → Symbol.SafeIn D t (f x)) :
    SymbolTable.Safe D (t.modifySymbol id f) := by
  have hextends := SymbolTableOver.extends_modifySymbol (t := t) hf id
  refine ⟨fun {id' x} hx => ?_, fun hscope => (h.scopes hscope).mono hextends, h.root⟩
  rw [SymbolTableOver.symbol?_modifySymbol] at hx
  split at hx
  · rename_i hid
    obtain ⟨y, hy, rfl⟩ := Option.map_eq_some_iff.mp hx
    exact (hsafe y (hid ▸ hy)).mono hextends
  · exact (h.symbols hx).mono hextends

theorem symbol_of_push {t' : SymbolTable} (h : SymbolTable.Safe D t) {x : Symbol}
    (hx : Symbol.SafeIn D t x) (hsymbols : t'.symbols = t.symbols.push x)
    (hextends : t.Extends t') {id : SymbolId} {y : Symbol} (hy : t'.symbol? id = some y) :
    Symbol.SafeIn D t' y := by
  rw [SymbolTableOver.symbol?, hsymbols, Array.getElem?_push] at hy
  split at hy
  · cases hy
    exact hx.mono hextends
  · exact (h.symbols hy).mono hextends

/-- A member is added. -/
theorem addMember (h : SymbolTable.Safe D t) {x : Symbol} (hx : Symbol.SafeIn D t x) :
    SymbolTable.Safe D (t.addMember x) ∧ t.Extends (t.addMember x) := by
  have hextends : t.Extends (t.addMember x) :=
    SymbolTableOver.extends_push rfl (Nat.le_refl _)
  exact ⟨⟨h.symbol_of_push hx rfl hextends, fun hscope => (h.scopes hscope).mono hextends, h.root⟩,
    hextends⟩

theorem mem_modifyUnder {name : String} {f : List SymbolId → List SymbolId}
    {entry : String × List SymbolId} {names : List (String × List SymbolId)}
    (hentry : entry ∈ modifyUnder name f names) :
    entry ∈ names ∨ ∃ ids, entry = (name, f ids) ∧ (ids = [] ∨ (name, ids) ∈ names) := by
  induction names with
  | nil => exact .inr ⟨[], List.mem_singleton.mp hentry, .inl rfl⟩
  | cons first rest ih =>
    obtain ⟨n, ids⟩ := first
    unfold modifyUnder at hentry
    split at hentry
    · rename_i hn
      subst hn
      rcases List.mem_cons.mp hentry with rfl | hentry
      · exact .inr ⟨ids, rfl, .inr List.mem_cons_self⟩
      · exact .inl (List.mem_cons_of_mem _ hentry)
    · rcases List.mem_cons.mp hentry with rfl | hentry
      · exact .inl List.mem_cons_self
      · rcases ih hentry with hentry | ⟨ids', rfl, hids⟩
        · exact .inl (List.mem_cons_of_mem _ hentry)
        · exact .inr ⟨ids', rfl, hids.imp id (List.mem_cons_of_mem _)⟩

theorem mem_insertByStart {start : Nat} {id id' : SymbolId} {ids : List SymbolId}
    (hid : id' ∈ t.insertByStart start id ids) : id' = id ∨ id' ∈ ids := by
  unfold SymbolTableOver.insertByStart at hid
  rcases List.mem_append.mp hid with hid | hid
  · exact .inr ((List.takeWhile_prefix _).subset hid)
  · rcases List.mem_cons.mp hid with rfl | hid
    · exact .inl rfl
    · exact .inr ((List.dropWhile_suffix _).subset hid)

/-- A symbol is declared: it is listed in its scope, under its name. -/
theorem declare (h : SymbolTable.Safe D t) {x : Symbol} (hx : Symbol.SafeIn D t x)
    (hid : x.id = t.nextSymbolId) : SymbolTable.Safe D (t.declare x) ∧ t.Extends (t.declare x) := by
  have hextends : t.Extends (t.declare x) :=
    SymbolTableOver.extends_push rfl (by simp [SymbolTableOver.declare])
  have hnew : (t.declare x).Names x.id x.name :=
    ⟨x, by rw [hid]; simp [SymbolTableOver.symbol?, SymbolTableOver.declare,
      SymbolTableOver.nextSymbolId], rfl⟩
  refine ⟨⟨h.symbol_of_push hx rfl hextends, fun {id scope} hscope => ?_, ?_⟩, hextends⟩
  · simp only [SymbolTableOver.scope?, SymbolTableOver.declare, Array.getElem?_modify] at hscope
    split at hscope
    · obtain ⟨old, hold, rfl⟩ := Option.map_eq_some_iff.mp hscope
      have hsafe := (h.scopes hold).mono hextends
      refine ⟨hsafe.parent, hsafe.children, fun id hid => ?_, fun entry hentry id hid => ?_⟩
      · rcases List.mem_append.mp hid with hid | hid
        · exact hsafe.symbols id hid
        · rw [List.mem_singleton.mp hid]
          exact hnew.lt
      · rcases mem_modifyUnder hentry with hentry | ⟨ids, rfl, hids⟩
        · exact hsafe.byName entry hentry id hid
        · rcases mem_insertByStart hid with rfl | hid
          · exact hnew
          · rcases hids with rfl | hids
            · cases hid
            · exact hsafe.byName _ hids id hid
    · exact (h.scopes hscope).mono hextends
  · simpa [SymbolTableOver.declare] using h.root

/-- A scope is opened in a scope that is there. -/
theorem addScope (h : SymbolTable.Safe D t) {parent : ScopeId} (hparent : parent < t.scopes.size)
    (kind : ScopeKind) (span : Span) :
    SymbolTable.Safe D (t.addScope parent kind span) ∧ t.Extends (t.addScope parent kind span) ∧
      t.nextScopeId < (t.addScope parent kind span).scopes.size := by
  have hsize : (t.addScope parent kind span).scopes.size = t.scopes.size + 1 := by
    simp [SymbolTableOver.addScope]
  have hextends : t.Extends (t.addScope parent kind span) := ⟨fun hnames => hnames, by omega⟩
  have hnext : t.nextScopeId < (t.addScope parent kind span).scopes.size := by
    rw [hsize]
    exact Nat.lt_succ_self _
  have hold : ∀ {id : Nat} {scope : Scope},
      (t.scopes.push ⟨t.nextScopeId, kind, some parent, span, [], [], []⟩)[id]? = some scope →
        Scope.SafeIn (t.addScope parent kind span) scope := by
    intro id scope hscope
    rw [Array.getElem?_push] at hscope
    split at hscope
    · cases hscope
      refine ⟨fun id hid => ?_, fun _ h => (by cases h), fun _ h => (by cases h),
        fun _ h => (by cases h)⟩
      cases hid
      exact Nat.lt_of_lt_of_le hparent hextends.scopes
    · exact (h.scopes hscope).mono hextends
  refine ⟨⟨fun hx => (h.symbols hx).mono hextends, fun {id scope} hscope => ?_, ?_⟩, hextends,
    hnext⟩
  · simp only [SymbolTableOver.scope?, SymbolTableOver.addScope, Array.getElem?_modify] at hscope
    split at hscope
    · obtain ⟨old, hpush, rfl⟩ := Option.map_eq_some_iff.mp hscope
      have hsafe := hold hpush
      refine ⟨hsafe.parent, fun id hid => ?_, hsafe.symbols, hsafe.byName⟩
      rcases List.mem_append.mp hid with hid | hid
      · exact hsafe.children id hid
      · rw [List.mem_singleton.mp hid]
        exact hnext
    · exact hold hscope
  · rw [hsize]
    exact Nat.lt_succ_of_lt h.root

/-- The table of a text that was not walked. -/
theorem new (D : Demand) (length : Nat) : SymbolTable.Safe D (.new length) := by
  refine ⟨fun hx => (by cases hx), fun {id scope} hscope => ?_, Nat.zero_lt_one⟩
  obtain ⟨hlt, heq⟩ := Array.getElem?_eq_some_iff.mp hscope
  obtain rfl : id = 0 := Nat.lt_one_iff.mp hlt
  cases heq
  exact ⟨fun _ h => (by cases h), fun _ h => (by cases h), fun _ h => (by cases h),
    fun _ h => (by cases h)⟩

end SymbolTable.Safe

/-! ## Who takes a new member -/

namespace Binder

variable {σ : Type} {b : Binder σ}

theorem tyOf_of_symbol? {id : SymbolId} {x : Symbol} (hx : b.table.symbol? id = some x) :
    b.tyOf id = x.ty := by
  have hx : (b.home.locate id).symbol? = some x := hx
  rw [Binder.tyOf, Located.ty, hx]

/-- The symbol that may take new members is of this document; it holds a table of its own, or
nothing that speaks against one. -/
theorem ownTable?_eq_some {link : Link} {owner : SymbolId} (h : b.ownTable? link = some owner) :
    (b.home.follow link).resolveAlias.home.origin = none ∧
      (b.home.follow link).resolveAlias.id = owner ∧
      ((∃ table, b.tyOf owner = .table table ∧ table.origin = none) ∨
        (b.tyOf owner).isVacant = true) := by
  unfold ownTable? at h
  dsimp only at h
  split at h
  · cases h
  · rename_i hlocal
    have hnone : (b.home.follow link).resolveAlias.home.origin = none := by
      simpa [Located.isLocal] using hlocal
    split at h
    · rename_i table hty
      split at h
      · cases h
      · rename_i hown
        cases h
        exact ⟨hnone, rfl, .inl ⟨table, hty, by simpa [TableOver.isForeign] using hown⟩⟩
    · rename_i hty
      cases h
      exact ⟨hnone, rfl, .inr (by rw [hty]; rfl)⟩
    · rename_i hty
      cases h
      exact ⟨hnone, rfl, .inr (by rw [hty]; rfl)⟩
    · cases h

end Binder

end LuaScope

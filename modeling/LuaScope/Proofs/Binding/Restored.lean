import LuaScope.Proofs.Function.Returned
import LuaScope.Proofs.Scoping.Continued
import LuaScope.Proofs.Scoping.Descent

/-!
# LuaScope.Proofs.Binding.Restored

Whatever part of a tree a walk visits, at whatever depth and in whatever state, it comes back to the
scope and to the frames it started with, and only adds to what was recorded.

* `Scope.Grows`, `Binder.Adds` — what was recorded stays, and more may come behind it.
* `Binder.Restores`            — besides, the scope is the same and so are the frames, but for what
  the frame on top holds.
* `Binder.Spares`              — even the frame on top is as it was.
* `Walk.restoring`             — expressions and functions spare the frame around them, statements
  restore; no early way out of a visit forgets to.
-/

namespace LuaScope

variable {σ : Type}

/-! ## What is recorded stays -/

/-- The same scope, which may list more children and more symbols. -/
structure Scope.Grows (s s' : Scope) : Prop where
  id : s'.id = s.id
  kind : s'.kind = s.kind
  parent : s'.parent = s.parent
  span : s'.span = s.span
  children : s.children <+: s'.children
  symbols : s.symbols <+: s'.symbols
  declarations : ∀ name, (s.declarations name).Sublist (s'.declarations name)

namespace Scope.Grows

variable {s s' s'' : Scope}

theorem refl (s : Scope) : s.Grows s :=
  ⟨rfl, rfl, rfl, rfl, List.prefix_rfl, List.prefix_rfl, fun _ => List.Sublist.refl _⟩

theorem trans (h : s.Grows s') (h' : s'.Grows s'') : s.Grows s'' where
  id := h'.id.trans h.id
  kind := h'.kind.trans h.kind
  parent := h'.parent.trans h.parent
  span := h'.span.trans h.span
  children := h.children.trans h'.children
  symbols := h.symbols.trans h'.symbols
  declarations name := (h.declarations name).trans (h'.declarations name)

theorem declare {ρ : Type} (t : SymbolTableOver ρ) (x : SymbolOver ρ) (s : Scope) :
    s.Grows { s with
      symbols := s.symbols ++ [x.id]
      byName := modifyUnder x.name (t.insertByStart x.span.start x.id) s.byName } where
  id := rfl
  kind := rfl
  parent := rfl
  span := rfl
  children := List.prefix_rfl
  symbols := List.prefix_append _ _
  declarations name := by
    rw [Scope.declarations_eq, Scope.declarations_eq, lookup_modifyUnder]
    split
    · rename_i hname
      have hids : ∀ ids : List SymbolId, ids.Sublist (t.insertByStart x.span.start x.id ids) := by
        intro ids
        conv_lhs => rw [← ids.takeWhile_append_dropWhile (p := t.startsBy x.span.start)]
        exact (List.sublist_cons_self _ _).append_left _
      exact hids _
    · exact List.Sublist.refl _

end Scope.Grows

namespace Binder

variable {b b' b'' : Binder σ}

/-- Symbols, scopes and references of the first state are in the second one, under their numbers; of
a symbol only the type may be another, with what comes with it. -/
structure Adds (b b' : Binder σ) : Prop where
  symbols : ∀ {id x}, b.table.symbol? id = some x →
    ∃ x', b'.table.symbol? id = some x' ∧ x'.core = x.core
  scopes : ∀ {id s}, b.table.scope? id = some s →
    ∃ s', b'.table.scope? id = some s' ∧ s.Grows s'
  references : b.references.toList <+: b'.references.toList

namespace Adds

theorem refl (b : Binder σ) : b.Adds b where
  symbols hx := ⟨_, hx, rfl⟩
  scopes hs := ⟨_, hs, .refl _⟩
  references := List.prefix_rfl

theorem trans (h : b.Adds b') (h' : b'.Adds b'') : b.Adds b'' where
  symbols hx := by
    obtain ⟨x', hx', hcore⟩ := h.symbols hx
    obtain ⟨x'', hx'', hcore'⟩ := h'.symbols hx'
    exact ⟨x'', hx'', hcore'.trans hcore⟩
  scopes hs := by
    obtain ⟨s', hs', hgrows⟩ := h.scopes hs
    obtain ⟨s'', hs'', hgrows'⟩ := h'.scopes hs'
    exact ⟨s'', hs'', hgrows.trans hgrows'⟩
  references := h.references.trans h'.references

/-- What is recorded decides, not where the walk stands. -/
theorem congr (htable : b'.table = b.table) (hreferences : b'.references = b.references) :
    b.Adds b' where
  symbols hx := ⟨_, htable ▸ hx, rfl⟩
  scopes hs := ⟨_, htable ▸ hs, .refl _⟩
  references := by rw [hreferences]

theorem modifySymbol (b : Binder σ) (id : SymbolId) {f : Symbol → Symbol}
    (hf : SymbolOver.Keeps f) : b.Adds (b.modifySymbol id f) where
  symbols {i x} hx := by
    simp only [SymbolTableOver.symbol?, Binder.modifySymbol, SymbolTableOver.modifySymbol,
      Array.getElem?_modify] at hx ⊢
    rw [hx]
    split
    · exact ⟨f x, rfl, hf.core x⟩
    · exact ⟨x, rfl, rfl⟩
  scopes hs := ⟨_, hs, .refl _⟩
  references := List.prefix_rfl

theorem record (s : Setting σ) (first last : Ident) (target : Option Link) (b : Binder σ) :
    b.Adds (b.record s first last target) where
  symbols hx := ⟨_, hx, rfl⟩
  scopes hs := ⟨_, hs, .refl _⟩
  references := by
    rw [Binder.record, Array.toList_push]
    exact List.prefix_append _ _

theorem addMember (symbol : Symbol) (b : Binder σ) : b.Adds (b.addMember symbol) where
  symbols hx := ⟨_, SymbolTableOver.symbol?_of_push rfl hx, rfl⟩
  scopes hs := ⟨_, hs, .refl _⟩
  references := List.prefix_rfl

theorem declare (symbol : Symbol) (b : Binder σ) : b.Adds (b.declare symbol) where
  symbols hx := ⟨_, SymbolTableOver.symbol?_of_push rfl hx, rfl⟩
  scopes {id s} hs := by
    rw [Binder.declare, SymbolTableOver.scope?_declare, hs]
    split
    · exact ⟨_, rfl, .declare b.table symbol s⟩
    · exact ⟨s, rfl, .refl s⟩
  references := List.prefix_rfl

theorem enterScope (kind : ScopeKind) (span : Span) (b : Binder σ) :
    b.Adds (b.enterScope kind span) where
  symbols hx := ⟨_, hx, rfl⟩
  scopes {id s} hs := by
    simp only [SymbolTableOver.scope?, Binder.enterScope, SymbolTableOver.addScope,
      Array.getElem?_modify, Array.getElem?_push] at hs ⊢
    rw [if_neg (Nat.ne_of_lt (Array.getElem?_eq_some_iff.mp hs).1), hs]
    split
    · exact ⟨_, rfl, rfl, rfl, rfl, rfl, List.prefix_append _ _, List.prefix_rfl,
        fun _ => List.Sublist.refl _⟩
    · exact ⟨s, rfl, .refl s⟩
  references := List.prefix_rfl

end Adds

/-! ## Coming back -/

/-- What was recorded stays, the scope is the same, and so are all frames but the one on top. -/
structure Restores (b b' : Binder σ) : Prop extends Adds b b' where
  scope : b'.scope = b.scope
  frames : b'.returns.length = b.returns.length
  below : b'.returns.tail = b.returns.tail

/-- All frames are the same. -/
structure Spares (b b' : Binder σ) : Prop extends Restores b b' where
  returns : b'.returns = b.returns

namespace Restores

theorem trans (h : b.Restores b') (h' : b'.Restores b'') : b.Restores b'' where
  toAdds := h.toAdds.trans h'.toAdds
  scope := h'.scope.trans h.scope
  frames := h'.frames.trans h.frames
  below := h'.below.trans h.below

theorem noteReturn (value : Inferred) (b : Binder σ) : b.Restores (b.noteReturn value) := by
  have hlength : (b.noteReturn value).returns.length = b.returns.length := by
    unfold Binder.noteReturn
    split
    · rfl
    · rename_i frame rest hreturns
      dsimp only
      split <;> split <;> first | rfl | rw [hreturns]; rfl
  obtain ⟨returns, heq⟩ := b.noteReturn_eq value
  have hbelow := b.noteReturn_returns value
  rw [heq] at hlength hbelow ⊢
  exact ⟨.congr rfl rfl, rfl, hlength, hbelow⟩

end Restores

namespace Spares

theorem of_adds (h : b.Adds b') (hscope : b'.scope = b.scope) (hreturns : b'.returns = b.returns) :
    b.Spares b' where
  toAdds := h
  scope := hscope
  frames := by rw [hreturns]
  below := by rw [hreturns]
  returns := hreturns

theorem trans (h : b.Spares b') (h' : b'.Spares b'') : b.Spares b'' where
  toRestores := h.toRestores.trans h'.toRestores
  returns := h'.returns.trans h.returns

end Spares

/-- A scope is left for the one around it, a frame is taken off again. -/
theorem restoringLaws (s : Setting σ) : FrameLaws s Spares Spares Restores where
  refl b := .of_adds (.refl b) rfl rfl
  trans _ _ _ h h' := h.trans h'
  modify id _ b hf := .of_adds (.modifySymbol b id hf) rfl rfl
  load _ b := .of_adds (.congr rfl rfl) rfl rfl
  outerTrans _ _ _ h h' := h.trans h'
  weaken _ _ h := h
  record first last target b := .of_adds (.record s first last target b) rfl rfl
  member symbol b _ := .of_adds (.addMember symbol b) rfl rfl
  declare symbol b _ _ := .of_adds (.declare symbol b) rfl rfl
  bodyTrans _ _ _ h h' := h.trans h'
  widen _ _ h := h.toRestores
  note value b := .noteReturn value b
  scope kind span b b' h :=
    { toAdds := ((Adds.enterScope kind span b).trans h.toAdds).trans (.congr rfl rfl)
      scope := rfl
      frames := h.frames
      below := h.below }
  function kind span b b₁ b' hentered hbody := by
    obtain ⟨returns, heq⟩ := b'.popFrame_eq
    have hpopped : b'.popFrame.2.returns = b.returns :=
      (b'.popFrame_returns.trans hbody.below).trans hentered.returns
    rw [heq] at hpopped ⊢
    have hpushed : b₁.Adds b₁.pushFrame := .congr rfl rfl
    exact .of_adds ((((Adds.enterScope kind span b).trans hentered.toAdds).trans hpushed).trans
      (hbody.toAdds.trans (.congr rfl rfl))) rfl hpopped

end Binder

/-! ## Every visit -/

namespace Walk

open Binder

/-- Each visit of a walk restores the state, at every depth; one that cannot meet a `return` of the
function around it spares its frame. -/
structure Restoring (s : Setting σ) : Prop where
  expr : ∀ e depth, Moves Spares (inferExpr s e depth)
  name : ∀ ident depth, Moves Spares (inferName s ident depth)
  path : ∀ path, Moves Spares (inferPath s path)
  list : ∀ es depth, Moves Spares (inferList s es depth)
  fields : ∀ fields depth members, Moves Spares (inferFields s fields depth members)
  setmetatable : ∀ arguments depth, Moves Spares (inferSetmetatable s arguments depth)
  metatable : ∀ arguments depth, Moves Spares (inferMetatable s arguments depth)
  /-- The parameters and the body of a function, whatever stands in it. -/
  function : ∀ parameters stop isMethod container block depth, Moves Spares
    (inFunction s parameters stop isMethod container (visitBlock s block depth))
  /-- A statement inside of a function has the frame around that function below its own. -/
  nested : ∀ parameters stop isMethod container node span doc depth, Moves Spares
    (inFunction s parameters stop isMethod container (visitStatement s node span doc depth))
  declaration : ∀ reach name body span doc depth,
    Moves Spares (visitStatement s (.function reach name body) span doc depth)
  targets : ∀ targets values span doc depth,
    Moves Spares (assignTargets s targets values span doc depth)
  statement : ∀ node span doc depth, Moves Restores (visitStatement s node span doc depth)
  statements : ∀ statements depth, Moves Restores (visitStatements s statements depth)
  elseIfs : ∀ rest depth, Moves Restores (visitElseIfs s rest depth)
  block : ∀ block depth, Moves Restores (visitBlock s block depth)
  ownScope : ∀ kind block depth, Moves Restores (visitScoped s kind block depth)

theorem restoring (s : Setting σ) : Restoring s where
  expr := expr_steps (restoringLaws s)
  name := name_steps (restoringLaws s)
  path := (restoringLaws s).path
  list := list_steps (restoringLaws s)
  fields := fields_steps (restoringLaws s)
  setmetatable := setmetatable_steps (restoringLaws s)
  metatable := metatable_steps (restoringLaws s)
  function parameters stop isMethod container block depth :=
    function_steps (restoringLaws s) parameters stop isMethod container
      (block_steps (restoringLaws s) block depth)
  nested parameters stop isMethod container node span doc depth :=
    function_steps (restoringLaws s) parameters stop isMethod container
      (statement_steps (restoringLaws s) node span doc depth)
  declaration := declaration_steps (restoringLaws s)
  targets := targets_steps (restoringLaws s)
  statement := statement_steps (restoringLaws s)
  statements := statements_steps (restoringLaws s)
  elseIfs := elseIfs_steps (restoringLaws s)
  block := block_steps (restoringLaws s)
  ownScope := scoped_steps (restoringLaws s)

end Walk

end LuaScope

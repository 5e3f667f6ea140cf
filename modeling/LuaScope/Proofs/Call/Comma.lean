import LuaScope.Proofs.Call.Reading

/-!
# LuaScope.Proofs.Call.Comma

The commas of an expression stand in its brackets, apart from those of function literals outside of
them.

* `Reader.Skips`           — between two cursors brackets are closed and no comma is outside of them.
* `Reader.suffixes_skips`  — so it is with all that hangs on a name or parenthesis.
* `Reader.expr_skips`      — and with each expression that shows no function literal.
-/

namespace LuaScope

/-- A function literal stands in the expression outside of its brackets. -/
def Expr.showsFunction : Expr → Bool
  | .function _ => true
  | .field base _ => base.showsFunction
  | .subscript base _ => base.showsFunction
  | .call callee _ _ => callee.showsFunction
  | .binary _ _ left right => left.showsFunction || right.showsFunction
  | .unary _ _ operand => operand.showsFunction
  | .nil | .boolean | .number | .literal _ | .vararg | .name _ | .global | .paren _ | .table _ => false

namespace Reader

variable {c c₁ c₂ c' : Cursor} {l l' : Lexeme} {fuel limit : Nat} {e : Expr} {es : List Expr}
  {fields : List Field}

/-- Between the cursors brackets are closed and no comma stands outside of them. -/
def Skips (c c' : Cursor) : Prop :=
  ∃ passed, signs c.rest = passed ++ signs c'.rest ∧ openBehind 0 passed = some 0 ∧
    looseCommas 0 passed = 0

theorem Skips.refl (c : Cursor) : Skips c c := ⟨[], rfl, rfl, rfl⟩

theorem Skips.trans (h : Skips c c₁) (h' : Skips c₁ c') : Skips c c' := by
  obtain ⟨xs, hxs, hdepth, hcommas⟩ := h
  obtain ⟨ys, hys, hdepth', hcommas'⟩ := h'
  refine ⟨xs ++ ys, by rw [hxs, hys, List.append_assoc], ?_, ?_⟩
  · rw [openBehind_append, hdepth, Option.bind_some, hdepth']
  · rw [looseCommas_append hdepth, hcommas, hcommas']

theorem Skips.plain (hrest : c.rest = l :: c'.rest) (h : l.token.sign? = none) : Skips c c' := by
  refine ⟨[], ?_, rfl, rfl⟩
  rw [hrest, signs_cons, h]
  rfl

/-- All commas between two brackets stand in them. -/
theorem Skips.brackets {opening closing : Char} (hrest : c.rest = l :: c₁.rest)
    (hl : l.token.sign? = some opening) (hopening : isOpening opening = true)
    (h : Passes 0 0 c₁ c₂) (hrest' : c₂.rest = l' :: c'.rest)
    (hl' : l'.token.sign? = some closing) (hclosing : isClosing closing = true) : Skips c c' := by
  obtain ⟨-, passed, hpassed, hdepth⟩ := h
  have hinner : openBehind 1 passed = some 1 := openBehind_add hdepth 1
  have hcommas : looseCommas 1 passed = 0 := looseCommas_succ hdepth
  have hnotClosing := isClosing_of_isOpening hopening
  have hopen : openBehind 0 [opening] = some 1 := by simp [openBehind, hopening, hnotClosing]
  have hclose : openBehind 1 [closing] = some 0 := by simp [openBehind, hclosing]
  refine ⟨[opening] ++ (passed ++ [closing]), ?_, ?_, ?_⟩
  · rw [hrest, signs_cons, hl, hpassed, hrest', signs_cons, hl']
    simp
  · rw [openBehind_append, hopen, Option.bind_some, openBehind_append, hinner, Option.bind_some,
      hclose]
  · rw [looseCommas_append hopen, looseCommas_append hinner, hcommas]
    simp [looseCommas, hopening, hnotClosing, hclosing]

/-! ## Between brackets -/

theorem expr_passes (hrun : expr fuel limit c = some (e, c')) : Passes 0 0 c c' :=
  ((nesting c.rest fuel).expr limit c e c' (.inl (List.suffix_refl _)) trivial hrun).2.1

theorem exprs_passes (hrun : exprs fuel c = some (es, c')) : Passes 0 0 c c' :=
  ((nesting c.rest fuel).exprs c es c' (.inl (List.suffix_refl _)) trivial hrun).2.1

theorem fieldList_passes (hrun : fieldList fuel c = some (fields, c')) : Passes 0 0 c c' :=
  ((nesting c.rest fuel).fieldList c fields c' (.inl (List.suffix_refl _)) trivial hrun).2.1

theorem tableFields_skips (hrun : tableFields fuel c = some (fields, c')) : Skips c c' := by
  cases fuel with
  | zero => cases hrun
  | succ fuel =>
    obtain ⟨⟨_, c₁⟩, hopening, hrun⟩ := Option.bind_eq_some_iff.mp hrun
    obtain ⟨⟨_, c₂⟩, hfields, hrun⟩ := Option.bind_eq_some_iff.mp hrun
    obtain ⟨⟨_, c₃⟩, hclosing, hpure⟩ := Option.bind_eq_some_iff.mp hrun
    cases hpure
    obtain ⟨l, hrest, hl, -⟩ := expect_eq hopening
    obtain ⟨l', hrest', hl', -⟩ := expect_eq hclosing
    exact .brackets hrest (by rw [hl]; rfl) rfl (fieldList_passes hfields) hrest'
      (by rw [hl']; rfl) rfl

theorem callArguments_skips (hrun : callArguments fuel c = some (es, c')) : Skips c c' := by
  cases fuel with
  | zero => cases hrun
  | succ fuel =>
    unfold callArguments at hrun
    rw [peek_bind] at hrun
    generalize hnext : c.rest.head?.map Lexeme.token = next at hrun
    split at hrun
    · obtain ⟨⟨_, c₁⟩, hadvance, hrun⟩ := Option.bind_eq_some_iff.mp hrun
      obtain ⟨l, hrest, hl, -⟩ := advance_eq hnext hadvance
      obtain ⟨⟨more, c₂⟩, haccept, hsome⟩ := Option.bind_eq_some_iff.mp hrun
      rcases accept_eq haccept with ⟨rfl, l', hrest', hl'⟩ | ⟨rfl, rfl⟩
      · cases hsome
        exact .brackets hrest (by rw [hl]; rfl) rfl (.refl c₁) hrest' (by rw [hl']; rfl) rfl
      · obtain ⟨⟨arguments, c₃⟩, hexprs, hbehind⟩ := Option.bind_eq_some_iff.mp hsome
        obtain ⟨⟨_, c₄⟩, hclosing, hpure⟩ := Option.bind_eq_some_iff.mp hbehind
        cases hpure
        obtain ⟨l', hrest', hl', -⟩ := expect_eq hclosing
        exact .brackets hrest (by rw [hl]; rfl) rfl (exprs_passes hexprs) hrest'
          (by rw [hl']; rfl) rfl
    · obtain ⟨⟨fields, c₁⟩, hfields, hpure⟩ := Option.bind_eq_some_iff.mp hrun
      cases hpure
      exact tableFields_skips hfields
    · obtain ⟨⟨_, c₁⟩, hadvance, hpure⟩ := Option.bind_eq_some_iff.mp hrun
      cases hpure
      obtain ⟨l, hrest, hl, -⟩ := advance_eq hnext hadvance
      exact .plain hrest (by rw [hl]; rfl)
    · cases hrun

/-! ## Expressions -/

theorem suffixes_skips : ∀ {fuel : Nat} {base : Expr} {c : Cursor},
    suffixes fuel base c = some (e, c') → Skips c c'
  | 0, _, _, hrun => by cases hrun
  | fuel + 1, base, c, hrun => by
    have hcall : ∀ {c : Cursor} {method : Option Ident}, (do
        let arguments ← callArguments fuel
        suffixes fuel (.call base method arguments)) c = some (e, c') → Skips c c' := by
      intro c method hrun
      obtain ⟨⟨arguments, c₁⟩, harguments, hrun⟩ := Option.bind_eq_some_iff.mp hrun
      exact (callArguments_skips harguments).trans (suffixes_skips hrun)
    have hmember : ∀ {c : Cursor} {m : Mark} {span : Span} {name : Ident} {c₁ c₂ : Cursor},
        c.rest.head?.map Lexeme.token = some (.mark m) → (Token.mark m).sign? = none →
        advance c = some (span, c₁) → ident c₁ = some (name, c₂) → Skips c c₂ := by
      intro c m span name c₁ c₂ hnext hplain hadvance hident
      obtain ⟨l, hrest, hl, -⟩ := advance_eq hnext hadvance
      obtain ⟨l', hrest', hl', -⟩ := ident_eq hident
      exact (Skips.plain hrest (by rw [hl, hplain])).trans (.plain hrest' (by rw [hl']; rfl))
    unfold suffixes at hrun
    rw [peek_bind] at hrun
    generalize hnext : c.rest.head?.map Lexeme.token = next at hrun
    split at hrun
    · obtain ⟨⟨_, c₁⟩, hadvance, hrun⟩ := Option.bind_eq_some_iff.mp hrun
      obtain ⟨⟨key, c₂⟩, hident, hrun⟩ := Option.bind_eq_some_iff.mp hrun
      exact (hmember hnext rfl hadvance hident).trans (suffixes_skips hrun)
    · obtain ⟨⟨_, c₁⟩, hadvance, hrun⟩ := Option.bind_eq_some_iff.mp hrun
      obtain ⟨⟨key, c₂⟩, hkey, hrun⟩ := Option.bind_eq_some_iff.mp hrun
      obtain ⟨⟨_, c₃⟩, hclosing, hrun⟩ := Option.bind_eq_some_iff.mp hrun
      obtain ⟨l, hrest, hl, -⟩ := advance_eq hnext hadvance
      obtain ⟨l', hrest', hl', -⟩ := expect_eq hclosing
      have hbrackets : Skips c c₃ := .brackets hrest (by rw [hl]; rfl) rfl (expr_passes hkey) hrest'
        (by rw [hl']; rfl) rfl
      exact hbrackets.trans (suffixes_skips hrun)
    · obtain ⟨⟨_, c₁⟩, hadvance, hrun⟩ := Option.bind_eq_some_iff.mp hrun
      obtain ⟨⟨method, c₂⟩, hident, hrun⟩ := Option.bind_eq_some_iff.mp hrun
      exact (hmember hnext rfl hadvance hident).trans (hcall hrun)
    · exact hcall hrun
    · exact hcall hrun
    · exact hcall hrun
    · cases hrun
      exact .refl _

theorem suffixed_skips (hrun : suffixed fuel c = some (e, c')) : Skips c c' := by
  cases fuel with
  | zero => cases hrun
  | succ fuel =>
    unfold suffixed at hrun
    rw [peek_bind] at hrun
    generalize hnext : c.rest.head?.map Lexeme.token = next at hrun
    split at hrun
    · obtain ⟨⟨_, c₁⟩, hadvance, hrun⟩ := Option.bind_eq_some_iff.mp hrun
      obtain ⟨l, hrest, hl, -⟩ := advance_eq hnext hadvance
      exact (Skips.plain hrest (by rw [hl]; rfl)).trans (suffixes_skips hrun)
    · obtain ⟨⟨_, c₁⟩, hadvance, hrun⟩ := Option.bind_eq_some_iff.mp hrun
      obtain ⟨⟨inner, c₂⟩, hinner, hrun⟩ := Option.bind_eq_some_iff.mp hrun
      obtain ⟨⟨_, c₃⟩, hclosing, hrun⟩ := Option.bind_eq_some_iff.mp hrun
      obtain ⟨l, hrest, hl, -⟩ := advance_eq hnext hadvance
      obtain ⟨l', hrest', hl', -⟩ := expect_eq hclosing
      have hbrackets : Skips c c₃ := .brackets hrest (by rw [hl]; rfl) rfl (expr_passes hinner)
        hrest' (by rw [hl']; rfl) rfl
      exact hbrackets.trans (suffixes_skips hrun)
    · cases hrun

theorem simple_skips (hrun : simple fuel c = some (e, c')) (he : e.showsFunction = false) :
    Skips c c' := by
  cases fuel with
  | zero => cases hrun
  | succ fuel =>
    unfold simple at hrun
    rw [peek_bind] at hrun
    generalize hnext : c.rest.head?.map Lexeme.token = next at hrun
    split at hrun
    case h_7 =>
      obtain ⟨⟨fields, c₁⟩, hfields, hpure⟩ := Option.bind_eq_some_iff.mp hrun
      cases hpure
      exact tableFields_skips hfields
    case h_8 =>
      obtain ⟨⟨_, c₁⟩, -, hrun⟩ := Option.bind_eq_some_iff.mp hrun
      obtain ⟨⟨body, c₂⟩, -, hpure⟩ := Option.bind_eq_some_iff.mp hrun
      cases hpure
      cases he
    case h_9 => exact suffixed_skips hrun
    all_goals
      obtain ⟨⟨_, c₁⟩, hadvance, hpure⟩ := Option.bind_eq_some_iff.mp hrun
      cases hpure
      obtain ⟨l, hrest, hl, -⟩ := advance_eq hnext hadvance
      exact .plain hrest (by rw [hl]; rfl)

/-- Nothing is read behind the left operand, or an operator with its right operand and what follows. -/
theorem operators_eq {left : Expr} (hrun : operators (fuel + 1) limit left c = some (e, c')) :
    e = left ∧ c' = c ∨ ∃ op span right c₁ c₂, Skips c c₁ ∧
      expr fuel op.rightPower c₁ = some (right, c₂) ∧
      operators fuel limit (.binary op span left right) c₂ = some (e, c') := by
  unfold operators at hrun
  rw [peek_bind] at hrun
  generalize hnext : c.rest.head?.map Lexeme.token = next at hrun
  cases hop : next.bind BinaryOp.ofToken? with
  | none =>
    rw [hop] at hrun
    cases hrun
    exact .inl ⟨rfl, rfl⟩
  | some op =>
    rw [hop] at hrun
    dsimp only at hrun
    split at hrun
    · obtain ⟨t, rfl, hop⟩ := Option.bind_eq_some_iff.mp hop
      obtain ⟨⟨span, c₁⟩, hadvance, hrun⟩ := Option.bind_eq_some_iff.mp hrun
      obtain ⟨⟨right, c₂⟩, hright, hrun⟩ := Option.bind_eq_some_iff.mp hrun
      obtain ⟨l, hrest, hl, -⟩ := advance_eq hnext hadvance
      exact .inr ⟨op, span, right, c₁, c₂, .plain hrest (by rw [hl, BinaryOp.sign?_eq_none hop]),
        hright, hrun⟩
    · cases hrun
      exact .inl ⟨rfl, rfl⟩

theorem operators_shows : ∀ {fuel limit : Nat} {left : Expr} {c : Cursor},
    operators fuel limit left c = some (e, c') → e.showsFunction = false →
    left.showsFunction = false
  | 0, _, _, _, hrun, _ => by cases hrun
  | fuel + 1, limit, left, c, hrun, he => by
    rcases operators_eq hrun with ⟨rfl, -⟩ | ⟨op, span, right, c₁, c₂, -, -, hrun⟩
    · exact he
    · exact (Bool.or_eq_false_iff.mp (operators_shows hrun he)).1

mutual

/-- What is read as an expression has its commas in brackets. -/
theorem expr_skips : ∀ {fuel limit : Nat} {c c' : Cursor} {e : Expr},
    expr fuel limit c = some (e, c') → e.showsFunction = false → Skips c c'
  | 0, _, _, _, _, hrun, _ => by cases hrun
  | fuel + 1, limit, c, c', e, hrun, he => by
    obtain ⟨⟨left, c₁⟩, hleft, hrun⟩ := Option.bind_eq_some_iff.mp hrun
    exact (operand_skips hleft (operators_shows hrun he)).trans (operators_skips hrun he)

theorem operators_skips : ∀ {fuel limit : Nat} {left : Expr} {c c' : Cursor} {e : Expr},
    operators fuel limit left c = some (e, c') → e.showsFunction = false → Skips c c'
  | 0, _, _, _, _, _, hrun, _ => by cases hrun
  | fuel + 1, limit, left, c, c', e, hrun, he => by
    rcases operators_eq hrun with ⟨rfl, rfl⟩ | ⟨op, span, right, c₁, c₂, hop, hright, hrun⟩
    · exact .refl c'
    · have hshows := Bool.or_eq_false_iff.mp (operators_shows hrun he)
      exact (hop.trans (expr_skips hright hshows.2)).trans (operators_skips hrun he)

theorem operand_skips : ∀ {fuel : Nat} {c c' : Cursor} {e : Expr},
    operand fuel c = some (e, c') → e.showsFunction = false → Skips c c'
  | 0, _, _, _, hrun, _ => by cases hrun
  | fuel + 1, c, c', e, hrun, he => by
    unfold operand at hrun
    rw [peek_bind] at hrun
    generalize hnext : c.rest.head?.map Lexeme.token = next at hrun
    cases hop : next.bind UnaryOp.ofToken? with
    | none =>
      rw [hop] at hrun
      exact simple_skips hrun he
    | some op =>
      rw [hop] at hrun
      obtain ⟨t, rfl, hop⟩ := Option.bind_eq_some_iff.mp hop
      obtain ⟨⟨span, c₁⟩, hadvance, hrun⟩ := Option.bind_eq_some_iff.mp hrun
      obtain ⟨⟨inner, c₂⟩, hinner, hpure⟩ := Option.bind_eq_some_iff.mp hrun
      cases hpure
      obtain ⟨l, hrest, hl, -⟩ := advance_eq hnext hadvance
      have hop : Skips c c₁ := .plain hrest (by rw [hl, UnaryOp.sign?_eq_none hop])
      exact hop.trans (expr_skips hinner he)

end

end Reader

/-- The tokens of an expression close the brackets they open. -/
theorem Reads.closed {tokens behind : List Lexeme} {e : Expr} (h : Reads tokens behind e) :
    openBehind 0 (signs tokens) = some 0 := by
  obtain ⟨fuel, stop, stop', hrun⟩ := h
  obtain ⟨-, passed, hpassed, hdepth⟩ := Reader.expr_passes hrun
  rw [signs_append] at hpassed
  rwa [List.append_cancel_right hpassed]

/-- The commas among the tokens of an expression stand in brackets. -/
theorem Reads.looseCommas_eq {tokens behind : List Lexeme} {e : Expr} (h : Reads tokens behind e)
    (he : e.showsFunction = false) : looseCommas 0 (signs tokens) = 0 := by
  obtain ⟨fuel, stop, stop', hrun⟩ := h
  obtain ⟨passed, hpassed, -, hcommas⟩ := Reader.expr_skips hrun he
  rw [signs_append] at hpassed
  rwa [List.append_cancel_right hpassed]

end LuaScope

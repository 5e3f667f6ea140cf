import LuaScope.Proofs.Dialect.Placed
import LuaScope.Proofs.Syntax.Chunk
import LuaScope.Proofs.Syntax.Passage

/-!
# LuaScope.Proofs.Dialect.Told

The features of a tree are those of its tokens, one for one and in their order: nothing but the
operator `//` gives the feature of the operator `//`, and each `//` of the text gives one.

* `Lexeme.Tell`    — these tokens tell of these features.
* `Reader.Reports` — what a reader passes over tells of the features of what it gives; here for
  single tokens and for the parts that hold no expression.
-/

namespace LuaScope

/-- Symbol of an operator, with one operand or with two, that only versions with integers have. -/
def Mark.integerSymbol? : Mark → Option String
  | .doubleSlash => some "//"
  | .ampersand => some "&"
  | .pipe => some "|"
  | .tilde => some "~"
  | .shiftLeft => some "<<"
  | .shiftRight => some ">>"
  | _ => none

/-- Does a feature start with this token? Some stand for more than one token. -/
def Token.tells : Token → Bool
  | .keyword k => k = .goto
  | .mark m => m = .doubleColon || m = .less || m.integerSymbol?.isSome
  | _ => false

namespace Lexeme

/-- The tokens tell of these features, one behind the other, and of no others. -/
inductive Tell : List Lexeme → List Feature → Prop
  | nil : Tell [] []
  | other {l ls fs} : l.token.tells = false → Tell ls fs → Tell (l :: ls) fs
  | operator {l ls fs m symbol} : l.token = .mark m → m.integerSymbol? = some symbol → Tell ls fs →
      Tell (l :: ls) (.use ⟨.integerOperator symbol, l.span⟩ :: fs)
  | less {l ls fs} : l.token = .mark .less → Tell ls fs → Tell (l :: ls) (.less l.span :: fs)
  /-- `goto name` -/
  | goto {l name ls fs text} : l.token = .keyword .goto → name.token = .name text → Tell ls fs →
      Tell (l :: name :: ls) (.use ⟨.gotoOrLabel, ⟨l.span.start, name.span.stop⟩⟩ :: fs)
  /-- `::name::` -/
  | label {l name last ls fs text} : l.token = .mark .doubleColon → name.token = .name text →
      last.token = .mark .doubleColon → Tell ls fs →
      Tell (l :: name :: last :: ls) (.use ⟨.gotoOrLabel, ⟨l.span.start, last.span.stop⟩⟩ :: fs)
  /-- `<name>` -/
  | attrib {l name last ls fs text} : l.token = .mark .less → name.token = .name text →
      last.token = .mark .greater → Tell ls fs →
      Tell (l :: name :: last :: ls) (.use ⟨.attrib, ⟨l.span.start, last.span.stop⟩⟩ :: fs)
  /-- `<name>` with an assignment right behind it. -/
  | attribAssign {l name last ls fs text} : l.token = .mark .less → name.token = .name text →
      last.token = .mark .greaterEqual → Tell ls fs →
      Tell (l :: name :: last :: ls) (.use ⟨.attrib, ⟨l.span.start, last.span.start + 1⟩⟩ :: fs)

namespace Tell

variable {l : Lexeme} {ls : List Lexeme} {fs : List Feature}

theorem of_other (h : Tell (l :: ls) fs) (hl : l.token.tells = false) : Tell ls fs := by
  cases h with
  | other _ hrest => exact hrest
  | operator hm hsymbol => rw [hm] at hl; simp [Token.tells, hsymbol] at hl
  | less hm => rw [hm] at hl; cases hl
  | goto hm => rw [hm] at hl; cases hl
  | label hm => rw [hm] at hl; cases hl
  | attrib hm => rw [hm] at hl; cases hl
  | attribAssign hm => rw [hm] at hl; cases hl

/-- A binary operator gives its own feature, if it gives one. -/
theorem binary {op : BinaryOp} (hop : BinaryOp.ofToken? l.token = some op) (h : Tell ls fs) :
    Tell (l :: ls) (Placed.features (op.placed l.span) ++ fs) := by
  unfold BinaryOp.ofToken? at hop
  split at hop
  all_goals cases hop
  all_goals
    rename_i htoken
    -- What an operator tells of is told by its token.
    first
      | exact .operator htoken rfl h
      | exact .less htoken h
      | exact .other (by rw [htoken]; rfl) h

theorem unary {op : UnaryOp} (hop : UnaryOp.ofToken? l.token = some op) (h : Tell ls fs) :
    Tell (l :: ls) (Placed.features (op.placed l.span) ++ fs) := by
  unfold UnaryOp.ofToken? at hop
  split at hop
  all_goals cases hop
  all_goals
    rename_i htoken
    first
      | exact .operator htoken rfl h
      | exact .other (by rw [htoken]; rfl) h

end Tell

end Lexeme

open Lexeme

/-! ## What readers report -/

/-- What stands between the cursors tells of these features. -/
def Cursor.Tells (c : Cursor) (new : List Feature) (c' : Cursor) : Prop :=
  ∀ fs, Tell c'.rest fs → Tell c.rest (new ++ fs)

namespace Cursor.Tells

variable {c c' c'' : Cursor} {new more : List Feature}

theorem refl (c : Cursor) : c.Tells [] c := fun _ h => h

theorem trans (h : c.Tells new c') (h' : c'.Tells more c'') : c.Tells (new ++ more) c'' := by
  intro fs hfs
  rw [List.append_assoc]
  exact h _ (h' _ hfs)

theorem other {l : Lexeme} (hrest : c.rest = l :: c'.rest) (hl : l.token.tells = false) :
    c.Tells [] c' := by
  intro fs hfs
  rw [hrest]
  exact .other hl hfs

end Cursor.Tells

namespace Reader

variable {α β : Type} {P : Cursor → Prop} {before : List Feature}

/-- Run on a cursor with `P`, where `before` was reported so far, the reader goes on to `after`. -/
def Reports (P : Cursor → Prop) (before : List Feature) (r : Reader α) (after : α → List Feature) :
    Prop :=
  ∀ c a c', P c → r c = some (a, c') → ∃ new, after a = before ++ new ∧ c.Tells new c'

namespace Reports

theorem pure {a : α} {after : α → List Feature} (h : after a = before) :
    Reports P before (Pure.pure a) after := by
  intro c a' c' _ hrun
  cases hrun
  exact ⟨[], by rw [h, List.append_nil], .refl c⟩

theorem refuse {after : α → List Feature} :
    Reports P before (Reader.refuse : Reader α) after := by
  intro c a c' _ hrun
  cases hrun

theorem bind {r : Reader α} {k : α → Reader β} {mid : α → List Feature} {after : β → List Feature}
    (hr : Reports P before r mid) (hk : ∀ a, Reports Anywhere (mid a) (k a) after) :
    Reports P before (r >>= k) after := by
  intro c b c' hc hrun
  obtain ⟨⟨a, c₁⟩, hfirst, hrest⟩ := Option.bind_eq_some_iff.mp hrun
  obtain ⟨new, hmid, htells⟩ := hr c a c₁ hc hfirst
  obtain ⟨more, hafter, htells'⟩ := hk a c₁ b c' trivial hrest
  exact ⟨new ++ more, by rw [hafter, hmid, List.append_assoc], htells.trans htells'⟩

theorem peek {k : Option Token → Reader β} {after : β → List Feature}
    (hk : ∀ t, Reports (NextIs t) before (k t) after) :
    Reports P before (Reader.peek >>= k) after := by
  intro c b c' _ hrun
  exact hk _ c b c' rfl hrun

theorem weaken {Q : Cursor → Prop} {r : Reader α} {after : α → List Feature}
    (h : Reports Q before r after) (hPQ : ∀ c, P c → Q c) : Reports P before r after :=
  fun c a c' hc => h c a c' (hPQ c hc)

theorem anywhere {r : Reader α} {after : α → List Feature} (h : Reports Anywhere before r after) :
    Reports P before r after := h.weaken fun _ _ => trivial

/-- A reader that was described from nothing, behind what was reported so far. -/
theorem behind {r : Reader α} {after : α → List Feature} (h : Reports Anywhere [] r after) :
    Reports P before r (fun a => before ++ after a) := by
  intro c a c' _ hrun
  obtain ⟨new, hafter, htells⟩ := h c a c' trivial hrun
  exact ⟨new, congrArg _ hafter, htells⟩

end Reports

/-! ### Single tokens -/

theorem stop_of_advance {c c' : Cursor} {span : Span} (hrun : advance c = some (span, c')) :
    c'.stop = span.stop := by
  unfold advance at hrun
  split at hrun <;> cases hrun
  rfl

theorem stop_of_expect {t : Token} {c c' : Cursor} {span : Span}
    (hrun : expect t c = some (span, c')) : c'.stop = span.stop := by
  unfold expect at hrun
  rw [peek_bind] at hrun
  split at hrun
  · exact stop_of_advance hrun
  · cases hrun

theorem stop_of_ident {c c' : Cursor} {name : Ident} (hrun : ident c = some (name, c')) :
    c'.stop = name.span.stop := by
  unfold ident at hrun
  rw [peek_bind] at hrun
  generalize c.rest.head?.map Lexeme.token = next at hrun
  split at hrun
  · obtain ⟨⟨span, c₁⟩, hadvance, hpure⟩ := Option.bind_eq_some_iff.mp hrun
    cases hpure
    exact stop_of_advance hadvance
  · cases hrun

/-- These two tokens are the next ones. -/
def NextTwo (t t' : Token) (c : Cursor) : Prop :=
  NextIs (some t) c ∧ c.rest.tail.head?.map Lexeme.token = some t'

theorem peekSecond_reports {t : Token} {k : Option Token → Reader β} {after : β → List Feature}
    (hk : ∀ t', Reports (NextTwo t t') before (k (some t')) after)
    (hnone : Reports (NextIs (some t)) before (k none) after) :
    Reports (NextIs (some t)) before (Reader.peekSecond >>= k) after := by
  intro c b c' hc hrun
  change k (c.rest.tail.head?.map Lexeme.token) c = some (b, c') at hrun
  cases hsecond : c.rest.tail.head?.map Lexeme.token with
  | none =>
    rw [hsecond] at hrun
    exact hnone c b c' hc hrun
  | some t' =>
    rw [hsecond] at hrun
    exact hk t' c b c' ⟨hc, hsecond⟩ hrun

theorem advance_reports {t : Token} (ht : t.tells = false) :
    Reports (NextIs (some t)) before advance (fun _ => before) := by
  intro c span c' hc hrun
  obtain ⟨l, hrest, rfl, -⟩ := advance_eq hc hrun
  exact ⟨[], (List.append_nil _).symm, .other hrest ht⟩

/-- Two tokens that were looked at are taken. -/
theorem advanceTwice_reports {t t' : Token} (ht : t.tells = false) (ht' : t'.tells = false)
    {k : Span → Reader β} {after : β → List Feature}
    (hk : ∀ span, Reports Anywhere before (k span) after) :
    Reports (NextTwo t t') before (do
      let span ← advance
      let _ ← advance
      k span) after := by
  intro c b c' hc hrun
  obtain ⟨⟨span, c₁⟩, hfirst, hrun⟩ := Option.bind_eq_some_iff.mp hrun
  obtain ⟨⟨span', c₂⟩, hsecond, hrun⟩ := Option.bind_eq_some_iff.mp hrun
  obtain ⟨l, hrest, rfl, -⟩ := advance_eq hc.1 hfirst
  have hnext : NextIs (some t') c₁ := by
    have hsecond := hc.2
    rwa [hrest] at hsecond
  obtain ⟨l', hrest', rfl, -⟩ := advance_eq hnext hsecond
  obtain ⟨new, hafter, htells⟩ := hk span c₂ b c' trivial hrun
  exact ⟨new, hafter, ((Cursor.Tells.other hrest ht).trans (.other hrest' ht')).trans htells⟩

theorem advance_binary {next : Option Token} {op : BinaryOp}
    (hop : next.bind BinaryOp.ofToken? = some op) :
    Reports (NextIs next) before advance
      (fun span => before ++ Placed.features (op.placed span)) := by
  intro c span c' hc hrun
  obtain ⟨t, rfl, ht⟩ := Option.bind_eq_some_iff.mp hop
  obtain ⟨l, hrest, rfl, rfl⟩ := advance_eq hc hrun
  refine ⟨_, rfl, fun fs hfs => ?_⟩
  rw [hrest]
  exact .binary ht hfs

theorem advance_unary {next : Option Token} {op : UnaryOp}
    (hop : next.bind UnaryOp.ofToken? = some op) :
    Reports (NextIs next) before advance
      (fun span => before ++ Placed.features (op.placed span)) := by
  intro c span c' hc hrun
  obtain ⟨t, rfl, ht⟩ := Option.bind_eq_some_iff.mp hop
  obtain ⟨l, hrest, rfl, rfl⟩ := advance_eq hc hrun
  refine ⟨_, rfl, fun fs hfs => ?_⟩
  rw [hrest]
  exact .unary ht hfs

theorem expect_reports {t : Token} (ht : t.tells = false) :
    Reports P before (expect t) (fun _ => before) := by
  intro c span c' _ hrun
  obtain ⟨l, hrest, rfl, -⟩ := expect_eq hrun
  exact ⟨[], (List.append_nil _).symm, .other hrest ht⟩

theorem accept_reports {t : Token} (ht : t.tells = false) :
    Reports P before (accept t) (fun _ => before) := by
  intro c more c' _ hrun
  refine ⟨[], (List.append_nil _).symm, ?_⟩
  rcases accept_eq hrun with ⟨-, l, hrest, rfl⟩ | ⟨-, rfl⟩
  · exact .other hrest ht
  · exact .refl _

theorem ident_reports : Reports P before ident (fun _ => before) := by
  intro c name c' _ hrun
  obtain ⟨l, hrest, htoken, -⟩ := ident_eq hrun
  exact ⟨[], (List.append_nil _).symm, .other hrest (by rw [htoken]; rfl)⟩

theorem comments_reports : Reports P before comments (fun _ => before) := by
  intro c a c' _ hrun
  unfold comments at hrun
  split at hrun <;> cases hrun <;> exact ⟨[], (List.append_nil _).symm, .refl _⟩

theorem stop_reports : Reports P before stop (fun _ => before) := by
  intro c a c' _ hrun
  cases hrun
  exact ⟨[], (List.append_nil _).symm, .refl _⟩

/-! ### The parts that hold no expression -/

/-- The three tokens tell of one feature. If the last one is `>=`, an assignment mark is left of it,
which tells of none. -/
theorem attrib_reports : Reports P before attrib
    (fun a => before ++ Placed.features (attribPlaced (some a))) := by
  intro c a c' _ hrun
  obtain ⟨⟨opening, c₁⟩, hopening, hrun⟩ := Option.bind_eq_some_iff.mp hrun
  obtain ⟨⟨name, c₂⟩, hname, hrun⟩ := Option.bind_eq_some_iff.mp hrun
  obtain ⟨⟨closing, c₃⟩, hclosing, hrun⟩ := Option.bind_eq_some_iff.mp hrun
  cases hrun
  obtain ⟨l, hrest, htoken, rfl⟩ := expect_eq hopening
  obtain ⟨l', hrest', htoken', -⟩ := ident_eq hname
  refine ⟨_, rfl, fun fs hfs => ?_⟩
  rw [hrest, hrest']
  unfold closeAttrib at hclosing
  split at hclosing
  · rename_i hlast
    cases hclosing
    rw [hlast]
    exact .attrib htoken htoken' rfl hfs
  · rename_i hlast
    cases hclosing
    rw [hlast]
    exact .attribAssign htoken htoken' rfl (hfs.of_other rfl)
  · cases hclosing

theorem attrib?_reports : Reports P before attrib?
    (fun a => before ++ Placed.features (attribPlaced a)) := by
  refine .peek fun next => ?_
  split
  · exact .bind attrib_reports fun a => .pure rfl
  · exact .pure (List.append_nil _)

theorem attributedName_reports : Reports P before attributedName
    (fun name => before ++ Placed.features (namesPlaced [name])) :=
  .bind ident_reports fun _ => .bind attrib?_reports fun _ => .pure (by simp [namesPlaced])

theorem moreAttributedNames_reports : ∀ (fuel : Nat) {P : Cursor → Prop} {before : List Feature},
    Reports P before (moreAttributedNames fuel)
      (fun names => before ++ Placed.features (namesPlaced names))
  | 0, _, _ => .refuse
  | fuel + 1, _, _ => by
    refine .bind (accept_reports rfl) fun more => ?_
    split
    · refine .bind attributedName_reports fun name => ?_
      exact .bind (moreAttributedNames_reports fuel) fun names => .pure (by simp [namesPlaced])
    · exact .pure (List.append_nil _)

theorem moreIdents_reports : ∀ (fuel : Nat) {P : Cursor → Prop} {before : List Feature},
    Reports P before (moreIdents fuel) (fun _ => before)
  | 0, _, _ => .refuse
  | fuel + 1, _, _ => by
    refine .bind (accept_reports rfl) fun more => ?_
    split
    · exact .bind ident_reports fun name => .bind (moreIdents_reports fuel) fun names => .pure rfl
    · exact .pure rfl

theorem varargParameter_reports : Reports P before varargParameter (fun _ => before) := by
  refine .bind (expect_reports rfl) fun _ => .peek fun next => ?_
  split
  · exact .bind ident_reports fun _ => .pure rfl
  · exact .pure rfl

theorem parameterEntries_reports : ∀ (fuel : Nat) {P : Cursor → Prop} {before : List Feature},
    Reports P before (parameterEntries fuel) (fun _ => before)
  | 0, _, _ => .refuse
  | fuel + 1, _, _ => by
    refine .peek fun next => ?_
    split
    · exact varargParameter_reports
    · refine .bind ident_reports fun name => .bind (accept_reports rfl) fun more => ?_
      split
      · exact .bind (parameterEntries_reports fuel) fun ps => .pure rfl
      · exact .pure rfl

theorem parameters_reports (fuel : Nat) :
    Reports P before (parameters fuel) (fun _ => before) := by
  refine .bind (expect_reports rfl) fun opening => .peek fun next => ?_
  have hclosing : ∀ entries : List Parameter, Reports Anywhere before (do
      let closing ← expectMark .rightParen
      return (⟨entries, ⟨opening.start, closing.stop⟩⟩ : Parameters)) (fun _ => before) :=
    fun entries => .bind (expect_reports rfl) fun _ => .pure rfl
  split
  · exact .bind (.pure rfl) hclosing
  · exact .bind (parameterEntries_reports fuel) hclosing

theorem dottedFields_reports : ∀ (fuel : Nat) {P : Cursor → Prop} {before : List Feature},
    Reports P before (dottedFields fuel) (fun _ => before)
  | 0, _, _ => .refuse
  | fuel + 1, _, _ => by
    refine .bind (accept_reports rfl) fun more => ?_
    split
    · exact .bind ident_reports fun name => .bind (dottedFields_reports fuel) fun names => .pure rfl
    · exact .pure rfl

theorem functionName_reports (fuel : Nat) :
    Reports P before (functionName fuel) (fun _ => before) := by
  refine .bind ident_reports fun head => .bind (dottedFields_reports fuel) fun fields => ?_
  refine .bind (accept_reports rfl) fun method => ?_
  split
  · exact .bind ident_reports fun name => .pure rfl
  · exact .pure rfl

end Reader

end LuaScope

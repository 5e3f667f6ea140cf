import LuaScope.Proofs.Call.Site

/-!
# LuaScope.Proofs.Call.Reading

What a reader passes over closes the brackets it opens, and the calls of what it reads are laid out
in the tokens.

* `Reader.Takes` — what a reader passes over and gives.
* `Reader.nesting` — each reader of expressions and statements.
* `Chunk.calls_laid` — the tokens of a chunk hold its calls.
-/

namespace LuaScope

namespace Reader

variable {α β : Type} {ls : List Lexeme} {P : Cursor → Prop} {d d' d'' : Nat}

/-- With `d` brackets open at the first cursor there are `d'` at the second one, further on. -/
structure Passes (d d' : Nat) (c c' : Cursor) : Prop where
  shorter : c'.rest.length ≤ c.rest.length
  signs : ∃ passed, signs c.rest = passed ++ signs c'.rest ∧ openBehind d passed = some d'

theorem Passes.refl (c : Cursor) : Passes d d c c := ⟨Nat.le_refl _, [], rfl, rfl⟩

theorem Passes.trans {c c' c'' : Cursor} (h : Passes d d' c c') (h' : Passes d' d'' c' c'') :
    Passes d d'' c c'' := by
  obtain ⟨hle, xs, hxs, hdepth⟩ := h
  obtain ⟨hle', ys, hys, hdepth'⟩ := h'
  refine ⟨Nat.le_trans hle' hle, xs ++ ys, by rw [hxs, hys, List.append_assoc], ?_⟩
  rw [openBehind_append, hdepth, Option.bind_some, hdepth']

theorem Passes.token {c c' : Cursor} {l : Lexeme} (hrest : c.rest = l :: c'.rest)
    (h : openBehind d l.token.sign?.toList = some d') : Passes d d' c c' := by
  refine ⟨?_, l.token.sign?.toList, ?_, h⟩
  · rw [hrest]
    exact Nat.le_succ _
  · rw [hrest, signs_cons]

/-- Of two cursors that end the text the first one holds the tokens up to the second one. -/
theorem Passes.tokens {c c' : Cursor} (h : Passes d d' c c') (hc : c.rest <:+ ls)
    (hc' : c'.rest <:+ ls) : ∃ tokens, c.rest = tokens ++ c'.rest := by
  obtain ⟨tokens, htokens⟩ := List.suffix_of_suffix_length_le hc' hc h.shorter
  exact ⟨tokens, htokens.symm⟩

theorem Passes.plain {c c' : Cursor} {l : Lexeme} (hrest : c.rest = l :: c'.rest)
    (h : l.token.sign? = none) : Passes d d c c' :=
  .token hrest (by rw [h]; rfl)

/-- Run on a cursor of the text with `P`, the reader passes from depth `d` to `d'` and answers with
`Q`. -/
def Takes (ls : List Lexeme) (P : Cursor → Prop) (d d' : Nat) (r : Reader α)
    (Q : α → Cursor → Prop) : Prop :=
  ∀ c a c', Within ls c → P c → r c = some (a, c') → Within ls c' ∧ Passes d d' c c' ∧ Q a c'

theorem Gives.takes {r : Reader α} {Q : α → Cursor → Prop} (h : Gives ls P r Q)
    (hpasses : ∀ c a c', P c → r c = some (a, c') → Passes d d' c c') : Takes ls P d d' r Q := by
  intro c a c' hc hP hrun
  obtain ⟨hc', hQ⟩ := h c a c' hc hP hrun
  exact ⟨hc', hpasses c a c' hP hrun, hQ⟩

namespace Takes

variable {Q : α → Cursor → Prop} {R : β → Cursor → Prop}

theorem pure {a : α} (h : ∀ c, P c → Q a c) : Takes ls P d d (Pure.pure a) Q := by
  intro c a' c' hc hP hrun
  cases hrun
  exact ⟨hc, .refl c, h c hP⟩

theorem refuse : Takes ls P d d' (Reader.refuse : Reader α) Q := by
  intro c a c' _ _ hrun
  cases hrun

theorem bind {r : Reader α} {k : α → Reader β} (hr : Takes ls P d d' r Q)
    (hk : ∀ a, Takes ls (Q a) d' d'' (k a) R) : Takes ls P d d'' (r >>= k) R := by
  intro c b c' hc hP hrun
  obtain ⟨⟨a, c₁⟩, hfirst, hrest⟩ := Option.bind_eq_some_iff.mp hrun
  obtain ⟨hc₁, hpasses, hQ⟩ := hr c a c₁ hc hP hfirst
  obtain ⟨hc', hpasses', hR⟩ := hk a c₁ b c' hc₁ hQ hrest
  exact ⟨hc', hpasses.trans hpasses', hR⟩

theorem anywhere {r : Reader α} (h : Takes ls Anywhere d d' r Q) : Takes ls P d d' r Q :=
  fun c a c' hc _ hrun => h c a c' hc trivial hrun

/-- Of the first reader's answer only a fact is kept. -/
theorem andThen {r : Reader α} {k : α → Reader β} {G : α → Prop}
    (hr : Takes ls P d d' r fun a _ => G a) (hk : ∀ a, G a → Takes ls Anywhere d' d'' (k a) R) :
    Takes ls P d d'' (r >>= k) R :=
  hr.bind fun a c b c' hc hG hrun => hk a hG c b c' hc trivial hrun

/-- Of the first reader's answer nothing is kept. -/
theorem after {r : Reader α} {k : α → Reader β} (hr : Takes ls P d d' r fun _ _ => True)
    (hk : ∀ a, Takes ls Anywhere d' d'' (k a) R) : Takes ls P d d'' (r >>= k) R :=
  hr.andThen fun a _ => hk a

theorem peek {k : Option Token → Reader β}
    (hk : ∀ t, Takes ls (fun c => NextIs t c ∧ P c) d d' (k t) R) :
    Takes ls P d d' (Reader.peek >>= k) R := by
  intro c b c' hc hP hrun
  exact hk _ c b c' hc ⟨rfl, hP⟩ hrun

/-- The token behind the next one is this one. -/
def SecondIs (t : Option Token) (c : Cursor) : Prop := c.rest.tail.head?.map Lexeme.token = t

theorem peekSecond {k : Option Token → Reader β}
    (hk : ∀ t, Takes ls (fun c => SecondIs t c ∧ P c) d d' (k t) R) :
    Takes ls P d d' (Reader.peekSecond >>= k) R := by
  intro c b c' hc hP hrun
  exact hk _ c b c' hc ⟨rfl, hP⟩ hrun

theorem weaken {P' : Cursor → Prop} {r : Reader α} (h : Takes ls P' d d' r Q)
    (hP : ∀ c, P c → P' c) : Takes ls P d d' r Q :=
  fun c a c' hc hPc hrun => h c a c' hc (hP c hPc) hrun

theorem forget {r : Reader α} (h : Takes ls P d d' r Q) : Takes ls P d d' r fun _ _ => True := by
  intro c a c' hc hP hrun
  obtain ⟨hc', hpasses, -⟩ := h c a c' hc hP hrun
  exact ⟨hc', hpasses, trivial⟩

end Takes

/-! ## Single tokens -/

theorem advance_takes {t : Token} (ht : openBehind d t.sign?.toList = some d') :
    Takes ls (fun c => NextIs (some t) c ∧ P c) d d' advance fun _ _ => True :=
  advance_gives.takes fun c span c' hP hrun => by
    obtain ⟨l, hrest, rfl, -⟩ := advance_eq hP.1 hrun
    exact .token hrest ht

/-- Two tokens that were looked at are taken. -/
theorem advance_second {t t' : Token} {k : Span → Reader β} {R : β → Cursor → Prop}
    (ht : t.sign? = none)
    (hk : ∀ span, Takes ls (fun c => NextIs (some t') c ∧ Anywhere c) d d' (k span) R) :
    Takes ls (fun c => Takes.SecondIs (some t') c ∧ NextIs (some t) c ∧ P c) d d' (advance >>= k)
      R := by
  intro c b c' hc hP hrun
  obtain ⟨⟨span, c₁⟩, hadvance, hrest⟩ := Option.bind_eq_some_iff.mp hrun
  obtain ⟨l, htokens, rfl, -⟩ := advance_eq hP.2.1 hadvance
  have hc₁ := (advance_gives (P := Anywhere) c span c₁ hc trivial hadvance).1
  have hsecond : NextIs (some t') c₁ := by
    have hsecond := hP.1
    rwa [Takes.SecondIs, htokens] at hsecond
  obtain ⟨hc', hpasses, hR⟩ := hk span c₁ b c' hc₁ ⟨hsecond, trivial⟩ hrest
  exact ⟨hc', (Passes.plain htokens ht).trans hpasses, hR⟩

theorem expect_takes {t : Token} (ht : openBehind d t.sign?.toList = some d') :
    Takes ls P d d' (expect t) fun _ _ => True := by
  refine .peek fun next => ?_
  split
  · rename_i hnext
    subst hnext
    exact advance_takes ht
  · exact .refuse

theorem accept_takes {t : Token} (ht : openBehind d t.sign?.toList = some d) :
    Takes ls P d d (accept t) fun _ _ => True := by
  refine .peek fun next => ?_
  split
  · rename_i hnext
    subst hnext
    exact .after (advance_takes ht) fun _ => .pure fun _ _ => trivial
  · exact .pure fun _ _ => trivial

theorem ident_takes : Takes ls P d d ident fun name c => Ends ls [name] c :=
  ident_gives.takes fun c name c' _ hrun => by
    obtain ⟨l, hrest, htoken, -⟩ := ident_eq hrun
    exact .plain hrest (by rw [htoken]; rfl)

theorem start_takes : Takes ls P d d start fun _ _ => True :=
  start_gives.takes fun c a c' _ hrun => by
    unfold start at hrun
    split at hrun <;> cases hrun
    exact .refl _

theorem comments_takes : Takes ls P d d comments fun _ _ => True :=
  comments_gives.takes fun c a c' _ hrun => by
    unfold comments at hrun
    split at hrun <;> cases hrun <;> exact .refl _

theorem stop_takes : Takes ls P d d stop fun _ _ => True :=
  stop_gives.takes fun c a c' _ hrun => by
    cases hrun
    exact .refl _

/-- What is left of a mark that is cut in two is no bracket and no comma. -/
theorem closeAttrib_takes : Takes ls P d d closeAttrib fun _ _ => True :=
  closeAttrib_gives.takes fun c a c' _ hrun => by
    unfold closeAttrib at hrun
    split at hrun
    · rename_i hrest
      cases hrun
      exact .token hrest rfl
    · rename_i hrest
      cases hrun
      refine ⟨?_, [], ?_, rfl⟩
      · rw [hrest]
        exact Nat.le_refl _
      · rw [hrest, signs_cons, signs_cons]
        rfl
    · cases hrun

/-! ## The parts that hold no expression -/

theorem attrib_takes : Takes ls P d d attrib fun _ _ => True :=
  .after (expect_takes rfl) fun _ => .after ident_takes.forget fun _ =>
    .after closeAttrib_takes fun _ => .pure fun _ _ => trivial

theorem attrib?_takes : Takes ls P d d attrib? fun _ _ => True := by
  refine .peek fun next => ?_
  split
  · exact .after attrib_takes fun _ => .pure fun _ _ => trivial
  · exact .pure fun _ _ => trivial

theorem attributedName_takes : Takes ls P d d attributedName fun _ _ => True :=
  .after ident_takes.forget fun _ => .after attrib?_takes fun _ => .pure fun _ _ => trivial

theorem moreAttributedNames_takes : ∀ (fuel : Nat) {P : Cursor → Prop},
    Takes ls P d d (moreAttributedNames fuel) fun _ _ => True
  | 0, _ => .refuse
  | fuel + 1, _ => by
    refine .after (accept_takes rfl) fun more => ?_
    split
    · refine .after attributedName_takes fun name => ?_
      exact .after (moreAttributedNames_takes fuel) fun names => .pure fun _ _ => trivial
    · exact .pure fun _ _ => trivial

theorem moreIdents_takes : ∀ (fuel : Nat) {P : Cursor → Prop},
    Takes ls P d d (moreIdents fuel) fun _ _ => True
  | 0, _ => .refuse
  | fuel + 1, _ => by
    refine .after (accept_takes rfl) fun more => ?_
    split
    · refine .after ident_takes.forget fun name => ?_
      exact .after (moreIdents_takes fuel) fun names => .pure fun _ _ => trivial
    · exact .pure fun _ _ => trivial

theorem varargParameter_takes : Takes ls P d d varargParameter fun _ _ => True := by
  refine .after (expect_takes rfl) fun _ => .peek fun next => ?_
  split
  · exact .after ident_takes.forget fun _ => .pure fun _ _ => trivial
  · exact .pure fun _ _ => trivial

theorem parameterEntries_takes : ∀ (fuel : Nat) {P : Cursor → Prop},
    Takes ls P d d (parameterEntries fuel) fun _ _ => True
  | 0, _ => .refuse
  | fuel + 1, _ => by
    refine .peek fun next => ?_
    split
    · exact varargParameter_takes
    · refine .after ident_takes.forget fun name => .after (accept_takes rfl) fun more => ?_
      split
      · exact .after (parameterEntries_takes fuel) fun rest => .pure fun _ _ => trivial
      · exact .pure fun _ _ => trivial

theorem parameters_takes (fuel : Nat) : Takes ls P d d (parameters fuel) fun _ _ => True := by
  have hclosing : ∀ (opening : Span) (entries : List Parameter), Takes ls Anywhere (d + 1) d (do
      let closing ← expectMark .rightParen
      return (⟨entries, ⟨opening.start, closing.stop⟩⟩ : Parameters)) fun _ _ => True :=
    fun opening entries => .after (expect_takes rfl) fun _ => .pure fun _ _ => trivial
  refine .after (expect_takes rfl) fun opening => .peek fun next => ?_
  split
  · exact .after (.pure fun _ _ => trivial) (hclosing opening)
  · exact .after (parameterEntries_takes fuel) (hclosing opening)

theorem dottedFields_takes : ∀ (fuel : Nat) {P : Cursor → Prop},
    Takes ls P d d (dottedFields fuel) fun _ _ => True
  | 0, _ => .refuse
  | fuel + 1, _ => by
    refine .after (accept_takes rfl) fun more => ?_
    split
    · refine .after ident_takes.forget fun name => ?_
      exact .after (dottedFields_takes fuel) fun names => .pure fun _ _ => trivial
    · exact .pure fun _ _ => trivial

theorem functionName_takes (fuel : Nat) :
    Takes ls P d d (functionName fuel) fun _ _ => True := by
  refine .after ident_takes.forget fun head => .after (dottedFields_takes fuel) fun fields => ?_
  refine .after (accept_takes rfl) fun method => ?_
  split
  · exact .after ident_takes.forget fun _ => .pure fun _ _ => trivial
  · exact .pure fun _ _ => trivial

/-! ## Calls -/

/-- What is read if the token stands next, and what if it does not. -/
theorem Takes.accept {t : Token} {k : Bool → Reader β} {R : β → Cursor → Prop}
    (ht : openBehind d t.sign?.toList = some d'') (hthere : Takes ls Anywhere d'' d' (k true) R)
    (habsent : Takes ls P d d' (k false) R) : Takes ls P d d' (Reader.accept t >>= k) R := by
  intro c b c' hc hP hrun
  obtain ⟨⟨more, c₁⟩, haccept, hrest⟩ := Option.bind_eq_some_iff.mp hrun
  have hc₁ := (accept_gives (P := Anywhere) t c more c₁ hc trivial haccept).1
  rcases accept_eq haccept with ⟨rfl, l, htokens, rfl⟩ | ⟨rfl, rfl⟩
  · obtain ⟨hc', hpasses, hR⟩ := hthere c₁ b c' hc₁ trivial hrest
    exact ⟨hc', (Passes.token htokens ht).trans hpasses, hR⟩
  · exact habsent c₁ b c' hc hP hrest

/-- A mark and a name continue the paths that were just read. -/
theorem Takes.member {paths : List Ident → Prop} {m : Mark} (hm : m = .dot ∨ m = .colon)
    {k : Ident → Reader β} {R : β → Cursor → Prop}
    (hk : ∀ key, Takes ls (fun c => ∀ path, paths path → Ends ls (path ++ [key]) c) d d' (k key) R) :
    Takes ls (fun c => NextIs (some (.mark m)) c ∧ ∀ path, paths path → Ends ls path c) d d' (do
      let _ ← advance
      let key ← ident
      k key) R := by
  intro c b c' hc hP hrun
  obtain ⟨⟨span, c₁⟩, hadvance, hbehind⟩ := Option.bind_eq_some_iff.mp hrun
  obtain ⟨⟨key, c₂⟩, hident, hrest⟩ := Option.bind_eq_some_iff.mp hbehind
  have hkey : Gives ls (fun c => NextIs (some (.mark m)) c ∧ ∀ path, paths path → Ends ls path c)
      (advance >>= fun _ => ident >>= fun key => Pure.pure key)
      fun key c => ∀ path, paths path → Ends ls (path ++ [key]) c :=
    .member hm fun key => .pure fun c h => h.2
  obtain ⟨hc₂, hends⟩ := hkey c key c₂ hc hP (Option.bind_eq_some_iff.mpr
    ⟨_, hadvance, Option.bind_eq_some_iff.mpr ⟨_, hident, rfl⟩⟩)
  obtain ⟨l, hrest₁, htoken, -⟩ := advance_eq hP.1 hadvance
  obtain ⟨l', hrest₂, htoken', -⟩ := ident_eq hident
  obtain ⟨hc', hpasses, hR⟩ := hk key c₂ b c' hc₂ hends hrest
  have hplain : (Token.mark m).sign? = none := by rcases hm with rfl | rfl <;> rfl
  have hmark : Passes d d c c₁ := .plain hrest₁ (by rw [htoken, hplain])
  have hname : Passes d d c₁ c₂ := .plain hrest₂ (by rw [htoken']; rfl)
  exact ⟨hc', (hmark.trans hname).trans hpasses, hR⟩

/-! ## Expressions and statements -/

/-- Every reader with this much fuel closes the brackets it opens, and reads calls that the tokens
hold. -/
structure Nesting (ls : List Lexeme) (fuel : Nat) : Prop where
  argued : ∀ {c es c'}, Within ls c → callArguments fuel c = some (es, c') → Argued c.rest es
  separated : ∀ {c es c'}, c.rest <:+ ls → NextIs (some (.mark .rightParen)) c' →
    exprs fuel c = some (es, c') → ∀ start, ∃ arguments, Separated start c.rest arguments es
  expr : ∀ {d} limit, Takes ls Anywhere d d (expr fuel limit) fun e _ => AllLaid ls e.calls
  operators : ∀ {d} limit left, AllLaid ls left.calls →
    Takes ls Anywhere d d (operators fuel limit left) fun e _ => AllLaid ls e.calls
  operand : ∀ {d}, Takes ls Anywhere d d (operand fuel) fun e _ => AllLaid ls e.calls
  simple : ∀ {d}, Takes ls Anywhere d d (simple fuel) fun e _ => AllLaid ls e.calls
  suffixed : ∀ {d}, Takes ls Anywhere d d (suffixed fuel) fun e _ => AllLaid ls e.calls
  suffixes : ∀ {d} base, AllLaid ls base.calls →
    Takes ls (fun c => ∀ path, base.path? = some path → Ends ls path c) d d (suffixes fuel base)
      fun e _ => AllLaid ls e.calls
  callArguments : ∀ {d}, Takes ls Anywhere d d (callArguments fuel)
    fun es _ => AllLaid ls (Expr.callsOf es)
  exprs : ∀ {d}, Takes ls Anywhere d d (exprs fuel) fun es _ => AllLaid ls (Expr.callsOf es)
  tableFields : ∀ {d}, Takes ls Anywhere d d (tableFields fuel)
    fun fields _ => AllLaid ls (Field.callsOf fields)
  fieldList : ∀ {d}, Takes ls Anywhere d d (fieldList fuel)
    fun fields _ => AllLaid ls (Field.callsOf fields)
  tableField : ∀ {d}, Takes ls Anywhere d d (tableField fuel)
    fun field _ => AllLaid ls (Field.callsOf [field])
  functionBody : ∀ {d}, Takes ls Anywhere d d (functionBody fuel)
    fun body _ => AllLaid ls body.calls
  block : ∀ {d}, Takes ls Anywhere d d (block fuel) fun block _ => AllLaid ls (Block.calls? block)
  statements : ∀ {d} first, Takes ls Anywhere d d (statements fuel first)
    fun statements _ => AllLaid ls (Statement.callsOf statements)
  statementNode : ∀ {d}, Takes ls Anywhere d d (statementNode fuel)
    fun node _ => AllLaid ls node.calls
  elseIfs : ∀ {d}, Takes ls Anywhere d d (elseIfs fuel)
    fun rest _ => AllLaid ls (ElseIf.callsOf rest)
  otherwise : ∀ {d}, Takes ls Anywhere d d (otherwise fuel)
    fun block? _ => ∀ block ∈ block?, AllLaid ls (Block.calls? block)
  forLoop : ∀ {d}, Takes ls Anywhere d d (forLoop fuel) fun node _ => AllLaid ls node.calls
  declaration : ∀ {d} reach, Takes ls Anywhere d d (declaration reach fuel)
    fun node _ => AllLaid ls node.calls
  declarationBehind : ∀ {d} reach attrib, Takes ls Anywhere d d
    (declarationBehind reach attrib fuel) fun node _ => AllLaid ls node.calls
  simpleStatement : ∀ {d}, Takes ls Anywhere d d (simpleStatement fuel)
    fun node _ => AllLaid ls node.calls
  moreTargets : ∀ {d}, Takes ls Anywhere d d (moreTargets fuel)
    fun es _ => AllLaid ls (Expr.callsOf es)

section Fuel

variable {fuel : Nat}

theorem expr_nested (ih : Nesting ls fuel) (limit : Nat) :
    Takes ls Anywhere d d (expr (fuel + 1) limit) fun e _ => AllLaid ls e.calls :=
  .andThen ih.operand fun left hleft => ih.operators limit left hleft

/-- An operator is no bracket and no comma. -/
theorem BinaryOp.sign?_eq_none {t : Token} {op : BinaryOp}
    (h : BinaryOp.ofToken? t = some op) : t.sign? = none := by
  unfold BinaryOp.ofToken? at h
  split at h <;> first | rfl | cases h

theorem UnaryOp.sign?_eq_none {t : Token} {op : UnaryOp}
    (h : UnaryOp.ofToken? t = some op) : t.sign? = none := by
  unfold UnaryOp.ofToken? at h
  split at h <;> first | rfl | cases h

theorem operators_nested (ih : Nesting ls fuel) (limit : Nat) (left : Expr)
    (hleft : AllLaid ls left.calls) :
    Takes ls Anywhere d d (operators (fuel + 1) limit left) fun e _ => AllLaid ls e.calls := by
  refine .peek fun next => ?_
  split
  · rename_i op hop
    obtain ⟨t, rfl, hop⟩ := Option.bind_eq_some_iff.mp hop
    split
    · refine .after (advance_takes (by rw [BinaryOp.sign?_eq_none hop]; rfl)) fun span => ?_
      refine .andThen (ih.expr _) fun right hright => ?_
      exact ih.operators limit (.binary _ span left right) (allLaid_append.mpr ⟨hleft, hright⟩)
    · exact .pure fun _ _ => hleft
  · exact .pure fun _ _ => hleft

theorem operand_nested (ih : Nesting ls fuel) :
    Takes ls Anywhere d d (operand (fuel + 1)) fun e _ => AllLaid ls e.calls := by
  refine .peek fun next => ?_
  split
  · rename_i op hop
    obtain ⟨t, rfl, hop⟩ := Option.bind_eq_some_iff.mp hop
    refine .after (advance_takes (by rw [UnaryOp.sign?_eq_none hop]; rfl)) fun span => ?_
    exact .andThen (ih.expr _) fun e he => .pure fun _ _ => he
  · exact ih.simple.anywhere

theorem simple_nested (ih : Nesting ls fuel) :
    Takes ls Anywhere d d (simple (fuel + 1)) fun e _ => AllLaid ls e.calls := by
  refine .peek fun next => ?_
  split
  case h_7 => exact .andThen ih.tableFields.anywhere fun fields hfields => .pure fun _ _ => hfields
  case h_8 =>
    exact .after (advance_takes rfl) fun _ => .andThen ih.functionBody fun body hbody =>
      .pure fun _ _ => hbody
  case h_9 => exact ih.suffixed.anywhere
  all_goals exact .after (advance_takes rfl) fun _ => .pure fun _ _ => allLaid_nil

theorem suffixed_nested (ih : Nesting ls fuel) :
    Takes ls Anywhere d d (suffixed (fuel + 1)) fun e _ => AllLaid ls e.calls := by
  refine .peek fun next => ?_
  split
  · rename_i text
    have hname : Takes ls (fun c => NextIs (some (.name text)) c ∧ Anywhere c) d d advance
        fun span c => Ends ls [⟨text, span⟩] c :=
      advance_name.takes fun c span c' hP hrun => by
        obtain ⟨l, hrest, htoken, -⟩ := advance_eq hP.1 hrun
        exact .plain hrest (by rw [htoken]; rfl)
    refine hname.bind fun span => (ih.suffixes _ ?_).weaken fun c hends path hpath => ?_
    · split <;> exact allLaid_nil
    · split at hpath
      · cases hpath
      · cases hpath
        exact hends
  · refine .after (advance_takes rfl) fun _ => .andThen (ih.expr 0) fun inner hinner => ?_
    refine .after (expect_takes rfl) fun _ => ?_
    exact (ih.suffixes (.paren inner) hinner).weaken fun _ _ => nofun
  · exact .refuse

/-- The arguments of a call belong to the callee in front of them. -/
theorem call_nested (ih : Nesting ls fuel) {base : Expr} (method : Option Ident)
    (hbase : AllLaid ls base.calls) :
    Takes ls (fun c => ∀ path, base.path?.map (· ++ method.toList) = some path → Ends ls path c)
      d d (do
        let arguments ← callArguments fuel
        suffixes fuel (.call base method arguments)) fun e _ => AllLaid ls e.calls := by
  intro c e c' hc hends hrun
  obtain ⟨⟨arguments, c₁⟩, harguments, hrest⟩ := Option.bind_eq_some_iff.mp hrun
  obtain ⟨hc₁, hpasses, hlaid⟩ := ih.callArguments (d := d) c arguments c₁ hc trivial harguments
  have hcall : Laid ls ⟨base, method, arguments⟩ := by
    intro path hpath
    obtain ⟨used, hspells, hsuffix⟩ := hends path hpath
    exact ⟨used, c.rest, hspells, hsuffix, ih.argued hc harguments⟩
  obtain ⟨hc', hpasses', he⟩ := ih.suffixes (d := d) (.call base method arguments)
    (allLaid_cons.mpr ⟨hcall, allLaid_append.mpr ⟨hbase, hlaid⟩⟩) c₁ e c' hc₁ nofun hrest
  exact ⟨hc', hpasses.trans hpasses', he⟩

theorem suffixes_nested (ih : Nesting ls fuel) (base : Expr) (hbase : AllLaid ls base.calls) :
    Takes ls (fun c => ∀ path, base.path? = some path → Ends ls path c) d d
      (suffixes (fuel + 1) base) fun e _ => AllLaid ls e.calls := by
  have hplain : ∀ {P : Cursor → Prop}, Takes ls
      (fun c => P c ∧ ∀ path, base.path? = some path → Ends ls path c) d d (do
        let arguments ← callArguments fuel
        suffixes fuel (.call base none arguments)) fun e _ => AllLaid ls e.calls :=
    (call_nested ih none hbase).weaken fun c hP path hpath => by
      simp only [Option.toList_none, List.append_nil, Option.map_id_fun', id] at hpath
      exact hP.2 path hpath
  refine .peek fun next => ?_
  split
  · refine .member (.inl rfl) fun key => (ih.suffixes (.field base key) hbase).weaken ?_
    intro c hends path hpath
    obtain ⟨front, hfront, rfl⟩ := Option.map_eq_some_iff.mp hpath
    exact hends front hfront
  · refine .after (advance_takes rfl) fun _ => .andThen (ih.expr 0) fun key hkey => ?_
    refine .after (expect_takes rfl) fun _ => ?_
    exact (ih.suffixes (.subscript base key) (allLaid_append.mpr ⟨hbase, hkey⟩)).weaken
      fun _ _ => nofun
  · refine .member (.inr rfl) fun method => (call_nested ih (some method) hbase).weaken ?_
    intro c hends path hpath
    obtain ⟨front, hfront, rfl⟩ := Option.map_eq_some_iff.mp hpath
    exact hends front hfront
  · exact hplain
  · exact hplain
  · exact hplain
  · exact .pure fun _ _ => hbase

theorem callArguments_nested (ih : Nesting ls fuel) :
    Takes ls Anywhere d d (callArguments (fuel + 1)) fun es _ => AllLaid ls (Expr.callsOf es) := by
  refine .peek fun next => ?_
  split
  · refine .after (advance_takes rfl) fun _ => .accept rfl (.pure fun _ _ => allLaid_nil) ?_
    refine .andThen ih.exprs fun arguments harguments => ?_
    exact .after (expect_takes rfl) fun _ => .pure fun _ _ => harguments
  · refine .andThen ih.tableFields.anywhere fun fields hfields => .pure fun _ _ => ?_
    exact allLaid_append.mpr ⟨hfields, allLaid_nil⟩
  · exact .after (advance_takes rfl) fun _ => .pure fun _ _ =>
      allLaid_append.mpr ⟨allLaid_nil, allLaid_nil⟩
  · exact .refuse

/-- By the token that stands first, as the reader does. -/
theorem argued_nested (ih : Nesting ls fuel) {c c' : Cursor} {es : List Expr} (hc : Within ls c)
    (hrun : callArguments (fuel + 1) c = some (es, c')) : Argued c.rest es := by
  unfold callArguments at hrun
  rw [peek_bind] at hrun
  generalize hnext : c.rest.head?.map Lexeme.token = next at hrun
  split at hrun
  · obtain ⟨⟨span, c₁⟩, hadvance, hinner⟩ := Option.bind_eq_some_iff.mp hrun
    obtain ⟨opening, hrest, hopening, -⟩ := advance_eq hnext hadvance
    obtain ⟨⟨more, c₂⟩, haccept, hsome⟩ := Option.bind_eq_some_iff.mp hinner
    rcases accept_eq haccept with ⟨rfl, closing, hrest', hclosing⟩ | ⟨rfl, rfl⟩
    · cases hsome
      rw [hrest, hrest']
      exact .none hopening hclosing
    · obtain ⟨⟨arguments, c₃⟩, hexprs, hclosed⟩ := Option.bind_eq_some_iff.mp hsome
      obtain ⟨⟨span', c₄⟩, hexpect, hpure⟩ := Option.bind_eq_some_iff.mp hclosed
      cases hpure
      obtain ⟨closing, hrest', hclosing, -⟩ := expect_eq hexpect
      have hsuffix := hc.suffix hrest (by rw [hopening]; nofun)
      have hclosed : NextIs (some (.mark .rightParen)) c₃ := by
        rw [NextIs, hrest', List.head?_cons, Option.map_some, hclosing]
      obtain ⟨arguments, hseparated⟩ :=
        ih.separated ((List.suffix_cons _ _).trans hsuffix) hclosed hexprs opening.span.stop
      rw [hrest]
      exact .separated hopening hseparated
  · obtain ⟨l, hl, htoken⟩ := Option.map_eq_some_iff.mp hnext
    obtain ⟨rest, hrest⟩ := List.head?_eq_some_iff.mp hl
    rw [hrest]
    exact .bare (.inl htoken)
  · obtain ⟨l, hl, htoken⟩ := Option.map_eq_some_iff.mp hnext
    obtain ⟨rest, hrest⟩ := List.head?_eq_some_iff.mp hl
    rw [hrest]
    exact .bare (.inr ⟨_, htoken⟩)
  · cases hrun

theorem exprs_nested (ih : Nesting ls fuel) :
    Takes ls Anywhere d d (exprs (fuel + 1)) fun es _ => AllLaid ls (Expr.callsOf es) := by
  refine .andThen (ih.expr 0) fun first hfirst => .after (accept_takes rfl) fun more => ?_
  split
  · exact .andThen ih.exprs fun rest hrest => .pure fun _ _ => allLaid_append.mpr ⟨hfirst, hrest⟩
  · exact .pure fun _ _ => allLaid_append.mpr ⟨hfirst, allLaid_nil⟩

/-- The tokens of an argument are those in front of the mark that is read next. -/
theorem separated_nested (ih : Nesting ls fuel) {c c' : Cursor} {es : List Expr}
    (hc : c.rest <:+ ls) (hnext : NextIs (some (.mark .rightParen)) c')
    (hrun : exprs (fuel + 1) c = some (es, c')) (start : Nat) :
    ∃ arguments, Separated start c.rest arguments es := by
  unfold exprs at hrun
  obtain ⟨⟨first, c₁⟩, hfirst, hbehind⟩ := Option.bind_eq_some_iff.mp hrun
  obtain ⟨⟨more, c₂⟩, haccept, hothers⟩ := Option.bind_eq_some_iff.mp hbehind
  obtain ⟨hc₁, hpasses, -⟩ := ih.expr (d := 0) 0 c first c₁ (.inl hc) trivial hfirst
  have hreads : ∀ {tokens behind}, c.rest = tokens ++ behind → c₁.rest = behind →
      Reads tokens behind first := by
    rintro tokens _ htokens rfl
    exact ⟨fuel, c.stop, c₁.stop, by rw [← htokens]; exact hfirst⟩
  rcases accept_eq haccept with ⟨rfl, comma, hrest, hcomma⟩ | ⟨rfl, rfl⟩
  · obtain ⟨⟨others, c₃⟩, hexprs, hpure⟩ := Option.bind_eq_some_iff.mp hothers
    cases hpure
    have hsuffix := hc₁.suffix hrest (by rw [hcomma]; nofun)
    obtain ⟨tokens, htokens⟩ := hpasses.tokens hc (by rw [hrest]; exact hsuffix)
    obtain ⟨arguments, hseparated⟩ :=
      ih.separated ((List.suffix_cons _ _).trans hsuffix) hnext hexprs comma.span.stop
    rw [hrest] at htokens
    have hfirst := hreads htokens hrest
    rw [htokens]
    exact ⟨_, .more hfirst hcomma hseparated⟩
  · cases hothers
    obtain ⟨closing, hl, hclosing⟩ := Option.map_eq_some_iff.mp hnext
    obtain ⟨behind, hrest⟩ := List.head?_eq_some_iff.mp hl
    have hsuffix := hc₁.suffix hrest (by rw [hclosing]; nofun)
    obtain ⟨tokens, htokens⟩ := hpasses.tokens hc (by rw [hrest]; exact hsuffix)
    rw [hrest] at htokens
    have hfirst := hreads htokens hrest
    rw [htokens]
    exact ⟨_, .last hfirst hclosing⟩

theorem tableFields_nested (ih : Nesting ls fuel) :
    Takes ls Anywhere d d (tableFields (fuel + 1))
      fun fields _ => AllLaid ls (Field.callsOf fields) :=
  .after (expect_takes rfl) fun _ => .andThen ih.fieldList fun _ hfields =>
    .after (expect_takes rfl) fun _ => .pure fun _ _ => hfields

/-- The calls of the first field stand in front of those of the others. -/
theorem allLaid_fields {first : Field} {rest : List Field}
    (hfirst : AllLaid ls (Field.callsOf [first])) (hrest : AllLaid ls (Field.callsOf rest)) :
    AllLaid ls (Field.callsOf (first :: rest)) := by
  cases first <;> simp only [Field.callsOf, allLaid_append] at hfirst ⊢ <;>
    simp only [hfirst, hrest, and_self]

theorem fieldList_nested (ih : Nesting ls fuel) :
    Takes ls Anywhere d d (fieldList (fuel + 1))
      fun fields _ => AllLaid ls (Field.callsOf fields) := by
  refine .peek fun next => ?_
  split
  · exact .pure fun _ _ => allLaid_nil
  · refine .andThen ih.tableField.anywhere fun first hfirst => ?_
    refine .after (accept_takes rfl) fun comma => .after (accept_takes rfl) fun semicolon => ?_
    split
    · exact .andThen ih.fieldList fun rest hrest => .pure fun _ _ => allLaid_fields hfirst hrest
    · exact .pure fun _ _ => hfirst

theorem tableField_nested (ih : Nesting ls fuel) :
    Takes ls Anywhere d d (tableField (fuel + 1))
      fun field _ => AllLaid ls (Field.callsOf [field]) := by
  have hpositional : ∀ {P}, Takes ls P d d (do return Field.positional (← expr fuel 0))
      fun field _ => AllLaid ls (Field.callsOf [field]) := fun {P} =>
    .andThen (ih.expr 0).anywhere fun value hvalue => .pure fun _ _ =>
      allLaid_append.mpr ⟨hvalue, allLaid_nil⟩
  refine .after comments_takes fun leading => .peek fun next => ?_
  split
  · refine .after (advance_takes rfl) fun _ => .andThen (ih.expr 0) fun key hkey => ?_
    refine .after (expect_takes rfl) fun _ => .after (expect_takes rfl) fun _ => ?_
    exact .andThen (ih.expr 0) fun value hvalue => .pure fun _ _ =>
      allLaid_append.mpr ⟨hkey, allLaid_append.mpr ⟨hvalue, allLaid_nil⟩⟩
  · rename_i text
    refine .peekSecond fun second => ?_
    split
    · rename_i hsecond
      subst hsecond
      refine advance_second rfl fun span => .after (advance_takes rfl) fun _ => ?_
      refine .andThen (ih.expr 0) fun value hvalue => ?_
      have hparts := allLaid_append.mpr ⟨hvalue, allLaid_nil⟩
      split
      · exact .pure fun _ _ => hparts
      · exact .after stop_takes fun _ => .pure fun _ _ => hparts
    · exact hpositional
  · exact hpositional

theorem functionBody_nested (ih : Nesting ls fuel) :
    Takes ls Anywhere d d (functionBody (fuel + 1)) fun body _ => AllLaid ls body.calls :=
  .after (parameters_takes fuel) fun _ => .andThen ih.block fun _ hblock =>
    .after (expect_takes rfl) fun _ => .pure fun _ _ => hblock

theorem block_nested (ih : Nesting ls fuel) :
    Takes ls Anywhere d d (block (fuel + 1)) fun block _ => AllLaid ls (Block.calls? block) := by
  refine .andThen (ih.statements true) fun statements hstatements => ?_
  split
  · exact .pure fun _ _ => allLaid_nil
  · exact .after stop_takes fun _ => .pure fun _ _ => hstatements

theorem statements_nested (ih : Nesting ls fuel) (first : Bool) :
    Takes ls Anywhere d d (statements (fuel + 1) first)
      fun statements _ => AllLaid ls (Statement.callsOf statements) := by
  have hrest : ∀ {P} (leading : List Comment) (token : Token), Takes ls P d d (do
      let start ← start
      let node ← statementNode fuel
      let statement := Statement.mk leading ⟨start, ← stop⟩ node
      if token = .keyword .return then return [statement]
      else return statement :: (← statements fuel false))
      fun statements _ => AllLaid ls (Statement.callsOf statements) := by
    intro P leading token
    refine .after start_takes fun start => .andThen ih.statementNode fun node hnode => ?_
    refine .after stop_takes fun stop => ?_
    split
    · exact .pure fun _ _ => allLaid_append.mpr ⟨hnode, allLaid_nil⟩
    · exact .andThen (ih.statements false) fun rest hrest => .pure fun _ _ =>
        allLaid_append.mpr ⟨hnode, hrest⟩
  refine .peek fun next => ?_
  split
  · exact .pure fun _ _ => allLaid_nil
  · split
    · exact .pure fun _ _ => allLaid_nil
    · cases first with
      | true => exact .after (.pure fun _ _ => trivial) fun leading => hrest leading _
      | false => exact .after comments_takes fun leading => hrest leading _

theorem elseIfs_nested (ih : Nesting ls fuel) :
    Takes ls Anywhere d d (elseIfs (fuel + 1)) fun rest _ => AllLaid ls (ElseIf.callsOf rest) := by
  refine .after (accept_takes rfl) fun more => ?_
  split
  · refine .andThen (ih.expr 0) fun condition hcondition => .after (expect_takes rfl) fun _ => ?_
    refine .andThen ih.block fun body hbody => .andThen ih.elseIfs fun rest hrest => ?_
    exact .pure fun _ _ => allLaid_append.mpr ⟨hcondition, allLaid_append.mpr ⟨hbody, hrest⟩⟩
  · exact .pure fun _ _ => allLaid_nil

theorem otherwise_nested (ih : Nesting ls fuel) :
    Takes ls Anywhere d d (otherwise (fuel + 1))
      fun block? _ => ∀ block ∈ block?, AllLaid ls (Block.calls? block) := by
  refine .after (accept_takes rfl) fun more => ?_
  split
  · refine .andThen ih.block fun body hbody => .pure fun _ _ body' hmem => ?_
    cases hmem
    exact hbody
  · exact .pure fun _ _ => nofun

theorem forLoop_nested (ih : Nesting ls fuel) :
    Takes ls Anywhere d d (forLoop (fuel + 1)) fun node _ => AllLaid ls node.calls := by
  refine .after ident_takes.forget fun counter => .after (accept_takes rfl) fun numeric => ?_
  split
  · refine .andThen (ih.expr 0) fun start hstart => .after (expect_takes rfl) fun _ => ?_
    refine .andThen (ih.expr 0) fun limit hlimit => .after (accept_takes rfl) fun stepped => ?_
    have hbody : ∀ step : Option Expr, (∀ e ∈ step, AllLaid ls e.calls) →
        Takes ls Anywhere d d (do
          let _ ← expectKeyword .do
          let body ← block fuel
          let _ ← expectKeyword .end
          return StatementNode.numericFor counter start limit step body)
        fun node _ => AllLaid ls node.calls := by
      intro step hstep
      refine .after (expect_takes rfl) fun _ => .andThen ih.block fun body hbody => ?_
      refine .after (expect_takes rfl) fun _ => .pure fun _ _ => ?_
      cases step with
      | none => exact allLaid_append.mpr ⟨hstart, allLaid_append.mpr ⟨hlimit, hbody⟩⟩
      | some e =>
        exact allLaid_append.mpr ⟨hstart, allLaid_append.mpr ⟨hlimit,
          allLaid_append.mpr ⟨hstep e rfl, hbody⟩⟩⟩
    split
    · refine .andThen (ih.expr 0) fun step hstep => hbody (some step) fun e he => ?_
      cases he
      exact hstep
    · refine .andThen ?_ hbody
      exact .pure fun _ _ => nofun
  · refine .after (moreIdents_takes fuel) fun names => .after (expect_takes rfl) fun _ => ?_
    refine .andThen ih.exprs fun values hvalues => .after (expect_takes rfl) fun _ => ?_
    refine .andThen ih.block fun body hbody => .after (expect_takes rfl) fun _ => ?_
    exact .pure fun _ _ => allLaid_append.mpr ⟨hvalues, hbody⟩

theorem declaration_nested (ih : Nesting ls fuel) (reach : NameReach) :
    Takes ls Anywhere d d (declaration reach (fuel + 1)) fun node _ => AllLaid ls node.calls :=
  .after attrib?_takes fun attrib => ih.declarationBehind reach attrib

theorem declarationBehind_nested (ih : Nesting ls fuel) (reach : NameReach)
    (attrib : Option (Ident × Span)) :
    Takes ls Anywhere d d (declarationBehind reach attrib (fuel + 1))
      fun node _ => AllLaid ls node.calls := by
  refine .after attributedName_takes fun first => ?_
  refine .after (moreAttributedNames_takes fuel) fun names => ?_
  refine .after (accept_takes rfl) fun valued => ?_
  split
  · exact .andThen ih.exprs fun values hvalues => .pure fun _ _ => hvalues
  · exact .pure fun _ _ => allLaid_nil

theorem simpleStatement_nested (ih : Nesting ls fuel) :
    Takes ls Anywhere d d (simpleStatement (fuel + 1)) fun node _ => AllLaid ls node.calls := by
  refine .andThen ih.suffixed fun first hfirst => ?_
  split
  · refine .andThen ih.moreTargets fun targets htargets => .after (expect_takes rfl) fun _ => ?_
    exact .andThen ih.exprs fun values hvalues => .pure fun _ _ =>
      allLaid_append.mpr ⟨allLaid_append.mpr ⟨hfirst, htargets⟩, hvalues⟩
  · split
    · exact .pure fun _ _ => hfirst
    · exact .refuse

theorem moreTargets_nested (ih : Nesting ls fuel) :
    Takes ls Anywhere d d (moreTargets (fuel + 1)) fun es _ => AllLaid ls (Expr.callsOf es) := by
  refine .after (accept_takes rfl) fun more => ?_
  split
  · refine .andThen ih.suffixed fun target htarget => ?_
    split
    · exact .andThen ih.moreTargets fun rest hrest => .pure fun _ _ =>
        allLaid_append.mpr ⟨htarget, hrest⟩
    · exact .refuse
  · exact .pure fun _ _ => allLaid_nil

/-- By the token that stands first, as the reader does. -/
theorem statementNode_nested (ih : Nesting ls fuel) :
    Takes ls Anywhere d d (statementNode (fuel + 1)) fun node _ => AllLaid ls node.calls := by
  have hfunction : ∀ {P} (reach : FunctionReach) (name : FunctionName), Takes ls P d d
      (do return StatementNode.function reach name (← functionBody fuel))
      fun node _ => AllLaid ls node.calls := fun reach name =>
    .andThen ih.functionBody.anywhere fun body hbody => .pure fun _ _ => hbody
  refine .peek fun next => ?_
  split
  · exact .after (advance_takes rfl) fun _ => .pure fun _ _ => allLaid_nil
  · refine .after (advance_takes rfl) fun _ => .after ident_takes.forget fun _ => ?_
    exact .after (expect_takes rfl) fun _ => .pure fun _ _ => allLaid_nil
  · exact .after (advance_takes rfl) fun _ => .pure fun _ _ => allLaid_nil
  · refine .after (advance_takes rfl) fun _ => .after ident_takes.forget fun _ => ?_
    exact .pure fun _ _ => allLaid_nil
  · refine .after (advance_takes rfl) fun _ => .andThen ih.block fun body hbody => ?_
    exact .after (expect_takes rfl) fun _ => .pure fun _ _ => hbody
  · refine .after (advance_takes rfl) fun _ => .andThen (ih.expr 0) fun condition hcondition => ?_
    refine .after (expect_takes rfl) fun _ => .andThen ih.block fun body hbody => ?_
    exact .after (expect_takes rfl) fun _ => .pure fun _ _ =>
      allLaid_append.mpr ⟨hcondition, hbody⟩
  · refine .after (advance_takes rfl) fun _ => .andThen ih.block fun body hbody => ?_
    refine .after (expect_takes rfl) fun _ => .andThen (ih.expr 0) fun condition hcondition => ?_
    exact .pure fun _ _ => allLaid_append.mpr ⟨hbody, hcondition⟩
  · refine .after (advance_takes rfl) fun _ => .andThen (ih.expr 0) fun condition hcondition => ?_
    refine .after (expect_takes rfl) fun _ => .andThen ih.block fun body hbody => ?_
    refine .andThen ih.elseIfs fun rest hrest => .andThen ih.otherwise fun otherwise hotherwise => ?_
    refine .after (expect_takes rfl) fun _ => .pure fun _ _ => ?_
    cases otherwise with
    | none => exact allLaid_append.mpr ⟨hcondition, allLaid_append.mpr ⟨hbody, hrest⟩⟩
    | some block =>
      exact allLaid_append.mpr ⟨hcondition, allLaid_append.mpr ⟨hbody,
        allLaid_append.mpr ⟨hrest, hotherwise block rfl⟩⟩⟩
  · exact .after (advance_takes rfl) fun _ => ih.forLoop
  · refine .after (advance_takes rfl) fun _ => .after (functionName_takes fuel) fun name => ?_
    exact hfunction .named name
  · refine .after (advance_takes rfl) fun _ => .after (accept_takes rfl) fun isFunction => ?_
    split
    · exact .after ident_takes.forget fun name => hfunction .local ⟨name, [], none⟩
    · exact ih.declaration .local
  · have hdone : ∀ values : Option (List Expr),
        (∀ es ∈ values, AllLaid ls (Expr.callsOf es)) → Takes ls Anywhere d d (do
          let _ ← acceptMark .semicolon
          return StatementNode.return values) fun node _ => AllLaid ls node.calls := by
      intro values hvalues
      refine .after (accept_takes rfl) fun _ => .pure fun _ _ => ?_
      cases values with
      | none => exact allLaid_nil
      | some es => exact hvalues es rfl
    refine .after (advance_takes rfl) fun _ => .peek fun next => ?_
    split
    · refine .andThen ih.exprs.anywhere fun values hvalues => hdone (some values) fun es hes => ?_
      cases hes
      exact hvalues
    · refine .andThen ?_ hdone
      exact .pure fun _ _ => nofun
  · refine .peekSecond fun second => ?_
    split
    · refine advance_second rfl fun _ => .after (advance_takes rfl) fun _ => ?_
      exact .after ident_takes.forget fun name => hfunction .global ⟨name, [], none⟩
    · refine advance_second rfl fun _ => .after (advance_takes rfl) fun _ => ?_
      exact .pure fun _ _ => allLaid_nil
    · refine advance_second rfl fun _ => .after attrib_takes fun attrib => ?_
      refine .after (accept_takes rfl) fun all => ?_
      split
      · exact .pure fun _ _ => allLaid_nil
      · exact ih.declarationBehind .global (some attrib)
    · exact advance_second rfl fun _ => (ih.declaration .global).anywhere
    · exact ih.simpleStatement.anywhere
  · exact ih.simpleStatement.anywhere

end Fuel

theorem nesting (ls : List Lexeme) : ∀ fuel, Nesting ls fuel
  | 0 => by
    constructor
    case argued => exact fun _ hrun => by cases hrun
    case separated => exact fun _ _ hrun => by cases hrun
    all_goals
      intros
      exact .refuse
  | fuel + 1 =>
    have ih := nesting ls fuel
    { argued := argued_nested ih
      separated := separated_nested ih
      expr := expr_nested ih
      operators := operators_nested ih
      operand := operand_nested ih
      simple := simple_nested ih
      suffixed := suffixed_nested ih
      suffixes := suffixes_nested ih
      callArguments := callArguments_nested ih
      exprs := exprs_nested ih
      tableFields := tableFields_nested ih
      fieldList := fieldList_nested ih
      tableField := tableField_nested ih
      functionBody := functionBody_nested ih
      block := block_nested ih
      statements := statements_nested ih
      statementNode := statementNode_nested ih
      elseIfs := elseIfs_nested ih
      otherwise := otherwise_nested ih
      forLoop := forLoop_nested ih
      declaration := declaration_nested ih
      declarationBehind := declarationBehind_nested ih
      simpleStatement := simpleStatement_nested ih
      moreTargets := moreTargets_nested ih }

end Reader

/-- The tokens of a chunk hold its calls. -/
theorem Chunk.calls_laid {ls : List Lexeme} {chunk : Chunk}
    (h : Chunk.ofLexemes? ls = some chunk) : ∀ call ∈ chunk.calls, Laid ls call := by
  obtain ⟨stop, hrun⟩ := Chunk.ofLexemes?_eq_some_iff.mp h
  exact ((Reader.nesting ls _).statements (d := 0) false _ _ _ (.inl (behindShebang_suffix ls))
    trivial hrun).2.2

end LuaScope

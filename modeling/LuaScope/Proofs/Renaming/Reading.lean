import LuaScope.Proofs.Renaming.Tree
import LuaScope.Proofs.Syntax.Chunk

/-!
# LuaScope.Proofs.Renaming.Reading

Reading a chunk from renamed tokens gives the renamed tree.

* `Renaming.Tracks`  — what a reader does on the renamed tokens, given what it did on the old ones.
* `Renaming.ofLexemes?_map` — so the renamed tokens have a tree if the old ones have, the renamed
  one.
-/

namespace LuaScope

namespace Renaming

variable (ρ : Renaming)

/-- The token that stands afterwards where this one stood at `start`. -/
def token (start : Nat) : Token → Token
  | .name text => .name (ρ.nameAt start text)
  | t => t

def lexeme (l : Lexeme) : Lexeme :=
  ⟨ρ.token l.span.start l.token, ρ.span l.span, l.comments.map ρ.comment⟩

def cursor (c : Cursor) : Cursor := ⟨c.rest.map ρ.lexeme, ρ.shift c.stop⟩

/-- The readers treat this token afterwards as they did before: the word `global` stays that word
and no other becomes it, and nothing moves inside of `>=`, which an attribute may cut in two. -/
structure Keeps (l : Lexeme) : Prop where
  global : ∀ text, l.token = .name text →
    (ρ.nameAt l.span.start text = "global" ↔ text = "global")
  inside : l.token = .mark .greaterEqual → ρ.shift (l.span.start + 1) = ρ.shift l.span.start + 1

/-- What a look at the next token shows before and afterwards. -/
inductive Shows : Option Token → Option Token → Prop
  | same (t : Option Token) (h : ∀ text, t ≠ some (.name text)) : Shows t t
  | name (text text' : String) (h : text' = "global" ↔ text = "global") :
    Shows (some (.name text)) (some (.name text'))

/-- The next token before and afterwards. -/
def Next (t t' : Option Token) (c : Cursor) : Prop :=
  c.rest.head?.map Lexeme.token = t ∧ (ρ.cursor c).rest.head?.map Lexeme.token = t'

variable {ρ} {α β : Type} {P : Cursor → Prop}

def Anywhere (_ : Cursor) : Prop := True

/--
Where `r` has a result on a cursor with `P`, `r'` has the result that `f` gives from it on the
renamed cursor, and the rest of the tokens is the renamed rest.
-/
def Tracks (ρ : Renaming) (P : Cursor → Prop) (r r' : Reader α) (f : α → α) : Prop :=
  ∀ c a c', P c → (∀ l ∈ c.rest, ρ.Keeps l) → r c = some (a, c') →
    r' (ρ.cursor c) = some (f a, ρ.cursor c') ∧ ∀ l ∈ c'.rest, ρ.Keeps l

/-- A reader that gives on the renamed tokens what `f` makes of its result. -/
abbrev Commutes (ρ : Renaming) (P : Cursor → Prop) (r : Reader α) (f : α → α) : Prop :=
  ρ.Tracks P r r f

namespace Tracks

theorem pure {f : α → α} {a a' : α} (h : f a = a') :
    ρ.Tracks P (Pure.pure a) (Pure.pure a') f := by
  intro c _ _ _ hkeeps hrun
  cases hrun
  exact ⟨by rw [h]; rfl, hkeeps⟩

theorem refuse {r' : Reader α} {f : α → α} : ρ.Tracks P Reader.refuse r' f := by
  intro c a c' _ _ hrun
  cases hrun

theorem bind {r r' : Reader α} {k k' : α → Reader β} {f : α → α} {g : β → β}
    (hr : ρ.Tracks P r r' f) (hk : ∀ a, ρ.Tracks Anywhere (k a) (k' (f a)) g) :
    ρ.Tracks P (r >>= k) (r' >>= k') g := by
  intro c b c' hc hkeeps hrun
  obtain ⟨⟨a, c₁⟩, hfirst, hrest⟩ := Option.bind_eq_some_iff.mp hrun
  obtain ⟨hfirst', hkeeps'⟩ := hr c a c₁ hc hkeeps hfirst
  obtain ⟨hrest', hkeeps''⟩ := hk a c₁ b c' trivial hkeeps' hrest
  exact ⟨Option.bind_eq_some_iff.mpr ⟨_, hfirst', hrest'⟩, hkeeps''⟩

theorem anywhere {r r' : Reader α} {f : α → α} (h : ρ.Tracks Anywhere r r' f) :
    ρ.Tracks P r r' f := fun c a c' _ => h c a c' trivial

end Tracks

theorem shows_head {ls : List Lexeme} (h : ∀ l ∈ ls, ρ.Keeps l) :
    Shows (ls.head?.map Lexeme.token) ((ls.map ρ.lexeme).head?.map Lexeme.token) := by
  cases ls with
  | nil => exact .same none nofun
  | cons l rest =>
    have hkeeps := h l List.mem_cons_self
    obtain ⟨t, span, comments⟩ := l
    cases t with
    | name text => exact .name _ _ (hkeeps.global text rfl)
    | _ => exact .same _ nofun

namespace Tracks

theorem peek {k k' : Option Token → Reader β} {g : β → β}
    (hk : ∀ t t', Shows t t' → ρ.Tracks (ρ.Next t t') (k t) (k' t') g) :
    ρ.Tracks P (Reader.peek >>= k) (Reader.peek >>= k') g := by
  intro c b c' _ hkeeps hrun
  exact hk _ _ (shows_head hkeeps) c b c' ⟨rfl, rfl⟩ hkeeps hrun

theorem peekSecond {k k' : Option Token → Reader β} {g : β → β}
    (hk : ∀ t t', Shows t t' → ρ.Tracks P (k t) (k' t') g) :
    ρ.Tracks P (Reader.peekSecond >>= k) (Reader.peekSecond >>= k') g := by
  intro c b c' hc hkeeps hrun
  have htail : ∀ l ∈ c.rest.tail, ρ.Keeps l := fun l hl => hkeeps l (List.mem_of_mem_tail hl)
  have hshows := shows_head htail
  rw [List.map_tail] at hshows
  exact hk _ _ hshows c b c' hc hkeeps hrun

end Tracks

/-! ## Single tokens -/

theorem advance_tracks : ρ.Commutes P Reader.advance ρ.span := by
  intro c span c' _ hkeeps hrun
  obtain ⟨rest, stop⟩ := c
  cases rest with
  | nil => cases hrun
  | cons l rest =>
    cases hrun
    exact ⟨rfl, fun l' hl' => hkeeps l' (List.mem_cons_of_mem _ hl')⟩

/-- The span of a name says how it reads afterwards. -/
theorem advance_name {text text' : String} {k k' : Span → Reader β} {g : β → β}
    (hk : ∀ span, text' = ρ.nameAt span.start text →
      ρ.Tracks Anywhere (k span) (k' (ρ.span span)) g) :
    ρ.Tracks (ρ.Next (some (.name text)) (some (.name text'))) (Reader.advance >>= k)
      (Reader.advance >>= k') g := by
  intro c b c' hnext hkeeps hrun
  obtain ⟨rest, stop⟩ := c
  cases rest with
  | nil => cases hrun
  | cons l rest =>
    obtain ⟨t, span, comments⟩ := l
    obtain ⟨hbefore, hafter⟩ := hnext
    cases hbefore
    cases hafter
    exact hk span rfl _ b c' trivial (fun l' hl' => hkeeps l' (List.mem_cons_of_mem _ hl')) hrun

theorem ident_tracks : ρ.Commutes P Reader.ident ρ.ident := by
  refine .peek fun t t' hshows => ?_
  cases hshows with
  | same _ hother =>
    split
    · exact absurd rfl (hother _)
    · exact .refuse
  | name text text' _ =>
    refine advance_name fun span htext => .pure ?_
    rw [htext]
    rfl

theorem expect_tracks {t : Token} (ht : ∀ text, t ≠ .name text) :
    ρ.Commutes P (Reader.expect t) ρ.span := by
  refine .peek fun next next' hshows => ?_
  cases hshows with
  | same _ _ =>
    split
    · exact advance_tracks
    · exact .refuse
  | name text text' _ =>
    rw [if_neg (by simpa using (ht text).symm)]
    exact .refuse

theorem accept_tracks {t : Token} (ht : ∀ text, t ≠ .name text) :
    ρ.Commutes P (Reader.accept t) id := by
  refine .peek fun next next' hshows => ?_
  cases hshows with
  | same _ _ =>
    split
    · exact .bind advance_tracks fun _ => .pure rfl
    · exact .pure rfl
  | name text text' _ =>
    rw [if_neg (by simpa using (ht text).symm), if_neg (by simpa using (ht text').symm)]
    exact .pure rfl

theorem start_tracks : ρ.Commutes P Reader.start ρ.shift := by
  intro c a c' _ hkeeps hrun
  obtain ⟨rest, stop⟩ := c
  cases rest with
  | nil => cases hrun
  | cons l rest =>
    cases hrun
    exact ⟨rfl, hkeeps⟩

theorem comments_tracks : ρ.Commutes P Reader.comments (List.map ρ.comment) := by
  intro c a c' _ hkeeps hrun
  obtain ⟨rest, stop⟩ := c
  cases rest <;> cases hrun <;> exact ⟨rfl, hkeeps⟩

theorem stop_tracks : ρ.Commutes P Reader.stop ρ.shift := by
  intro c a c' _ hkeeps hrun
  cases hrun
  exact ⟨rfl, hkeeps⟩

theorem closeAttrib_tracks : ρ.Commutes P Reader.closeAttrib ρ.shift := by
  intro c a c' hc hkeeps hrun
  clear hc
  obtain ⟨rest, stop⟩ := c
  unfold Reader.closeAttrib at hrun
  dsimp only at hrun
  split at hrun
  · cases hrun
    exact ⟨rfl, fun l' hl' => hkeeps l' (List.mem_cons_of_mem _ hl')⟩
  · rename_i span comments rest
    cases hrun
    have hinside := (hkeeps _ List.mem_cons_self).inside rfl
    dsimp only at hinside
    refine ⟨?_, List.forall_mem_cons.mpr ⟨⟨nofun, nofun⟩, fun l' hl' =>
      hkeeps l' (List.mem_cons_of_mem _ hl')⟩⟩
    simp only [cursor, List.map_cons, lexeme, token, Reader.closeAttrib, Renaming.span, hinside,
      List.map_nil]
  · cases hrun

/-! ## The parts that hold no expression -/

theorem attrib_tracks : ρ.Commutes P Reader.attrib ρ.attrib :=
  .bind (expect_tracks nofun) fun _ => .bind ident_tracks fun _ =>
    .bind closeAttrib_tracks fun _ => .pure rfl

theorem attrib?_tracks : ρ.Commutes P Reader.attrib? (Option.map ρ.attrib) := by
  refine .peek fun next next' hshows => ?_
  cases hshows with
  | same _ _ =>
    split
    · exact .bind attrib_tracks fun _ => .pure rfl
    · exact .pure rfl
  | name _ _ _ => exact .pure rfl

theorem attributedName_tracks :
    ρ.Commutes P Reader.attributedName ρ.attributed :=
  .bind ident_tracks fun _ => .bind attrib?_tracks fun _ => .pure rfl

theorem moreAttributedNames_tracks : ∀ (fuel : Nat) {P : Cursor → Prop},
    ρ.Commutes P (Reader.moreAttributedNames fuel) (List.map ρ.attributed)
  | 0, _ => .refuse
  | fuel + 1, _ => by
    refine .bind (accept_tracks nofun) fun more => ?_
    cases more with
    | true =>
      refine .bind attributedName_tracks fun name => ?_
      exact .bind (moreAttributedNames_tracks fuel) fun names => .pure rfl
    | false => exact .pure rfl

theorem moreIdents_tracks : ∀ (fuel : Nat) {P : Cursor → Prop},
    ρ.Commutes P (Reader.moreIdents fuel) (List.map ρ.ident)
  | 0, _ => .refuse
  | fuel + 1, _ => by
    refine .bind (accept_tracks nofun) fun more => ?_
    cases more with
    | true =>
      refine .bind ident_tracks fun name => ?_
      exact .bind (moreIdents_tracks fuel) fun names => .pure rfl
    | false => exact .pure rfl

theorem varargParameter_tracks :
    ρ.Commutes P Reader.varargParameter (List.map ρ.parameter) := by
  refine .bind (expect_tracks nofun) fun _ => .peek fun next next' hshows => ?_
  cases hshows with
  | same _ _ =>
    split
    · exact .bind ident_tracks fun _ => .pure rfl
    · exact .pure rfl
  | name _ _ _ => exact .bind ident_tracks fun _ => .pure rfl

theorem parameterEntries_tracks : ∀ (fuel : Nat) {P : Cursor → Prop},
    ρ.Commutes P (Reader.parameterEntries fuel) (List.map ρ.parameter)
  | 0, _ => .refuse
  | fuel + 1, _ => by
    have hnamed : ∀ {P}, ρ.Commutes P (do
        let name ← Reader.ident
        if ← Reader.acceptMark .comma then
          return Parameter.name name :: (← Reader.parameterEntries fuel)
        else return [.name name]) (List.map ρ.parameter) := by
      intro P
      refine .bind ident_tracks fun name => .bind (accept_tracks nofun) fun more => ?_
      cases more with
      | true => exact .bind (parameterEntries_tracks fuel) fun ps => .pure rfl
      | false => exact .pure rfl
    refine .peek fun next next' hshows => ?_
    cases hshows with
    | same _ _ =>
      split
      · exact varargParameter_tracks
      · exact hnamed
    | name _ _ _ => exact hnamed

theorem parameters_tracks (fuel : Nat) :
    ρ.Commutes P (Reader.parameters fuel) ρ.parameters := by
  refine .bind (expect_tracks nofun) fun opening => ?_
  have hclosing : ∀ entries : List Parameter, ρ.Tracks Anywhere
      (do
        let closing ← Reader.expectMark .rightParen
        return (⟨entries, ⟨opening.start, closing.stop⟩⟩ : Parameters))
      (do
        let closing ← Reader.expectMark .rightParen
        return ⟨entries.map ρ.parameter, ⟨(ρ.span opening).start, closing.stop⟩⟩)
      ρ.parameters :=
    fun entries => .bind (expect_tracks nofun) fun _ => .pure rfl
  refine .peek fun next next' hshows => ?_
  cases hshows with
  | same _ _ =>
    split
    · exact .bind (.pure rfl) hclosing
    · exact .bind (parameterEntries_tracks fuel) hclosing
  | name _ _ _ => exact .bind (parameterEntries_tracks fuel) hclosing

theorem dottedFields_tracks : ∀ (fuel : Nat) {P : Cursor → Prop},
    ρ.Commutes P (Reader.dottedFields fuel) (List.map ρ.ident)
  | 0, _ => .refuse
  | fuel + 1, _ => by
    refine .bind (accept_tracks nofun) fun more => ?_
    cases more with
    | true =>
      refine .bind ident_tracks fun name => ?_
      exact .bind (dottedFields_tracks fuel) fun names => .pure rfl
    | false => exact .pure rfl

theorem functionName_tracks (fuel : Nat) :
    ρ.Commutes P (Reader.functionName fuel) ρ.functionName := by
  refine .bind ident_tracks fun head => .bind (dottedFields_tracks fuel) fun fields => ?_
  refine .bind (accept_tracks nofun) fun method => ?_
  cases method with
  | true => exact .bind ident_tracks fun name => .pure rfl
  | false => exact .pure rfl

/-! ## Expressions and statements -/

/-- Every reader with this much fuel reads the renamed tokens as it read the old ones. -/
structure Reading (ρ : Renaming) (fuel : Nat) : Prop where
  expr : ∀ limit, ρ.Commutes Anywhere (Reader.expr fuel limit) ρ.expr
  operators : ∀ limit left, ρ.Tracks Anywhere (Reader.operators fuel limit left)
    (Reader.operators fuel limit (ρ.expr left)) ρ.expr
  operand : ρ.Commutes Anywhere (Reader.operand fuel) ρ.expr
  simple : ρ.Commutes Anywhere (Reader.simple fuel) ρ.expr
  suffixed : ρ.Commutes Anywhere (Reader.suffixed fuel) ρ.expr
  suffixes : ∀ base, ρ.Tracks Anywhere (Reader.suffixes fuel base)
    (Reader.suffixes fuel (ρ.expr base)) ρ.expr
  callArguments : ρ.Commutes Anywhere (Reader.callArguments fuel) ρ.exprs
  exprs : ρ.Commutes Anywhere (Reader.exprs fuel) ρ.exprs
  tableFields : ρ.Commutes Anywhere (Reader.tableFields fuel) ρ.fields
  fieldList : ρ.Commutes Anywhere (Reader.fieldList fuel) ρ.fields
  tableField : ρ.Commutes Anywhere (Reader.tableField fuel) ρ.field
  functionBody : ρ.Commutes Anywhere (Reader.functionBody fuel) ρ.functionBody
  block : ρ.Commutes Anywhere (Reader.block fuel) ρ.block
  statements : ∀ first, ρ.Commutes Anywhere (Reader.statements fuel first) ρ.statements
  statementNode : ρ.Commutes Anywhere (Reader.statementNode fuel) ρ.statement
  elseIfs : ρ.Commutes Anywhere (Reader.elseIfs fuel) ρ.elseIfs
  otherwise : ρ.Commutes Anywhere (Reader.otherwise fuel) (Option.map ρ.block)
  forLoop : ρ.Commutes Anywhere (Reader.forLoop fuel) ρ.statement
  declaration : ∀ reach, ρ.Commutes Anywhere (Reader.declaration reach fuel) ρ.statement
  declarationBehind : ∀ reach attrib, ρ.Tracks Anywhere
    (Reader.declarationBehind reach attrib fuel)
    (Reader.declarationBehind reach (attrib.map ρ.attrib) fuel) ρ.statement
  simpleStatement : ρ.Commutes Anywhere (Reader.simpleStatement fuel) ρ.statement
  moreTargets : ρ.Commutes Anywhere (Reader.moreTargets fuel) ρ.exprs

section Fuel

variable {fuel : Nat}

theorem expr_tracks (ih : ρ.Reading fuel) (limit : Nat) :
    ρ.Commutes Anywhere (Reader.expr (fuel + 1) limit) ρ.expr :=
  .bind ih.operand fun left => ih.operators limit left

theorem operators_tracks (ih : ρ.Reading fuel) (limit : Nat) (left : Expr) :
    ρ.Tracks Anywhere (Reader.operators (fuel + 1) limit left)
      (Reader.operators (fuel + 1) limit (ρ.expr left)) ρ.expr := by
  refine .peek fun next next' hshows => ?_
  cases hshows with
  | same _ _ =>
    split
    · split
      · refine .bind advance_tracks fun span => .bind (ih.expr _) fun right => ?_
        exact ih.operators limit (.binary _ span left right)
      · exact .pure rfl
    · exact .pure rfl
  | name _ _ _ => exact .pure rfl

theorem operand_tracks (ih : ρ.Reading fuel) :
    ρ.Commutes Anywhere (Reader.operand (fuel + 1)) ρ.expr := by
  refine .peek fun next next' hshows => ?_
  cases hshows with
  | same _ _ =>
    split
    · exact .bind advance_tracks fun span => .bind (ih.expr _) fun e => .pure rfl
    · exact ih.simple.anywhere
  | name _ _ _ => exact ih.simple.anywhere

theorem simple_tracks (ih : ρ.Reading fuel) :
    ρ.Commutes Anywhere (Reader.simple (fuel + 1)) ρ.expr := by
  refine .peek fun next next' hshows => ?_
  cases hshows with
  | same _ _ =>
    split
    case h_7 => exact .bind ih.tableFields.anywhere fun fields => .pure rfl
    case h_8 => exact .bind advance_tracks fun _ => .bind ih.functionBody fun body => .pure rfl
    case h_9 => exact ih.suffixed.anywhere
    all_goals exact .bind advance_tracks fun _ => .pure rfl
  | name _ _ _ => exact ih.suffixed.anywhere

theorem suffixed_tracks (ih : ρ.Reading fuel) :
    ρ.Commutes Anywhere (Reader.suffixed (fuel + 1)) ρ.expr := by
  refine .peek fun next next' hshows => ?_
  cases hshows with
  | same _ hother =>
    split
    · exact absurd rfl (hother _)
    · refine .bind advance_tracks fun _ => .bind (ih.expr 0) fun inner => ?_
      exact .bind (expect_tracks nofun) fun _ => ih.suffixes (.paren inner)
    · exact .refuse
  | name text text' hglobal =>
    refine advance_name fun span htext => ?_
    have hbase : (if text' = "global" then Expr.global else .name ⟨text', ρ.span span⟩) =
        ρ.expr (if text = "global" then .global else .name ⟨text, span⟩) := by
      by_cases h : text = "global"
      · rw [if_pos h, if_pos (hglobal.mpr h)]
        rfl
      · rw [if_neg h, if_neg fun h' => h (hglobal.mp h'), htext]
        rfl
    rw [hbase]
    exact ih.suffixes _

theorem suffixes_tracks (ih : ρ.Reading fuel) (base : Expr) :
    ρ.Tracks Anywhere (Reader.suffixes (fuel + 1) base)
      (Reader.suffixes (fuel + 1) (ρ.expr base)) ρ.expr := by
  have hcall : ∀ {P} method, ρ.Tracks P
      (do
        let arguments ← Reader.callArguments fuel
        Reader.suffixes fuel (.call base method arguments))
      (do
        let arguments ← Reader.callArguments fuel
        Reader.suffixes fuel (.call (ρ.expr base) (method.map ρ.ident) arguments)) ρ.expr :=
    fun method => .bind ih.callArguments.anywhere fun arguments =>
      ih.suffixes (.call base method arguments)
  refine .peek fun next next' hshows => ?_
  cases hshows with
  | same _ _ =>
    split
    · refine .bind advance_tracks fun _ => .bind ident_tracks fun key => ?_
      exact ih.suffixes (.field base key)
    · refine .bind advance_tracks fun _ => .bind (ih.expr 0) fun key => ?_
      exact .bind (expect_tracks nofun) fun _ => ih.suffixes (.subscript base key)
    · refine .bind advance_tracks fun _ => .bind ident_tracks fun method => ?_
      exact hcall (some method)
    · exact hcall none
    · exact hcall none
    · exact hcall none
    · exact .pure rfl
  | name _ _ _ => exact .pure rfl

theorem callArguments_tracks (ih : ρ.Reading fuel) :
    ρ.Commutes Anywhere (Reader.callArguments (fuel + 1)) ρ.exprs := by
  refine .peek fun next next' hshows => ?_
  cases hshows with
  | same _ _ =>
    split
    · refine .bind advance_tracks fun _ => .bind (accept_tracks nofun) fun empty => ?_
      cases empty with
      | true => exact .pure rfl
      | false =>
        exact .bind ih.exprs fun arguments => .bind (expect_tracks nofun) fun _ => .pure rfl
    · exact .bind ih.tableFields.anywhere fun fields => .pure rfl
    · exact .bind advance_tracks fun _ => .pure rfl
    · exact .refuse
  | name _ _ _ => exact .refuse

theorem exprs_tracks (ih : ρ.Reading fuel) :
    ρ.Commutes Anywhere (Reader.exprs (fuel + 1)) ρ.exprs := by
  refine .bind (ih.expr 0) fun first => .bind (accept_tracks nofun) fun more => ?_
  cases more with
  | true => exact .bind ih.exprs fun rest => .pure rfl
  | false => exact .pure rfl

theorem tableFields_tracks (ih : ρ.Reading fuel) :
    ρ.Commutes Anywhere (Reader.tableFields (fuel + 1)) ρ.fields :=
  .bind (expect_tracks nofun) fun _ => .bind ih.fieldList fun _ =>
    .bind (expect_tracks nofun) fun _ => .pure rfl

theorem fieldList_tracks (ih : ρ.Reading fuel) :
    ρ.Commutes Anywhere (Reader.fieldList (fuel + 1)) ρ.fields := by
  have hmore : ∀ {P}, ρ.Commutes P (do
      let first ← Reader.tableField fuel
      if (← Reader.acceptMark .comma) || (← Reader.acceptMark .semicolon) then
        return first :: (← Reader.fieldList fuel)
      else return [first]) ρ.fields := by
    intro P
    refine .bind ih.tableField.anywhere fun first => ?_
    refine .bind (accept_tracks nofun) fun comma => .bind (accept_tracks nofun) fun semicolon => ?_
    dsimp only [id]
    split
    · exact .bind ih.fieldList fun rest => .pure (ρ.fields_cons first rest)
    · exact .pure (ρ.fields_cons first [])
  refine .peek fun next next' hshows => ?_
  cases hshows with
  | same _ _ =>
    split
    · exact .pure rfl
    · exact hmore
  | name _ _ _ => exact hmore

theorem tableField_tracks (ih : ρ.Reading fuel) :
    ρ.Commutes Anywhere (Reader.tableField (fuel + 1)) ρ.field := by
  have hpositional : ∀ {P}, ρ.Commutes P (do
      return Field.positional (← Reader.expr fuel 0)) ρ.field := fun {P} =>
    .bind (ih.expr 0).anywhere fun value => .pure rfl
  refine .bind comments_tracks fun leading => .peek fun next next' hshows => ?_
  cases hshows with
  | same _ hother =>
    split
    · refine .bind advance_tracks fun _ => .bind (ih.expr 0) fun key => ?_
      refine .bind (expect_tracks nofun) fun _ => .bind (expect_tracks nofun) fun _ => ?_
      exact .bind (ih.expr 0) fun value => .pure rfl
    · exact absurd rfl (hother _)
    · exact hpositional
  | name text text' hglobal =>
    refine .peekSecond fun second second' hshows => ?_
    cases hshows with
    | same _ _ =>
      split
      · refine advance_name fun span htext => .bind advance_tracks fun _ => ?_
        refine .bind (ih.expr 0) fun value => ?_
        by_cases h : text = "global"
        · rw [if_pos h, if_pos (hglobal.mpr h)]
          exact .pure rfl
        · rw [if_neg h, if_neg fun h' => h (hglobal.mp h'), htext]
          exact .bind stop_tracks fun stop => .pure rfl
      · exact hpositional
    | name _ _ _ => exact hpositional

theorem functionBody_tracks (ih : ρ.Reading fuel) :
    ρ.Commutes Anywhere (Reader.functionBody (fuel + 1)) ρ.functionBody :=
  .bind (parameters_tracks fuel) fun _ => .bind ih.block fun _ =>
    .bind (expect_tracks nofun) fun _ => .pure rfl

theorem block_tracks (ih : ρ.Reading fuel) :
    ρ.Commutes Anywhere (Reader.block (fuel + 1)) ρ.block := by
  refine .bind (ih.statements true) fun statements => ?_
  cases statements with
  | nil => exact .pure rfl
  | cons first rest =>
    obtain ⟨comments, span, node⟩ := first
    exact .bind stop_tracks fun _ => .pure rfl

theorem elseIfs_tracks (ih : ρ.Reading fuel) :
    ρ.Commutes Anywhere (Reader.elseIfs (fuel + 1)) ρ.elseIfs := by
  refine .bind (accept_tracks nofun) fun more => ?_
  cases more with
  | true =>
    refine .bind (ih.expr 0) fun condition => .bind (expect_tracks nofun) fun _ => ?_
    exact .bind ih.block fun body => .bind ih.elseIfs fun rest => .pure rfl
  | false => exact .pure rfl

theorem otherwise_tracks (ih : ρ.Reading fuel) :
    ρ.Commutes Anywhere (Reader.otherwise (fuel + 1)) (Option.map ρ.block) := by
  refine .bind (accept_tracks nofun) fun more => ?_
  cases more with
  | true => exact .bind ih.block fun block => .pure rfl
  | false => exact .pure rfl

theorem statements_tracks (ih : ρ.Reading fuel) (first : Bool) :
    ρ.Commutes Anywhere (Reader.statements (fuel + 1) first) ρ.statements := by
  have hrest : ∀ {P} (leading : List Comment) (token token' : Token),
      (token = .keyword .return ↔ token' = .keyword .return) → ρ.Tracks P
      (do
        let start ← Reader.start
        let node ← Reader.statementNode fuel
        let statement := Statement.mk leading ⟨start, ← Reader.stop⟩ node
        if token = .keyword .return then return [statement]
        else return statement :: (← Reader.statements fuel false))
      (do
        let start ← Reader.start
        let node ← Reader.statementNode fuel
        let statement := Statement.mk (leading.map ρ.comment) ⟨start, ← Reader.stop⟩ node
        if token' = .keyword .return then return [statement]
        else return statement :: (← Reader.statements fuel false)) ρ.statements := by
    intro P leading token token' htoken
    refine .bind start_tracks fun start => .bind ih.statementNode fun node => ?_
    refine .bind stop_tracks fun stop => ?_
    by_cases h : token = .keyword .return
    · simp only [if_pos h, if_pos (htoken.mp h)]
      exact .pure rfl
    · simp only [if_neg h, if_neg fun h' => h (htoken.mpr h')]
      exact .bind (ih.statements false) fun rest => .pure rfl
  have hstatement : ∀ {P} (token token' : Token),
      (token = .keyword .return ↔ token' = .keyword .return) → ρ.Tracks P
      (do
        let leading ← if first then pure [] else Reader.comments
        let start ← Reader.start
        let node ← Reader.statementNode fuel
        let statement := Statement.mk leading ⟨start, ← Reader.stop⟩ node
        if token = .keyword .return then return [statement]
        else return statement :: (← Reader.statements fuel false))
      (do
        let leading ← if first then pure [] else Reader.comments
        let start ← Reader.start
        let node ← Reader.statementNode fuel
        let statement := Statement.mk leading ⟨start, ← Reader.stop⟩ node
        if token' = .keyword .return then return [statement]
        else return statement :: (← Reader.statements fuel false)) ρ.statements := by
    intro P token token' htoken
    cases first with
    | true => exact hrest [] token token' htoken
    | false => exact .bind comments_tracks fun leading => hrest leading token token' htoken
  refine .peek fun next next' hshows => ?_
  cases hshows with
  | same _ _ =>
    split
    · exact .pure rfl
    · split
      · exact .pure rfl
      · exact hstatement _ _ .rfl
  | name text text' _ => exact hstatement (.name text) (.name text') (by simp)

theorem forLoop_tracks (ih : ρ.Reading fuel) :
    ρ.Commutes Anywhere (Reader.forLoop (fuel + 1)) ρ.statement := by
  refine .bind ident_tracks fun counter => .bind (accept_tracks nofun) fun numeric => ?_
  cases numeric with
  | true =>
    refine .bind (ih.expr 0) fun start => .bind (expect_tracks nofun) fun _ => ?_
    refine .bind (ih.expr 0) fun limit => .bind (accept_tracks nofun) fun stepped => ?_
    have hbody : ∀ step : Option Expr, ρ.Tracks Anywhere
        (do
          let _ ← Reader.expectKeyword .do
          let body ← Reader.block fuel
          let _ ← Reader.expectKeyword .end
          return StatementNode.numericFor counter start limit step body)
        (do
          let _ ← Reader.expectKeyword .do
          let body ← Reader.block fuel
          let _ ← Reader.expectKeyword .end
          return .numericFor (ρ.ident counter) (ρ.expr start) (ρ.expr limit) (step.map ρ.expr) body)
        ρ.statement := by
      intro step
      refine .bind (expect_tracks nofun) fun _ => .bind ih.block fun body => ?_
      refine .bind (expect_tracks nofun) fun _ => .pure ?_
      cases step <;> rfl
    cases stepped with
    | true => exact .bind (ih.expr 0) fun step => hbody (some step)
    | false => exact .bind (.pure rfl) hbody
  | false =>
    refine .bind (moreIdents_tracks fuel) fun names => .bind (expect_tracks nofun) fun _ => ?_
    refine .bind ih.exprs fun values => .bind (expect_tracks nofun) fun _ => ?_
    exact .bind ih.block fun body => .bind (expect_tracks nofun) fun _ => .pure rfl

theorem declaration_tracks (ih : ρ.Reading fuel) (reach : NameReach) :
    ρ.Commutes Anywhere (Reader.declaration reach (fuel + 1)) ρ.statement :=
  .bind attrib?_tracks fun attrib => ih.declarationBehind reach attrib

theorem declarationBehind_tracks (ih : ρ.Reading fuel) (reach : NameReach)
    (attrib : Option (Ident × Span)) :
    ρ.Tracks Anywhere (Reader.declarationBehind reach attrib (fuel + 1))
      (Reader.declarationBehind reach (attrib.map ρ.attrib) (fuel + 1)) ρ.statement := by
  refine .bind attributedName_tracks fun first => ?_
  refine .bind (moreAttributedNames_tracks fuel) fun names => ?_
  refine .bind (accept_tracks nofun) fun valued => ?_
  cases valued with
  | true => exact .bind ih.exprs fun values => .pure rfl
  | false => exact .pure rfl

theorem isAssignable_expr (e : Expr) : (ρ.expr e).isAssignable = e.isAssignable := by
  cases e <;> simp only [expr, Expr.isAssignable]

theorem simpleStatement_tracks (ih : ρ.Reading fuel) :
    ρ.Commutes Anywhere (Reader.simpleStatement (fuel + 1)) ρ.statement := by
  refine .bind ih.suffixed fun first => ?_
  rw [isAssignable_expr]
  split
  · refine .bind ih.moreTargets fun targets => .bind (expect_tracks nofun) fun _ => ?_
    exact .bind ih.exprs fun values => .pure rfl
  · split
    · exact .pure rfl
    · exact .refuse

theorem moreTargets_tracks (ih : ρ.Reading fuel) :
    ρ.Commutes Anywhere (Reader.moreTargets (fuel + 1)) ρ.exprs := by
  refine .bind (accept_tracks nofun) fun more => ?_
  cases more with
  | true =>
    refine .bind ih.suffixed fun target => ?_
    rw [isAssignable_expr]
    split
    · exact .bind ih.moreTargets fun rest => .pure rfl
    · exact .refuse
  | false => exact .pure rfl

/-- By the token that stands first, as the reader does. -/
theorem statementNode_tracks (ih : ρ.Reading fuel) :
    ρ.Commutes Anywhere (Reader.statementNode (fuel + 1)) ρ.statement := by
  have hnamed : ∀ (reach : FunctionReach), ρ.Commutes Anywhere (do
      let name ← Reader.ident
      return .function reach ⟨name, [], none⟩ (← Reader.functionBody fuel)) ρ.statement :=
    fun reach => .bind ident_tracks fun name => .bind ih.functionBody fun body => .pure rfl
  refine .peek fun next next' hshows => ?_
  cases hshows with
  | same _ hother =>
    split
    · exact .bind advance_tracks fun _ => .pure rfl
    · refine .bind advance_tracks fun _ => .bind ident_tracks fun _ => ?_
      exact .bind (expect_tracks nofun) fun _ => .pure rfl
    · exact .bind advance_tracks fun _ => .pure rfl
    · exact .bind advance_tracks fun _ => .bind ident_tracks fun _ => .pure rfl
    · refine .bind advance_tracks fun _ => .bind ih.block fun body => ?_
      exact .bind (expect_tracks nofun) fun _ => .pure rfl
    · refine .bind advance_tracks fun _ => .bind (ih.expr 0) fun condition => ?_
      refine .bind (expect_tracks nofun) fun _ => .bind ih.block fun body => ?_
      exact .bind (expect_tracks nofun) fun _ => .pure rfl
    · refine .bind advance_tracks fun _ => .bind ih.block fun body => ?_
      refine .bind (expect_tracks nofun) fun _ => .bind (ih.expr 0) fun condition => ?_
      exact .pure rfl
    · refine .bind advance_tracks fun _ => .bind (ih.expr 0) fun condition => ?_
      refine .bind (expect_tracks nofun) fun _ => .bind ih.block fun body => ?_
      refine .bind ih.elseIfs fun rest => .bind ih.otherwise fun otherwise => ?_
      refine .bind (expect_tracks nofun) fun _ => .pure ?_
      cases otherwise <;> rfl
    · exact .bind advance_tracks fun _ => ih.forLoop
    · refine .bind advance_tracks fun _ => .bind (functionName_tracks fuel) fun name => ?_
      exact .bind ih.functionBody fun body => .pure rfl
    · refine .bind advance_tracks fun _ => .bind (accept_tracks nofun) fun isFunction => ?_
      cases isFunction with
      | true => exact hnamed .local
      | false => exact ih.declaration .local
    · have hdone : ∀ values : Option (List Expr), ρ.Tracks Anywhere
          (do
            let _ ← Reader.acceptMark .semicolon
            return StatementNode.return values)
          (do
            let _ ← Reader.acceptMark .semicolon
            return .return (values.map ρ.exprs)) ρ.statement := by
        intro values
        refine .bind (accept_tracks nofun) fun _ => .pure ?_
        cases values <;> rfl
      refine .bind advance_tracks fun _ => .peek fun next next' hshows => ?_
      cases hshows with
      | same _ _ =>
        split
        · exact .bind ih.exprs.anywhere fun values => hdone (some values)
        · exact .bind (.pure rfl) hdone
      | name _ _ _ => exact .bind ih.exprs.anywhere fun values => hdone (some values)
    · exact absurd rfl (hother _)
    · exact ih.simpleStatement.anywhere
  | name text text' hglobal =>
    by_cases h : text = "global"
    · obtain rfl := h
      obtain rfl := hglobal.mpr rfl
      refine .peekSecond fun second second' hshows => ?_
      cases hshows with
      | same _ hother =>
        split
        · exact .bind advance_tracks fun _ => .bind advance_tracks fun _ => hnamed .global
        · exact .bind advance_tracks fun _ => .bind advance_tracks fun _ => .pure rfl
        · refine .bind advance_tracks fun _ => .bind attrib_tracks fun attrib => ?_
          refine .bind (accept_tracks nofun) fun all => ?_
          cases all with
          | true => exact .pure rfl
          | false => exact ih.declarationBehind .global (some attrib)
        · exact absurd rfl (hother _)
        · exact ih.simpleStatement.anywhere
      | name _ _ _ => exact .bind advance_tracks fun _ => ih.declaration .global
    · have h' : text' ≠ "global" := fun h' => h (hglobal.mp h')
      -- The other tokens that begin a statement are no names.
      split
      case h_13 heq => exact absurd (by simpa using heq) h
      case h_14 =>
        split
        case h_13 heq => exact absurd (by simpa using heq) h'
        case h_14 => exact ih.simpleStatement.anywhere
        all_goals rename_i heq; cases heq
      all_goals rename_i heq; cases heq

end Fuel

theorem reading : ∀ fuel, ρ.Reading fuel
  | 0 => by constructor <;> intros <;> exact .refuse
  | fuel + 1 =>
    have ih := reading fuel
    { expr := expr_tracks ih
      operators := operators_tracks ih
      operand := operand_tracks ih
      simple := simple_tracks ih
      suffixed := suffixed_tracks ih
      suffixes := suffixes_tracks ih
      callArguments := callArguments_tracks ih
      exprs := exprs_tracks ih
      tableFields := tableFields_tracks ih
      fieldList := fieldList_tracks ih
      tableField := tableField_tracks ih
      functionBody := functionBody_tracks ih
      block := block_tracks ih
      statements := statements_tracks ih
      statementNode := statementNode_tracks ih
      elseIfs := elseIfs_tracks ih
      otherwise := otherwise_tracks ih
      forLoop := forLoop_tracks ih
      declaration := declaration_tracks ih
      declarationBehind := declarationBehind_tracks ih
      simpleStatement := simpleStatement_tracks ih
      moreTargets := moreTargets_tracks ih }

theorem shift_zero (ρ : Renaming) : ρ.shift 0 = 0 := by
  simp [shift]

theorem behindShebang_map (ls : List Lexeme) :
    behindShebang (ls.map ρ.lexeme) = (behindShebang ls).map ρ.lexeme := by
  cases ls with
  | nil => rfl
  | cons l rest =>
    obtain ⟨t, span, comments⟩ := l
    cases t <;> simp [behindShebang, lexeme, token]

/-- The renamed tokens of a chunk are those of the renamed chunk. -/
theorem ofLexemes?_map {ls : List Lexeme} {chunk : Chunk} (hkeeps : ∀ l ∈ ls, ρ.Keeps l)
    (h : Chunk.ofLexemes? ls = some chunk) :
    Chunk.ofLexemes? (ls.map ρ.lexeme) = some (ρ.chunk chunk) := by
  obtain ⟨stop, hread⟩ := Chunk.ofLexemes?_eq_some_iff.mp h
  have hread' := ((reading (ρ := ρ) _).statements false _ _ _ trivial
    (fun l hl => hkeeps l ((behindShebang_suffix ls).subset hl)) hread).1
  rw [cursor, shift_zero, ← behindShebang_map] at hread'
  refine Chunk.ofLexemes?_eq_some_iff.mpr ⟨ρ.shift stop, ?_⟩
  rw [List.length_map]
  exact hread'

end Renaming

end LuaScope

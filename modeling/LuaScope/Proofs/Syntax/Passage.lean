import LuaScope.Proofs.Syntax.Order

/-!
# LuaScope.Proofs.Syntax.Passage

The dotted paths of a tree, and how the text spells them.

* `Spells`                  — tokens that are the names of a path with dots and colons between them.
* `Chunk.passages_written`  — each path of a tree is spelled by consecutive tokens of its text.
-/

namespace LuaScope

/-- What a walk looks at in one go: a dotted path, or the place of an implied `self`. -/
inductive Passage where
  | path (path : List Ident)
  | receiver (start : Nat)

/-! ## Passages of a tree -/

def Parameter.passages : Parameter → List Passage
  | .name ident => [.path [ident]]
  | .vararg => []

def Parameters.passages (p : Parameters) : List Passage :=
  .receiver p.span.start :: p.entries.flatMap Parameter.passages

mutual

/-- A path is taken as a whole. -/
def Expr.passages : Expr → List Passage
  | .nil | .boolean | .number | .literal _ | .vararg | .global => []
  | .name ident => [.path [ident]]
  | .field base key =>
    match base.path? with
    | some path => [.path (path ++ [key])]
    | none => base.passages ++ [.path [key]]
  | .subscript base key => base.passages ++ key.passages
  | .call callee none arguments => callee.passages ++ Expr.passagesOf arguments
  | .call callee (some method) arguments =>
    match callee.path? with
    | some path => .path (path ++ [method]) :: Expr.passagesOf arguments
    | none => callee.passages ++ .path [method] :: Expr.passagesOf arguments
  | .paren inner => inner.passages
  | .table fields => Field.passagesOf fields
  | .function body => body.passages
  | .binary _ _ left right => left.passages ++ right.passages
  | .unary _ _ operand => operand.passages

def Expr.passagesOf : List Expr → List Passage
  | [] => []
  | e :: rest => e.passages ++ Expr.passagesOf rest

def Field.passagesOf : List Field → List Passage
  | [] => []
  | .positional value :: rest => value.passages ++ Field.passagesOf rest
  | .named _ _ key value :: rest => .path [key] :: (value.passages ++ Field.passagesOf rest)
  | .unnamed value :: rest => value.passages ++ Field.passagesOf rest
  | .computed key value :: rest => key.passages ++ (value.passages ++ Field.passagesOf rest)

def FunctionBody.passages : FunctionBody → List Passage
  | .mk parameters block _ => parameters.passages ++ Block.passages? block

def Block.passages? : Option Block → List Passage
  | none => []
  | some (.mk _ statements) => Statement.passagesOf statements

def Statement.passagesOf : List Statement → List Passage
  | [] => []
  | .mk _ _ node :: rest => node.passages ++ Statement.passagesOf rest

def StatementNode.passages : StatementNode → List Passage
  | .empty | .label | .goto | .break => []
  | .assign targets values => Expr.passagesOf targets ++ Expr.passagesOf values
  | .call call => call.passages
  | .do body => Block.passages? body
  | .while condition body => condition.passages ++ Block.passages? body
  | .repeat body condition => Block.passages? body ++ condition.passages
  | .if condition body rest none =>
    condition.passages ++ (Block.passages? body ++ ElseIf.passagesOf rest)
  | .if condition body rest (some block) =>
    condition.passages ++ (Block.passages? body ++ (ElseIf.passagesOf rest ++ Block.passages? block))
  | .numericFor counter start limit none body =>
    .path [counter] :: (start.passages ++ (limit.passages ++ Block.passages? body))
  | .numericFor counter start limit (some step) body =>
    .path [counter] ::
      (start.passages ++ (limit.passages ++ (step.passages ++ Block.passages? body)))
  | .genericFor names values body =>
    names.map (fun name => .path [name]) ++ (Expr.passagesOf values ++ Block.passages? body)
  | .function _ name body => .path name.path :: body.passages
  | .declare _ _ names none => names.map (fun name => .path [name.ident])
  | .declare _ _ names (some values) =>
    names.map (fun name => .path [name.ident]) ++ Expr.passagesOf values
  | .implicitGlobals none => []
  | .implicitGlobals (some (name, _)) => [.path [name]]
  | .return none => []
  | .return (some values) => Expr.passagesOf values

def ElseIf.passagesOf : List ElseIf → List Passage
  | [] => []
  | .mk condition body :: rest =>
    condition.passages ++ (Block.passages? body ++ ElseIf.passagesOf rest)

end

def Chunk.passages (chunk : Chunk) : List Passage := Statement.passagesOf chunk.statements

/-! ## Spelling -/

/-- The names of a path, with a dot or a colon in front of each but the first one. -/
inductive Spells : List Lexeme → List Ident → Prop
  | name {l : Lexeme} {name : String} (hname : l.token = .name name) : Spells [l] [⟨name, l.span⟩]
  | member {used : List Lexeme} {path : List Ident} {m l : Lexeme} {name : String}
      (front : Spells used path) (hmark : m.token = .mark .dot ∨ m.token = .mark .colon)
      (hname : l.token = .name name) : Spells (used ++ [m, l]) (path ++ [⟨name, l.span⟩])

/-- The text holds what the walk takes the passage for. -/
def Written (ls : List Lexeme) : Passage → Prop
  | .path path => ∃ used, used <:+: ls ∧ Spells used path
  | .receiver start => .receiver start ∈ Lexeme.sites ls

namespace Reader

variable {α β : Type} {ls : List Lexeme} {P : Cursor → Prop}

/-- The tokens ahead end the text; an assignment mark that was part of another one may stand in
front of them. -/
def Within (ls : List Lexeme) (c : Cursor) : Prop :=
  c.rest <:+ ls ∨ ∃ span rest, c.rest = ⟨.mark .assign, span, []⟩ :: rest ∧ rest <:+ ls

theorem Within.suffix {c : Cursor} (h : Within ls c) {l : Lexeme} {rest : List Lexeme}
    (hrest : c.rest = l :: rest) (hl : l.token ≠ .mark .assign) : l :: rest <:+ ls := by
  rcases h with h | ⟨span, rest', heq, _⟩
  · rwa [hrest] at h
  · rw [hrest] at heq
    cases heq
    exact absurd rfl hl

theorem Within.tail {c : Cursor} (h : Within ls c) {l : Lexeme} {rest : List Lexeme} {stop : Nat}
    (hrest : c.rest = l :: rest) : Within ls ⟨rest, stop⟩ := by
  refine .inl ?_
  rcases h with h | ⟨span, rest', heq, h⟩
  · rw [hrest] at h
    exact (List.suffix_cons l rest).trans h
  · rw [hrest] at heq
    cases heq
    exact h

/-- Run on a cursor of the text with `P`, the reader answers with `Q`. -/
def Gives (ls : List Lexeme) (P : Cursor → Prop) (r : Reader α) (Q : α → Cursor → Prop) : Prop :=
  ∀ c a c', Within ls c → P c → r c = some (a, c') → Within ls c' ∧ Q a c'

namespace Gives

variable {Q : α → Cursor → Prop} {R : β → Cursor → Prop}

theorem pure {a : α} (h : ∀ c, P c → Q a c) : Gives ls P (Pure.pure a) Q := by
  intro c a' c' hc hP hrun
  cases hrun
  exact ⟨hc, h c hP⟩

theorem refuse : Gives ls P (Reader.refuse : Reader α) Q := by
  intro c a c' _ _ hrun
  cases hrun

theorem bind {r : Reader α} {k : α → Reader β} (hr : Gives ls P r Q)
    (hk : ∀ a, Gives ls (Q a) (k a) R) : Gives ls P (r >>= k) R := by
  intro c b c' hc hP hrun
  obtain ⟨⟨a, c₁⟩, hfirst, hrest⟩ := Option.bind_eq_some_iff.mp hrun
  obtain ⟨hc₁, hQ⟩ := hr c a c₁ hc hP hfirst
  exact hk a c₁ b c' hc₁ hQ hrest

theorem anywhere {r : Reader α} (h : Gives ls Anywhere r Q) : Gives ls P r Q :=
  fun c a c' hc _ hrun => h c a c' hc trivial hrun

/-- Of the first reader's answer only a fact is kept. -/
theorem andThen {r : Reader α} {k : α → Reader β} {G : α → Prop}
    (hr : Gives ls P r fun a _ => G a) (hk : ∀ a, G a → Gives ls Anywhere (k a) R) :
    Gives ls P (r >>= k) R :=
  hr.bind fun a c b c' hc hG hrun => hk a hG c b c' hc trivial hrun

/-- Of the first reader's answer nothing is kept. -/
theorem after {r : Reader α} {k : α → Reader β} (hr : Gives ls P r fun _ _ => True)
    (hk : ∀ a, Gives ls Anywhere (k a) R) : Gives ls P (r >>= k) R :=
  hr.andThen fun a _ => hk a

theorem peek {k : Option Token → Reader β}
    (hk : ∀ t, Gives ls (fun c => NextIs t c ∧ P c) (k t) R) :
    Gives ls P (Reader.peek >>= k) R := by
  intro c b c' hc hP hrun
  exact hk _ c b c' hc ⟨rfl, hP⟩ hrun

theorem peekSecond {k : Option Token → Reader β} (hk : ∀ t, Gives ls P (k t) R) :
    Gives ls P (Reader.peekSecond >>= k) R := by
  intro c b c' hc hP hrun
  exact hk _ c b c' hc hP hrun

theorem weaken {P' : Cursor → Prop} {r : Reader α} (h : Gives ls P' r Q)
    (hP : ∀ c, P c → P' c) : Gives ls P r Q :=
  fun c a c' hc hPc hrun => h c a c' hc (hP c hPc) hrun

theorem mono {r : Reader α} {Q' : α → Cursor → Prop} (h : Gives ls P r Q)
    (hQ : ∀ a c, Q a c → Q' a c) : Gives ls P r Q' := by
  intro c a c' hc hP hrun
  obtain ⟨hc', hQa⟩ := h c a c' hc hP hrun
  exact ⟨hc', hQ a c' hQa⟩

end Gives

/-! ## Single tokens -/

theorem advance_gives : Gives ls P advance fun _ _ => True := by
  intro c span c' hc _ hrun
  unfold advance at hrun
  split at hrun
  · cases hrun
  · rename_i l rest hrest
    cases hrun
    exact ⟨hc.tail hrest, trivial⟩

theorem expect_gives (t : Token) : Gives ls P (expect t) fun _ _ => True := by
  refine .peek fun next => ?_
  split
  · exact advance_gives
  · exact .refuse

theorem accept_gives (t : Token) : Gives ls P (accept t) fun _ _ => True := by
  refine .peek fun next => ?_
  split
  · exact .after advance_gives fun _ => .pure fun _ _ => trivial
  · exact .pure fun _ _ => trivial

theorem start_gives : Gives ls P start fun _ _ => True := by
  intro c a c' hc _ hrun
  unfold start at hrun
  split at hrun <;> cases hrun
  exact ⟨hc, trivial⟩

theorem comments_gives : Gives ls P comments fun _ _ => True := by
  intro c a c' hc _ hrun
  unfold comments at hrun
  split at hrun <;> cases hrun <;> exact ⟨hc, trivial⟩

theorem stop_gives : Gives ls P stop fun _ _ => True := by
  intro c a c' hc _ hrun
  cases hrun
  exact ⟨hc, trivial⟩

theorem closeAttrib_gives : Gives ls P closeAttrib fun _ _ => True := by
  intro c a c' hc _ hrun
  refine ⟨?_, trivial⟩
  unfold closeAttrib at hrun
  split at hrun
  · rename_i hrest
    cases hrun
    exact hc.tail hrest
  · rename_i hrest
    cases hrun
    exact .inr ⟨_, _, rfl, (List.suffix_cons _ _).trans (hc.suffix hrest nofun)⟩
  · cases hrun

/-- The token that was looked at is the one that is taken. -/
theorem advance_eq {t : Token} {c c' : Cursor} {span : Span} (hnext : NextIs (some t) c)
    (hrun : advance c = some (span, c')) : ∃ l, c.rest = l :: c'.rest ∧ l.token = t ∧
      l.span = span := by
  unfold advance at hrun
  split at hrun
  · cases hrun
  · rename_i l rest hrest
    cases hrun
    simp only [NextIs, hrest, List.head?_cons, Option.map_some, Option.some.injEq] at hnext
    exact ⟨l, hrest, hnext, rfl⟩

/-! ## Paths -/

/-- The path was just read. -/
def Ends (ls : List Lexeme) (path : List Ident) (c : Cursor) : Prop :=
  ∃ used, Spells used path ∧ used ++ c.rest <:+ ls

theorem Ends.written {path : List Ident} {c : Cursor} (h : Ends ls path c) :
    Written ls (.path path) := by
  obtain ⟨used, hspells, hsuffix⟩ := h
  exact ⟨used, (List.prefix_append used c.rest).isInfix.trans hsuffix.isInfix, hspells⟩

theorem name_ends {text : String} {c c' : Cursor} {span : Span} (hc : Within ls c)
    (hnext : NextIs (some (.name text)) c) (hrun : advance c = some (span, c')) :
    Ends ls [⟨text, span⟩] c' := by
  obtain ⟨l, hrest, htoken, rfl⟩ := advance_eq hnext hrun
  exact ⟨[l], .name htoken, hc.suffix hrest (by rw [htoken]; nofun)⟩

/-- A name was looked at and is taken. -/
theorem advance_name {text : String} : Gives ls (fun c => NextIs (some (.name text)) c ∧ P c)
    advance fun span c => Ends ls [⟨text, span⟩] c := by
  intro c span c' hc hP hrun
  exact ⟨(advance_gives (P := Anywhere) c span c' hc trivial hrun).1, name_ends hc hP.1 hrun⟩

theorem ident_gives : Gives ls P ident fun name c => Ends ls [name] c := by
  refine .peek fun next => ?_
  split
  · refine advance_name.bind fun span c name c' hc hends hrun => ?_
    cases hrun
    exact ⟨hc, hends⟩
  · exact .refuse

/-- The first of these names alone is a path. -/
theorem ident_written : Gives ls P ident fun name _ => Written ls (.path [name]) :=
  ident_gives.mono fun _ _ h => h.written

theorem peek_bind {k : Option Token → Reader β} (c : Cursor) :
    (Reader.peek >>= k) c = k (c.rest.head?.map Lexeme.token) c := rfl

theorem ident_eq {name : Ident} {c c' : Cursor} (hrun : ident c = some (name, c')) :
    ∃ l, c.rest = l :: c'.rest ∧ l.token = .name name.name ∧ l.span = name.span := by
  unfold ident at hrun
  rw [peek_bind] at hrun
  generalize hnext : c.rest.head?.map Lexeme.token = next at hrun
  split at hrun
  · obtain ⟨⟨span, c₁⟩, hadvance, hpure⟩ := Option.bind_eq_some_iff.mp hrun
    cases hpure
    exact advance_eq hnext hadvance
  · cases hrun

theorem expect_eq {t : Token} {c c' : Cursor} {span : Span}
    (hrun : expect t c = some (span, c')) :
    ∃ l, c.rest = l :: c'.rest ∧ l.token = t ∧ l.span = span := by
  unfold expect at hrun
  rw [peek_bind] at hrun
  split at hrun
  · rename_i hnext
    exact advance_eq hnext hrun
  · cases hrun

theorem accept_eq {t : Token} {c c' : Cursor} {more : Bool}
    (hrun : accept t c = some (more, c')) :
    more = true ∧ (∃ l, c.rest = l :: c'.rest ∧ l.token = t) ∨ more = false ∧ c' = c := by
  unfold accept at hrun
  rw [peek_bind] at hrun
  split at hrun
  · rename_i hnext
    obtain ⟨⟨span, c₁⟩, hadvance, hpure⟩ := Option.bind_eq_some_iff.mp hrun
    cases hpure
    obtain ⟨l, hrest, htoken, -⟩ := advance_eq hnext hadvance
    exact .inl ⟨rfl, l, hrest, htoken⟩
  · cases hrun
    exact .inr ⟨rfl, rfl⟩

/-- A mark and a name start a path, and continue those that were just read. -/
theorem Gives.member {paths : List Ident → Prop} {m : Mark} (hm : m = .dot ∨ m = .colon)
    {k : Ident → Reader β} {R : β → Cursor → Prop}
    (hk : ∀ key, Gives ls
      (fun c => Ends ls [key] c ∧ ∀ path, paths path → Ends ls (path ++ [key]) c) (k key) R) :
    Gives ls (fun c => NextIs (some (.mark m)) c ∧ ∀ path, paths path → Ends ls path c) (do
      let _ ← advance
      let key ← ident
      k key) R := by
  intro c b c' hc hP hrun
  obtain ⟨hnext, hends⟩ := hP
  obtain ⟨⟨span, c₁⟩, hadvance, hbehind⟩ := Option.bind_eq_some_iff.mp hrun
  obtain ⟨⟨key, c₂⟩, hident, hrest'⟩ := Option.bind_eq_some_iff.mp hbehind
  obtain ⟨l₁, hrest, htoken, rfl⟩ := advance_eq hnext hadvance
  have hc₁ : Within ls c₁ := (advance_gives (P := Anywhere) c _ c₁ hc trivial hadvance).1
  obtain ⟨hc₂, hkey⟩ := ident_gives (P := Anywhere) c₁ key c₂ hc₁ trivial hident
  obtain ⟨l₂, hrest₂, htoken₂, hspan⟩ := ident_eq hident
  refine hk key c₂ b c' hc₂ ⟨hkey, fun path hpath => ?_⟩ hrest'
  obtain ⟨used, hspells, hsuffix⟩ := hends path hpath
  refine ⟨used ++ [l₁, l₂], ?_, ?_⟩
  · have hmember := hspells.member (m := l₁) (by rcases hm with rfl | rfl <;> simp [htoken]) htoken₂
    rwa [hspan] at hmember
  · rw [hrest, hrest₂] at hsuffix
    rwa [List.append_assoc]

theorem Gives.memberOf {path : List Ident} {m : Mark} (hm : m = .dot ∨ m = .colon)
    {k : Ident → Reader β} {R : β → Cursor → Prop}
    (hk : ∀ key, Gives ls (Ends ls (path ++ [key])) (k key) R) :
    Gives ls (fun c => NextIs (some (.mark m)) c ∧ Ends ls path c) (do
      let _ ← advance
      let key ← ident
      k key) R :=
  have hpaths : ∀ key, Gives ls
      (fun c => Ends ls [key] c ∧ ∀ path', path' = path → Ends ls (path' ++ [key]) c) (k key) R :=
    fun key => (hk key).weaken fun _ h => h.2 path rfl
  (Gives.member hm hpaths).weaken fun _ h => ⟨h.1, fun _ heq => heq ▸ h.2⟩

/-- What is read if the mark stands next, and what if it does not. -/
theorem Gives.accept {t : Token} {k : Bool → Reader β} {R : β → Cursor → Prop}
    (hthere : Gives ls (fun c => NextIs (some t) c ∧ P c) (do
      let _ ← advance
      k true) R) (habsent : Gives ls P (k false) R) :
    Gives ls P (Reader.accept t >>= k) R := by
  intro c b c' hc hP hrun
  obtain ⟨⟨more, c₁⟩, haccept, hrun⟩ := Option.bind_eq_some_iff.mp hrun
  obtain ⟨next, hnext⟩ : ∃ next, NextIs next c := ⟨_, rfl⟩
  have hsplit : (if next = some t then (do let _ ← advance; Pure.pure true : Reader Bool)
      else Pure.pure false) c = some (more, c₁) := by
    rw [← hnext]
    exact haccept
  split at hsplit
  · rename_i heq
    subst heq
    obtain ⟨⟨span, c₂⟩, hadvance, hpure⟩ := Option.bind_eq_some_iff.mp hsplit
    cases hpure
    exact hthere c b c' hc ⟨hnext, hP⟩ (Option.bind_eq_some_iff.mpr ⟨_, hadvance, hrun⟩)
  · cases hsplit
    exact habsent c b c' hc hP hrun

/-! ## Names -/

/-- Each of these passages stands in the text. -/
def AllWritten (ls : List Lexeme) (passages : List Passage) : Prop :=
  ∀ passage ∈ passages, Written ls passage

theorem allWritten_nil : AllWritten ls [] := nofun

theorem allWritten_cons {passage : Passage} {passages : List Passage} :
    AllWritten ls (passage :: passages) ↔ Written ls passage ∧ AllWritten ls passages :=
  List.forall_mem_cons

theorem allWritten_append {a b : List Passage} :
    AllWritten ls (a ++ b) ↔ AllWritten ls a ∧ AllWritten ls b := List.forall_mem_append

theorem allWritten_single {passage : Passage} (h : Written ls passage) :
    AllWritten ls [passage] := allWritten_cons.mpr ⟨h, allWritten_nil⟩

theorem attrib_gives : Gives ls P attrib fun a _ => Written ls (.path [a.1]) :=
  .after (expect_gives _) fun _ => .andThen ident_written fun _ hname =>
    .after closeAttrib_gives fun _ => .pure fun _ _ => hname

theorem attrib?_gives : Gives ls P attrib? fun _ _ => True := by
  refine .peek fun next => ?_
  split
  · exact .andThen attrib_gives fun _ _ => .pure fun _ _ => trivial
  · exact .pure fun _ _ => trivial

theorem attributedName_gives :
    Gives ls P attributedName fun name _ => Written ls (.path [name.ident]) :=
  .andThen ident_written fun _ hname => .after attrib?_gives fun _ =>
    .pure fun _ _ => hname

theorem moreAttributedNames_gives : ∀ (fuel : Nat) {P : Cursor → Prop},
    Gives ls P (moreAttributedNames fuel)
      fun names _ => AllWritten ls (names.map fun name => .path [name.ident])
  | 0, _ => .refuse
  | fuel + 1, _ => by
    refine .after (accept_gives _) fun more => ?_
    split
    · refine .andThen attributedName_gives fun name hname => ?_
      refine .andThen (moreAttributedNames_gives fuel) fun names hnames => ?_
      exact .pure fun _ _ => allWritten_cons.mpr ⟨hname, hnames⟩
    · exact .pure fun _ _ => allWritten_nil

theorem moreIdents_gives : ∀ (fuel : Nat) {P : Cursor → Prop},
    Gives ls P (moreIdents fuel) fun names _ => AllWritten ls (names.map fun name => .path [name])
  | 0, _ => .refuse
  | fuel + 1, _ => by
    refine .after (accept_gives _) fun more => ?_
    split
    · refine .andThen ident_written fun name hname => ?_
      refine .andThen (moreIdents_gives fuel) fun names hnames => ?_
      exact .pure fun _ _ => allWritten_cons.mpr ⟨hname, hnames⟩
    · exact .pure fun _ _ => allWritten_nil

theorem varargParameter_gives : Gives ls P varargParameter
    fun ps _ => AllWritten ls (ps.flatMap Parameter.passages) := by
  refine .after (expect_gives _) fun _ => .peek fun next => ?_
  split
  · exact .andThen ident_written fun name hname => .pure fun _ _ => allWritten_single hname
  · exact .pure fun _ _ => allWritten_nil

theorem parameterEntries_gives : ∀ (fuel : Nat) {P : Cursor → Prop},
    Gives ls P (parameterEntries fuel) fun ps _ => AllWritten ls (ps.flatMap Parameter.passages)
  | 0, _ => .refuse
  | fuel + 1, _ => by
    refine .peek fun next => ?_
    split
    · exact varargParameter_gives
    · refine .andThen ident_written fun name hname => .after (accept_gives _) fun more => ?_
      split
      · refine .andThen (parameterEntries_gives fuel) fun rest hrest => ?_
        exact .pure fun _ _ => (allWritten_cons.mpr ⟨hname, hrest⟩)
      · exact .pure fun _ _ => (allWritten_single hname)

theorem opening_gives : Gives ls P (expectMark .leftParen)
    fun span _ => Written ls (.receiver span.start) := by
  refine .peek fun next => ?_
  split
  · rename_i hnext
    subst hnext
    intro c span c' hc hP hrun
    refine ⟨(advance_gives (P := Anywhere) c span c' hc trivial hrun).1, ?_⟩
    obtain ⟨l, hrest, htoken, rfl⟩ := advance_eq hP.1 hrun
    have hmem : l ∈ ls := (hc.suffix hrest (by rw [htoken]; nofun)).subset List.mem_cons_self
    exact List.mem_filterMap.mpr ⟨l, hmem, by simp only [Lexeme.site?, htoken]⟩
  · exact .refuse

theorem parameters_gives (fuel : Nat) :
    Gives ls P (parameters fuel) fun ps _ => AllWritten ls ps.passages := by
  refine .andThen opening_gives fun opening hopening => .peek fun next => ?_
  have hclosing : ∀ entries : List Parameter, AllWritten ls (entries.flatMap Parameter.passages) →
      Gives ls Anywhere (do
        let closing ← expectMark .rightParen
        return (⟨entries, ⟨opening.start, closing.stop⟩⟩ : Parameters))
        fun ps _ => AllWritten ls ps.passages := fun entries hentries =>
    .after (expect_gives _) fun closing =>
      .pure fun _ _ => (allWritten_cons.mpr ⟨hopening, hentries⟩)
  split
  · exact .andThen (.pure fun _ _ => allWritten_nil) hclosing
  · exact .andThen (parameterEntries_gives fuel) hclosing

/-- The fields of a function's name continue the path of its head. -/
theorem dottedFields_gives : ∀ (fuel : Nat) {path : List Ident},
    Gives ls (Ends ls path) (dottedFields fuel) fun names c => Ends ls (path ++ names) c
  | 0, _ => .refuse
  | fuel + 1, path => by
    refine .accept ?_ (.pure fun c hends => by rwa [List.append_nil])
    refine .memberOf (.inl rfl) fun name => (dottedFields_gives fuel).bind fun names => ?_
    refine .pure fun c hends => ?_
    rwa [List.append_assoc] at hends

theorem functionName_gives (fuel : Nat) :
    Gives ls P (functionName fuel) fun name _ => Written ls (.path name.path) := by
  refine .bind ident_gives fun head => .bind (dottedFields_gives fuel) fun fields => ?_
  refine .accept ?_ (.pure fun c hends => ?_)
  · exact .memberOf (.inr rfl) fun method => .pure fun c hends => hends.written
  · simpa [FunctionName.path] using hends.written

/-! ## Expressions and statements -/

/-- Every reader with this much fuel reads paths that the text spells. -/
structure Spelling (ls : List Lexeme) (fuel : Nat) : Prop where
  expr : ∀ limit, Gives ls Anywhere (expr fuel limit) fun e _ => AllWritten ls e.passages
  operators : ∀ limit left, AllWritten ls left.passages →
    Gives ls Anywhere (operators fuel limit left) fun e _ => AllWritten ls e.passages
  operand : Gives ls Anywhere (operand fuel) fun e _ => AllWritten ls e.passages
  simple : Gives ls Anywhere (simple fuel) fun e _ => AllWritten ls e.passages
  suffixed : Gives ls Anywhere (suffixed fuel) fun e _ => AllWritten ls e.passages
  suffixes : ∀ base, AllWritten ls base.passages →
    Gives ls (fun c => ∀ path, base.path? = some path → Ends ls path c) (suffixes fuel base)
      fun e _ => AllWritten ls e.passages
  callArguments : Gives ls Anywhere (callArguments fuel)
    fun es _ => AllWritten ls (Expr.passagesOf es)
  exprs : Gives ls Anywhere (exprs fuel) fun es _ => AllWritten ls (Expr.passagesOf es)
  tableFields : Gives ls Anywhere (tableFields fuel)
    fun fields _ => AllWritten ls (Field.passagesOf fields)
  fieldList : Gives ls Anywhere (fieldList fuel)
    fun fields _ => AllWritten ls (Field.passagesOf fields)
  tableField : Gives ls Anywhere (tableField fuel)
    fun field _ => AllWritten ls (Field.passagesOf [field])
  functionBody : Gives ls Anywhere (functionBody fuel) fun body _ => AllWritten ls body.passages
  block : Gives ls Anywhere (block fuel) fun block _ => AllWritten ls (Block.passages? block)
  statements : ∀ first, Gives ls Anywhere (statements fuel first)
    fun statements _ => AllWritten ls (Statement.passagesOf statements)
  statementNode : Gives ls Anywhere (statementNode fuel) fun node _ => AllWritten ls node.passages
  elseIfs : Gives ls Anywhere (elseIfs fuel) fun rest _ => AllWritten ls (ElseIf.passagesOf rest)
  otherwise : Gives ls Anywhere (otherwise fuel)
    fun block? _ => ∀ block ∈ block?, AllWritten ls (Block.passages? block)
  forLoop : Gives ls Anywhere (forLoop fuel) fun node _ => AllWritten ls node.passages
  declaration : ∀ reach, Gives ls Anywhere (declaration reach fuel)
    fun node _ => AllWritten ls node.passages
  declarationBehind : ∀ reach attrib, Gives ls Anywhere (declarationBehind reach attrib fuel)
    fun node _ => AllWritten ls node.passages
  simpleStatement : Gives ls Anywhere (simpleStatement fuel)
    fun node _ => AllWritten ls node.passages
  moreTargets : Gives ls Anywhere (moreTargets fuel)
    fun es _ => AllWritten ls (Expr.passagesOf es)

section Fuel

variable {fuel : Nat}

theorem expr_spelled (ih : Spelling ls fuel) (limit : Nat) :
    Gives ls Anywhere (expr (fuel + 1) limit) fun e _ => AllWritten ls e.passages :=
  .andThen ih.operand fun left hleft => ih.operators limit left hleft

theorem operators_spelled (ih : Spelling ls fuel) (limit : Nat) (left : Expr)
    (hleft : AllWritten ls left.passages) :
    Gives ls Anywhere (operators (fuel + 1) limit left) fun e _ => AllWritten ls e.passages := by
  refine .peek fun next => ?_
  split
  · split
    · refine .after advance_gives fun span => .andThen (ih.expr _) fun right hright => ?_
      exact ih.operators limit (.binary _ span left right) (allWritten_append.mpr ⟨hleft, hright⟩)
    · exact .pure fun _ _ => hleft
  · exact .pure fun _ _ => hleft

theorem operand_spelled (ih : Spelling ls fuel) :
    Gives ls Anywhere (operand (fuel + 1)) fun e _ => AllWritten ls e.passages := by
  refine .peek fun next => ?_
  split
  · exact .after advance_gives fun span => .andThen (ih.expr _) fun e he => .pure fun _ _ => he
  · exact ih.simple.anywhere

theorem simple_spelled (ih : Spelling ls fuel) :
    Gives ls Anywhere (simple (fuel + 1)) fun e _ => AllWritten ls e.passages := by
  refine .peek fun next => ?_
  split
  case h_7 => exact .andThen ih.tableFields.anywhere fun fields hfields => .pure fun _ _ => hfields
  case h_8 =>
    exact .after advance_gives fun _ => .andThen ih.functionBody fun body hbody =>
      .pure fun _ _ => hbody
  case h_9 => exact ih.suffixed.anywhere
  all_goals exact .after advance_gives fun _ => .pure fun _ _ => allWritten_nil

theorem suffixed_spelled (ih : Spelling ls fuel) :
    Gives ls Anywhere (suffixed (fuel + 1)) fun e _ => AllWritten ls e.passages := by
  refine .peek fun next => ?_
  split
  · rename_i text
    refine advance_name.bind fun span c a c' hc hends hrun => ?_
    refine ih.suffixes _ ?_ c a c' hc ?_ hrun
    · split
      · exact allWritten_nil
      · exact allWritten_single hends.written
    · intro path hpath
      split at hpath
      · cases hpath
      · cases hpath
        exact hends
  · refine .after advance_gives fun _ => .andThen (ih.expr 0) fun inner hinner => ?_
    refine .after (expect_gives _) fun _ c a c' hc _ hrun => ?_
    exact ih.suffixes (.paren inner) hinner c a c' hc nofun hrun
  · exact .refuse

/-- Behind a base that is no path. -/
theorem suffixes_behind (ih : Spelling ls fuel) {base : Expr}
    (hbase : AllWritten ls base.passages) (hpath : base.path? = none) :
    Gives ls P (suffixes fuel base) fun e _ => AllWritten ls e.passages :=
  (ih.suffixes base hbase).weaken fun c _ path heq => by
    rw [hpath] at heq
    cases heq

/-- A key or a method belongs to the path in front of it, if there is one. -/
theorem suffixes_spelled (ih : Spelling ls fuel) (base : Expr)
    (hbase : AllWritten ls base.passages) :
    Gives ls (fun c => ∀ path, base.path? = some path → Ends ls path c) (suffixes (fuel + 1) base)
      fun e _ => AllWritten ls e.passages := by
  have hplain : ∀ {P}, Gives ls P (do
      let arguments ← callArguments fuel
      suffixes fuel (.call base none arguments)) fun e _ => AllWritten ls e.passages :=
    .andThen ih.callArguments.anywhere fun arguments harguments => by
      refine suffixes_behind ih ?_ rfl
      rw [Expr.passages]
      exact allWritten_append.mpr ⟨hbase, harguments⟩
  refine .peek fun next => ?_
  split
  · refine .member (.inl rfl) fun key c e c' hc hends hrun => ?_
    refine ih.suffixes (.field base key) ?_ c e c' hc (fun path hpath => ?_) hrun
    · unfold Expr.passages
      split
      · rename_i path hpath
        exact allWritten_single (hends.2 path hpath).written
      · exact allWritten_append.mpr ⟨hbase, allWritten_single hends.1.written⟩
    · obtain ⟨front, hfront, rfl⟩ := Option.map_eq_some_iff.mp hpath
      exact hends.2 front hfront
  · refine .after advance_gives fun _ => .andThen (ih.expr 0) fun key hkey => ?_
    refine .after (expect_gives _) fun _ => ?_
    exact suffixes_behind ih (allWritten_append.mpr ⟨hbase, hkey⟩) rfl
  · refine .member (.inr rfl) fun method c e c' hc hends hrun => ?_
    have hcall : Gives ls Anywhere (do
        let arguments ← callArguments fuel
        suffixes fuel (.call base (some method) arguments)) fun e _ => AllWritten ls e.passages := by
      refine .andThen ih.callArguments fun arguments harguments => suffixes_behind ih ?_ rfl
      unfold Expr.passages
      split
      · rename_i path hpath
        exact allWritten_cons.mpr ⟨(hends.2 path hpath).written, harguments⟩
      · exact allWritten_append.mpr
          ⟨hbase, allWritten_cons.mpr ⟨hends.1.written, harguments⟩⟩
    exact hcall c e c' hc trivial hrun
  · exact hplain
  · exact hplain
  · exact hplain
  · exact .pure fun _ _ => hbase

theorem callArguments_spelled (ih : Spelling ls fuel) :
    Gives ls Anywhere (callArguments (fuel + 1))
      fun es _ => AllWritten ls (Expr.passagesOf es) := by
  refine .peek fun next => ?_
  split
  · refine .after advance_gives fun _ => .after (accept_gives _) fun empty => ?_
    split
    · exact .pure fun _ _ => allWritten_nil
    · exact .andThen ih.exprs fun arguments harguments =>
        .after (expect_gives _) fun _ => .pure fun _ _ => harguments
  · refine .andThen ih.tableFields.anywhere fun fields hfields => .pure fun _ _ => ?_
    exact allWritten_append.mpr ⟨hfields, allWritten_nil⟩
  · exact .after advance_gives fun _ => .pure fun _ _ =>
      allWritten_append.mpr ⟨allWritten_nil, allWritten_nil⟩
  · exact .refuse

theorem exprs_spelled (ih : Spelling ls fuel) :
    Gives ls Anywhere (exprs (fuel + 1)) fun es _ => AllWritten ls (Expr.passagesOf es) := by
  refine .andThen (ih.expr 0) fun first hfirst => .after (accept_gives _) fun more => ?_
  split
  · exact .andThen ih.exprs fun rest hrest => .pure fun _ _ =>
      allWritten_append.mpr ⟨hfirst, hrest⟩
  · exact .pure fun _ _ => allWritten_append.mpr ⟨hfirst, allWritten_nil⟩

theorem tableFields_spelled (ih : Spelling ls fuel) :
    Gives ls Anywhere (tableFields (fuel + 1))
      fun fields _ => AllWritten ls (Field.passagesOf fields) :=
  .after (expect_gives _) fun _ => .andThen ih.fieldList fun _ hfields =>
    .after (expect_gives _) fun _ => .pure fun _ _ => hfields

/-- The passages of the first field stand in front of those of the others. -/
theorem allWritten_fields {first : Field} {rest : List Field}
    (hfirst : AllWritten ls (Field.passagesOf [first]))
    (hrest : AllWritten ls (Field.passagesOf rest)) :
    AllWritten ls (Field.passagesOf (first :: rest)) := by
  cases first <;>
    simp only [Field.passagesOf, allWritten_cons, allWritten_append] at hfirst ⊢ <;>
    simp only [hfirst, hrest, and_self]

theorem fieldList_spelled (ih : Spelling ls fuel) :
    Gives ls Anywhere (fieldList (fuel + 1))
      fun fields _ => AllWritten ls (Field.passagesOf fields) := by
  refine .peek fun next => ?_
  split
  · exact .pure fun _ _ => allWritten_nil
  · refine .andThen ih.tableField.anywhere fun first hfirst => ?_
    refine .after (accept_gives _) fun comma => .after (accept_gives _) fun semicolon => ?_
    split
    · exact .andThen ih.fieldList fun rest hrest => .pure fun _ _ => allWritten_fields hfirst hrest
    · exact .pure fun _ _ => hfirst

theorem tableField_spelled (ih : Spelling ls fuel) :
    Gives ls Anywhere (tableField (fuel + 1))
      fun field _ => AllWritten ls (Field.passagesOf [field]) := by
  have hpositional : ∀ {P}, Gives ls P (do return Field.positional (← expr fuel 0))
      fun field _ => AllWritten ls (Field.passagesOf [field]) := fun {P} =>
    .andThen (ih.expr 0).anywhere fun value hvalue => .pure fun _ _ =>
      allWritten_append.mpr ⟨hvalue, allWritten_nil⟩
  refine .after comments_gives fun leading => .peek fun next => ?_
  split
  · refine .after advance_gives fun _ => .andThen (ih.expr 0) fun key hkey => ?_
    refine .after (expect_gives _) fun _ => .after (expect_gives _) fun _ => ?_
    exact .andThen (ih.expr 0) fun value hvalue => .pure fun _ _ =>
      allWritten_append.mpr ⟨hkey, allWritten_append.mpr ⟨hvalue, allWritten_nil⟩⟩
  · rename_i text
    refine .peekSecond fun second => ?_
    split
    · refine advance_name.bind fun span c field c' hc hends hrun => ?_
      have hentry : Gives ls Anywhere (do
          let _ ← advance
          let value ← expr fuel 0
          if text = "global" then return .unnamed value
          else return .named leading ⟨span.start, ← stop⟩ ⟨text, span⟩ value)
          fun field _ => AllWritten ls (Field.passagesOf [field]) := by
        refine .after advance_gives fun _ => .andThen (ih.expr 0) fun value hvalue => ?_
        have hparts := allWritten_append.mpr ⟨hvalue, allWritten_nil⟩
        split
        · exact .pure fun _ _ => hparts
        · exact .after stop_gives fun _ => .pure fun _ _ =>
            allWritten_cons.mpr ⟨hends.written, hparts⟩
      exact hentry c field c' hc trivial hrun
    · exact hpositional
  · exact hpositional

theorem functionBody_spelled (ih : Spelling ls fuel) :
    Gives ls Anywhere (functionBody (fuel + 1)) fun body _ => AllWritten ls body.passages :=
  .andThen (parameters_gives fuel) fun _ hparameters => .andThen ih.block fun _ hblock =>
    .after (expect_gives _) fun _ => .pure fun _ _ => allWritten_append.mpr ⟨hparameters, hblock⟩

theorem block_spelled (ih : Spelling ls fuel) :
    Gives ls Anywhere (block (fuel + 1)) fun block _ => AllWritten ls (Block.passages? block) := by
  refine .andThen (ih.statements true) fun statements hstatements => ?_
  split
  · exact .pure fun _ _ => allWritten_nil
  · exact .after stop_gives fun _ => .pure fun _ _ => hstatements

theorem statements_spelled (ih : Spelling ls fuel) (first : Bool) :
    Gives ls Anywhere (statements (fuel + 1) first)
      fun statements _ => AllWritten ls (Statement.passagesOf statements) := by
  refine .peek fun next => ?_
  split
  · exact .pure fun _ _ => allWritten_nil
  · split
    · exact .pure fun _ _ => allWritten_nil
    · have hrest : ∀ {P} (leading : List Comment) (token : Token), Gives ls P (do
          let start ← start
          let node ← statementNode fuel
          let statement := Statement.mk leading ⟨start, ← stop⟩ node
          if token = .keyword .return then return [statement]
          else return statement :: (← statements fuel false))
          fun statements _ => AllWritten ls (Statement.passagesOf statements) := by
        intro P leading token
        refine .after start_gives fun start => .andThen ih.statementNode fun node hnode => ?_
        refine .after stop_gives fun stop => ?_
        split
        · exact .pure fun _ _ => allWritten_append.mpr ⟨hnode, allWritten_nil⟩
        · exact .andThen (ih.statements false) fun rest hrest => .pure fun _ _ =>
            allWritten_append.mpr ⟨hnode, hrest⟩
      cases first with
      | true => exact .after (.pure fun _ _ => trivial) fun leading => hrest leading _
      | false => exact .after comments_gives fun leading => hrest leading _

theorem elseIfs_spelled (ih : Spelling ls fuel) :
    Gives ls Anywhere (elseIfs (fuel + 1))
      fun rest _ => AllWritten ls (ElseIf.passagesOf rest) := by
  refine .after (accept_gives _) fun more => ?_
  split
  · refine .andThen (ih.expr 0) fun condition hcondition => .after (expect_gives _) fun _ => ?_
    refine .andThen ih.block fun body hbody => .andThen ih.elseIfs fun rest hrest => ?_
    exact .pure fun _ _ => allWritten_append.mpr ⟨hcondition, allWritten_append.mpr ⟨hbody, hrest⟩⟩
  · exact .pure fun _ _ => allWritten_nil

theorem otherwise_spelled (ih : Spelling ls fuel) :
    Gives ls Anywhere (otherwise (fuel + 1))
      fun block? _ => ∀ block ∈ block?, AllWritten ls (Block.passages? block) := by
  refine .after (accept_gives _) fun more => ?_
  split
  · refine .andThen ih.block fun block hblock => .pure fun _ _ block' hmem => ?_
    cases hmem
    exact hblock
  · exact .pure fun _ _ => nofun

theorem forLoop_spelled (ih : Spelling ls fuel) :
    Gives ls Anywhere (forLoop (fuel + 1)) fun node _ => AllWritten ls node.passages := by
  refine .andThen ident_written fun counter hcounter => .after (accept_gives _) fun numeric => ?_
  split
  · refine .andThen (ih.expr 0) fun start hstart => .after (expect_gives _) fun _ => ?_
    refine .andThen (ih.expr 0) fun limit hlimit => .after (accept_gives _) fun stepped => ?_
    have hbody : ∀ step : Option Expr, (∀ e ∈ step, AllWritten ls e.passages) →
        Gives ls Anywhere (do
          let _ ← expectKeyword .do
          let body ← block fuel
          let _ ← expectKeyword .end
          return StatementNode.numericFor counter start limit step body)
        fun node _ => AllWritten ls node.passages := by
      intro step hstep
      refine .after (expect_gives _) fun _ => .andThen ih.block fun body hbody => ?_
      refine .after (expect_gives _) fun _ => .pure fun _ _ => ?_
      cases step with
      | none => simp only [StatementNode.passages, allWritten_cons, allWritten_append, *, and_self]
      | some e =>
        simp only [StatementNode.passages, allWritten_cons, allWritten_append, hstep e rfl, *,
          and_self]
    split
    · refine .andThen (ih.expr 0) fun step hstep => hbody (some step) fun e he => ?_
      cases he
      exact hstep
    · refine .andThen ?_ hbody
      exact .pure fun _ _ => nofun
  · refine .andThen (moreIdents_gives fuel) fun names hnames => .after (expect_gives _) fun _ => ?_
    refine .andThen ih.exprs fun values hvalues => .after (expect_gives _) fun _ => ?_
    refine .andThen ih.block fun body hbody => .after (expect_gives _) fun _ => ?_
    exact .pure fun _ _ => allWritten_cons.mpr ⟨hcounter,
      allWritten_append.mpr ⟨hnames, allWritten_append.mpr ⟨hvalues, hbody⟩⟩⟩

theorem declaration_spelled (ih : Spelling ls fuel) (reach : NameReach) :
    Gives ls Anywhere (declaration reach (fuel + 1)) fun node _ => AllWritten ls node.passages :=
  .after attrib?_gives fun attrib => ih.declarationBehind reach attrib

theorem declarationBehind_spelled (ih : Spelling ls fuel) (reach : NameReach)
    (attrib : Option (Ident × Span)) :
    Gives ls Anywhere (declarationBehind reach attrib (fuel + 1))
      fun node _ => AllWritten ls node.passages := by
  refine .andThen attributedName_gives fun first hfirst => ?_
  refine .andThen (moreAttributedNames_gives fuel) fun names hnames => ?_
  refine .after (accept_gives _) fun valued => ?_
  have hall := allWritten_cons.mpr ⟨hfirst, hnames⟩
  have hdone : ∀ values : Option (List Expr),
      (∀ es ∈ values, AllWritten ls (Expr.passagesOf es)) → Gives ls Anywhere
        (pure (StatementNode.declare reach attrib (first :: names) values))
        fun node _ => AllWritten ls node.passages := by
    intro values hvalues
    refine .pure fun _ _ => ?_
    cases values with
    | none => exact hall
    | some es => exact allWritten_append.mpr ⟨hall, hvalues es rfl⟩
  split
  · refine .andThen ih.exprs fun values hvalues => hdone (some values) fun es hes => ?_
    cases hes
    exact hvalues
  · refine .andThen ?_ hdone
    exact .pure fun _ _ => nofun

theorem simpleStatement_spelled (ih : Spelling ls fuel) :
    Gives ls Anywhere (simpleStatement (fuel + 1))
      fun node _ => AllWritten ls node.passages := by
  refine .andThen ih.suffixed fun first hfirst => ?_
  split
  · refine .andThen ih.moreTargets fun targets htargets => .after (expect_gives _) fun _ => ?_
    exact .andThen ih.exprs fun values hvalues => .pure fun _ _ =>
      allWritten_append.mpr ⟨allWritten_append.mpr ⟨hfirst, htargets⟩, hvalues⟩
  · split
    · exact .pure fun _ _ => hfirst
    · exact .refuse

theorem moreTargets_spelled (ih : Spelling ls fuel) :
    Gives ls Anywhere (moreTargets (fuel + 1))
      fun es _ => AllWritten ls (Expr.passagesOf es) := by
  refine .after (accept_gives _) fun more => ?_
  split
  · refine .andThen ih.suffixed fun target htarget => ?_
    split
    · exact .andThen ih.moreTargets fun rest hrest => .pure fun _ _ =>
        allWritten_append.mpr ⟨htarget, hrest⟩
    · exact .refuse
  · exact .pure fun _ _ => allWritten_nil

/-- By the token that stands first, as the reader does. -/
theorem statementNode_spelled (ih : Spelling ls fuel) :
    Gives ls Anywhere (statementNode (fuel + 1)) fun node _ => AllWritten ls node.passages := by
  have hfunction : ∀ (reach : FunctionReach) (name : FunctionName), Written ls (.path name.path) →
      Gives ls Anywhere (do return StatementNode.function reach name (← functionBody fuel))
        fun node _ => AllWritten ls node.passages := fun reach name hname =>
    .andThen ih.functionBody fun body hbody => .pure fun _ _ => allWritten_cons.mpr ⟨hname, hbody⟩
  have hnamed : ∀ (reach : FunctionReach) (name : Ident), Written ls (.path [name]) →
      Gives ls Anywhere (do
        return StatementNode.function reach ⟨name, [], none⟩ (← functionBody fuel))
        fun node _ => AllWritten ls node.passages := fun reach name hname =>
    hfunction reach ⟨name, [], none⟩ hname
  refine .peek fun next => ?_
  split
  · exact .after advance_gives fun _ => .pure fun _ _ => allWritten_nil
  · refine .after advance_gives fun _ => .andThen ident_written fun _ _ => ?_
    exact .after (expect_gives _) fun _ => .pure fun _ _ => allWritten_nil
  · exact .after advance_gives fun _ => .pure fun _ _ => allWritten_nil
  · refine .after advance_gives fun _ => .andThen ident_written fun _ _ => ?_
    exact .pure fun _ _ => allWritten_nil
  · refine .after advance_gives fun _ => .andThen ih.block fun body hbody => ?_
    exact .after (expect_gives _) fun _ => .pure fun _ _ => hbody
  · refine .after advance_gives fun _ => .andThen (ih.expr 0) fun condition hcondition => ?_
    refine .after (expect_gives _) fun _ => .andThen ih.block fun body hbody => ?_
    exact .after (expect_gives _) fun _ => .pure fun _ _ =>
      allWritten_append.mpr ⟨hcondition, hbody⟩
  · refine .after advance_gives fun _ => .andThen ih.block fun body hbody => ?_
    refine .after (expect_gives _) fun _ => .andThen (ih.expr 0) fun condition hcondition => ?_
    exact .pure fun _ _ => allWritten_append.mpr ⟨hbody, hcondition⟩
  · refine .after advance_gives fun _ => .andThen (ih.expr 0) fun condition hcondition => ?_
    refine .after (expect_gives _) fun _ => .andThen ih.block fun body hbody => ?_
    refine .andThen ih.elseIfs fun rest hrest => .andThen ih.otherwise fun otherwise hotherwise => ?_
    refine .after (expect_gives _) fun _ => .pure fun _ _ => ?_
    cases otherwise with
    | none =>
      exact allWritten_append.mpr ⟨hcondition, allWritten_append.mpr ⟨hbody, hrest⟩⟩
    | some block =>
      exact allWritten_append.mpr ⟨hcondition, allWritten_append.mpr ⟨hbody,
        allWritten_append.mpr ⟨hrest, hotherwise block rfl⟩⟩⟩
  · exact .after advance_gives fun _ => ih.forLoop
  · refine .after advance_gives fun _ => .andThen (functionName_gives fuel) fun name hname => ?_
    exact hfunction .named name hname
  · refine .after advance_gives fun _ => .after (accept_gives _) fun isFunction => ?_
    split
    · exact .andThen ident_written fun name hname => hnamed .local name hname
    · exact ih.declaration .local
  · refine .after advance_gives fun _ => .peek fun next => ?_
    have hdone : ∀ values : Option (List Expr),
        (∀ es ∈ values, AllWritten ls (Expr.passagesOf es)) → Gives ls Anywhere (do
          let _ ← acceptMark .semicolon
          return StatementNode.return values) fun node _ => AllWritten ls node.passages := by
      intro values hvalues
      refine .after (accept_gives _) fun _ => .pure fun _ _ => ?_
      cases values with
      | none => exact allWritten_nil
      | some es => exact hvalues es rfl
    split
    · refine .andThen ih.exprs.anywhere fun values hvalues => hdone (some values) fun es hes => ?_
      cases hes
      exact hvalues
    · refine .andThen ?_ hdone
      exact .pure fun _ _ => nofun
  · refine .peekSecond fun second => ?_
    split
    · refine .after advance_gives fun _ => .after advance_gives fun _ => ?_
      exact .andThen ident_written fun name hname => hnamed .global name hname
    · exact .after advance_gives fun _ => .after advance_gives fun _ =>
        .pure fun _ _ => allWritten_nil
    · refine .after advance_gives fun _ => .andThen attrib_gives fun attrib hattrib => ?_
      refine .after (accept_gives _) fun all => ?_
      split
      · exact .pure fun _ _ => allWritten_single hattrib
      · exact ih.declarationBehind .global (some attrib)
    · exact .after advance_gives fun _ => ih.declaration .global
    · exact ih.simpleStatement.anywhere
  · exact ih.simpleStatement.anywhere

end Fuel

theorem spelling (ls : List Lexeme) : ∀ fuel, Spelling ls fuel
  | 0 => by constructor <;> intros <;> exact .refuse
  | fuel + 1 =>
    have ih := spelling ls fuel
    { expr := expr_spelled ih
      operators := operators_spelled ih
      operand := operand_spelled ih
      simple := simple_spelled ih
      suffixed := suffixed_spelled ih
      suffixes := suffixes_spelled ih
      callArguments := callArguments_spelled ih
      exprs := exprs_spelled ih
      tableFields := tableFields_spelled ih
      fieldList := fieldList_spelled ih
      tableField := tableField_spelled ih
      functionBody := functionBody_spelled ih
      block := block_spelled ih
      statements := statements_spelled ih
      statementNode := statementNode_spelled ih
      elseIfs := elseIfs_spelled ih
      otherwise := otherwise_spelled ih
      forLoop := forLoop_spelled ih
      declaration := declaration_spelled ih
      declarationBehind := declarationBehind_spelled ih
      simpleStatement := simpleStatement_spelled ih
      moreTargets := moreTargets_spelled ih }

end Reader

/-- Each path of a tree is spelled by its tokens. -/
theorem Chunk.passages_written {ls : List Lexeme} {chunk : Chunk}
    (h : Chunk.ofLexemes? ls = some chunk) :
    ∀ passage ∈ chunk.passages, Written ls passage := by
  obtain ⟨stop, hrun⟩ := Chunk.ofLexemes?_eq_some_iff.mp h
  exact ((Reader.spelling ls _).statements false _ _ _ (.inl (behindShebang_suffix ls)) trivial
    hrun).2

end LuaScope

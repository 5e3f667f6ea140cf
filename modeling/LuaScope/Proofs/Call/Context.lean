import LuaScope.Proofs.Call.Comma
import LuaScope.Proofs.Syntax.Path

/-!
# LuaScope.Proofs.Call.Context

The call around a cursor that is found in the text alone, against the calls of the tree.

* `Separated.looseCommas_eq` — the commas outside brackets between the parenthesis and a cursor.
* `callContext_eq`           — what the search finds from behind a parenthesis.
* `callContext_of_call`      — in an argument the callee is found, and the argument counted by them.
-/

namespace LuaScope

/-! ## Call sites -/

/-- The text in front of the cursor at an offset. -/
def textBefore (text : List Char) (offset : Nat) : List Char :=
  (CursorSplit.of text offset).before.reverse

/-- From the first name of a path to its last one. -/
def pathSpan (path : List Ident) : Span :=
  ⟨path.head?.elim 0 (·.span.start), path.getLast?.elim 0 (·.span.stop)⟩

/-- Behind the callee stands a table or a string that is the only argument. -/
def Bare (ls : List Lexeme) (path : List Ident) : Prop :=
  ∃ used l behind, Spells used path ∧ used ++ l :: behind <:+ ls ∧
    (l.token = .mark .leftBrace ∨ ∃ content, l.token = .literal content)

/-- Where the arguments of a call stand, between parentheses. -/
structure CallSite where
  opening : Lexeme
  arguments : List Argument

/-- The tokens hold the arguments at the site, behind the names of the callee. -/
def CallSite.Of (site : CallSite) (ls : List Lexeme) (path : List Ident) (es : List Expr) : Prop :=
  ∃ used behind, Spells used path ∧ used ++ site.opening :: behind <:+ ls ∧
    site.opening.token = .mark .leftParen ∧
    Separated site.opening.span.stop behind site.arguments es

/-- The cursor stands in the argument, but in no brackets within it. -/
structure Argument.Holds (argument : Argument) (offset : Nat) : Prop where
  start : argument.extent.start ≤ offset
  stop : offset ≤ argument.extent.stop
  outside : openBehind 0 (signs (argument.tokens.takeWhile (·.span.stop ≤ offset))) = some 0

/-- What the search relies on at a call. -/
structure CallSite.Readable (site : CallSite) (text : List Char) (ls : List Lexeme)
    (call : CallNode) (path : List Ident) (offset : Nat) : Prop where
  /-- The names are of ASCII. -/
  names : ∀ name ∈ path, ∀ c ∈ name.name.toList, isWordChar c = true
  /-- The callee is written without blanks. -/
  written : stretch text (pathSpan path) = call.spelling
  /-- No name or numeral touches the callee, not even with dots or colons between them. -/
  front : ∀ c ∈ (stretch text ⟨0, (pathSpan path).start⟩).reverse.takeWhile isPathChar,
    isSeparator c = true
  /-- No comment stands between the callee and the parenthesis. -/
  gap : ∀ c ∈ stretch text ⟨(pathSpan path).stop, site.opening.span.start⟩, isCalleeBlank c = true
  /-- No blank line stands between the parenthesis and the cursor. -/
  lines : ¬['\n', '\n'] <:+: stretch (textBefore text offset) ⟨site.opening.span.start, offset⟩
  /-- The brackets within each string and comment of the call close each other. -/
  closed : Sealed (textBefore text offset) site.opening.span.stop ls

/-- The commas in front of the cursor that stand between no arguments of the call, but outside of
all brackets within an argument: those of strings, comments and function bodies. -/
def CallSite.strayCommas (site : CallSite) (text : List Char) (offset : Nat) : Nat :=
  (site.arguments.map fun a => looseCommas 0 (stretch (textBefore text offset) a.extent)).sum

/-! ## Commas between arguments -/

theorem stretch_of_length_le {text : List Char} {s : Span} (h : byteLength text ≤ s.start) :
    stretch text s = [] := by
  rw [stretch, dropBytes_of_le h, takeBytes_nil]

theorem takeWhile_append_of_not {α : Type} {p : α → Bool} {x : α} (h : p x = false) :
    ∀ (xs ys : List α), (xs ++ x :: ys).takeWhile p = xs.takeWhile p
  | [], ys => by simp [h]
  | y :: xs, ys => by
    rw [List.cons_append, List.takeWhile_cons, List.takeWhile_cons, takeWhile_append_of_not h]

namespace Separated

variable {start : Nat} {ahead : List Lexeme} {arguments : List Argument} {es : List Expr}

/-- Arguments follow one another. -/
theorem start_le (h : Separated start ahead arguments es) (hlined : Lexeme.LinedUp start ahead) :
    ∀ a ∈ arguments, start ≤ a.extent.start := by
  induction h with
  | last => exact fun a ha => by rw [List.mem_singleton.mp ha]
  | @more start tokens behind comma e arguments es _ _ _ ih =>
    obtain ⟨hle, hspan, -, hbehind⟩ := hlined.suffix (List.suffix_append tokens (comma :: behind))
    refine List.forall_mem_cons.mpr ⟨Nat.le_refl _, fun a ha => ?_⟩
    exact Nat.le_trans (Nat.le_trans hle hspan) (ih hbehind a ha)

end Separated

/-- The tokens in `ahead` are those of the text from `start` on, which goes on behind `front`; a
cursor at `offset` stands behind `inside`. -/
structure Inside (start offset : Nat) (ahead : List Lexeme) (front inside after : List Char) :
    Prop where
  cut : Cut start false [] (inside ++ after) ahead
  starts : byteLength front = start
  cursor : CursorAt start inside after offset
  closed : Sealed (front ++ inside) start ahead

section Pieces

variable {start offset : Nat} {tokens behind ahead : List Lexeme} {next : Lexeme} {e : Expr}
  {front inside after : List Char}

/-- Commas are counted alike where they are tallied alike. -/
theorem looseCommas_eq_of_tally {xs ys : List Char} (h : tally (0, 0) xs = tally (0, 0) ys)
    (hxs : openBehind 0 xs = some 0) (hys : openBehind 0 ys = some 0) :
    looseCommas 0 xs = looseCommas 0 ys := by
  rw [tally_eq hxs, tally_eq hys] at h
  simpa using h

theorem Inside.inert (h : Inside start offset ahead front inside after)
    (hhushed : Hushed (front ++ inside) start ahead) :
    Verbatim (Inert tally) (front ++ inside) start ahead :=
  (h.closed.and hhushed).imp fun _ hword => inert_tally hword.1 hword.2

namespace Argument.Holds

/-- An argument that the cursor stands in does up to the cursor what its tokens do. -/
theorem acts_eq {σ : Type} {f : σ → List Char → Option σ} (hf : Acts f)
    (h : Argument.Holds ⟨tokens, ⟨start, next.span.start⟩⟩ offset)
    (hinside : Inside start offset (tokens ++ next :: behind) front inside after)
    (hnext : next.token ≠ .mark .assign)
    (hinert : Verbatim (Inert f) (front ++ inside) start (tokens ++ next :: behind)) (s : σ) :
    f s inside = f s (signs (tokens.takeWhile fun l => l.span.stop ≤ offset)) := by
  have hlined := hinside.cut.linedUp.suffix (List.suffix_append tokens (next :: behind))
  have hlt : offset < next.span.stop := Nat.lt_of_le_of_lt h.stop (hlined.2.2.1 hnext)
  have hstance : Stance f start (tokens ++ next :: behind) front inside after [] offset :=
    { start := hinside.starts
      cursor := hinside.cursor
      ends := ⟨next, List.mem_append_right _ List.mem_cons_self, hlt⟩
      inert := by rwa [List.append_nil]
      goesOn := .inl rfl }
  rw [hinside.cut.acts_eq hf rfl rfl hstance s, takeWhile_append_of_not (by simpa using hlt)]

theorem stretch_eq (h : Argument.Holds ⟨tokens, ⟨start, next.span.start⟩⟩ offset)
    (hinside : Inside start offset (tokens ++ next :: behind) front inside after) :
    stretch (front ++ inside) ⟨start, next.span.start⟩ = inside := by
  refine stretch_of_le hinside.starts.symm ?_
  rw [hinside.starts]
  exact Nat.le_trans hinside.cursor.le h.stop

theorem closed (h : Argument.Holds ⟨tokens, ⟨start, next.span.start⟩⟩ offset)
    (hinside : Inside start offset (tokens ++ next :: behind) front inside after)
    (hnext : next.token ≠ .mark .assign) : openBehind 0 inside = some 0 := by
  rw [h.acts_eq acts_openBehind hinside hnext (hinside.closed.imp fun _ => inert_openBehind),
    h.outside]

/-- Up to the cursor there are no commas but those in brackets, strings and comments. -/
theorem looseCommas_eq (h : Argument.Holds ⟨tokens, ⟨start, next.span.start⟩⟩ offset)
    (hinside : Inside start offset (tokens ++ next :: behind) front inside after)
    (hnext : next.token ≠ .mark .assign) (hreads : Reads tokens (next :: behind) e)
    (he : e.showsFunction = false)
    (hhushed : Hushed (front ++ inside) start (tokens ++ next :: behind)) :
    looseCommas 0 inside = 0 := by
  have htally := h.acts_eq acts_tally hinside hnext (hinside.inert hhushed) (0, 0)
  rw [looseCommas_eq_of_tally htally (h.closed hinside hnext) h.outside]
  have hall := hreads.looseCommas_eq he
  rw [← List.takeWhile_append_dropWhile (p := fun l : Lexeme => decide (l.span.stop ≤ offset))
    (l := tokens), signs_append, looseCommas_append h.outside] at hall
  exact (Nat.add_eq_zero_iff.mp hall).1

end Argument.Holds

/-- The text of an argument up to its comma, and what is behind it in front of the cursor. -/
structure Inside.Past (offset : Nat) (next : Lexeme) (behind : List Lexeme)
    (front inside after piece rest : List Char) : Prop where
  text : inside = piece ++ ',' :: rest
  comma : next.span.start = byteLength (front ++ piece)
  stop : next.span.stop = byteLength (front ++ (piece ++ [',']))
  goesOn : Inside next.span.stop offset behind (front ++ (piece ++ [','])) rest after

theorem Inside.exists_past (h : Inside start offset (tokens ++ next :: behind) front inside after)
    (hnext : next.token = .mark .comma) (hafter : next.span.stop ≤ offset) :
    ∃ piece rest, Inside.Past offset next behind front inside after piece rest := by
  obtain ⟨hcut, rfl, hcursor, hclosed⟩ := h
  have hlined := hcut.linedUp.suffix (List.suffix_append tokens (next :: behind))
  obtain ⟨opening, comments, passed, found, htext, hfound⟩ := Cut.drop tokens hcut
  obtain ⟨gap, found, n, -, rfl, hscan, hspan, hbehind⟩ := hfound.uncons
  have hword : found.take n = [','] :=
    Token.word_of_sign (scan_of_scanAt (by simp [hnext]) hscan) (by rw [hnext]; rfl)
  have hcomma : next.span.start = byteLength (front ++ (passed ++ gap)) := by
    rw [hspan]
    simp [Nat.add_assoc]
  have hstop : next.span.stop = byteLength (front ++ ((passed ++ gap) ++ [','])) := by
    rw [hspan, hword]
    simp [Nat.add_assoc]
  have hsplit : ((passed ++ gap) ++ [',']) ++ found.drop n = inside ++ after := by
    rw [htext, List.append_assoc, List.append_assoc, ← hword, List.take_append_drop]
  rcases word_split hsplit with ⟨rest, rfl, hrest⟩ | ⟨c, more, hinside, rfl⟩
  · refine ⟨passed ++ gap, rest, by simp, hcomma, hstop, hrest ▸ hbehind, hstop.symm, ?_, ?_⟩
    · have hbehind := hcursor.behind
      rwa [← byteLength_append, ← hstop] at hbehind
    · rw [List.append_assoc front]
      exact hclosed.of_suffix ((List.suffix_cons _ _).trans (List.suffix_append _ _))
        (Nat.le_trans hlined.1 hlined.2.1)
  · have hwithin := hcursor.within
    rw [← hinside, ← byteLength_append, ← hstop] at hwithin
    omega

namespace Inside.Past

variable {piece rest : List Char}

/-- An argument in front of a comma does what its tokens do. -/
theorem acts_eq {σ : Type} {f : σ → List Char → Option σ} (hf : Acts f)
    (h : Inside.Past offset next behind front inside after piece rest)
    (hinside : Inside start offset (tokens ++ next :: behind) front inside after)
    (hinert : Verbatim (Inert f) (front ++ inside) start (tokens ++ next :: behind)) (s : σ) :
    f s piece = f s (signs tokens) := by
  obtain ⟨rfl, hcomma, hstop, -⟩ := h
  have hmem : next ∈ tokens ++ next :: behind := List.mem_append_right _ List.mem_cons_self
  have hlt : next.span.start < next.span.stop := by
    rw [hcomma, hstop, ← List.append_assoc, byteLength_append (front ++ piece)]
    simp [Char.utf8Size_pos]
  have hpassed : ∀ l ∈ tokens, l.span.stop ≤ next.span.start := fun l hl =>
    (List.pairwise_append.mp hinside.cut.apart.1).2.2 l hl next List.mem_cons_self
  have hstance : Stance f start (tokens ++ next :: behind) front piece (',' :: (rest ++ after))
      (',' :: rest) next.span.start :=
    { start := hinside.starts
      cursor := by
        rw [hcomma, byteLength_append, hinside.starts]
        exact ⟨Nat.le_refl _, fun c _ => Nat.lt_add_of_pos_right c.utf8Size_pos⟩
      ends := ⟨next, hmem, hlt⟩
      inert := hinert
      goesOn := .inr ⟨next, hmem, rfl⟩ }
  rw [hinside.cut.acts_eq hf rfl (by simp) hstance s,
    takeWhile_append_of_not (by simpa using hlt),
    List.takeWhile_eq_self_iff.mpr fun l hl => by simpa using hpassed l hl]

theorem stretch_eq (h : Inside.Past offset next behind front inside after piece rest) :
    stretch (front ++ inside) ⟨byteLength front, next.span.start⟩ = piece := by
  obtain ⟨rfl, hcomma, -, -⟩ := h
  exact stretch_append rfl (hcomma.trans (byteLength_append _ _))

theorem closed (h : Inside.Past offset next behind front inside after piece rest)
    (hinside : Inside start offset (tokens ++ next :: behind) front inside after)
    (hreads : Reads tokens (next :: behind) e) : openBehind 0 piece = some 0 := by
  rw [h.acts_eq acts_openBehind hinside (hinside.closed.imp fun _ => inert_openBehind),
    hreads.closed]

/-- It has no commas but those in brackets, strings and comments. -/
theorem looseCommas_eq (h : Inside.Past offset next behind front inside after piece rest)
    (hinside : Inside start offset (tokens ++ next :: behind) front inside after)
    (hreads : Reads tokens (next :: behind) e) (he : e.showsFunction = false)
    (hhushed : Hushed (front ++ inside) start (tokens ++ next :: behind)) :
    looseCommas 0 piece = 0 := by
  have htally := h.acts_eq acts_tally hinside (hinside.inert hhushed) (0, 0)
  rw [looseCommas_eq_of_tally htally (h.closed hinside hreads) hreads.closed,
    hreads.looseCommas_eq he]

end Inside.Past

/-- Arguments behind the cursor hold no text in front of it. -/
theorem Separated.strayCommas_eq {arguments : List Argument} {es : List Expr}
    (h : Separated start ahead arguments es) (hlined : Lexeme.LinedUp start ahead)
    (text : List Char) (htext : byteLength text ≤ start) :
    (arguments.map fun a => looseCommas 0 (stretch text a.extent)).sum = 0 := by
  refine List.sum_eq_zero fun n hn => ?_
  obtain ⟨a, ha, rfl⟩ := List.mem_map.mp hn
  rw [stretch_of_length_le (Nat.le_trans htext (h.start_le hlined a ha))]
  rfl

end Pieces

/-- Between the parenthesis and a cursor in an argument all brackets are closed, and the commas
outside of them are those between the arguments and those within them. Within them there is none, if
strings and comments hold none and no argument up to the cursor shows a function literal. -/
theorem Separated.looseCommas_eq {start offset : Nat} {ahead : List Lexeme}
    {arguments : List Argument} {es : List Expr} (h : Separated start ahead arguments es) :
    ∀ {front inside after : List Char} {k : Nat} {argument : Argument},
      Inside start offset ahead front inside after → arguments[k]? = some argument →
      argument.Holds offset → openBehind 0 inside = some 0 ∧
      looseCommas 0 inside =
        k + (arguments.map fun a => looseCommas 0 (stretch (front ++ inside) a.extent)).sum ∧
      ((∀ e ∈ es.take (k + 1), e.showsFunction = false) → Hushed (front ++ inside) start ahead →
        (arguments.map fun a => looseCommas 0 (stretch (front ++ inside) a.extent)).sum = 0) := by
  induction h with
  | @last start tokens behind closing e hreads hclosing =>
    intro front inside after k argument hinside hk hholds
    obtain ⟨rfl, rfl⟩ : k = 0 ∧ argument = ⟨tokens, ⟨start, closing.span.start⟩⟩ := by
      cases k with
      | zero => exact ⟨rfl, (Option.some.inj hk).symm⟩
      | succ k => cases hk
    have hclosing : closing.token ≠ .mark .assign := by
      rw [hclosing]
      nofun
    rw [List.map_singleton, List.sum_singleton, hholds.stretch_eq hinside, Nat.zero_add]
    exact ⟨hholds.closed hinside hclosing, rfl, fun hes hhushed =>
      hholds.looseCommas_eq hinside hclosing hreads (hes e List.mem_cons_self) hhushed⟩
  | @more start tokens behind comma e arguments es hreads hcomma hrest ih =>
    intro front inside after k argument hinside hk hholds
    have hlined := hinside.cut.linedUp.suffix (List.suffix_append tokens (comma :: behind))
    have hnext : comma.token ≠ .mark .assign := by
      rw [hcomma]
      nofun
    rw [List.map_cons, List.sum_cons]
    cases k with
    | zero =>
      obtain rfl : _ = argument := Option.some.inj hk
      have hothers := hrest.strayCommas_eq hlined.2.2.2 (front ++ inside) (by
        have hle := hinside.cursor.le
        have hstop := hholds.stop
        have hspan := hlined.2.1
        rw [byteLength_append, hinside.starts]
        dsimp only at hstop
        omega)
      rw [hholds.stretch_eq hinside, hothers, Nat.add_zero, Nat.zero_add]
      exact ⟨hholds.closed hinside hnext, rfl, fun hes hhushed =>
        hholds.looseCommas_eq hinside hnext hreads (hes e List.mem_cons_self) hhushed⟩
    | succ k =>
      have hafter : comma.span.stop ≤ offset :=
        Nat.le_trans (hrest.start_le hlined.2.2.2 argument (List.mem_of_getElem? hk)) hholds.start
      obtain ⟨piece, rest, hpast⟩ := hinside.exists_past hcomma hafter
      obtain ⟨hdepth, hcount, hnone⟩ := ih hpast.goesOn hk hholds
      have hpiece := hpast.closed hinside hreads
      have hfirst := hpast.stretch_eq
      have htext : front ++ inside = (front ++ (piece ++ [','])) ++ rest := by
        rw [hpast.text]
        simp
      rw [← htext] at hcount hnone
      rw [hinside.starts] at hfirst
      rw [hfirst]
      refine ⟨?_, ?_, fun hes hhushed => ?_⟩
      · rw [hpast.text, openBehind_append, hpiece, Option.bind_some, openBehind_comma,
          hdepth]
      · rw [hpast.text, looseCommas_append hpiece, looseCommas_comma, hcount, ← hpast.text]
        omega
      · obtain ⟨he, hes⟩ := List.forall_mem_cons.mp hes
        rw [hpast.looseCommas_eq hinside hreads he hhushed, Nat.zero_add]
        exact hnone hes (hhushed.of_suffix
          ((List.suffix_cons _ _).trans (List.suffix_append _ _)) (Nat.le_trans hlined.1 hlined.2.1))

/-! ## The callee -/

theorem PathText.starts {text : List Char} {path : List Ident} {first : Ident}
    (h : PathText text path) (hfirst : path.head? = some first) :
    ∃ rest, text = first.name.toList ++ rest := by
  induction h with
  | name ident =>
    obtain rfl : ident = first := Option.some.inj hfirst
    exact ⟨[], (List.append_nil _).symm⟩
  | member ident front _ _ _ ih =>
    rw [List.head?_append_of_ne_nil _ front.ne_nil] at hfirst
    obtain ⟨rest, rfl⟩ := ih hfirst
    exact ⟨_, List.append_assoc _ _ _⟩

theorem PathText.ends {text : List Char} {path : List Ident} {last : Ident}
    (h : PathText text path) (hlast : path.getLast? = some last) :
    ∃ front, text = front ++ last.name.toList := by
  cases h with
  | name ident =>
    obtain rfl : ident = last := Option.some.inj hlast
    exact ⟨[], rfl⟩
  | @member text _ gap gap' mark ident _ _ _ _ =>
    obtain rfl : ident = last := Option.some.inj (List.getLast?_concat.symm.trans hlast)
    exact ⟨text ++ (gap ++ mark :: gap'), by simp⟩

theorem isSeparator_of_isWordChar {c : Char} (h : isWordChar c = true) : isSeparator c = false := by
  cases hseparator : isSeparator c with
  | false => rfl
  | true =>
    rw [isSeparator, Bool.or_eq_true, beq_iff_eq, beq_iff_eq] at hseparator
    rcases hseparator with rfl | rfl <;> revert h <;> decide

/-- A callee of ASCII names that is written without blanks is a path of the text. -/
theorem CallNode.isPath {call : CallNode} {path : List Ident} (hpath : call.path? = some path)
    (htext : PathText call.spelling path)
    (hchars : ∀ name ∈ path, ∀ c ∈ name.name.toList, isWordChar c = true)
    (hstarts : ∀ name ∈ path, ∃ c rest, name.name.toList = c :: rest ∧ isNameStart c = true)
    (span : Span) : Excerpt.IsPath ⟨call.spelling, span⟩ := by
  obtain ⟨first, others, rfl⟩ := List.exists_cons_of_ne_nil htext.ne_nil
  obtain ⟨last, hlast⟩ : ∃ last, (first :: others).getLast? = some last := ⟨_, rfl⟩
  obtain ⟨rest, hfirst⟩ := htext.starts rfl
  obtain ⟨front, hends⟩ := htext.ends hlast
  obtain ⟨c, cs, hname, hc⟩ := hstarts first List.mem_cons_self
  obtain ⟨d, ds, hname', -⟩ := hstarts last (List.mem_of_getLast? hlast)
  refine ⟨?_, fun x hx => ?_, fun x hx => ?_, fun x hx => ?_⟩
  · dsimp only
    rw [hfirst, hname]
    exact List.cons_ne_nil _ _
  · rcases mem_spelling hpath hx with h | ⟨name, hname, h⟩
    · rw [isPathChar, h, Bool.or_true]
    · exact isPathChar_of_isWordChar (hchars name hname x h)
  · dsimp only at hx
    rw [hfirst, hname] at hx
    obtain rfl : c = x := Option.some.inj hx
    exact ⟨isSeparator_of_isWordChar (hchars first List.mem_cons_self c (by simp [hname])),
      isDigit_of_isNameStart hc⟩
  · dsimp only at hx
    rw [hends, List.getLast?_append_of_ne_nil _ (by simp [hname'])] at hx
    exact isSeparator_of_isWordChar
      (hchars last (List.mem_of_getLast? hlast) x (List.mem_of_getLast? hx))

/-- The names of a path that the text spells start as names do. -/
theorem Spells.names {text : List Char} {ls used : List Lexeme} {path : List Ident}
    (h : Spells used path) (hused : used ⊆ ls) (hls : Lexeme.ofChars text = some ls) :
    ∀ name ∈ path, ∃ c rest, name.name.toList = c :: rest ∧ isNameStart c = true := by
  intro name hname
  obtain ⟨l, hl, htoken, -⟩ := h.mem name hname
  obtain ⟨mark, rest, opening, comments, -, hcut⟩ := Lexeme.cut_of_ofChars hls
  obtain ⟨c, -, rest, -, htext, hc, -⟩ := hcut.names l (hused hl) name.name htoken
  exact ⟨c, rest, htext, hc⟩

/-! ## The call around a cursor -/

section Site

variable {text : List Char} {ls : List Lexeme} {site : CallSite} {path : List Ident}
  {es : List Expr}

/-- The text of a call: `word` is its callee, and `behind` are the tokens behind its parenthesis. -/
structure CallSite.Stands (site : CallSite) (text : List Char) (path : List Ident)
    (front word gap after : List Char) (behind : List Lexeme) : Prop where
  split : text = front ++ word ++ gap ++ '(' :: after
  spells : PathText word path
  callee : pathSpan path = ⟨byteLength front, byteLength (front ++ word)⟩
  opening : site.opening.span =
    ⟨byteLength (front ++ word ++ gap), byteLength (front ++ word ++ gap ++ ['('])⟩
  cut : Cut site.opening.span.stop false [] after behind

theorem CallSite.Of.stands (h : site.Of ls path es) (hls : Lexeme.ofChars text = some ls) :
    ∃ front word gap after behind, site.Stands text path front word gap after behind ∧
      behind <:+ ls ∧ Separated site.opening.span.stop behind site.arguments es := by
  obtain ⟨used, behind, hspells, hsuffix, hopening, hseparated⟩ := h
  obtain ⟨before, rfl⟩ := hsuffix
  obtain ⟨mark, rest, opening, comments, rfl, hcut⟩ := Lexeme.cut_of_ofChars hls
  obtain ⟨opening', comments', passed, rest, rfl, hused⟩ := Cut.drop before hcut
  obtain ⟨gap, word, rest, first, last, rfl, hword, hfirst, hlast, hstart, hstop, hrest⟩ :=
    hspells.pathText hused
  obtain ⟨gap', found, n, -, rfl, hscan, hspan, hbehind⟩ := hrest.uncons
  have hparen : found.take n = ['('] :=
    Token.word_of_sign (scan_of_scanAt (by simp [hopening]) hscan) (by rw [hopening]; rfl)
  have hfound : '(' :: found.drop n = found := by
    rw [← List.singleton_append, ← hparen, List.take_append_drop]
  refine ⟨mark ++ passed ++ gap, word, gap', found.drop n, behind,
    { split := by simp [hfound]
      spells := hword
      callee := ?_
      opening := ?_
      cut := hbehind },
    (List.suffix_cons _ _).trans ((List.suffix_append _ _).trans (List.suffix_append _ _)),
    hseparated⟩
  · simp [pathSpan, hfirst, hlast, hstart, hstop, Nat.add_assoc]
  · rw [hspan, hstop, hparen]
    simp [Nat.add_assoc]

/-- The text in front of a cursor in an argument goes on behind the parenthesis. -/
theorem exists_inside {front after : List Char} {offset : Nat} (h : text = front ++ after)
    (hle : byteLength front ≤ offset) :
    ∃ inside rest, textBefore text offset = front ++ inside ∧ after = inside ++ rest ∧
      CursorAt (byteLength front) inside rest offset := by
  obtain ⟨hsplit, hstop, hnext⟩ := CursorSplit.of_spec text offset
  have hcursor : CursorAt 0 (textBefore text offset) (CursorSplit.of text offset).after offset := by
    refine ⟨?_, ?_⟩
    · rw [textBefore, byteLength_reverse, Nat.zero_add]
      exact hstop
    · rw [textBefore, byteLength_reverse, Nat.zero_add]
      exact hnext
  rcases word_split (h.symm.trans hsplit.symm) with ⟨inside, hinside, hafter⟩ | ⟨c, more, hword, hmore⟩
  · refine ⟨inside, _, hinside, hafter, ?_⟩
    rw [textBefore, hinside] at hcursor
    have hbehind := hcursor.behind
    rwa [Nat.zero_add] at hbehind
  · rw [hmore] at hcursor
    have hwithin := hcursor.within
    rw [textBefore, ← hword] at hwithin
    omega

/-- The search from a cursor behind an open parenthesis. -/
theorem callContext_eq {front word gap inside : List Char} {offset : Nat}
    (hbefore : textBefore text offset = front ++ word ++ gap ++ '(' :: inside)
    (hfront : ∀ c ∈ front.reverse.takeWhile isPathChar, isSeparator c = true)
    (hword : Excerpt.IsPath ⟨word, ⟨byteLength front, byteLength front + byteLength word⟩⟩)
    (hgap : ∀ c ∈ gap, isCalleeBlank c = true) (hdepth : openBehind 0 inside = some 0)
    (hlines : ¬['\n', '\n'] <:+: '(' :: inside) : callContext text offset =
      some ⟨⟨word, ⟨byteLength front, byteLength front + byteLength word⟩⟩,
        looseCommas 0 inside⟩ := by
  have hreverse : (CursorSplit.of text offset).before =
      inside.reverse ++ '(' :: (front ++ word ++ gap).reverse := by
    rw [← List.reverse_reverse (CursorSplit.of text offset).before, ← textBefore, hbefore]
    simp
  rw [callContext, hreverse, callBefore_reverse hdepth 0 '(' _ hlines, callBefore_paren,
    calleeBefore_path hfront hword hgap, Option.map_some, Nat.zero_add]

namespace CallSite.Stands

variable {front word gap after : List Char} {behind : List Lexeme}

theorem stretch_callee (h : site.Stands text path front word gap after behind) :
    stretch text (pathSpan path) = word := by
  rw [h.split, h.callee, List.append_assoc, List.append_assoc]
  exact stretch_append rfl (byteLength_append _ _)

theorem stretch_front (h : site.Stands text path front word gap after behind) :
    stretch text ⟨0, (pathSpan path).start⟩ = front := by
  rw [h.split, h.callee, List.append_assoc, List.append_assoc]
  have hfirst := slice_append [] front (word ++ (gap ++ '(' :: after))
  rwa [byteLength_nil, Nat.zero_add] at hfirst

theorem stretch_gap (h : site.Stands text path front word gap after behind) :
    stretch text ⟨(pathSpan path).stop, site.opening.span.start⟩ = gap := by
  rw [h.split, h.callee, h.opening, List.append_assoc]
  exact stretch_append rfl (byteLength_append _ _)

end CallSite.Stands

/-- A cursor in an argument stands behind the parenthesis, and the search finds the callee. -/
theorem CallSite.Readable.callContext_eq {call : CallNode} {offset : Nat}
    {front word gap after : List Char} {behind : List Lexeme}
    (h : site.Readable text ls call path offset) (hls : Lexeme.ofChars text = some ls)
    (hpath : call.path? = some path) (hsite : site.Of ls path es)
    (hstands : site.Stands text path front word gap after behind) (hbehind : behind <:+ ls)
    (hle : site.opening.span.stop ≤ offset) :
    ∃ outer inside rest, textBefore text offset = outer ++ inside ∧
      Inside site.opening.span.stop offset behind outer inside rest ∧
      (openBehind 0 inside = some 0 → callContext text offset =
        some ⟨⟨call.spelling, pathSpan path⟩, looseCommas 0 inside⟩) := by
  obtain rfl : word = call.spelling := hstands.stretch_callee.symm.trans h.written
  have hopening := hstands.opening
  have hsplit : text = (front ++ call.spelling ++ gap ++ ['(']) ++ after := by
    rw [hstands.split, List.append_assoc _ ['('], List.singleton_append]
  have hstop : site.opening.span.stop = byteLength (front ++ call.spelling ++ gap ++ ['(']) := by
    rw [hopening]
  obtain ⟨inside, rest, hbefore, rfl, hcursor⟩ := exists_inside hsplit (hstop ▸ hle)
  have hclosed := h.closed.of_suffix hbehind (Nat.le_refl _)
  rw [hbefore] at hclosed
  rw [← hstop] at hcursor
  refine ⟨_, inside, rest, hbefore, ⟨hstands.cut, hstop.symm, hcursor, hclosed⟩, fun hdepth => ?_⟩
  have hparen : textBefore text offset = (front ++ call.spelling ++ gap) ++ ('(' :: inside) := by
    rw [hbefore, List.append_assoc _ ['('], List.singleton_append]
  have hlines : ¬['\n', '\n'] <:+: '(' :: inside := by
    have hlines := h.lines
    have hend := hcursor.le
    rw [hstop, byteLength_append _ ['('], Nat.add_assoc, ← byteLength_append,
      List.singleton_append] at hend
    rw [hparen, hopening, stretch_of_le rfl hend] at hlines
    exact hlines
  have hspan : pathSpan path = ⟨byteLength front, byteLength front + byteLength call.spelling⟩ := by
    rw [hstands.callee, byteLength_append]
  obtain ⟨used, _, hspells, hsuffix, -⟩ := hsite
  have hnames := hspells.names (fun _ hl => hsuffix.subset (List.mem_append_left _ hl)) hls
  rw [hspan]
  exact LuaScope.callContext_eq hparen (hstands.stretch_front ▸ h.front)
    (CallNode.isPath hpath hstands.spells h.names hnames _) (hstands.stretch_gap ▸ h.gap) hdepth hlines

end Site

/--
In a document with the tokens `ls`, a call whose callee is a path has its arguments in parentheses
at a site, if it has any and they are no bare table or string. With the cursor in the argument `k`
but in no brackets within it, the callee is found, and the active parameter is `k` and the number of
commas that stray in front of the cursor: so it is `k` if and only if there are none. There are none
if no string and no comment holds one outside of brackets, and no argument up to the cursor shows a
function literal.
-/
theorem callContext_of_call {text : List Char} {ls : List Lexeme} {chunk : Chunk}
    {call : CallNode} {path : List Ident} (hls : Lexeme.ofChars text = some ls)
    (hchunk : Chunk.ofLexemes? ls = some chunk) (hcall : call ∈ chunk.calls)
    (hpath : call.path? = some path) (hsome : call.arguments ≠ []) :
    (Bare ls path ∨ ∃ site : CallSite, site.Of ls path call.arguments) ∧
      ∀ site : CallSite, site.Of ls path call.arguments →
        ∀ (k : Nat) (argument : Argument), site.arguments[k]? = some argument →
        ∀ offset, argument.Holds offset → site.Readable text ls call path offset →
        callContext text offset =
          some ⟨⟨call.spelling, pathSpan path⟩, k + site.strayCommas text offset⟩ ∧
        ((∀ e ∈ call.arguments.take (k + 1), e.showsFunction = false) →
          Hushed (textBefore text offset) site.opening.span.stop ls →
          site.strayCommas text offset = 0) := by
  constructor
  · obtain ⟨used, behind, hspells, hsuffix, hargued⟩ := Chunk.calls_laid hchunk call hcall path hpath
    generalize hes : call.arguments = es at hargued hsome
    cases hargued with
    | none => exact absurd rfl hsome
    | @separated opening behind arguments _ hopening hseparated =>
      exact .inr ⟨⟨opening, arguments⟩, used, behind, hspells, hsuffix, hopening, hseparated⟩
    | @bare l behind _ hbare => exact .inl ⟨used, l, behind, hspells, hsuffix, hbare⟩
  · intro site hsite k argument hk offset hholds hreadable
    obtain ⟨front, word, gap, after, behind, hstands, hbehind, hseparated⟩ := hsite.stands hls
    have hle : site.opening.span.stop ≤ offset :=
      Nat.le_trans (hseparated.start_le hstands.cut.linedUp argument (List.mem_of_getElem? hk))
        hholds.start
    obtain ⟨outer, inside, rest, hbefore, hinside, hfound⟩ :=
      hreadable.callContext_eq hls hpath hsite hstands hbehind hle
    obtain ⟨hdepth, hcount, hnone⟩ := hseparated.looseCommas_eq hinside hk hholds
    rw [← hbefore] at hcount hnone
    exact ⟨(hfound hdepth).trans (by rw [hcount, CallSite.strayCommas]), fun hes hhushed =>
      hnone hes (hhushed.of_suffix hbehind (Nat.le_refl _))⟩

/-- The commas of a nested call do not count. -/
theorem callContext_behind_nested_call :
    callContext "f(g(1, 2), x)".toList 11 = some ⟨⟨"f".toList, ⟨0, 1⟩⟩, 1⟩ := by
  let inner : List Lexeme := [⟨.name "g", ⟨2, 3⟩, []⟩, ⟨.mark .leftParen, ⟨3, 4⟩, []⟩,
    ⟨.number, ⟨4, 5⟩, []⟩, ⟨.mark .comma, ⟨5, 6⟩, []⟩, ⟨.number, ⟨7, 8⟩, []⟩,
    ⟨.mark .rightParen, ⟨8, 9⟩, []⟩]
  let f : Lexeme := ⟨.name "f", ⟨0, 1⟩, []⟩
  let x : Lexeme := ⟨.name "x", ⟨11, 12⟩, []⟩
  let opening : Lexeme := ⟨.mark .leftParen, ⟨1, 2⟩, []⟩
  let comma : Lexeme := ⟨.mark .comma, ⟨9, 10⟩, []⟩
  let closing : Lexeme := ⟨.mark .rightParen, ⟨12, 13⟩, []⟩
  let ls : List Lexeme := f :: opening :: (inner ++ comma :: [x, closing])
  let call : CallNode := ⟨.name ⟨"f", ⟨0, 1⟩⟩, none,
    [.call (.name ⟨"g", ⟨2, 3⟩⟩) none [.number, .number], .name ⟨"x", ⟨11, 12⟩⟩]⟩
  let site : CallSite := ⟨opening, [⟨inner, ⟨2, 9⟩⟩, ⟨[x], ⟨10, 12⟩⟩]⟩
  have hls : Lexeme.ofChars "f(g(1, 2), x)".toList = some ls := by decide +kernel
  have hchunk : Chunk.ofLexemes? ls =
      some ⟨[.mk [] ⟨0, 13⟩ (.call (.call call.callee none call.arguments))]⟩ := rfl
  have hinner : Reads inner (comma :: [x, closing])
      (.call (.name ⟨"g", ⟨2, 3⟩⟩) none [.number, .number]) := ⟨20, 2, 9, rfl⟩
  have hx : Reads [x] [closing] (.name ⟨"x", ⟨11, 12⟩⟩) := ⟨20, 10, 12, rfl⟩
  have hsite : site.Of ls [⟨"f", ⟨0, 1⟩⟩] call.arguments :=
    ⟨[f], _, .name rfl, List.suffix_refl ls, rfl, .more hinner rfl (.last hx rfl)⟩
  have hreadable : site.Readable "f(g(1, 2), x)".toList ls call [⟨"f", ⟨0, 1⟩⟩] 11 :=
    { names := List.forall_mem_singleton.mpr (List.all_eq_true.mp (by decide +kernel))
      written := by decide +kernel
      front := List.all_eq_true.mp (by decide +kernel)
      gap := List.all_eq_true.mp (by decide +kernel)
      lines := by decide +kernel
      closed := by decide +kernel }
  obtain ⟨hfound, hnone⟩ := (callContext_of_call hls hchunk (.head _) rfl
    (List.cons_ne_nil _ _)).2 site hsite 1 _ rfl 11 ⟨by decide, by decide, by decide +kernel⟩ hreadable
  rw [hfound, hnone (by decide) (by decide +kernel)]
  rfl

/-- The comma of a string does: with the cursor in the argument 1 the active parameter is 2. -/
theorem callContext_counts_comma_of_string :
    ∃ (ls : List Lexeme) (chunk : Chunk) (call : CallNode) (path : List Ident) (site : CallSite)
      (argument : Argument), Lexeme.ofChars "f(\"a,b\", x)".toList = some ls ∧
      Chunk.ofLexemes? ls = some chunk ∧ call ∈ chunk.calls ∧ call.path? = some path ∧
      site.Of ls path call.arguments ∧ site.arguments[1]? = some argument ∧ argument.Holds 9 ∧
      site.Readable "f(\"a,b\", x)".toList ls call path 9 ∧
      callContext "f(\"a,b\", x)".toList 9 = some ⟨⟨"f".toList, ⟨0, 1⟩⟩, 2⟩ := by
  let content : Lexeme := ⟨.literal (some "a,b"), ⟨2, 7⟩, []⟩
  let f : Lexeme := ⟨.name "f", ⟨0, 1⟩, []⟩
  let x : Lexeme := ⟨.name "x", ⟨9, 10⟩, []⟩
  let opening : Lexeme := ⟨.mark .leftParen, ⟨1, 2⟩, []⟩
  let comma : Lexeme := ⟨.mark .comma, ⟨7, 8⟩, []⟩
  let closing : Lexeme := ⟨.mark .rightParen, ⟨10, 11⟩, []⟩
  have hcontent : Reads [content] (comma :: [x, closing]) (.literal (some "a,b")) :=
    ⟨20, 2, 7, rfl⟩
  have hx : Reads [x] [closing] (.name ⟨"x", ⟨9, 10⟩⟩) := ⟨20, 8, 10, rfl⟩
  refine ⟨[f, opening, content, comma, x, closing], _,
    ⟨.name ⟨"f", ⟨0, 1⟩⟩, none, [.literal (some "a,b"), .name ⟨"x", ⟨9, 10⟩⟩]⟩, [⟨"f", ⟨0, 1⟩⟩],
    ⟨opening, [⟨[content], ⟨2, 7⟩⟩, ⟨[x], ⟨8, 10⟩⟩]⟩, ⟨[x], ⟨8, 10⟩⟩, by decide +kernel, rfl,
    .head _, rfl,
    ⟨[f], _, .name rfl, List.suffix_refl _, rfl, .more hcontent rfl (.last hx rfl)⟩, rfl,
    ⟨by decide, by decide, by decide +kernel⟩, ?_, by decide +kernel⟩
  exact
    { names := List.forall_mem_singleton.mpr (List.all_eq_true.mp (by decide +kernel))
      written := by decide +kernel
      front := List.all_eq_true.mp (by decide +kernel)
      gap := List.all_eq_true.mp (by decide +kernel)
      lines := by decide +kernel
      closed := by decide +kernel }

end LuaScope

import LuaScope.Proofs.Toml.Key
import LuaScope.Proofs.Toml.Number
import Mathlib.Data.List.TakeWhile

/-!
# LuaScope.Proofs.Toml.Value

Values that are written are read back: numbers and truth values, strings, and lists of them on one
line or on several.

* `TomlReader.value_atom`      — a number, a truth value or a string, in a list or alone.
* `TomlReader.value_valueText` — a value behind its key.
-/

namespace LuaScope

open Toml

namespace TomlReader

variable {cs rest : List Char} {n fuel : Nat} {v : DataValue}

/-! ## Values alone -/

/-- What stands behind a value: the end of its line, a comma or the end of its list. -/
def EndsValue (rest : List Char) : Prop :=
  ∃ c tail, rest = c :: tail ∧ (c = '\n' ∨ c = ',' ∨ c = ']')

theorem EndsValue.noQuote (h : EndsValue rest) : NoQuote rest := by
  obtain ⟨c, tail, rfl, rfl | rfl | rfl⟩ := h <;> simp [NoQuote]

theorem tokenOf_append (hcs : ∀ c ∈ cs, TomlNumber.isTokenChar c = true) (hdate : '-' ∉ cs.drop 1)
    (hrest : EndsValue rest) : TomlNumber.tokenOf (cs ++ rest) = cs := by
  have htoken : (cs ++ rest).takeWhile TomlNumber.isTokenChar = cs := by
    rw [List.takeWhile_append_of_pos hcs]
    obtain ⟨c, tail, rfl, rfl | rfl | rfl⟩ := hrest
    all_goals exact List.append_nil cs
  unfold TomlNumber.tokenOf
  simp only [htoken, TomlNumber.afterDate?_eq_none hdate]

theorem longest?_whole (hne : cs ≠ []) (hvalue : TomlNumber.ofToken? cs = some v) :
    TomlNumber.longest? cs cs.length = some (v, cs.length) := by
  obtain ⟨c, tail, rfl⟩ := List.exists_cons_of_ne_nil hne
  rw [List.length_cons, TomlNumber.longest?, ← List.length_cons (a := c), List.take_length, hvalue]

/-- A number or a truth value. -/
theorem value_token (hne : cs ≠ []) (hcs : ∀ c ∈ cs, TomlNumber.isTokenChar c = true)
    (hdate : '-' ∉ cs.drop 1) (hvalue : TomlNumber.ofToken? cs = some v) (hrest : EndsValue rest) :
    value (fuel + 1) (cs ++ rest) = .ok (v, rest) := by
  have htoken := tokenOf_append hcs hdate hrest
  have hlongest := longest?_whole hne hvalue
  obtain ⟨c, tail, rfl⟩ := List.exists_cons_of_ne_nil hne
  have hother := TomlNumber.ne_of_isTokenChar (hcs c (.head _))
  have hdouble := hother '"' (by decide)
  have hsingle := hother '\'' (by decide)
  have hbracket := hother '[' (by decide)
  have hbrace := hother (Char.ofNat 0x7b) (by decide)
  rw [List.cons_append] at htoken ⊢
  have hdrop : (c :: (tail ++ rest)).drop (c :: tail).length = rest := List.drop_left
  simp [value, hbrace, htoken, hlongest, hdrop, -List.length_cons]

/-- Truth values, whole numbers that a signed one can hold, floats that are read back, texts. -/
def IsAtom : DataValue → Prop
  | .boolean _ | .text _ => True
  | .unsigned n => n < Nat.pow 2 63
  | .float x => TomlNumber.ReadsBack x
  | _ => False

/-- Whole numbers are read as signed ones. -/
def atomAsRead : DataValue → DataValue
  | .unsigned n => .signed n
  | v => v

/-- A value begins with a quote or like a number. -/
def StartsValue (cs : List Char) : Prop :=
  ∃ c tail, cs = c :: tail ∧ (c = '"' ∨ c = '\'' ∨ TomlNumber.isTokenChar c = true)

theorem startsValue_token (hne : cs ≠ []) (hcs : ∀ c ∈ cs, TomlNumber.isTokenChar c = true) :
    StartsValue cs := by
  obtain ⟨c, tail, rfl⟩ := List.exists_cons_of_ne_nil hne
  exact ⟨c, tail, rfl, .inr (.inr (hcs c (.head _)))⟩

theorem startsValue_stringText (s : String) : ∃ c tail, stringText s = c :: tail ∧
    (c = '"' ∨ c = '\'') := by
  unfold stringText
  simp only
  split
  · split
    · exact ⟨_, _, rfl, .inr rfl⟩
    · exact ⟨_, _, rfl, .inl rfl⟩
  split
  · exact ⟨_, _, rfl, .inl rfl⟩
  split
  · exact ⟨_, _, rfl, .inr rfl⟩
  split
  · exact ⟨_, _, rfl, .inl rfl⟩
  split
  · exact ⟨_, _, rfl, .inr rfl⟩
  · exact ⟨_, _, rfl, .inl rfl⟩

/-- An atom is read back, whatever the value it stands in. -/
theorem value_atom (hv : IsAtom v) (pretty : Bool) : StartsValue (valueText pretty v) ∧
    ∀ {fuel : Nat} {rest : List Char}, EndsValue rest →
      value (fuel + 1) (valueText pretty v ++ rest) = .ok (atomAsRead v, rest) := by
  cases v with
  | boolean b =>
    have hword : ∀ word : List Char, word ≠ [] → word.all TomlNumber.isTokenChar = true →
        '-' ∉ word.drop 1 → TomlNumber.ofToken? word = some (.boolean b) → StartsValue word ∧
          ∀ {fuel : Nat} {rest : List Char}, EndsValue rest →
            value (fuel + 1) (word ++ rest) = .ok (.boolean b, rest) := by
      intro word hne hall hdate hvalue
      have hcs := List.all_eq_true.mp hall
      exact ⟨startsValue_token hne hcs, fun hrest => value_token hne hcs hdate hvalue hrest⟩
    cases b with
    | false => exact hword "false".toList (by decide) (by decide) (by decide) rfl
    | true => exact hword "true".toList (by decide) (by decide) (by decide) rfl
  | unsigned n =>
    have hdigits := allDigits_toDigits n
    refine ⟨startsValue_token hdigits.1 hdigits.isTokenChar, fun hrest => ?_⟩
    exact value_token hdigits.1 hdigits.isTokenChar
      (fun hmem => hdigits.notMem (by decide) (List.mem_of_mem_drop hmem))
      (TomlNumber.ofToken?_digits hv) hrest
  | float x =>
    have hpointed := TomlNumber.ReadsBack.isPointed hv
    obtain ⟨c, tail, hcs, -⟩ := hpointed.head
    have hne : (Decimal.floatTextWithPoint x).toList ≠ [] := by
      rw [hcs]
      exact List.cons_ne_nil _ _
    exact ⟨startsValue_token hne hpointed.isTokenChar, fun hrest =>
      value_token hne hpointed.isTokenChar hpointed.hyphen (hpointed.ofToken? hv) hrest⟩
  | text s =>
    obtain ⟨c, tail, htext, hc⟩ := startsValue_stringText s
    refine ⟨⟨c, tail, htext, hc.imp id .inl⟩, fun {fuel rest} hrest => ?_⟩
    have hread := string_stringText s hrest.noQuote
    have hvalue : value (fuel + 1) (stringText s ++ rest) =
        (string (stringText s ++ rest)).map fun p => (.text (String.ofList p.1), p.2) := by
      rw [htext]
      rcases hc with rfl | rfl <;> rfl
    rw [valueText, hvalue, hread, map_ok, String.ofList_toList]
    rfl
  | unit => exact hv.elim
  | signed i => exact hv.elim
  | list items => exact hv.elim
  | table fields => exact hv.elim

/-! ## Lists -/

/-- Here blanks, line breaks and comments end. -/
def EndsGap (cs : List Char) : Prop :=
  ∃ c tail, cs = c :: tail ∧ isTomlBlank c = false ∧ c ≠ '#' ∧ c ≠ '\n' ∧ c ≠ '\r'

theorem StartsValue.endsGap (h : StartsValue cs) (rest : List Char) : EndsGap (cs ++ rest) := by
  obtain ⟨c, tail, rfl, hc⟩ := h
  refine ⟨c, tail ++ rest, rfl, ?_⟩
  rcases hc with rfl | rfl | hc
  · decide
  · decide
  · have hother := TomlNumber.ne_of_isTokenChar hc
    refine ⟨?_, hother _ (by decide), hother _ (by decide), hother _ (by decide)⟩
    rw [isTomlBlank, Bool.or_eq_false_iff, beq_eq_false_iff_ne, beq_eq_false_iff_ne]
    exact ⟨hother _ (by decide), hother _ (by decide)⟩

theorem EndsGap.blanks (h : EndsGap cs) : blanks cs = .ok ((), cs) := by
  obtain ⟨c, tail, rfl, hblank, -⟩ := h
  rw [blanks_apply, List.dropWhile_cons_of_neg (by rw [hblank]; decide)]

theorem EndsGap.comment (h : EndsGap cs) : comment cs = .ok ((), cs) := by
  obtain ⟨c, tail, rfl, -, hmark, -⟩ := h
  have hbeq : ('#' == c) = false := beq_eq_false_iff_ne.mpr fun heq => hmark heq.symm
  simp [comment, accept_apply, List.isPrefixOf, hbeq]

theorem EndsGap.newline (h : EndsGap cs) : newline cs = .ok (false, cs) := by
  obtain ⟨c, tail, rfl, -, -, hline, hreturn⟩ := h
  exact newline_of_head (fun heq => hline (Option.some.inj heq))
    fun heq => hreturn (Option.some.inj heq)

theorem EndsGap.trivia (h : EndsGap cs) : ∀ n, trivia n cs = .ok ((), cs)
  | 0 => rfl
  | n + 1 => by
    rw [TomlReader.trivia, bind_apply, h.blanks, bind_ok, bind_apply, h.comment, bind_ok, bind_apply,
      h.newline]
    rfl

/-- A line break and the blanks in front of an item are passed over. -/
theorem EndsGap.anyTrivia (h : EndsGap cs) {indent : List Char}
    (hindent : ∀ c ∈ indent, isTomlBlank c = true) :
    anyTrivia cs = .ok ((), cs) ∧ anyTrivia ('\n' :: (indent ++ cs)) = .ok ((), cs) := by
  have hblanks : TomlReader.blanks (indent ++ cs) = .ok ((), cs) := by
    have hcs : cs.dropWhile isTomlBlank = cs := (Prod.mk.inj (Except.ok.inj h.blanks)).2
    rw [blanks_apply, List.dropWhile_append_of_pos hindent, hcs]
  have hline : ∀ n, TomlReader.trivia (n + 1) (indent ++ cs) = .ok ((), cs) := by
    intro n
    rw [TomlReader.trivia, bind_apply, hblanks, bind_ok, bind_apply, h.comment, bind_ok, bind_apply,
      h.newline]
    rfl
  refine ⟨h.trivia _, ?_⟩
  exact hline ((indent ++ cs).length)

/-- A mark that ends no gap but is no value either. -/
theorem endsGap_mark {c : Char} (hc : c = ',' ∨ c = ']') (cs : List Char) : EndsGap (c :: cs) := by
  refine ⟨c, cs, rfl, ?_⟩
  rcases hc with rfl | rfl <;> decide

theorem StartsValue.accept_bracket (h : StartsValue cs) (rest : List Char) :
    accept [']'] (cs ++ rest) = .ok (false, cs ++ rest) ∧
      [']'].isPrefixOf (cs ++ rest) = false := by
  obtain ⟨c, tail, rfl, hc⟩ := h
  have hbeq : (']' == c) = false := by
    rw [beq_eq_false_iff_ne]
    rintro rfl
    rcases hc with heq | heq | heq
    · exact absurd heq (by decide)
    · exact absurd heq (by decide)
    · exact absurd heq (by decide)
  simp [accept_apply, List.isPrefixOf, hbeq]

variable {vs : List DataValue} {problem : String}

/-- The indent of an item on a line of its own. -/
def indent : List Char := "    ".toList

theorem isTomlBlank_indent : ∀ c ∈ indent, isTomlBlank c = true :=
  List.all_eq_true.mp (by decide)

theorem itemLines_cons (v : DataValue) (vs : List DataValue) : itemLines (v :: vs) =
    indent ++ (valueText false v ++ ',' :: '\n' :: itemLines vs) := by
  rw [itemLines, List.append_assoc]
  rfl

/-- The way to the next line with an item. -/
theorem anyTrivia_itemLines (hv : StartsValue (valueText false v)) (vs : List DataValue) :
    anyTrivia ('\n' :: (itemLines (v :: vs) ++ ']' :: rest)) =
      .ok ((), valueText false v ++ ',' :: '\n' :: (itemLines vs ++ ']' :: rest)) := by
  have hskip := ((hv.endsGap (',' :: '\n' :: (itemLines vs ++ ']' :: rest))).anyTrivia
    isTomlBlank_indent).2
  rw [itemLines_cons]
  simpa using hskip

/-- One item, with a comma behind it. -/
theorem items_comma {α : Type} {item : TomlReader α} {a : α} {more next : List Char}
    (hitem : item cs = .ok (a, ',' :: more)) (hnext : anyTrivia more = .ok ((), next)) (n : Nat) :
    items item anyTrivia ']' true problem (n + 1) cs =
      if [']'].isPrefixOf next then .ok ([a], next.drop 1)
      else (items item anyTrivia ']' true problem n next).map fun p => (a :: p.1, p.2) := by
  have hcomma : anyTrivia (',' :: more) = .ok ((), ',' :: more) :=
    ((endsGap_mark (.inl rfl) more).anyTrivia isTomlBlank_indent).1
  have hopen : accept [']'] (',' :: more) = .ok (false, ',' :: more) := rfl
  have hexpect : expect [','] problem (',' :: more) = .ok ((), more) := rfl
  rw [items]
  simp only [bind_apply, hitem, bind_ok, hcomma, hopen, Bool.false_eq_true, if_false, hexpect, hnext,
    looksAt_apply, Bool.true_and]
  split <;> rfl

/-- Items on lines of their own, from the first of them on. -/
theorem items_itemLines (hv : IsAtom v) (hvs : ∀ w ∈ vs, IsAtom w) (h : vs.length < n) :
    items (value (fuel + 1)) anyTrivia ']' true problem n
        (valueText false v ++ ',' :: '\n' :: (itemLines vs ++ ']' :: rest)) =
      .ok (atomAsRead v :: vs.map atomAsRead, rest) := by
  obtain ⟨m, rfl⟩ := Nat.exists_eq_add_of_lt h
  have hitem : ∀ {w : DataValue} {more : List Char}, IsAtom w →
      value (fuel + 1) (valueText false w ++ ',' :: more) = .ok (atomAsRead w, ',' :: more) :=
    fun hw => (value_atom hw false).2 ⟨',', _, rfl, .inr (.inl rfl)⟩
  induction vs generalizing v m with
  | nil =>
    have hbracket : anyTrivia ('\n' :: ([] ++ ']' :: rest)) = .ok ((), ']' :: rest) :=
      ((endsGap_mark (.inr rfl) rest).anyTrivia (by simp)).2
    rw [itemLines, items_comma (hitem hv) hbracket]
    rfl
  | cons w vs ih =>
    obtain ⟨hw, hrest⟩ := List.forall_mem_cons.mp hvs
    have hstarts := (value_atom hw false).1
    have hmore := ih hw hrest m (by omega)
    have hother := (hstarts.accept_bracket (',' :: '\n' :: (itemLines vs ++ ']' :: rest))).2
    have hfuel : (w :: vs).length + m = vs.length + m + 1 := by
      rw [List.length_cons]
      omega
    rw [items_comma (hitem hv) (anyTrivia_itemLines hstarts vs), hother, hfuel, hmore]
    rfl

/-- What is written for a value that holds no tables. -/
def IsPlain : DataValue → Prop
  | .list items => ∀ v ∈ items, IsAtom v
  | v => IsAtom v

def plainAsRead : DataValue → DataValue
  | .list items => .list (items.map atomAsRead)
  | v => atomAsRead v

/-- A list opens with a bracket and its items follow. -/
theorem value_list (fuel : Nat) : ∃ problem, ∀ cs, value (fuel + 1) ('[' :: cs) =
    (itemsOrNone (value fuel) anyTrivia ']' true problem cs).map fun p => (.list p.1, p.2) := by
  refine ⟨"invalid array\nexpected `]`", fun cs => ?_⟩
  rw [value]
  rfl

theorem itemsOrNone_some {next : List Char} (hgap : anyTrivia cs = .ok ((), next))
    (hother : accept [']'] next = .ok (false, next)) (item : TomlReader DataValue) :
    itemsOrNone item anyTrivia ']' true problem cs =
      items item anyTrivia ']' true problem (next.length + 1) next := by
  rw [itemsOrNone, bind_apply, hgap, bind_ok, bind_apply, hother]
  rfl

/-- A list of one item stands on its line. -/
theorem itemsOrNone_single (hv : IsAtom v) :
    itemsOrNone (value (fuel + 1)) anyTrivia ']' true problem
        (valueText false v ++ ']' :: rest) = .ok ([atomAsRead v], rest) := by
  obtain ⟨hstarts, hread⟩ := value_atom hv false
  have hitem : value (fuel + 1) (valueText false v ++ ']' :: rest) = .ok (atomAsRead v, ']' :: rest) :=
    hread ⟨']', _, rfl, .inr (.inr rfl)⟩
  have hgap := ((hstarts.endsGap (']' :: rest)).anyTrivia isTomlBlank_indent).1
  have hclose := ((endsGap_mark (.inr rfl) rest).anyTrivia isTomlBlank_indent).1
  have haccept : accept [']'] (']' :: rest) = .ok (true, rest) := accept_append [']'] rest
  rw [itemsOrNone_some hgap (hstarts.accept_bracket _).1, items, bind_apply, hitem, bind_ok, bind_apply,
    hclose, bind_ok, bind_apply, haccept]
  rfl

/-- A list of several items has a line for each of them. -/
theorem itemsOrNone_several (hv : IsAtom v) (hvs : ∀ w ∈ vs, IsAtom w) :
    itemsOrNone (value (fuel + 1)) anyTrivia ']' true problem
        ('\n' :: (itemLines (v :: vs) ++ ']' :: rest)) =
      .ok (atomAsRead v :: vs.map atomAsRead, rest) := by
  have hstarts := (value_atom hv false).1
  have hlength : vs.length ≤ (itemLines vs).length := by
    clear hvs
    induction vs with
    | nil => exact Nat.zero_le _
    | cons w vs ih =>
      rw [itemLines_cons]
      simp only [List.length_append, List.length_cons]
      omega
  rw [itemsOrNone_some (anyTrivia_itemLines hstarts vs) (hstarts.accept_bracket _).1]
  refine items_itemLines hv hvs ?_
  simp only [List.length_append, List.length_cons]
  omega

/-- Every plain value is read back behind its key. -/
theorem value_valueText (hv : IsPlain v) (hrest : EndsValue rest) :
    value (fuel + 2) (valueText true v ++ rest) = .ok (plainAsRead v, rest) := by
  have hatom : IsAtom v → value (fuel + 2) (valueText true v ++ rest) = .ok (atomAsRead v, rest) :=
    fun hv => (value_atom hv true).2 hrest
  cases v with
  | list items =>
    obtain ⟨problem, hlist⟩ := value_list (fuel + 1)
    cases items with
    | nil =>
      have htext : valueText true (.list []) ++ rest = '[' :: ']' :: rest := rfl
      rw [htext, hlist]
      rfl
    | cons w items =>
      obtain ⟨hw, hitems⟩ := List.forall_mem_cons.mp hv
      cases items with
      | nil =>
        have htext : valueText true (.list [w]) ++ rest =
            '[' :: (valueText false w ++ ']' :: rest) := by
          simp [valueText, itemsText]
        rw [htext, hlist, itemsOrNone_single hw]
        rfl
      | cons w' items =>
        have htext : valueText true (.list (w :: w' :: items)) ++ rest =
            '[' :: '\n' :: (itemLines (w :: w' :: items) ++ ']' :: rest) := by
          simp [valueText]
        rw [htext, hlist, itemsOrNone_several hw hitems]
        rfl
  | boolean => exact hatom hv
  | unsigned => exact hatom hv
  | float => exact hatom hv
  | text => exact hatom hv
  | unit => exact hv.elim
  | signed => exact hv.elim
  | table => exact hv.elim

end TomlReader

end LuaScope

import LuaScope.Proofs.Syntax.Lexeme
import Mathlib

/-!
# LuaScope.Proofs.Syntax.Scan

What is read at the front of a text depends on what stands behind it only as far as the reader looks
ahead. `Token.scan_append` says so for texts that part where a name starts in both.
-/

namespace LuaScope

/-- Two texts that are the same, or part where a name starts in both. -/
inductive Alike : List Char → List Char → Prop
  | same (cs : List Char) : Alike cs cs
  | name {c c' : Char} (cs cs' : List Char) (h : isNameStart c = true) (h' : isNameStart c' = true) :
    Alike (c :: cs) (c' :: cs')
  | cons (c : Char) {cs cs' : List Char} (h : Alike cs cs') : Alike (c :: cs) (c :: cs')

theorem isDigit_of_isNameStart {c : Char} (h : isNameStart c = true) : c.isDigit = false := by
  simpa using (Bool.and_eq_true_iff.mp h).2

/-- No delimiter starts a name. -/
theorem ne_of_isNameStart {c d : Char} (h : isNameStart c = true) (hd : isNameStart d = false) :
    c ≠ d := by
  rintro rfl
  rw [h] at hd
  cases hd

theorem not_isNameStart_of_not_isNameChar {c : Char} (h : isNameChar c = false) :
    isNameStart c = false := by
  simp [isNameStart, h]

/-! ## Marks -/

namespace Mark

/-- A mark ends where a name starts. -/
theorem scan_single {c d : Char} (hd : isNameStart d = true) (cs : List Char) :
    Mark.scan (c :: d :: cs) = Mark.scan [c] := by
  have hclash : ∀ {d'} {cs' : List Char}, d :: cs = d' :: cs' → isNameStart d' = false → False := by
    intro d' cs' heq hd'
    rw [← (List.cons.inj heq).1, hd] at hd'
    cases hd'
  unfold Mark.scan
  split
  case h_34 =>
    split
    case h_34 => rfl
    all_goals rename_i heq; obtain ⟨rfl, -⟩ := List.cons.inj heq
    all_goals simp at *
  all_goals rename_i heq; obtain ⟨rfl, htail⟩ := List.cons.inj heq
  all_goals first | rfl | exact (hclash htail (by decide)).elim

/-- Only behind two dots the third character matters. -/
theorem scan_two {c d : Char} (h : c ≠ '.' ∨ d ≠ '.') (cs : List Char) :
    Mark.scan (c :: d :: cs) = Mark.scan [c, d] := by
  unfold Mark.scan
  split
  case h_34 =>
    split
    case h_34 => rfl
    all_goals rename_i heq; obtain ⟨rfl, -⟩ := List.cons.inj heq
    all_goals simp at *
  all_goals rename_i heq; obtain ⟨rfl, htail⟩ := List.cons.inj heq
  all_goals first
    | rfl
    | (obtain ⟨rfl, -⟩ := List.cons.inj htail; first | rfl | simp at h)
    | (subst htail; simp_all)

theorem scan_dots (cs : List Char) :
    Mark.scan ('.' :: '.' :: cs) =
      if cs.head? = some '.' then some (.ellipsis, 3) else some (.concat, 2) := by
  cases cs with
  | nil => rfl
  | cons c cs =>
    by_cases h : c = '.'
    · subst h
      rfl
    · simp [Mark.scan, h]

end Mark

/-! ## Runs -/

theorem runLength_cons (p : Char → Bool) (c : Char) (cs : List Char) :
    runLength p (c :: cs) = if p c then runLength p cs + 1 else 0 := by
  unfold runLength
  rw [List.takeWhile_cons]
  split <;> rfl

/-- A run that ends inside of the front part does not see what stands behind it. -/
theorem runLength_append {p : Char → Bool} {c : Char} (hc : p c = false) (xs ys zs : List Char) :
    runLength p (xs ++ c :: ys) = runLength p (xs ++ c :: zs) := by
  induction xs with
  | nil => simp [runLength_cons, hc]
  | cons x xs ih => simp [runLength_cons, ih]

theorem runLength_append_le {p : Char → Bool} {c : Char} (hc : p c = false) (xs ys : List Char) :
    runLength p (xs ++ c :: ys) ≤ xs.length := by
  induction xs with
  | nil => simp [runLength_cons, hc]
  | cons x xs ih =>
    simp only [List.cons_append, runLength_cons]
    split
    · simpa using ih
    · exact Nat.zero_le _

theorem longBracketLevel_cons (c : Char) (cs : List Char) :
    longBracketLevel (c :: cs) =
      if c = '[' ∧ (cs.drop (runLength (· = '=') cs)).head? = some '[' then
        some (runLength (· = '=') cs)
      else none := by
  unfold longBracketLevel
  split
  · rename_i heq
    obtain ⟨rfl, rfl⟩ := List.cons.inj heq
    dsimp only
    split
    · rename_i hdrop
      simp [hdrop]
    · rename_i hdrop
      cases hrest : cs.drop (runLength (· = '=') cs) with
      | nil => simp
      | cons d ds =>
        have hne : d ≠ '[' := fun heq => hdrop ds (by rw [hrest, heq])
        simp [hne]
  · rename_i hne
    rw [if_neg fun h => hne cs (by rw [h.1])]

namespace Alike

theorem append (xs : List Char) {cs cs' : List Char} (h : Alike cs cs') :
    Alike (xs ++ cs) (xs ++ cs') := by
  induction xs with
  | nil => exact h
  | cons x xs ih => exact .cons x ih

variable {a b : List Char}

theorem nil_iff (h : Alike a b) : a = [] ↔ b = [] := by
  cases h <;> simp

/-- A character that starts no name stands at the front of both or of none. -/
theorem head?_eq_iff {c : Char} (hc : isNameStart c = false) (h : Alike a b) :
    a.head? = some c ↔ b.head? = some c := by
  cases h with
  | same => exact .rfl
  | name cs cs' h h' =>
    have hne := ne_of_isNameStart h hc
    have hne' := ne_of_isNameStart h' hc
    simp [hne, hne']
  | cons => exact .rfl

theorem runLength_eq {p : Char → Bool} (hp : ∀ c, isNameStart c = true → p c = false)
    (h : Alike a b) : runLength p a = runLength p b := by
  induction h with
  | same => rfl
  | name cs cs' h h' => simp [runLength_cons, hp _ h, hp _ h']
  | cons c _ ih => simp [runLength_cons, ih]

/-- Behind a run of characters that start no name the texts are alike as well. -/
theorem drop_runLength {p : Char → Bool} (hp : ∀ c, isNameStart c = true → p c = false)
    (h : Alike a b) : Alike (a.drop (runLength p a)) (b.drop (runLength p b)) := by
  induction h with
  | same => exact .same _
  | name cs cs' h h' =>
    simpa [runLength_cons, hp _ h, hp _ h'] using Alike.name cs cs' h h'
  | cons c h ih =>
    simp only [runLength_cons]
    split
    · exact ih
    · exact .cons c h

theorem isEquals_of_isNameStart (c : Char) (h : isNameStart c = true) :
    decide (c = '=') = false := by
  simpa using ne_of_isNameStart h (by decide)

theorem longBracketLevel_eq (h : Alike a b) : longBracketLevel a = longBracketLevel b := by
  cases h with
  | same => rfl
  | name cs cs' h h' =>
    have hne := ne_of_isNameStart h (d := '[') (by decide)
    have hne' := ne_of_isNameStart h' (d := '[') (by decide)
    simp [longBracketLevel_cons, hne, hne']
  | cons c h =>
    have hrun := h.runLength_eq isEquals_of_isNameStart
    have hhead := (h.drop_runLength isEquals_of_isNameStart).head?_eq_iff (c := '[') (by decide)
    rw [hrun] at hhead
    simp only [longBracketLevel_cons, hrun, hhead]

theorem scan_mark_eq (c : Char) (h : Alike a b) : Mark.scan (c :: a) = Mark.scan (c :: b) := by
  cases h with
  | same => rfl
  | name cs cs' h h' => rw [Mark.scan_single h, Mark.scan_single h']
  | cons d h =>
    by_cases hdots : c = '.' ∧ d = '.'
    · obtain ⟨rfl, rfl⟩ := hdots
      simp only [Mark.scan_dots, h.head?_eq_iff (c := '.') (by decide)]
    · rw [Decidable.not_and_iff_not_or_not] at hdots
      exact (Mark.scan_two hdots _).trans (Mark.scan_two hdots _).symm

end Alike

/-! ## Numerals -/

/-- No letter and no digit is a delimiter. -/
theorem isAlphanum_of_not_isNameChar {c : Char} (h : isNameChar c = false) :
    c.isAlphanum = false := by
  have hc : isDelimiter c = true := by simpa [isNameChar] using h
  have hlisted : ∀ d ∈ " +-*/%^#&~|<>=()\x7b\x7d[];:,.\\\x27\x22".toList,
      (!d.isAlphanum) = true := List.all_eq_true.mp rfl
  simp only [isDelimiter, Bool.or_eq_true, Bool.and_eq_true, decide_eq_true_eq,
    List.contains_eq_mem] at hc
  rcases hc with (hlow | ⟨hlow, hhigh⟩) | hmem
  · simp only [Char.isAlphanum, Char.isAlpha, Char.isUpper, Char.isLower, Char.isDigit,
      Bool.or_eq_false_iff, Bool.and_eq_false_iff, decide_eq_false_iff_not, ge_iff_le,
      UInt32.le_iff_toNat_le, UInt32.lt_iff_toNat_lt] at hlow ⊢
    simp at hlow ⊢
    omega
  · simp only [Char.isAlphanum, Char.isAlpha, Char.isUpper, Char.isLower, Char.isDigit,
      Bool.or_eq_false_iff, Bool.and_eq_false_iff, decide_eq_false_iff_not, ge_iff_le,
      UInt32.le_iff_toNat_le] at hlow hhigh ⊢
    simp at hlow hhigh ⊢
    omega
  · simpa using hlisted c hmem

theorem toLower_of_not_isNameChar {c : Char} (h : isNameChar c = false) : c.toLower = c := by
  have hc := isAlphanum_of_not_isNameChar h
  simp only [Char.isAlphanum, Char.isAlpha, Char.isUpper, Bool.or_eq_false_iff,
    decide_eq_false_iff_not] at hc
  unfold Char.toLower
  rw [dif_neg hc.1.1]

theorem isHexDigit_of_not_isNameChar {c : Char} (h : isNameChar c = false) :
    isHexDigit c = false := by
  have hc := isAlphanum_of_not_isNameChar h
  simp only [Char.isAlphanum, Char.isAlpha, Char.isUpper, Char.isLower, Bool.or_eq_false_iff,
    Bool.and_eq_false_iff, decide_eq_false_iff_not, ge_iff_le, UInt32.le_iff_toNat_le] at hc
  simp only [isHexDigit, Bool.or_eq_false_iff, Bool.and_eq_false_iff, decide_eq_false_iff_not,
    Char.le_def, UInt32.le_iff_toNat_le]
  simp at hc ⊢
  refine ⟨⟨hc.2, ?_⟩, ?_⟩ <;> omega

theorem isDigit_of_not_isNameChar {c : Char} (h : isNameChar c = false) : c.isDigit = false :=
  (Bool.or_eq_false_iff.mp (isAlphanum_of_not_isNameChar h)).2

theorem ne_of_not_isNameChar {c d : Char} (h : isNameChar c = false) (hd : isNameChar d = true) :
    c ≠ d := by
  rintro rfl
  rw [hd] at h
  cases h

theorem toLower_ne_of_not_isNameChar {c d : Char} (h : isNameChar c = false)
    (hd : isNameChar d = true) : c.toLower ≠ d := by
  rw [toLower_of_not_isNameChar h]
  exact ne_of_not_isNameChar h hd

theorem wideSuffix_append {c : Char} (hc : isNameChar c = false) (xs ys zs : List Char) :
    wideSuffix (xs ++ c :: ys) = wideSuffix (xs ++ c :: zs) := by
  have hl := toLower_ne_of_not_isNameChar hc (d := 'l') (by decide)
  have hu := toLower_ne_of_not_isNameChar hc (d := 'u') (by decide)
  have hfront : ∀ ys, wideSuffix (c :: ys) = 0 := by
    intro ys
    match ys with
    | [] => rfl
    | [_] => simp [wideSuffix, hl]
    | _ :: _ :: _ => simp [wideSuffix, hl, hu]
  have hsecond : ∀ x ys, wideSuffix (x :: c :: ys) = 0 := by
    intro x ys
    match ys with
    | [] => simp [wideSuffix, hl]
    | _ :: _ => simp [wideSuffix, hl]
  match xs with
  | [] => simp only [List.nil_append, hfront]
  | [x] => simp only [List.cons_append, List.nil_append, hsecond]
  | [x, y] => simp only [List.cons_append, List.nil_append, wideSuffix]
  | _ :: _ :: _ :: _ => simp only [List.cons_append, wideSuffix]

/-- An exponent is seen as far as its sign and first digit. -/
theorem exponentLength_append {c mark : Char} (hc : isNameChar c = false)
    (hmark : isNameChar mark = true) {xs : List Char} (hxs : xs.length ≠ 1) (ys zs : List Char) :
    exponentLength mark (xs ++ c :: ys) = exponentLength mark (xs ++ c :: zs) := by
  have hdigit := isDigit_of_not_isNameChar hc
  match xs with
  | [] =>
    have hne := toLower_ne_of_not_isNameChar hc hmark
    simp [exponentLength, hne]
  | [_] => exact absurd rfl hxs
  | x :: s :: xs =>
    have hrun := runLength_append hdigit xs ys zs
    have hrun' := runLength_append hdigit (s :: xs) ys zs
    rw [List.cons_append, List.cons_append] at hrun'
    simp only [List.cons_append, exponentLength, hrun, hrun']

theorem exponentLength_le_one {mark x : Char} {cs : List Char}
    (h : exponentLength mark (x :: cs) ≤ 1) : exponentLength mark (x :: cs) = 0 := by
  cases cs with
  | nil => simp [exponentLength]
  | cons s ds =>
    simp only [exponentLength] at h ⊢
    by_cases hx : x.toLower = mark
    · rw [if_pos hx] at h ⊢
      by_cases hs : s = '+' ∨ s = '-'
      · rw [if_pos hs] at h ⊢
        split at h
        · rename_i hn
          exact if_pos hn
        · omega
      · rw [if_neg hs] at h ⊢
        split at h
        · rename_i hn
          exact if_pos hn
        · omega
    · rw [if_neg hx]

theorem imaginarySuffix_append (c : Char) (xs ys zs : List Char) :
    imaginarySuffix (xs ++ c :: ys) = imaginarySuffix (xs ++ c :: zs) := by
  cases xs <;> rfl

theorem mantissaLength_of_point {digit : Char → Bool} {cs rest : List Char}
    (h : cs.drop (runLength digit cs) = '.' :: rest) :
    mantissaLength digit cs =
      if runLength digit cs = 0 ∧ runLength digit rest = 0 then 0
      else runLength digit cs + 1 + runLength digit rest := by
  simp only [mantissaLength, h]

theorem mantissaLength_of_whole {digit : Char → Bool} {cs : List Char}
    (h : (cs.drop (runLength digit cs)).head? ≠ some '.') :
    mantissaLength digit cs = runLength digit cs := by
  unfold mantissaLength
  dsimp only
  split
  · rename_i hdrop
    exact absurd (by rw [hdrop]; rfl) h
  · rfl

theorem mantissaLength_append {digit : Char → Bool} {c : Char} (hdigit : digit c = false)
    {xs ys : List Char} (hpos : mantissaLength digit (xs ++ c :: ys) ≠ 0)
    (hle : mantissaLength digit (xs ++ c :: ys) ≤ xs.length) (zs : List Char) :
    mantissaLength digit (xs ++ c :: ys) = mantissaLength digit (xs ++ c :: zs) := by
  have hrun := runLength_append hdigit xs ys zs
  have hdrop : ∀ ys, (xs ++ c :: ys).drop (runLength digit (xs ++ c :: ys)) =
      xs.drop (runLength digit (xs ++ c :: ys)) ++ c :: ys := fun ys =>
    List.drop_append_of_le_length (runLength_append_le hdigit xs ys)
  have hys := hdrop ys
  have hzs := hdrop zs
  rw [hrun] at hys
  cases hrest : xs.drop (runLength digit (xs ++ c :: zs)) with
  | nil =>
    rw [hrest, List.nil_append] at hys hzs
    have hall : xs.length ≤ runLength digit (xs ++ c :: zs) := List.drop_eq_nil_iff.mp hrest
    by_cases hdot : c = '.'
    · subst hdot
      rw [← hrun] at hys hall
      rw [mantissaLength_of_point hys] at hpos hle
      split at hpos
      · exact absurd rfl hpos
      · rename_i h
        rw [if_neg h] at hle
        omega
    · rw [← hrun] at hys
      rw [mantissaLength_of_whole (by simp [hys, hdot]),
        mantissaLength_of_whole (by simp [hzs, hdot]), hrun]
  | cons x rest =>
    rw [hrest, List.cons_append] at hys hzs
    rw [← hrun] at hys
    have hfraction := runLength_append hdigit rest ys zs
    by_cases hdot : x = '.'
    · subst hdot
      rw [mantissaLength_of_point hys, mantissaLength_of_point hzs, hrun, hfraction]
    · rw [mantissaLength_of_whole (by simp [hys, hdot]),
        mantissaLength_of_whole (by simp [hzs, hdot]), hrun]

/-- What follows a mantissa, an exponent and the mark of an imaginary number, each if it is there,
is seen alike if it ends with the front part. -/
theorem exponent_imaginary_append {c mark : Char} (hc : isNameChar c = false)
    (hmark : isNameChar mark = true) (hi : mark ≠ 'i') {xs ys : List Char}
    (hlength : exponentLength mark (xs ++ c :: ys) +
      imaginarySuffix ((xs ++ c :: ys).drop (exponentLength mark (xs ++ c :: ys))) = xs.length)
    (zs : List Char) :
    exponentLength mark (xs ++ c :: zs) +
      imaginarySuffix ((xs ++ c :: zs).drop (exponentLength mark (xs ++ c :: zs))) = xs.length := by
  by_cases hone : xs.length = 1
  · obtain ⟨x, rfl⟩ := List.length_eq_one_iff.mp hone
    simp only [List.cons_append, List.nil_append, List.length_singleton] at hlength ⊢
    have hle : exponentLength mark (x :: c :: ys) ≤ 1 := by omega
    have hzero := exponentLength_le_one hle
    rw [hzero, Nat.zero_add, List.drop_zero] at hlength
    have hx : x = 'i' ∨ x = 'I' := Decidable.byContradiction fun hx => by
      simp [imaginarySuffix, hx] at hlength
    have hlower : x.toLower = 'i' := by rcases hx with rfl | rfl <;> decide
    have hzero' : exponentLength mark (x :: c :: zs) = 0 := by
      simp [exponentLength, hlower, hi.symm]
    rw [hzero', Nat.zero_add, List.drop_zero]
    simp [imaginarySuffix, hx]
  · rw [← exponentLength_append hc hmark hone ys zs]
    have hle : exponentLength mark (xs ++ c :: ys) ≤ xs.length := by omega
    rw [List.drop_append_of_le_length hle] at hlength ⊢
    rwa [imaginarySuffix_append c _ zs ys]

/-- A numeral in one base that ends in front of a character of no name. -/
theorem basedLength_append {digit : Char → Bool} {mark c : Char} (hc : isNameChar c = false)
    (hdigit : digit c = false) (hmark : isNameChar mark = true) (hi : mark ≠ 'i')
    {xs ys : List Char} (hne : xs ≠ [])
    (hlength : basedLength digit mark (xs ++ c :: ys) = xs.length) (zs : List Char) :
    basedLength digit mark (xs ++ c :: zs) = xs.length := by
  have hrun := runLength_append hdigit xs ys zs
  have hwhole := runLength_append_le hdigit xs zs
  have hxs : xs.length ≠ 0 := by simpa using hne
  unfold basedLength at hlength ⊢
  simp only [hrun, List.drop_append_of_le_length hwhole, wideSuffix_append hc _ ys zs] at hlength ⊢
  split at hlength
  · rename_i hwide
    rwa [if_pos hwide]
  · rename_i hwide
    rw [if_neg hwide]
    split at hlength
    · exact absurd hlength.symm hxs
    · rename_i hpos
      have hle : mantissaLength digit (xs ++ c :: ys) ≤ xs.length := by omega
      have hmantissa := mantissaLength_append hdigit hpos hle zs
      rw [hmantissa] at hlength hpos hle
      rw [if_neg hpos]
      simp only [← List.drop_drop, List.drop_append_of_le_length hle] at hlength ⊢
      have hend : exponentLength mark (xs.drop (mantissaLength digit (xs ++ c :: zs)) ++ c :: ys) +
          imaginarySuffix ((xs.drop (mantissaLength digit (xs ++ c :: zs)) ++ c :: ys).drop
            (exponentLength mark (xs.drop (mantissaLength digit (xs ++ c :: zs)) ++ c :: ys))) =
          (xs.drop (mantissaLength digit (xs ++ c :: zs))).length := by
        rw [List.length_drop]
        omega
      have hrest := exponent_imaginary_append hc hmark hi hend zs
      rw [List.length_drop] at hrest
      omega

theorem binaryLength_append {c : Char} (hc : isNameChar c = false) {xs ys : List Char}
    (hlength : binaryLength (xs ++ c :: ys) = xs.length) (zs : List Char) :
    binaryLength (xs ++ c :: zs) = xs.length := by
  have hdigit : decide (c = '0' ∨ c = '1') = false := by
    have h0 := ne_of_not_isNameChar hc (d := '0') (by decide)
    have h1 := ne_of_not_isNameChar hc (d := '1') (by decide)
    simp [h0, h1]
  have hrun := runLength_append (p := fun c => c = '0' ∨ c = '1') hdigit xs ys zs
  have hwhole := runLength_append_le (p := fun c => c = '0' ∨ c = '1') hdigit xs zs
  unfold binaryLength at hlength ⊢
  simp only [hrun, List.drop_append_of_le_length hwhole, wideSuffix_append hc _ ys zs,
    imaginarySuffix_append c _ ys zs] at hlength ⊢
  exact hlength

/-- Behind a zero and the mark of a base that has no digits, the zero alone is the numeral. -/
theorem basedLength_zero {b : Char} (hb : b = 'x' ∨ b = 'X' ∨ b = 'b' ∨ b = 'B') (cs : List Char) :
    basedLength Char.isDigit 'e' ('0' :: b :: cs) = 1 := by
  have hrun : runLength Char.isDigit ('0' :: b :: cs) = 1 := by
    have hdigit : b.isDigit = false := by rcases hb with rfl | rfl | rfl | rfl <;> decide
    simp [runLength_cons, hdigit]
  have hwide : wideSuffix (b :: cs) = 0 := by
    have hl : b.toLower ≠ 'l' := by rcases hb with rfl | rfl | rfl | rfl <;> decide
    have hu : b.toLower ≠ 'u' := by rcases hb with rfl | rfl | rfl | rfl <;> decide
    match cs with
    | [] => rfl
    | [_] => simp [wideSuffix, hl]
    | _ :: _ :: _ => simp [wideSuffix, hl, hu]
  have hmantissa : mantissaLength Char.isDigit ('0' :: b :: cs) = 1 := by
    have hdot : b ≠ '.' := by rcases hb with rfl | rfl | rfl | rfl <;> decide
    rw [mantissaLength_of_whole (by simp [hrun, hdot]), hrun]
  have hexponent : exponentLength 'e' (b :: cs) = 0 := by
    have he : b.toLower ≠ 'e' := by rcases hb with rfl | rfl | rfl | rfl <;> decide
    simp [exponentLength, he]
  have himaginary : imaginarySuffix (b :: cs) = 0 := by
    have hi : ¬(b = 'i' ∨ b = 'I') := by rcases hb with rfl | rfl | rfl | rfl <;> decide
    simp [imaginarySuffix, hi]
  simp [basedLength, hrun, hwide, hmantissa, hexponent, himaginary]

/-- The numeral in a base other than ten, without its mark, that may stand behind a zero. -/
def markedLength (b : Char) (cs : List Char) : Nat :=
  if b = 'x' ∨ b = 'X' then basedLength isHexDigit 'p' cs
  else if b = 'b' ∨ b = 'B' then binaryLength cs
  else 0

theorem numberLength_zero (b : Char) (cs : List Char) :
    numberLength ('0' :: b :: cs) =
      if markedLength b cs = 0 then basedLength Char.isDigit 'e' ('0' :: b :: cs)
      else markedLength b cs + 2 := rfl

theorem numberLength_decimal {c : Char} (hc : c ≠ '0') (cs : List Char) :
    numberLength (c :: cs) = basedLength Char.isDigit 'e' (c :: cs) := by
  unfold numberLength
  split
  · rename_i heq
    exact absurd (List.cons.inj heq).1 hc
  · rfl

theorem markedLength_append {b c : Char} (hc : isNameChar c = false) {xs ys : List Char}
    (hne : xs ≠ []) (hlength : markedLength b (xs ++ c :: ys) = xs.length) (zs : List Char) :
    markedLength b (xs ++ c :: zs) = xs.length := by
  unfold markedLength at hlength ⊢
  split at hlength
  · rename_i hb
    rw [if_pos hb]
    exact basedLength_append hc (isHexDigit_of_not_isNameChar hc) (by decide) (by decide) hne
      hlength zs
  · rename_i hb
    rw [if_neg hb]
    split at hlength
    · rename_i hb
      rw [if_pos hb]
      exact binaryLength_append hc hlength zs
    · exact absurd hlength.symm (by simpa using hne)

theorem markedLength_of_not_isNameChar {c : Char} (hc : isNameChar c = false) (cs : List Char) :
    markedLength c cs = 0 := by
  have hx := ne_of_not_isNameChar hc (d := 'x') (by decide)
  have hx' := ne_of_not_isNameChar hc (d := 'X') (by decide)
  have hb := ne_of_not_isNameChar hc (d := 'b') (by decide)
  have hb' := ne_of_not_isNameChar hc (d := 'B') (by decide)
  simp [markedLength, hx, hx', hb, hb']

/-- A numeral that ends in front of a character of no name does not depend on what stands behind
that. -/
theorem numberLength_append {c : Char} (hc : isNameChar c = false) {xs ys : List Char}
    (hne : xs ≠ []) (hlength : numberLength (xs ++ c :: ys) = xs.length) (zs : List Char) :
    numberLength (xs ++ c :: zs) = xs.length := by
  have hdecimal : basedLength Char.isDigit 'e' (xs ++ c :: ys) = xs.length →
      basedLength Char.isDigit 'e' (xs ++ c :: zs) = xs.length := fun h =>
    basedLength_append hc (isDigit_of_not_isNameChar hc) (by decide) (by decide) hne h zs
  match xs with
  | [] => exact absurd rfl hne
  | [x] =>
    by_cases hx : x = '0'
    · subst hx
      simp only [List.cons_append, List.nil_append, numberLength_zero,
        markedLength_of_not_isNameChar hc, if_true] at hlength hdecimal ⊢
      exact hdecimal hlength
    · simp only [List.cons_append, List.nil_append, numberLength_decimal hx] at hlength hdecimal ⊢
      exact hdecimal hlength
  | x :: b :: rest =>
    by_cases hx : x = '0'
    · subst hx
      simp only [List.cons_append, numberLength_zero] at hlength hdecimal ⊢
      by_cases hmarked : markedLength b (rest ++ c :: ys) = 0
      · rw [if_pos hmarked] at hlength
        by_cases hb : b = 'x' ∨ b = 'X' ∨ b = 'b' ∨ b = 'B'
        · rw [basedLength_zero hb] at hlength
          simp at hlength
        · have hnone : markedLength b (rest ++ c :: zs) = 0 := by
            simp only [not_or] at hb
            simp [markedLength, hb]
          rw [if_pos hnone]
          exact hdecimal hlength
      · rw [if_neg hmarked] at hlength
        have hlength : markedLength b (rest ++ c :: ys) = rest.length := by
          simpa using hlength
        have hrest : rest ≠ [] := by
          rintro rfl
          exact hmarked hlength
        have hmarked' := markedLength_append hc hrest hlength zs
        rw [hmarked', ← hlength, if_neg hmarked, hlength]
        rfl
    · simp only [List.cons_append, numberLength_decimal hx] at hlength hdecimal ⊢
      exact hdecimal hlength

theorem mantissaLength_eq_zero_iff {digit : Char → Bool} {cs : List Char} :
    mantissaLength digit cs = 0 ↔ runLength digit cs = 0 ∧
      ∀ rest, cs = '.' :: rest → runLength digit rest = 0 := by
  by_cases hhead : (cs.drop (runLength digit cs)).head? = some '.'
  · obtain ⟨rest, hrest⟩ := List.head?_eq_some_iff.mp hhead
    rw [mantissaLength_of_point hrest]
    constructor
    · intro h
      split at h
      · rename_i hzero
        refine ⟨hzero.1, fun rest' heq => ?_⟩
        rw [hzero.1, heq] at hrest
        cases hrest
        exact hzero.2
      · omega
    · rintro ⟨hzero, hfraction⟩
      rw [hzero, List.drop_zero] at hrest
      exact if_pos ⟨hzero, hfraction rest hrest⟩
  · rw [mantissaLength_of_whole hhead]
    refine ⟨fun h => ⟨h, fun rest heq => absurd ?_ hhead⟩, And.left⟩
    rw [h, heq]
    rfl

theorem basedLength_eq_zero_iff {digit : Char → Bool} {mark : Char} {cs : List Char} :
    basedLength digit mark cs = 0 ↔ mantissaLength digit cs = 0 := by
  unfold basedLength
  dsimp only
  split
  · rename_i hwide
    refine ⟨fun h => by omega, fun h => ?_⟩
    exact absurd (mantissaLength_eq_zero_iff.mp h).1 hwide.1
  · split
    · rename_i hnone
      exact ⟨fun _ => hnone, fun _ => rfl⟩
    · rename_i hsome
      exact ⟨fun h => by omega, fun h => absurd h hsome⟩

/-- A numeral starts with a digit, or with a point and a digit. -/
theorem numberLength_eq_zero_iff {c : Char} {cs : List Char} :
    numberLength (c :: cs) = 0 ↔
      c.isDigit = false ∧ (c = '.' → runLength Char.isDigit cs = 0) := by
  have hdecimal : basedLength Char.isDigit 'e' (c :: cs) = 0 ↔
      c.isDigit = false ∧ (c = '.' → runLength Char.isDigit cs = 0) := by
    rw [basedLength_eq_zero_iff, mantissaLength_eq_zero_iff, runLength_cons]
    cases hdigit : c.isDigit <;> simp
  by_cases hc : c = '0'
  · subst hc
    refine ⟨fun h => ?_, fun h => absurd h.1 (by decide)⟩
    cases cs with
    | nil => exact hdecimal.mp h
    | cons b cs =>
      rw [numberLength_zero] at h
      split at h
      · exact hdecimal.mp h
      · omega
  · rw [numberLength_decimal hc]
    exact hdecimal

namespace Alike

theorem numberLength_eq_zero {a b : List Char} (h : Alike a b) {c : Char} :
    numberLength (c :: a) = 0 ↔ numberLength (c :: b) = 0 := by
  rw [numberLength_eq_zero_iff, numberLength_eq_zero_iff,
    h.runLength_eq fun _ => isDigit_of_isNameStart]

end Alike

/-! ## Strings and comments -/

theorem quotedLength_pos {quote : Char} {state : QuoteState} {cs : List Char} {n : Nat}
    (h : quotedLength quote state cs = some n) : 0 < n := by
  have hmap : ∀ (state : QuoteState) (cs : List Char),
      (quotedLength quote state cs).map (· + 1) = some n → 0 < n := by
    intro state cs h
    obtain ⟨m, -, rfl⟩ := Option.map_eq_some_iff.mp h
    exact Nat.succ_pos m
  cases cs with
  | nil => cases state <;> cases h
  | cons c cs =>
    cases state <;> simp only [quotedLength] at h
    case plain =>
      split at h
      · cases h
        exact Nat.one_pos
      · exact hmap _ _ h
    case escape =>
      split at h
      · exact hmap _ _ h
      · cases h
    case codeRest =>
      split at h
      · exact hmap _ _ h
      · split at h
        · exact hmap _ _ h
        · cases h
    all_goals
      split at h
      · exact hmap _ _ h
      · cases h

/-- A string that ends inside of the front part does not depend on what stands behind that. -/
theorem quotedLength_append (quote : Char) (ys zs : List Char) :
    ∀ (xs : List Char) (state : QuoteState) {n : Nat}, n ≤ xs.length →
      quotedLength quote state (xs ++ ys) = some n →
        quotedLength quote state (xs ++ zs) = some n := by
  intro xs
  induction xs with
  | nil =>
    intro state n hn h
    exact absurd (quotedLength_pos h) (Nat.not_lt.mpr hn)
  | cons x xs ih =>
    intro state n hn h
    have hmap : ∀ state, (quotedLength quote state (xs ++ ys)).map (· + 1) = some n →
        (quotedLength quote state (xs ++ zs)).map (· + 1) = some n := by
      intro state h
      obtain ⟨m, hm, rfl⟩ := Option.map_eq_some_iff.mp h
      rw [ih state (Nat.le_of_succ_le_succ hn) hm]
      rfl
    rw [List.cons_append] at h ⊢
    cases state <;> simp only [quotedLength] at h ⊢
    case plain =>
      split at h
      · rename_i hquote
        rwa [if_pos hquote]
      · rename_i hquote
        rw [if_neg hquote]
        exact hmap _ h
    case escape =>
      split at h
      · exact hmap _ h
      · cases h
    case codeRest =>
      split at h
      · rename_i hdigit
        rw [if_pos hdigit]
        exact hmap _ h
      · rename_i hdigit
        rw [if_neg hdigit]
        split at h
        · rename_i hclose
          rw [if_pos hclose]
          exact hmap _ h
        · cases h
    all_goals
      split at h
      · rename_i hnext
        rw [if_pos hnext]
        exact hmap _ h
      · cases h

theorem closesLevel_zero (c : Char) (cs : List Char) : closesLevel 0 (c :: cs) = (c == ']') := by
  unfold closesLevel
  by_cases hc : c = ']'
  · subst hc
    rfl
  · simp [hc]

theorem closesLevel_succ (level : Nat) (c : Char) (cs : List Char) :
    closesLevel (level + 1) (c :: cs) = (c == '=' && closesLevel level cs) := by
  unfold closesLevel
  rw [runLength_cons]
  by_cases hc : c = '='
  · subst hc
    simp
  · simp [hc]

/-- A closing bracket is seen up to its end. -/
theorem closesLevel_append (ys zs : List Char) : ∀ {level : Nat} {xs : List Char},
    level < xs.length → closesLevel level (xs ++ ys) = closesLevel level (xs ++ zs)
  | _, [], hlevel => absurd hlevel (Nat.not_lt_zero _)
  | 0, x :: xs, _ => by rw [List.cons_append, List.cons_append, closesLevel_zero, closesLevel_zero]
  | level + 1, x :: xs, hlevel => by
    have hrest := closesLevel_append ys zs (Nat.lt_of_succ_lt_succ hlevel)
    rw [List.cons_append, List.cons_append, closesLevel_succ, closesLevel_succ, hrest]

theorem longContentLength_append (level : Nat) (ys zs : List Char) :
    ∀ (xs : List Char) {n : Nat}, n + level + 2 ≤ xs.length →
      longContentLength level (xs ++ ys) = some n →
        longContentLength level (xs ++ zs) = some n := by
  intro xs
  induction xs with
  | nil =>
    intro n hn
    exact absurd hn (by simp)
  | cons x xs ih =>
    intro n hn h
    rw [List.length_cons] at hn
    have hcloses : closesLevel level (xs ++ ys) = closesLevel level (xs ++ zs) :=
      closesLevel_append ys zs (by omega)
    simp only [List.cons_append, longContentLength, hcloses] at h ⊢
    split at h
    · rename_i hclose
      rwa [if_pos hclose]
    · rename_i hclose
      rw [if_neg hclose]
      obtain ⟨m, hm, rfl⟩ := Option.map_eq_some_iff.mp h
      rw [ih (by omega) hm]
      rfl

theorem longBracket_append {level : Nat} {xs ys : List Char} {start length n : Nat}
    (hn : n ≤ xs.length) (h : longBracket level (xs ++ ys) = some (start, length, n))
    (zs : List Char) :
    longBracket level (xs ++ zs) = some (start, length, n) ∧
      ((xs ++ zs).drop start).take length = ((xs ++ ys).drop start).take length := by
  unfold longBracket at h ⊢
  split at h
  · rename_i m hm
    cases h
    have hdrop : ∀ zs, (xs ++ zs).drop (level + 2) = xs.drop (level + 2) ++ zs := fun zs =>
      List.drop_append_of_le_length (by omega)
    have hroom : length ≤ (xs.drop (level + 2)).length := by rw [List.length_drop]; omega
    rw [hdrop] at hm
    rw [hdrop, hdrop, longContentLength_append level ys zs _ (by rw [List.length_drop]; omega) hm,
      List.take_append_of_le_length hroom, List.take_append_of_le_length hroom]
    exact ⟨rfl, rfl⟩
  · cases h

/-- The character behind a run is none of those that belong to it. -/
theorem not_of_runLength_eq {p : Char → Bool} {c : Char} {ys : List Char} :
    ∀ {xs : List Char}, runLength p (xs ++ c :: ys) = xs.length → p c = false
  | [], h => by
    rw [List.nil_append, runLength_cons] at h
    cases hc : p c with
    | false => rfl
    | true =>
      rw [hc, if_pos rfl] at h
      cases h
  | x :: xs, h => by
    rw [List.cons_append, runLength_cons] at h
    split at h
    · exact not_of_runLength_eq (Nat.succ.inj h)
    · cases h

/-- A run that is the front part ends there also in front of another text that is alike. -/
theorem Alike.runLength_front {p : Char → Bool} (hp : ∀ c, p c = false → isNameStart c = false)
    {xs ys zs : List Char} (h : Alike ys zs) (hrun : runLength p (xs ++ ys) = xs.length) :
    runLength p (xs ++ zs) = xs.length := by
  cases ys with
  | nil => rwa [h.nil_iff.mp rfl]
  | cons c ys =>
    have hc := not_of_runLength_eq hrun
    obtain ⟨zs, rfl⟩ := List.head?_eq_some_iff.mp ((h.head?_eq_iff (hp c hc)).mp rfl)
    rw [← runLength_append hc xs ys zs, hrun]

theorem not_isNameStart_of_line_break {c : Char} (h : (c != '\r' && c != '\n') = false) :
    isNameStart c = false := by
  rw [Bool.and_eq_false_iff, bne_eq_false_iff_eq, bne_eq_false_iff_eq] at h
  rcases h with rfl | rfl <;> decide

/-- A comment that ends with the front part; a short one ends in front of a line break. -/
theorem commentLength_append {xs ys zs : List Char} (halike : Alike ys zs)
    (h : commentLength (xs ++ ys) = some xs.length) :
    commentLength (xs ++ zs) = some xs.length := by
  unfold commentLength at h ⊢
  rw [← (halike.append xs).longBracketLevel_eq]
  split at h
  · obtain ⟨⟨start, length, n⟩, hbracket, hn⟩ := Option.map_eq_some_iff.mp h
    obtain rfl : n = xs.length := hn
    rw [(longBracket_append (Nat.le_refl _) hbracket zs).1]
    rfl
  · exact congrArg some
      (halike.runLength_front (fun _ => not_isNameStart_of_line_break) (Option.some.inj h))

/-! ## Tokens -/

namespace Token

/-- What is read where no name, numeral or quoted string starts. -/
theorem scan_cons {c : Char} (hname : isNameStart c = false) (hquote : ¬(c = '\x22' ∨ c = '\x27'))
    {cs : List Char} (hnumber : numberLength (c :: cs) = 0) :
    Token.scan (c :: cs) =
      if c = '-' ∧ cs.head? = some '-' then
        (commentLength cs.tail).map (fun n => (.comment, n + 2))
      else
        match longBracketLevel (c :: cs) with
        | some level =>
          match longBracket level (c :: cs) with
          | some (start, length, n) =>
            some (.token (.literal (contentOf (((c :: cs).drop start).take length))), n)
          | none => none
        | none => (Mark.scan (c :: cs)).map (fun (m, n) => (.token (.mark m), n)) := by
  unfold Token.scan
  simp only [hname, hnumber, hquote, if_false, ne_eq, not_true_eq_false, Bool.false_eq_true]
  split
  · rename_i heq
    obtain ⟨rfl, rfl⟩ := List.cons.inj heq
    rfl
  · rename_i hne
    have hdash : ¬(c = '-' ∧ cs.head? = some '-') := by
      rintro ⟨rfl, hhead⟩
      obtain ⟨body, rfl⟩ := List.head?_eq_some_iff.mp hhead
      exact hne body rfl
    exact (if_neg hdash).symm

/-- A token or comment that is the front part is read there also in front of another text that is
alike. A numeral must not touch a name. -/
theorem scan_append {word ys zs : List Char} {x : Scanned} (hword : word ≠ [])
    (halike : Alike ys zs)
    (hnumber : x = .token .number → ∀ c, ys.head? = some c → isNameChar c = false)
    (h : Token.scan (word ++ ys) = some (x, word.length)) :
    Token.scan (word ++ zs) = some (x, word.length) := by
  obtain ⟨c, rest, rfl⟩ := List.exists_cons_of_ne_nil hword
  have hrest := halike.append rest
  cases hname : isNameStart c with
  | true =>
    unfold Token.scan at h ⊢
    simp only [List.cons_append, hname, if_true] at h ⊢
    have hrun : runLength isNameChar ((c :: rest) ++ ys) = (c :: rest).length := by
      split at h <;> exact (Prod.mk.inj (Option.some.inj h)).2
    have hrun' := halike.runLength_front (fun _ => not_isNameStart_of_not_isNameChar) hrun
    have htake : ∀ zs, (c :: (rest ++ zs)).take (c :: rest).length = c :: rest := fun zs =>
      List.take_left
    rw [List.cons_append] at hrun hrun'
    rw [hrun, htake] at h
    rw [hrun', htake]
    exact h
  | false =>
    by_cases hnone : numberLength (c :: (rest ++ ys)) = 0
    · have hnone' := hrest.numberLength_eq_zero.mp hnone
      by_cases hquote : c = '\x22' ∨ c = '\x27'
      · unfold Token.scan at h ⊢
        simp only [List.cons_append, hname, hnone, hnone', hquote, ne_eq, not_true_eq_false,
          Bool.false_eq_true, if_false, if_true] at h ⊢
        split at h
        · rename_i n hn
          obtain ⟨rfl, hlength⟩ := Prod.mk.inj (Option.some.inj h)
          have hle : n ≤ rest.length := Nat.le_of_eq (Nat.succ.inj hlength)
          have htake : ∀ zs, (rest ++ zs).take (n - 1) = rest.take (n - 1) := fun zs =>
            List.take_append_of_le_length (by omega)
          rw [quotedLength_append c ys zs rest .plain hle hn, htake ys, ← hlength]
          dsimp only
          rw [htake zs]
        · cases h
      · rw [List.cons_append, scan_cons hname hquote hnone] at h
        rw [List.cons_append, scan_cons hname hquote hnone']
        simp only [← hrest.head?_eq_iff (c := '-') (by decide),
          ← (hrest.cons c).longBracketLevel_eq, ← hrest.scan_mark_eq]
        split at h
        · rename_i hdash
          rw [if_pos hdash]
          obtain ⟨n, hn, heq⟩ := Option.map_eq_some_iff.mp h
          obtain ⟨rfl, hlength⟩ := Prod.mk.inj heq
          cases rest with
          | nil => simp at hlength
          | cons d body =>
            rw [List.cons_append, List.tail_cons] at hn ⊢
            obtain rfl : n = body.length := by simpa using hlength
            rw [commentLength_append halike hn]
            rfl
        · rename_i hdash
          rw [if_neg hdash]
          split at h
          · split at h
            · rename_i start length n hbracket
              obtain ⟨rfl, rfl⟩ := Prod.mk.inj (Option.some.inj h)
              have hlength : (c :: rest).length ≤ (c :: rest).length := Nat.le_refl _
              obtain ⟨hbracket', hcontent⟩ := longBracket_append hlength hbracket zs
              rw [List.cons_append] at hbracket' hcontent
              rw [List.cons_append] at hcontent
              rw [hbracket', ← hcontent]
            · cases h
          · exact h
    · unfold Token.scan at h ⊢
      simp only [List.cons_append, hname, hnone, ne_eq, not_false_eq_true, Bool.false_eq_true,
        if_false, if_true] at h ⊢
      obtain ⟨rfl, hlength⟩ := Prod.mk.inj (Option.some.inj h)
      cases ys with
      | nil =>
        obtain rfl := halike.nil_iff.mp rfl
        rw [if_pos hnone, hlength]
      | cons d ys =>
        have hd := hnumber rfl d rfl
        obtain ⟨zs, rfl⟩ := List.head?_eq_some_iff.mp
          ((halike.head?_eq_iff (not_isNameStart_of_not_isNameChar hd)).mp rfl)
        have hfront : numberLength ((c :: rest) ++ d :: ys) = (c :: rest).length := hlength
        have hlength' := numberLength_append hd (List.cons_ne_nil c rest) hfront zs
        rw [List.cons_append] at hlength'
        rw [hlength']
        rfl

end Token

end LuaScope

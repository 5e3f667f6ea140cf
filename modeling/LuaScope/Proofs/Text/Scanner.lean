import LuaScope.Proofs.Text.Cursor

/-!
# LuaScope.Proofs.Text.Scanner

The scanners once more, on the bytes of the text: they count offsets up and down, read single bytes
and cut parts of the text out by spans. `none` stands for a byte or a part that is not there.

* `Scanner.backWhile?_eq`, `Scanner.call?_eq` — the loops backwards pass over whole characters.
* `Scanner.scans_within_text` — nothing that a scanner reads or cuts out is missing, and what it
  finds is what stands around the cursor.
-/

namespace LuaScope

namespace Scanner

/-! ## Loops over bytes -/

/-- The offset, or the next one in front of it that a text can be cut at. -/
def floor (bs : List UInt8) : Nat → Nat
  | 0 => 0
  | i + 1 => if isBoundary bs (i + 1) then i + 1 else floor bs i

def clamp (text : List Char) (offset : Nat) : Nat :=
  floor (bytes text) (min offset (bytes text).length)

/-- Go back over bytes that satisfy `P`. -/
def backWhile? (P : UInt8 → Bool) (bs : List UInt8) : Nat → Option Nat
  | 0 => some 0
  | i + 1 => do
    let b ← bs[i]?
    if P b then backWhile? P bs i else some (i + 1)

/-- Go on over bytes that satisfy `P`. -/
def onWhile (P : UInt8 → Bool) (bs : List UInt8) (i : Nat) : Nat :=
  if h : i < bs.length then
    if P bs[i] then onWhile P bs (i + 1) else i
  else i
termination_by bs.length - i

/-- Where the last character that satisfies `P` starts. -/
def rfind? (P : Char → Bool) (cs : List Char) : Option Nat :=
  match cs.reverse.dropWhile (fun c => !P c) with
  | [] => none
  | _ :: front => some (byteLength front)

/-! ## Scanners -/

def pathStart? (bs : List UInt8) (stop : Nat) : Option Nat :=
  backWhile? (byteIs isPathChar) bs stop

def trimmed? (text : List Char) (span : Span) : Option (Option Excerpt) := do
  let part ← slice? text span
  let lead := byteLength part - byteLength (trimLeft isSeparator part)
  let inner := trimBoth isSeparator part
  if inner.isEmpty then return none
  let first ← (bytes inner)[0]?
  if byteIs Char.isDigit first then return none
  let start := span.start + lead
  return some ⟨inner, ⟨start, start + byteLength inner⟩⟩

def expressionAt? (text : List Char) (offset : Nat) : Option (Option Excerpt) := do
  let offset := clamp text offset
  let stop := onWhile (byteIs isWordChar) (bytes text) offset
  let start ← pathStart? (bytes text) offset
  if start = stop then return none
  trimmed? text ⟨start, stop⟩

def completionPrefix? (text : List Char) (offset : Nat) : Option CompletionPrefix := do
  let offset := clamp text offset
  let start ← pathStart? (bytes text) offset
  let typed ← slice? text ⟨start, offset⟩
  match rfind? isSeparator typed with
  | some separator =>
    let front ← slice? typed ⟨0, separator⟩
    let name ← slice? typed ⟨separator + 1, byteLength typed⟩
    let container := trimBoth isSeparator front
    return ⟨if container.isEmpty then none else some container, name⟩
  | none => return ⟨none, typed⟩

def callee? (text : List Char) (paren : Nat) : Option (Option Excerpt) := do
  let stop ← backWhile? (byteIs isCalleeBlank) (bytes text) paren
  let start ← pathStart? (bytes text) stop
  trimmed? text ⟨start, stop⟩

def call? (text : List Char) (depth commas : Nat) : Nat → Option (Option CallContext)
  | 0 => some none
  | i + 1 => do
    let b ← (bytes text)[i]?
    if b = ')'.toUInt8 ∨ b = '}'.toUInt8 ∨ b = ']'.toUInt8 then call? text (depth + 1) commas i
    else if b = '{'.toUInt8 ∨ b = '['.toUInt8 then
      if depth = 0 then return none else call? text (depth - 1) commas i
    else if b = '('.toUInt8 then
      if depth = 0 then
        let callee ← callee? text i
        return callee.map (⟨·, commas⟩)
      else call? text (depth - 1) commas i
    else if b = ','.toUInt8 ∧ depth = 0 then call? text depth (commas + 1) i
    else if b = '\n'.toUInt8 ∧ depth = 0 ∧
        ((bytes text).take i).getLast? = some '\n'.toUInt8 then return none
    else call? text depth commas i

def callContext? (text : List Char) (offset : Nat) : Option (Option CallContext) :=
  call? text 0 0 (clamp text offset)

def lineIndent? (text : List Char) (offset : Nat) : Option (List Char) := do
  let offset := clamp text offset
  let front ← slice? text ⟨0, offset⟩
  let start := ((rfind? (· == '\n') front).map (· + 1)).getD 0
  let line ← slice? text ⟨start, byteLength text⟩
  let indent := byteLength line - byteLength (trimLeft (fun c => c == ' ' || c == '\t') line)
  slice? line ⟨0, indent⟩

/-! ## Reading bytes -/

section Read

variable {front after before cs : List Char} {c : Char} {P : Char → Bool} {i : Nat}

theorem getElem?_of_isAscii (h : isAscii c = true) (front after : List Char) :
    (bytes (front ++ c :: after))[byteLength front]? = some c.toUInt8 := by
  have hread := getElem?_bytes front after (c := c) (i := 0) c.utf8Size_pos
  rw [Nat.add_zero, utf8EncodeChar_of_isAscii h] at hread
  exact hread

/-- No byte of a longer character is one that a scanner looks for. -/
theorem getElem?_of_not_isAscii (h : isAscii c = false) (front after : List Char)
    (hi : i < c.utf8Size) :
    ∃ b, (bytes (front ++ c :: after))[byteLength front + i]? = some b ∧ 128 ≤ b := by
  have hlength : i < (String.utf8EncodeChar c).length := by simpa using hi
  refine ⟨(String.utf8EncodeChar c)[i], ?_, le_of_mem_utf8EncodeChar h (List.getElem_mem hlength)⟩
  rw [getElem?_bytes front after hi, List.getElem?_eq_getElem hlength]

theorem eq_false_of_not_isAscii (hP : ∀ c, P c = true → isAscii c = true)
    (hc : isAscii c = false) : P c = false :=
  Bool.eq_false_iff.mpr fun hPc => Bool.eq_false_iff.mp hc (hP c hPc)

theorem floor_eq {bs : List UInt8} {m : Nat} (hm : isBoundary bs m = true) :
    ∀ {n : Nat}, m ≤ n → (∀ i, m < i → i ≤ n → isBoundary bs i = false) → floor bs n = m
  | 0, hle, _ => (Nat.le_zero.mp hle).symm
  | n + 1, hle, hbetween => by
    unfold floor
    rcases Nat.eq_or_lt_of_le hle with rfl | hlt
    · rw [if_pos hm]
    · rw [if_neg (by simp [hbetween (n + 1) hlt (Nat.le_refl _)])]
      exact floor_eq hm (Nat.le_of_lt_succ hlt) fun i hi hin => hbetween i hi (Nat.le_succ_of_le hin)

/-- The cursor is put where the text is split. -/
theorem clamp_eq (text : List Char) (offset : Nat) :
    clamp text offset = byteLength (CursorSplit.of text offset).before := by
  obtain ⟨hsplit, hle, hnext⟩ := CursorSplit.of_spec text offset
  generalize CursorSplit.of text offset = c at hsplit hle hnext
  subst hsplit
  have hboundary := isBoundary_append c.before.reverse c.after
  rw [byteLength_reverse] at hboundary
  have hlength : byteLength c.before ≤ (bytes (c.before.reverse ++ c.after)).length := by
    simp only [length_bytes, byteLength_append, byteLength_reverse]
    exact Nat.le_add_right _ _
  refine floor_eq hboundary (Nat.le_min.mpr ⟨hle, hlength⟩) fun i hi hin => ?_
  obtain ⟨hoffset, hin⟩ := Nat.le_min.mp hin
  cases hafter : c.after with
  | nil =>
    rw [hafter, length_bytes, byteLength_append, byteLength_reverse, byteLength_nil] at hin
    omega
  | cons next rest =>
    have hlt := hnext next (by rw [hafter]; rfl)
    obtain ⟨j, rfl⟩ := Nat.exists_eq_add_of_le (Nat.le_of_lt hi)
    have hwithin := isBoundary_within c.before.reverse rest (c := next) (i := j) (by omega)
    rw [byteLength_reverse] at hwithin
    rw [hwithin, beq_eq_false_iff_ne]
    omega

/-- Going back over bytes goes back over the characters they stand for. -/
theorem backWhile?_eq (hP : ∀ c, P c = true → isAscii c = true) (before after : List Char) :
    backWhile? (byteIs P) (bytes (before.reverse ++ after)) (byteLength before) =
      some (byteLength (before.dropWhile P)) := by
  induction before generalizing after with
  | nil => rfl
  | cons c cs ih =>
    rw [List.reverse_cons, List.append_assoc, List.singleton_append, List.dropWhile_cons]
    cases hc : isAscii c with
    | true =>
      have hread := getElem?_of_isAscii hc cs.reverse after
      rw [byteLength_reverse] at hread
      rw [byteLength_cons, isAscii_iff.mp hc, Nat.add_comm, backWhile?, hread, Option.bind_eq_bind,
        Option.bind_some, byteIs_toUInt8 P hc]
      split
      · exact ih (c :: after)
      · rw [byteLength_cons, isAscii_iff.mp hc, Nat.add_comm]
    | false =>
      have hnot := eq_false_of_not_isAscii hP hc
      have hpos := c.utf8Size_pos
      obtain ⟨b, hread, hb⟩ :=
        getElem?_of_not_isAscii hc cs.reverse after (i := c.utf8Size - 1) (by omega)
      have hlast : byteLength (c :: cs) = byteLength cs.reverse + (c.utf8Size - 1) + 1 := by
        rw [byteLength_cons, byteLength_reverse]
        omega
      rw [hlast, backWhile?, hread, Option.bind_eq_bind, Option.bind_some, byteIs_of_le P hb, hnot,
        ← hlast]
      rfl

theorem onWhile_eq (hP : ∀ c, P c = true → isAscii c = true) (front after : List Char) :
    onWhile (byteIs P) (bytes (front ++ after)) (byteLength front) =
      byteLength front + byteLength (after.takeWhile P) := by
  induction after generalizing front with
  | nil =>
    rw [onWhile, dif_neg (by simp)]
    rfl
  | cons c cs ih =>
    have hpos := c.utf8Size_pos
    have hlt : byteLength front < (bytes (front ++ c :: cs)).length := by
      rw [length_bytes, byteLength_append, byteLength_cons]
      omega
    rw [onWhile, dif_pos hlt, List.takeWhile_cons]
    cases hc : isAscii c with
    | true =>
      have hread := getElem?_of_isAscii hc front cs
      rw [List.getElem?_eq_getElem hlt] at hread
      rw [Option.some.inj hread, byteIs_toUInt8 P hc]
      split
      · have hfurther := ih (front ++ [c])
        rw [byteLength_append, byteLength_cons, byteLength_nil, isAscii_iff.mp hc,
          List.append_assoc, List.singleton_append] at hfurther
        rw [hfurther, byteLength_cons, isAscii_iff.mp hc, Nat.add_assoc]
      · rfl
    | false =>
      have hnot := eq_false_of_not_isAscii hP hc
      obtain ⟨b, hread, hb⟩ := getElem?_of_not_isAscii hc front cs hpos
      rw [Nat.add_zero, List.getElem?_eq_getElem hlt] at hread
      rw [Option.some.inj hread, byteIs_of_le P hb, hnot]
      rfl

theorem trimmed?_eq (front path back : List Char) :
    trimmed? (front ++ path ++ back) ⟨byteLength front, byteLength front + byteLength path⟩ =
      some (trimSeparators path (byteLength front)) := by
  have hlead : byteLength path - byteLength (trimLeft isSeparator path) =
      (path.takeWhile isSeparator).length := by
    have hascii : byteLength (path.takeWhile isSeparator) = (path.takeWhile isSeparator).length :=
      byteLength_of_isAscii fun c hc => isAscii_of_isSeparator (List.all_eq_true.mp
        List.all_takeWhile c hc)
    rw [trimLeft, ← byteLength_runs isSeparator path, Nat.add_sub_cancel, hascii]
  rw [trimmed?, slice?_append, trimSeparators]
  simp only [Option.bind_eq_bind, Option.bind_some, hlead]
  cases trimBoth isSeparator path with
  | nil => rfl
  | cons c rest =>
    have hfirst : ∃ b, (bytes (c :: rest))[0]? = some b ∧ byteIs Char.isDigit b = c.isDigit := by
      cases hc : isAscii c with
      | true => exact ⟨_, getElem?_of_isAscii hc [] rest, byteIs_toUInt8 _ hc⟩
      | false =>
        obtain ⟨b, hread, hb⟩ := getElem?_of_not_isAscii hc [] rest c.utf8Size_pos
        rw [eq_false_of_not_isAscii (P := Char.isDigit) (fun c hc => isAscii_of_isAlphanum
          (by rw [Char.isAlphanum, hc, Bool.or_true])) hc]
        exact ⟨b, hread, byteIs_of_le _ hb⟩
    obtain ⟨b, hread, hdigit⟩ := hfirst
    simp only [List.isEmpty_cons, Bool.false_eq_true, if_false, hread, Option.bind_some, hdigit]
    split <;> rfl

/-- In front of the cursor no character satisfies `P`, or the nearest one that does is found. -/
theorem rfind?_cases (P : Char → Bool) (before : List Char) :
    (rfind? P before.reverse = none ∧ before.takeWhile (fun c => !P c) = before) ∨
    ∃ x front, P x = true ∧ before = before.takeWhile (fun c => !P c) ++ x :: front ∧
      rfind? P before.reverse = some (byteLength front) := by
  have hsplit := List.takeWhile_append_dropWhile (p := fun c => !P c) (l := before)
  rw [rfind?, List.reverse_reverse]
  cases hbehind : before.dropWhile (fun c => !P c) with
  | nil =>
    rw [hbehind, List.append_nil] at hsplit
    exact .inl ⟨rfl, hsplit⟩
  | cons x front =>
    have hx := List.head?_dropWhile_not (fun c => !P c) before
    rw [hbehind] at hx hsplit
    exact .inr ⟨x, front, by simpa using hx, hsplit.symm, rfl⟩

end Read

/-! ## The scanners -/

theorem pathStart?_eq (before after : List Char) :
    pathStart? (bytes (before.reverse ++ after)) (byteLength before) =
      some (byteLength (before.dropWhile isPathChar)) :=
  backWhile?_eq (fun _ => isAscii_of_isPathChar) before after

theorem expressionAt?_eq (text : List Char) (offset : Nat) :
    expressionAt? text offset = some (expressionAt text offset) := by
  obtain ⟨hsplit, -, -⟩ := CursorSplit.of_spec text offset
  unfold expressionAt? expressionAt
  rw [clamp_eq]
  generalize CursorSplit.of text offset = c at hsplit
  subst hsplit
  have hstop := onWhile_eq (P := isWordChar) (fun _ => isAscii_of_isWordChar) c.before.reverse c.after
  rw [byteLength_reverse] at hstop
  simp only [hstop, pathStart?_eq, Option.bind_eq_bind, Option.bind_some]
  have hsize := byteLength_runs isPathChar c.before
  generalize hpath : (c.before.takeWhile isPathChar).reverse ++ c.after.takeWhile isWordChar = path
  have hspan : byteLength c.before + byteLength (c.after.takeWhile isWordChar) =
      byteLength (c.before.dropWhile isPathChar) + byteLength path := by
    rw [← hpath, byteLength_append, byteLength_reverse]
    omega
  rw [hspan, CursorSplit.offset, ← hsize, Nat.add_sub_cancel_left]
  cases path with
  | nil => simp
  | cons x xs =>
    have hpos := x.utf8Size_pos
    have htrimmed := trimmed?_eq (c.before.dropWhile isPathChar).reverse (x :: xs)
      (c.after.dropWhile isWordChar)
    rw [← hpath, ← eq_runs_around, hpath, byteLength_reverse] at htrimmed
    rw [if_neg (by rw [byteLength_cons]; omega), htrimmed]
    rfl

theorem completionPrefix?_eq (text : List Char) (offset : Nat) :
    completionPrefix? text offset = some (completionPrefix text offset) := by
  obtain ⟨hsplit, -, -⟩ := CursorSplit.of_spec text offset
  unfold completionPrefix? completionPrefix
  rw [clamp_eq]
  generalize CursorSplit.of text offset = c at hsplit
  subst hsplit
  have htyped : slice? (c.before.reverse ++ c.after)
      ⟨byteLength (c.before.dropWhile isPathChar), byteLength c.before⟩ =
        some (c.before.takeWhile isPathChar).reverse := by
    have hslice := slice?_append (c.before.dropWhile isPathChar).reverse
      (c.before.takeWhile isPathChar).reverse c.after
    rwa [← List.reverse_append, List.takeWhile_append_dropWhile, ← byteLength_append,
      ← List.reverse_append, List.takeWhile_append_dropWhile, byteLength_reverse,
      byteLength_reverse] at hslice
  simp only [pathStart?_eq, htyped, Option.bind_eq_bind, Option.bind_some]
  generalize c.before.takeWhile isPathChar = typed
  rcases rfind?_cases isSeparator typed with ⟨hfind, hall⟩ | ⟨x, front, hx, htext, hfind⟩
  · rw [hall, hfind, List.drop_length]
    rfl
  · have hsize := isAscii_iff.mp (isAscii_of_isSeparator hx)
    generalize typed.takeWhile (fun c => !isSeparator c) = name at htext
    subst htext
    have hreverse : (name ++ x :: front).reverse = front.reverse ++ [x] ++ name.reverse := by simp
    have hfront := slice?_append [] front.reverse ([x] ++ name.reverse)
    have hname := slice?_append (front.reverse ++ [x]) name.reverse []
    rw [List.append_nil, ← hreverse] at hname
    rw [List.nil_append, ← List.append_assoc, ← hreverse] at hfront
    simp only [byteLength_append, byteLength_reverse, byteLength_cons, byteLength_nil, hsize,
      Nat.zero_add, Nat.add_zero] at hfront hname
    have hlength : byteLength (name ++ x :: front).reverse = byteLength front + 1 + byteLength name := by
      rw [hreverse]
      simp only [byteLength_append, byteLength_reverse, byteLength_cons, byteLength_nil, hsize]
    rw [hfind, List.drop_left]
    simp only [hlength, hfront, hname, Option.bind_some]
    rfl

theorem lineIndent?_eq (text : List Char) (offset : Nat) :
    lineIndent? text offset = some (lineIndent text offset) := by
  obtain ⟨hsplit, -, -⟩ := CursorSplit.of_spec text offset
  unfold lineIndent? lineIndent
  rw [clamp_eq]
  generalize CursorSplit.of text offset = c at hsplit
  subst hsplit
  have hfront := slice?_append [] c.before.reverse c.after
  rw [List.nil_append, byteLength_nil, Nat.zero_add, byteLength_reverse] at hfront
  have hline : slice? (c.before.reverse ++ c.after)
      ⟨((rfind? (· == '\n') c.before.reverse).map (· + 1)).getD 0,
        byteLength (c.before.reverse ++ c.after)⟩ =
      some ((c.before.takeWhile (· != '\n')).reverse ++ c.after) := by
    have hcases : (rfind? (· == '\n') c.before.reverse = none ∧
          c.before.takeWhile (· != '\n') = c.before) ∨
        ∃ x front, (x == '\n') = true ∧ c.before = c.before.takeWhile (· != '\n') ++ x :: front ∧
          rfind? (· == '\n') c.before.reverse = some (byteLength front) :=
      rfind?_cases _ _
    rcases hcases with ⟨hfind, hall⟩ | ⟨x, front, hx, htext, hfind⟩
    · have hslice := slice?_append [] (c.before.reverse ++ c.after) []
      rw [List.append_nil, List.nil_append, byteLength_nil, Nat.zero_add] at hslice
      rw [hfind, hall]
      exact hslice
    · obtain rfl := beq_iff_eq.mp hx
      have hsize : Char.utf8Size '\n' = 1 := by decide
      generalize c.before.takeWhile (· != '\n') = name at htext
      have hreverse : c.before.reverse ++ c.after =
          front.reverse ++ ['\n'] ++ (name.reverse ++ c.after) := by simp [htext]
      have hslice := slice?_append (front.reverse ++ ['\n']) (name.reverse ++ c.after) []
      rw [List.append_nil, ← byteLength_append, ← hreverse, byteLength_append, byteLength_reverse,
        byteLength_cons, byteLength_nil, hsize] at hslice
      rw [hfind]
      exact hslice
  simp only [hfront, Option.bind_eq_bind, Option.bind_some, hline]
  generalize (c.before.takeWhile (· != '\n')).reverse ++ c.after = line
  have hslice := slice?_append [] (line.takeWhile fun c => c == ' ' || c == '\t')
    (line.dropWhile fun c => c == ' ' || c == '\t')
  rw [List.nil_append, byteLength_nil, Nat.zero_add, List.takeWhile_append_dropWhile] at hslice
  rw [trimLeft, ← byteLength_runs (fun c => c == ' ' || c == '\t') line, Nat.add_sub_cancel]
  exact hslice

/-! ## Calls -/

theorem isAscii_of_isCalleeBlank {c : Char} (h : isCalleeBlank c = true) : isAscii c = true := by
  simp only [isCalleeBlank, Bool.or_eq_true, beq_iff_eq] at h
  rcases h with (((rfl | rfl) | rfl) | rfl) | rfl <;> decide

theorem callee?_eq (before after : List Char) :
    callee? (before.reverse ++ after) (byteLength before) = some (calleeBefore before) := by
  have hstop := backWhile?_eq (P := isCalleeBlank) (fun _ => isAscii_of_isCalleeBlank) before after
  have hsplit : before.reverse ++ after = (before.dropWhile isCalleeBlank).reverse ++
      ((before.takeWhile isCalleeBlank).reverse ++ after) := by
    rw [← List.append_assoc, ← List.reverse_append, List.takeWhile_append_dropWhile]
  unfold callee? calleeBefore
  rw [hstop, hsplit]
  generalize before.dropWhile isCalleeBlank = rest
  generalize (before.takeWhile isCalleeBlank).reverse ++ after = behind
  have htrimmed := trimmed?_eq (rest.dropWhile isPathChar).reverse
    (rest.takeWhile isPathChar).reverse behind
  rw [← List.reverse_append, List.takeWhile_append_dropWhile, ← byteLength_append,
    ← List.reverse_append, List.takeWhile_append_dropWhile, byteLength_reverse,
    byteLength_reverse] at htrimmed
  simp only [Option.bind_eq_bind, Option.bind_some, pathStart?_eq, htrimmed]
  rw [← byteLength_runs isPathChar rest, Nat.add_sub_cancel_left]

theorem ne_toUInt8 {b : UInt8} (hb : 128 ≤ b) {c : Char} (hc : isAscii c = true) :
    b ≠ c.toUInt8 := by
  rintro rfl
  have hlt := toNat_lt_of_isAscii hc
  rw [UInt8.le_iff_toNat_le, toUInt8_toNat hc] at hb
  exact Nat.not_le_of_lt hlt hb

/-- The bytes of longer characters are passed over. -/
theorem call?_skip (text : List Char) (depth commas i : Nat) :
    ∀ {k : Nat}, (∀ j < k, ∃ b, (bytes text)[i + j]? = some b ∧ 128 ≤ b) →
      call? text depth commas (i + k) = call? text depth commas i
  | 0, _ => rfl
  | k + 1, h => by
    obtain ⟨b, hread, hb⟩ := h k (Nat.lt_succ_self k)
    have hne : ∀ c, isAscii c = true → b ≠ c.toUInt8 := fun c => ne_toUInt8 hb
    rw [← Nat.add_assoc, call?, hread, Option.bind_eq_bind, Option.bind_some,
      if_neg (by simp [hne ')' rfl, hne '}' rfl, hne ']' rfl]),
      if_neg (by simp [hne '{' rfl, hne '[' rfl]), if_neg (hne '(' rfl),
      if_neg fun h => hne ',' rfl h.1, if_neg fun h => hne '\n' rfl h.1]
    exact call?_skip text depth commas i fun j hj => h j (Nat.lt_succ_of_lt hj)

/-- The byte in front of an offset is a line break exactly if the character there is one. -/
theorem getLast?_take_bytes (before after : List Char) :
    ((bytes (before.reverse ++ after)).take (byteLength before)).getLast? = some '\n'.toUInt8 ↔
      before.head? = some '\n' := by
  have htake : (bytes (before.reverse ++ after)).take (byteLength before) = bytes before.reverse := by
    rw [bytes_append, List.take_left']
    rw [length_bytes, byteLength_reverse]
  rw [htake]
  cases before with
  | nil => simp
  | cons c cs =>
    have hlast : (bytes (c :: cs).reverse).getLast? = (String.utf8EncodeChar c).getLast? := by
      rw [List.reverse_cons, bytes_append, List.getLast?_append, bytes_cons, bytes_nil,
        List.append_nil]
      cases hencoded : (String.utf8EncodeChar c).getLast? with
      | none => exact absurd (List.getLast?_eq_none_iff.mp hencoded) String.utf8EncodeChar_ne_nil
      | some b => rfl
    rw [hlast, List.head?_cons, Option.some_inj]
    cases hc : isAscii c with
    | true =>
      rw [utf8EncodeChar_of_isAscii hc, List.getLast?_singleton, Option.some_inj]
      exact toUInt8_inj hc rfl
    | false =>
      refine iff_of_false (fun hbreak => ?_) ?_
      · have hmem := List.mem_of_getLast? hbreak
        exact ne_toUInt8 (le_of_mem_utf8EncodeChar hc hmem) (c := '\n') rfl rfl
      · rintro rfl
        cases hc

/-- By induction on the characters in front of the cursor, the nearest one first. -/
theorem call?_eq (before after : List Char) (depth commas : Nat) :
    call? (before.reverse ++ after) depth commas (byteLength before) =
      some (callBefore depth commas before) := by
  induction before generalizing after depth commas with
  | nil => rfl
  | cons c cs ih =>
    have htext : (c :: cs).reverse ++ after = cs.reverse ++ c :: after := by simp
    rw [htext]
    cases hc : isAscii c with
    | true =>
      have hread := getElem?_of_isAscii hc cs.reverse after
      rw [byteLength_reverse] at hread
      have hbyte : ∀ d, isAscii d = true → (c.toUInt8 = d.toUInt8 ↔ c = d) :=
        fun d hd => toUInt8_inj hc hd
      rw [byteLength_cons, isAscii_iff.mp hc, Nat.add_comm, call?, callBefore]
      simp only [hread, Option.bind_eq_bind, Option.bind_some, hbyte ')' rfl, hbyte '}' rfl,
        hbyte ']' rfl, hbyte '{' rfl, hbyte '[' rfl, hbyte '(' rfl, hbyte ',' rfl, hbyte '\n' rfl,
        getLast?_take_bytes, callee?_eq, ih, apply_ite some]
      rfl
    | false =>
      have hlong : ∀ j < c.utf8Size, ∃ b,
          (bytes (cs.reverse ++ c :: after))[byteLength cs + j]? = some b ∧ 128 ≤ b := by
        intro j hj
        have hread := getElem?_of_not_isAscii hc cs.reverse after hj
        rwa [byteLength_reverse] at hread
      have hskip := call?_skip (cs.reverse ++ c :: after) depth commas (byteLength cs) hlong
      have hne : ∀ d, isAscii d = true → c ≠ d := by
        rintro d hd rfl
        rw [hc] at hd
        cases hd
      rw [byteLength_cons, Nat.add_comm, hskip, ih, callBefore,
        if_neg (by simp [hne ')' rfl, hne '}' rfl, hne ']' rfl]),
        if_neg (by simp [hne '{' rfl, hne '[' rfl]), if_neg (hne '(' rfl),
        if_neg fun h => hne ',' rfl h.1, if_neg fun h => hne '\n' rfl h.1]

theorem callContext?_eq (text : List Char) (offset : Nat) :
    callContext? text offset = some (callContext text offset) := by
  obtain ⟨hsplit, -, -⟩ := CursorSplit.of_spec text offset
  unfold callContext? callContext
  rw [clamp_eq]
  generalize CursorSplit.of text offset = c at hsplit
  subst hsplit
  exact call?_eq c.before c.after 0 0

/--
In any text and from any offset the scanners read bytes and cut out parts that are there, between
two characters, and so find what stands around the cursor. An expression, and the callee of a call,
is the part of the text at its span; it has characters of paths only, no separator at either end and
no digit in front.
-/
theorem scans_within_text (text : List Char) (offset : Nat) :
    expressionAt? text offset = some (expressionAt text offset) ∧
    completionPrefix? text offset = some (completionPrefix text offset) ∧
    callContext? text offset = some (callContext text offset) ∧
    lineIndent? text offset = some (lineIndent text offset) ∧
    (∀ e, expressionAt text offset = some e → slice? text e.span = some e.text ∧ e.IsPath) ∧
    ∀ call, callContext text offset = some call →
      slice? text call.callee.span = some call.callee.text ∧ call.callee.IsPath := by
  refine ⟨expressionAt?_eq text offset, completionPrefix?_eq text offset,
    callContext?_eq text offset, lineIndent?_eq text offset, fun e h => ?_, fun call h => ?_⟩
  · obtain ⟨hstands, hpath⟩ := expressionAt_spec h
    exact ⟨hstands.slice?, hpath⟩
  · obtain ⟨hstands, hpath⟩ := callContext_spec h
    exact ⟨hstands.slice?, hpath⟩

end Scanner

end LuaScope

import LuaScope.Proofs.Text.Replace

/-!
# LuaScope.Proofs.Text.Bytes

A text as its bytes in UTF-8, and the parts that can be cut out of it by offsets: none of them cuts
a character in two.

* `byteIs_toUInt8`, `byteIs_of_le` — a byte is an ASCII character, or a part of one of more than a
  byte.
* `isBoundary_iff`                 — the first bytes of characters tell where a text can be cut.
* `slice?_eq_some_iff`             — a span selects the part that stands at it.
-/

namespace LuaScope

/-- The text in UTF-8. -/
def bytes (text : List Char) : List UInt8 := text.flatMap String.utf8EncodeChar

@[simp] theorem bytes_nil : bytes [] = [] := rfl

@[simp] theorem bytes_append (xs ys : List Char) : bytes (xs ++ ys) = bytes xs ++ bytes ys :=
  List.flatMap_append

theorem bytes_cons (c : Char) (cs : List Char) :
    bytes (c :: cs) = String.utf8EncodeChar c ++ bytes cs := rfl

@[simp] theorem length_bytes (text : List Char) : (bytes text).length = byteLength text := by
  induction text with
  | nil => rfl
  | cons c cs ih => simp [bytes_cons, ih]

/-! ## Characters of one byte -/

/-- Is the character a single byte in UTF-8? -/
def isAscii (c : Char) : Bool := c.utf8Size == 1

theorem isAscii_iff {c : Char} : isAscii c = true ↔ c.utf8Size = 1 := beq_iff_eq

theorem utf8EncodeChar_of_isAscii {c : Char} (h : isAscii c = true) :
    String.utf8EncodeChar c = [c.toUInt8] :=
  String.utf8EncodeChar_eq_singleton (isAscii_iff.mp h)

theorem toNat_lt_of_isAscii {c : Char} (h : isAscii c = true) : c.toNat < 128 := by
  rw [isAscii_iff, Char.utf8Size_eq_one_iff, UInt32.le_iff_toNat_le] at h
  exact Nat.lt_succ_of_le h

theorem toUInt8_toNat {c : Char} (h : isAscii c = true) : c.toUInt8.toNat = c.toNat := by
  have hlt := toNat_lt_of_isAscii h
  show c.val.toUInt8.toNat = c.val.toNat
  rw [UInt32.toNat_toUInt8]
  exact Nat.mod_eq_of_lt (Nat.lt_trans hlt (by decide))

theorem toUInt8_inj {c d : Char} (hc : isAscii c = true) (hd : isAscii d = true) :
    c.toUInt8 = d.toUInt8 ↔ c = d := by
  refine ⟨fun heq => ?_, congrArg Char.toUInt8⟩
  have hsame := congrArg UInt8.toNat heq
  rw [toUInt8_toNat hc, toUInt8_toNat hd] at hsame
  exact Char.toNat_inj.mp hsame

/-- A character of more bytes has none that could be a character. -/
theorem le_of_mem_utf8EncodeChar {c : Char} (h : isAscii c = false) {b : UInt8}
    (hb : b ∈ String.utf8EncodeChar c) : 128 ≤ b := by
  have hor : ∀ {x mark : UInt8}, 128 ≤ mark → 128 ≤ x ||| mark := by
    intro x mark hmark
    rw [UInt8.le_iff_toNat_le, UInt8.toNat_or] at *
    exact Nat.le_trans hmark Nat.right_le_or
  have hne : c.utf8Size ≠ 1 := fun heq => by simp [isAscii_iff.mpr heq] at h
  have hsize : c.utf8Size = 2 ∨ c.utf8Size = 3 ∨ c.utf8Size = 4 := by
    have hpos := c.utf8Size_pos
    have hle := c.utf8Size_le_four
    omega
  rcases hsize with hsize | hsize | hsize
  · rw [String.utf8EncodeChar_eq_cons_cons hsize] at hb
    simp only [List.mem_cons, List.not_mem_nil, or_false] at hb
    rcases hb with rfl | rfl <;> exact hor (by decide)
  · rw [String.utf8EncodeChar_eq_cons_cons_cons hsize] at hb
    simp only [List.mem_cons, List.not_mem_nil, or_false] at hb
    rcases hb with rfl | rfl | rfl <;> exact hor (by decide)
  · rw [String.utf8EncodeChar_eq_cons_cons_cons_cons hsize] at hb
    simp only [List.mem_cons, List.not_mem_nil, or_false] at hb
    rcases hb with rfl | rfl | rfl | rfl <;> exact hor (by decide)

/-- Does the byte stand for an ASCII character that satisfies `P`? -/
def byteIs (P : Char → Bool) (b : UInt8) : Bool := b < 128 && P (Char.ofUInt8 b)

theorem byteIs_toUInt8 (P : Char → Bool) {c : Char} (h : isAscii c = true) :
    byteIs P c.toUInt8 = P c := by
  have hlt : c.toUInt8 < 128 := by
    rw [UInt8.lt_iff_toNat_lt, toUInt8_toNat h]
    exact toNat_lt_of_isAscii h
  have hchar : Char.ofUInt8 c.toUInt8 = c := by
    refine Char.toNat_inj.mp ?_
    show c.toUInt8.toUInt32.toNat = c.toNat
    rw [UInt8.toNat_toUInt32, toUInt8_toNat h]
  simp [byteIs, hlt, hchar]

theorem byteIs_of_le (P : Char → Bool) {b : UInt8} (h : 128 ≤ b) : byteIs P b = false := by
  have hlt : ¬b < 128 := UInt8.not_lt.mpr h
  simp [byteIs, hlt]

/-! ## Where a text can be cut -/

/-- Does a character start at the byte, or the text end in front of it? -/
def isBoundary (bs : List UInt8) (i : Nat) : Bool :=
  match bs[i]? with
  | some b => decide b.IsUTF8FirstByte
  | none => i == bs.length

section Boundary

variable {front back text inner : List Char} {c : Char} {i j : Nat} {span : Span}

theorem getElem?_bytes (front back : List Char) (h : i < c.utf8Size) :
    (bytes (front ++ c :: back))[byteLength front + i]? = (String.utf8EncodeChar c)[i]? := by
  rw [bytes_append, List.getElem?_append_right (by simp), length_bytes, Nat.add_sub_cancel_left,
    bytes_cons, List.getElem?_append_left (by simpa using h)]

/-- Within a character only its first byte is one to cut in front of. -/
theorem isBoundary_within (front back : List Char) (h : i < c.utf8Size) :
    isBoundary (bytes (front ++ c :: back)) (byteLength front + i) = (i == 0) := by
  have hi : i < (String.utf8EncodeChar c).length := by simpa using h
  rw [isBoundary, getElem?_bytes front back h, List.getElem?_eq_getElem hi]
  simp only [UInt8.isUTF8FirstByte_getElem_utf8EncodeChar]
  rfl

/-- A text can be cut where one of its ends does. -/
theorem isBoundary_append (front back : List Char) :
    isBoundary (bytes (front ++ back)) (byteLength front) = true := by
  cases back with
  | nil => simp [isBoundary]
  | cons c back =>
    have hfirst := isBoundary_within front back (c := c) (i := 0) c.utf8Size_pos
    rwa [Nat.add_zero] at hfirst

/-- Behind a character a text is cut as the rest of it is. -/
theorem isBoundary_cons_add (c : Char) (cs : List Char) (j : Nat) :
    isBoundary (bytes (c :: cs)) (c.utf8Size + j) = isBoundary (bytes cs) j := by
  have hsize : (String.utf8EncodeChar c).length = c.utf8Size := String.length_utf8EncodeChar c
  rw [isBoundary, isBoundary, bytes_cons, List.getElem?_append_right (by omega), hsize,
    Nat.add_sub_cancel_left]
  cases (bytes cs)[j]? with
  | some b => rfl
  | none =>
    rw [List.length_append, hsize, Bool.eq_iff_iff, beq_iff_eq, beq_iff_eq]
    exact Nat.add_left_cancel_iff

theorem isBoundary_iff :
    isBoundary (bytes text) i = true ↔ ∃ front back, text = front ++ back ∧ byteLength front = i := by
  constructor
  · induction text generalizing i with
    | nil =>
      intro h
      exact ⟨[], [], rfl, (beq_iff_eq.mp h).symm⟩
    | cons c cs ih =>
      intro h
      rcases Nat.lt_or_ge i c.utf8Size with hlt | hle
      · have hwithin := isBoundary_within [] cs hlt
        rw [byteLength_nil, Nat.zero_add, List.nil_append, h] at hwithin
        exact ⟨[], c :: cs, rfl, (beq_iff_eq.mp hwithin.symm).symm⟩
      · obtain ⟨j, rfl⟩ := Nat.exists_eq_add_of_le hle
        rw [isBoundary_cons_add] at h
        obtain ⟨front, back, rfl, rfl⟩ := ih h
        exact ⟨c :: front, back, rfl, rfl⟩
  · rintro ⟨front, back, rfl, rfl⟩
    exact isBoundary_append front back

/-- The part of a text at a span; `none` if the span leaves the text or cuts a character in two. -/
def slice? (text : List Char) (span : Span) : Option (List Char) :=
  if span.start ≤ span.stop ∧ isBoundary (bytes text) span.start = true ∧
      isBoundary (bytes text) span.stop = true then
    some (takeBytes (dropBytes text span.start) (span.stop - span.start))
  else none

theorem slice?_append (front inner back : List Char) :
    slice? (front ++ inner ++ back) ⟨byteLength front, byteLength front + byteLength inner⟩ =
      some inner := by
  have hstop := isBoundary_append (front ++ inner) back
  have hstart := isBoundary_append front (inner ++ back)
  rw [byteLength_append] at hstop
  rw [← List.append_assoc] at hstart
  rw [slice?, if_pos ⟨Nat.le_add_right _ _, hstart, hstop⟩, List.append_assoc, dropBytes_append,
    Nat.add_sub_cancel_left, takeBytes_append]

theorem byteLength_eq_zero {cs : List Char} : byteLength cs = 0 ↔ cs = [] := by
  cases cs with
  | nil => simp
  | cons c cs =>
    have hpos := c.utf8Size_pos
    simp only [byteLength_cons, List.cons_ne_nil, iff_false]
    omega

/-- A span selects the part that stands at it. -/
theorem slice?_eq_some_iff :
    slice? text span = some inner ↔ ∃ front back, text = front ++ inner ++ back ∧
      span = ⟨byteLength front, byteLength front + byteLength inner⟩ := by
  constructor
  · intro h
    have hslice := h
    unfold slice? at h
    split at h
    case isFalse => cases h
    rename_i hspan
    obtain ⟨hle, hstart, hstop⟩ := hspan
    obtain ⟨front, rest, hfront, hfirst⟩ := isBoundary_iff.mp hstart
    obtain ⟨upto, back, rfl, hlast⟩ := isBoundary_iff.mp hstop
    -- Of the two parts in front of the cuts the longer one goes on behind the shorter one.
    have hprefix : ∃ between, upto = front ++ between := by
      rcases List.append_eq_append_iff.mp hfront with ⟨between, rfl, -⟩ | ⟨between, rfl, -⟩
      · rw [byteLength_append] at hfirst
        obtain rfl : between = [] := byteLength_eq_zero.mp (by omega)
        exact ⟨[], by simp⟩
      · exact ⟨between, rfl⟩
    obtain ⟨between, rfl⟩ := hprefix
    obtain rfl : span = ⟨byteLength front, byteLength front + byteLength between⟩ := by
      rw [← byteLength_append, hfirst, hlast]
    rw [slice?_append] at hslice
    cases hslice
    exact ⟨front, back, rfl, rfl⟩
  · rintro ⟨front, back, rfl, rfl⟩
    exact slice?_append front inner back

end Boundary

end LuaScope

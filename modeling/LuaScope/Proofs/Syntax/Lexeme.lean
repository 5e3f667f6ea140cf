import LuaScope.Syntax.Token

/-!
# LuaScope.Proofs.Syntax.Lexeme

Where the tokens of a text stand.

* `Lexeme.ofChars_ascending` — each token starts behind the one before it.
* `Lexeme.ofChars_slice`     — a name is what the text holds at its span, and only characters of
  names are in it.
-/

namespace LuaScope

/-! ## Slices of a text -/

theorem dropBytes_append (xs ys : List Char) : dropBytes (xs ++ ys) (byteLength xs) = ys := by
  induction xs with
  | nil => cases ys <;> rfl
  | cons c cs ih =>
    have hpos : 0 < c.utf8Size := c.utf8Size_pos
    have hsucc : c.utf8Size + byteLength cs = (c.utf8Size + byteLength cs - 1) + 1 := by omega
    rw [List.cons_append, byteLength_cons, hsucc, dropBytes]
    rw [← hsucc, Nat.add_sub_cancel_left]
    exact ih

theorem takeBytes_append (xs ys : List Char) : takeBytes (xs ++ ys) (byteLength xs) = xs := by
  induction xs with
  | nil => cases ys <;> rfl
  | cons c cs ih =>
    have hpos : 0 < c.utf8Size := c.utf8Size_pos
    have hsucc : c.utf8Size + byteLength cs = (c.utf8Size + byteLength cs - 1) + 1 := by omega
    rw [List.cons_append, byteLength_cons, hsucc, takeBytes]
    rw [← hsucc, Nat.add_sub_cancel_left, ih]

/-- What a text holds between its first `offset` bytes and the rest behind `word`. -/
theorem slice_append (front word rest : List Char) :
    takeBytes (dropBytes (front ++ (word ++ rest)) (byteLength front))
      (byteLength front + byteLength word - byteLength front) = word := by
  rw [dropBytes_append, Nat.add_sub_cancel_left, takeBytes_append]

theorem take_runLength (p : Char → Bool) (cs : List Char) :
    cs.take (runLength p cs) = cs.takeWhile p := by
  unfold runLength
  induction cs with
  | nil => rfl
  | cons c cs ih =>
    rw [List.takeWhile_cons]
    split
    · rw [List.length_cons, List.take_succ_cons, ih]
    · rfl

/-- A token that is a name took the characters of that name. -/
theorem Token.scan_name {cs : List Char} {text : String} {n : Nat}
    (h : Token.scan cs = some (.token (.name text), n)) :
    text.toList = cs.take n ∧ ∀ c ∈ text.toList, isNameChar c = true := by
  unfold Token.scan at h
  split at h
  · cases h
  · rename_i c rest
    split at h
    · simp only at h
      split at h
      · cases h
      · cases h
        rw [String.toList_ofList, take_runLength]
        exact ⟨rfl, List.all_eq_true.mp List.all_takeWhile⟩
    · exfalso
      split at h
      · cases h
      · split at h
        · split at h <;> cases h
        · split at h
          · obtain ⟨_, _, heq⟩ := Option.map_eq_some_iff.mp h
            cases heq
          · split at h
            · split at h <;> cases h
            · obtain ⟨_, _, heq⟩ := Option.map_eq_some_iff.mp h
              cases heq

namespace Lexeme

/-- The next token starts in front of those behind it. -/
def StartsBefore (a b : Lexeme) : Prop := a.span.start < b.span.start

/-- A name stands in the text as it is, and holds only characters of names. -/
def Stands (text : List Char) (l : Lexeme) : Prop :=
  ∀ name, l.token = .name name →
    takeBytes (dropBytes text l.span.start) (l.span.stop - l.span.start) = name.toList ∧
      ∀ c ∈ name.toList, isNameChar c = true

theorem scanFrom_ascending :
    ∀ (cs : List Char) (offset : Nat) (opening : Bool) (comments : List Comment) (skip : Nat)
      (ls : List Lexeme), scanFrom offset opening comments skip cs = some ls →
      (∀ l ∈ ls, offset ≤ l.span.start) ∧ ls.Pairwise StartsBefore := by
  intro cs
  induction cs with
  | nil =>
    intro offset opening comments skip ls h
    cases h
    exact ⟨nofun, .nil⟩
  | cons c cs ih =>
    intro offset opening comments skip ls h
    have hpos : 0 < c.utf8Size := c.utf8Size_pos
    have hlater : ∀ opening comments skip ls,
        scanFrom (offset + c.utf8Size) opening comments skip cs = some ls →
        (∀ l ∈ ls, offset < l.span.start) ∧ ls.Pairwise StartsBefore := by
      intro opening comments skip ls h
      obtain ⟨hle, hpairs⟩ := ih _ _ _ _ _ h
      exact ⟨fun l hl => Nat.lt_of_lt_of_le (by omega) (hle l hl), hpairs⟩
    have hweak : ∀ {ls : List Lexeme}, (∀ l ∈ ls, offset < l.span.start) ∧
        ls.Pairwise StartsBefore → (∀ l ∈ ls, offset ≤ l.span.start) ∧
        ls.Pairwise StartsBefore := fun h => ⟨fun l hl => Nat.le_of_lt (h.1 l hl), h.2⟩
    cases skip with
    | succ skip => exact hweak (hlater _ _ _ _ h)
    | zero =>
      simp only [scanFrom] at h
      split at h
      · exact hweak (hlater _ _ _ _ h)
      · split at h
        · cases h
        · exact hweak (hlater _ _ _ _ h)
        · split at h
          · cases h
          · rename_i rest hrest
            cases h
            obtain ⟨hlt, hpairs⟩ := hlater _ _ _ _ hrest
            refine ⟨fun l hl => ?_, .cons hlt hpairs⟩
            rcases List.mem_cons.mp hl with rfl | hl
            · exact Nat.le_refl _
            · exact Nat.le_of_lt (hlt l hl)

/-- By induction on the characters; `front` holds those that were passed. -/
theorem scanFrom_stands (text : List Char) :
    ∀ (cs front : List Char) (opening : Bool) (comments : List Comment) (skip : Nat)
      (ls : List Lexeme), text = front ++ cs →
      scanFrom (byteLength front) opening comments skip cs = some ls →
      ∀ l ∈ ls, l.Stands text := by
  intro cs
  induction cs with
  | nil =>
    intro front opening comments skip ls _ h
    cases h
    nofun
  | cons c cs ih =>
    intro front opening comments skip ls htext h
    have hlater : ∀ opening comments skip ls,
        scanFrom (byteLength front + c.utf8Size) opening comments skip cs = some ls →
        ∀ l ∈ ls, l.Stands text := by
      intro opening comments skip ls h
      refine ih (front ++ [c]) opening comments skip ls (by simp [htext]) ?_
      simpa using h
    cases skip with
    | succ skip => exact hlater _ _ _ _ h
    | zero =>
      simp only [scanFrom] at h
      split at h
      · exact hlater _ _ _ _ h
      · split at h
        · cases h
        · exact hlater _ _ _ _ h
        · rename_i t n hfound
          split at h
          · cases h
          · rename_i rest hrest
            cases h
            intro l hl
            rcases List.mem_cons.mp hl with rfl | hl
            · intro name hname
              cases hname
              split at hfound
              · cases hfound
              · obtain ⟨hword, hchars⟩ := Token.scan_name hfound
                refine ⟨?_, hchars⟩
                have hslice := slice_append front ((c :: cs).take n) ((c :: cs).drop n)
                rw [List.take_append_drop] at hslice
                rw [hword, htext]
                exact hslice
            · exact hlater _ _ _ _ hrest l hl

/-- No token starts behind the end of the text. -/
theorem scanFrom_start_le :
    ∀ (cs : List Char) (offset : Nat) (opening : Bool) (comments : List Comment) (skip : Nat)
      (ls : List Lexeme), scanFrom offset opening comments skip cs = some ls →
      ∀ l ∈ ls, l.span.start ≤ offset + byteLength cs := by
  intro cs
  induction cs with
  | nil =>
    intro offset opening comments skip ls h
    cases h
    nofun
  | cons c cs ih =>
    intro offset opening comments skip ls h
    have hlater : ∀ opening comments skip ls,
        scanFrom (offset + c.utf8Size) opening comments skip cs = some ls →
        ∀ l ∈ ls, l.span.start ≤ offset + byteLength (c :: cs) := by
      intro opening comments skip ls h l hl
      rw [byteLength_cons, ← Nat.add_assoc]
      exact ih _ _ _ _ _ h l hl
    cases skip with
    | succ skip => exact hlater _ _ _ _ h
    | zero =>
      simp only [scanFrom] at h
      split at h
      · exact hlater _ _ _ _ h
      · split at h
        · cases h
        · exact hlater _ _ _ _ h
        · split at h
          · cases h
          · rename_i rest hrest
            cases h
            intro l hl
            rcases List.mem_cons.mp hl with rfl | hl
            · exact Nat.le_add_right _ _
            · exact hlater _ _ _ _ hrest l hl

theorem ofChars_ascending {cs : List Char} {ls : List Lexeme} (h : ofChars cs = some ls) :
    ls.Pairwise StartsBefore := by
  unfold ofChars at h
  split at h <;> exact (scanFrom_ascending _ _ _ _ _ _ h).2

theorem ofChars_start_le {cs : List Char} {ls : List Lexeme} (h : ofChars cs = some ls) :
    ∀ l ∈ ls, l.span.start ≤ byteLength cs := by
  unfold ofChars at h
  split at h
  · exact scanFrom_start_le _ _ _ _ _ _ h
  · have hle := scanFrom_start_le _ _ _ _ _ _ h
    rwa [Nat.zero_add] at hle

theorem ofChars_slice {cs : List Char} {ls : List Lexeme} (h : ofChars cs = some ls) :
    ∀ l ∈ ls, l.Stands cs := by
  unfold ofChars at h
  split at h
  · exact scanFrom_stands _ _ ['\uFEFF'] _ _ _ _ rfl h
  · exact scanFrom_stands _ _ [] _ _ _ _ rfl h

/-- The tokens stand one behind another, from the offset on, and cover text. Of an `=` that is what
is left of a `>=` this is not said. -/
def LinedUp : Nat → List Lexeme → Prop
  | _, [] => True
  | offset, l :: rest =>
    offset ≤ l.span.start ∧ l.span.start ≤ l.span.stop ∧
      (l.token ≠ .mark .assign → l.span.start < l.span.stop) ∧ LinedUp l.span.stop rest

theorem LinedUp.le {offset offset' : Nat} {ls : List Lexeme} (h : LinedUp offset ls)
    (hle : offset' ≤ offset) : LinedUp offset' ls := by
  cases ls with
  | nil => trivial
  | cons l rest => exact ⟨Nat.le_trans hle h.1, h.2⟩

theorem LinedUp.suffix {offset : Nat} : ∀ {ls ls' : List Lexeme}, LinedUp offset ls →
    ls' <:+ ls → LinedUp offset ls'
  | [], ls', _, hsuffix => by rw [List.suffix_nil.mp hsuffix]; trivial
  | l :: rest, ls', h, hsuffix => by
    rcases List.suffix_cons_iff.mp hsuffix with rfl | hrest
    · exact h
    · exact (h.2.2.2.suffix hrest).le (Nat.le_trans h.1 h.2.1)

end Lexeme

end LuaScope

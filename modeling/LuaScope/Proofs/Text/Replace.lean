import LuaScope.Proofs.Syntax.Lexeme

/-!
# LuaScope.Proofs.Text.Replace

A text with some of its spans replaced.
-/

namespace LuaScope

/-- The characters with some spans replaced. The spans stand one behind the other, and the
characters start at `offset`. -/
def replaceFrom (cs : List Char) (offset : Nat) : List (Span × List Char) → List Char
  | [] => cs
  | (span, word) :: rest =>
    takeBytes cs (span.start - offset) ++ word ++
      replaceFrom (dropBytes cs (span.stop - offset)) span.stop rest

theorem takeBytes_zero (cs : List Char) : takeBytes cs 0 = [] := by
  cases cs <;> rfl

theorem dropBytes_append_of_le (xs ys : List Char) :
    ∀ {n : Nat}, byteLength xs ≤ n → dropBytes (xs ++ ys) n = dropBytes ys (n - byteLength xs) := by
  induction xs with
  | nil => intros; rfl
  | cons c cs ih =>
    intro n hn
    rw [byteLength_cons] at hn ⊢
    have hpos : 0 < c.utf8Size := c.utf8Size_pos
    obtain ⟨k, rfl⟩ : ∃ k, n = k + 1 := ⟨n - 1, by omega⟩
    rw [List.cons_append, dropBytes, ih (by omega), Nat.sub_sub]

theorem takeBytes_append_of_le (xs ys : List Char) :
    ∀ {n : Nat}, byteLength xs ≤ n →
      takeBytes (xs ++ ys) n = xs ++ takeBytes ys (n - byteLength xs) := by
  induction xs with
  | nil => intros; rfl
  | cons c cs ih =>
    intro n hn
    rw [byteLength_cons] at hn ⊢
    have hpos : 0 < c.utf8Size := c.utf8Size_pos
    obtain ⟨k, rfl⟩ : ∃ k, n = k + 1 := ⟨n - 1, by omega⟩
    rw [List.cons_append, takeBytes, ih (by omega), Nat.sub_sub, List.cons_append]

theorem takeBytes_nil (n : Nat) : takeBytes [] n = [] := by
  cases n <;> rfl

theorem takeBytes_of_le {cs : List Char} {n : Nat} (h : byteLength cs ≤ n) :
    takeBytes cs n = cs := by
  have happend := takeBytes_append_of_le cs [] h
  rwa [takeBytes_nil, List.append_nil] at happend

theorem dropBytes_of_le {cs : List Char} {n : Nat} (h : byteLength cs ≤ n) :
    dropBytes cs n = [] := by
  have happend := dropBytes_append_of_le cs [] h
  have hnil : dropBytes [] (n - byteLength cs) = [] := by cases n - byteLength cs <;> rfl
  rwa [hnil, List.append_nil] at happend

theorem byteLength_dropBytes_le :
    ∀ (cs : List Char) (n : Nat), byteLength (dropBytes cs n) ≤ byteLength cs - n
  | cs, 0 => by
    cases cs <;> exact Nat.le_refl _
  | [], _ + 1 => Nat.zero_le _
  | c :: cs, n + 1 => by
    have hrest := byteLength_dropBytes_le cs (n + 1 - c.utf8Size)
    rw [dropBytes, byteLength_cons]
    omega

/-- What stands in front of all spans stays. -/
theorem replaceFrom_append (xs ys : List Char) (offset : Nat) {edits : List (Span × List Char)}
    (h : ∀ edit ∈ edits, offset + byteLength xs ≤ edit.1.start ∧ edit.1.start ≤ edit.1.stop) :
    replaceFrom (xs ++ ys) offset edits =
      xs ++ replaceFrom ys (offset + byteLength xs) edits := by
  cases edits with
  | nil => rfl
  | cons edit rest =>
    obtain ⟨span, word⟩ := edit
    obtain ⟨hstart, hstop⟩ := h _ List.mem_cons_self
    dsimp only at hstart hstop
    rw [replaceFrom, replaceFrom, takeBytes_append_of_le xs ys (by omega),
      dropBytes_append_of_le xs ys (by omega), Nat.sub_sub, Nat.sub_sub, List.append_assoc,
      List.append_assoc, List.append_assoc]

/-- A span that stands at the front is replaced. -/
theorem replaceFrom_front (xs ys : List Char) (offset : Nat) (word : List Char)
    (edits : List (Span × List Char)) :
    replaceFrom (xs ++ ys) offset ((⟨offset, offset + byteLength xs⟩, word) :: edits) =
      word ++ replaceFrom ys (offset + byteLength xs) edits := by
  rw [replaceFrom, Nat.sub_self, takeBytes_zero, Nat.add_sub_cancel_left, dropBytes_append,
    List.nil_append]

end LuaScope

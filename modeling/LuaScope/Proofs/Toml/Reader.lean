import LuaScope.Toml.Document
import LuaScope.Toml.Printer

/-!
# LuaScope.Proofs.Toml.Reader

What a reader makes of a text, one step after the other.

* `TomlReader.bind_apply` and the other simp lemmas open a reader at the text it is given.
* `TomlReader.accept_append`, `TomlReader.accept_of_head`, `TomlReader.newline_of_head` — the marks between what is read.
-/

namespace LuaScope
namespace TomlReader

variable {α β : Type} {cs rest : List Char}

@[simp] theorem bind_apply (r : TomlReader α) (f : α → TomlReader β) (cs : List Char) :
    (r >>= f) cs = (r cs).bind fun p => f p.1 p.2 := rfl

@[simp] theorem map_apply (f : α → β) (r : TomlReader α) (cs : List Char) :
    (f <$> r) cs = (r cs).map fun p => (f p.1, p.2) := rfl

@[simp] theorem pure_apply (a : α) (cs : List Char) : (pure a : TomlReader α) cs = .ok (a, cs) := rfl

@[simp] theorem bind_ok (a : α) (f : α → Except TomlFault β) : (Except.ok a).bind f = f a := rfl

@[simp] theorem map_ok (a : α) (f : α → β) : (Except.ok a : Except TomlFault α).map f = .ok (f a) := rfl

@[simp] theorem peek_apply (cs : List Char) : peek cs = .ok (cs.head?, cs) := rfl

@[simp] theorem rest_apply (cs : List Char) : TomlReader.rest cs = .ok (cs, cs) := rfl

@[simp] theorem drop_apply (n : Nat) (cs : List Char) : drop n cs = .ok ((), cs.drop n) := rfl

@[simp] theorem takeWhile_apply (p : Char → Bool) (cs : List Char) :
    takeWhile p cs = .ok (cs.takeWhile p, cs.dropWhile p) := rfl

@[simp] theorem looksAt_apply (start cs : List Char) :
    looksAt start cs = .ok (start.isPrefixOf cs, cs) := rfl

theorem bind_of_ok {r : TomlReader α} {a : α} (h : r cs = .ok (a, rest)) (f : α → TomlReader β) :
    (r >>= f) cs = f a rest := by
  rw [bind_apply, h, bind_ok]

theorem accept_apply (start cs : List Char) :
    accept start cs = .ok (start.isPrefixOf cs,
      if start.isPrefixOf cs then cs.drop start.length else cs) := by
  unfold accept
  simp only [bind_apply, looksAt_apply, bind_ok]
  cases start.isPrefixOf cs <;> rfl

theorem accept_append (start rest : List Char) : accept start (start ++ rest) = .ok (true, rest) := by
  have hprefix : start.isPrefixOf (start ++ rest) = true := by
    rw [List.isPrefixOf_iff_prefix]
    exact List.prefix_append _ _
  rw [accept_apply, hprefix, if_pos rfl, List.drop_left]

theorem accept_of_head {c : Char} (h : cs.head? ≠ some c) : accept [c] cs = .ok (false, cs) := by
  cases cs with
  | nil => rfl
  | cons d cs =>
    have hd : (c == d) = false := beq_eq_false_iff_ne.mpr fun heq => h (heq ▸ rfl)
    simp [accept_apply, List.isPrefixOf, hd]

theorem newline_of_head (h : cs.head? ≠ some '\n') (h' : cs.head? ≠ some '\r') :
    newline cs = .ok (false, cs) := by
  unfold newline
  rw [bind_of_ok (accept_of_head h)]
  cases cs with
  | nil => rfl
  | cons c cs =>
    have hr : ('\r' == c) = false := beq_eq_false_iff_ne.mpr fun heq => h' (heq ▸ rfl)
    simp [accept_apply, List.isPrefixOf, hr]

theorem newline_cons (rest : List Char) : newline ('\n' :: rest) = .ok (true, rest) := rfl

end TomlReader

end LuaScope

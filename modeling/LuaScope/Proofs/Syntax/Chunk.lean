import LuaScope.Syntax.Grammar

/-!
# LuaScope.Proofs.Syntax.Chunk

How a chunk is read: its text is cut into tokens, a first line of the shape `#...` is left out, and
all others are read as statements.
-/

namespace LuaScope

/-- The tokens behind a line of the shape `#...`. -/
def behindShebang (ls : List Lexeme) : List Lexeme :=
  if ls.head?.map Lexeme.token = some .shebang then ls.tail else ls

theorem behindShebang_cons (l : Lexeme) (rest : List Lexeme) :
    behindShebang (l :: rest) = if l.token = .shebang then rest else l :: rest := by
  simp [behindShebang]

theorem behindShebang_suffix (ls : List Lexeme) : behindShebang ls <:+ ls := by
  unfold behindShebang
  split
  · exact List.tail_suffix ls
  · exact List.suffix_refl ls

namespace Chunk

theorem ofLexemes?_eq_some_iff {ls : List Lexeme} {chunk : Chunk} :
    ofLexemes? ls = some chunk ↔
      ∃ stop, Reader.statements (16 * (ls.length + 1)) false ⟨behindShebang ls, 0⟩ =
        some (chunk.statements, ⟨[], stop⟩) := by
  unfold ofLexemes?
  constructor
  · intro h
    cases ls with
    | nil =>
      dsimp only at h
      split at h
      · rename_i statements stop hread
        cases h
        exact ⟨stop, hread⟩
      · cases h
    | cons l rest =>
      obtain ⟨t, span, comments⟩ := l
      rw [behindShebang_cons]
      cases t
      all_goals
        dsimp only at h
        split at h
        · rename_i statements stop hread
          cases h
          simpa using ⟨stop, hread⟩
        · cases h
  · rintro ⟨stop, hread⟩
    cases ls with
    | nil =>
      have hread' : Reader.statements (16 * ([].length + 1)) false ⟨[], 0⟩ = _ := hread
      dsimp only
      rw [hread']
    | cons l rest =>
      obtain ⟨t, span, comments⟩ := l
      rw [behindShebang_cons] at hread
      cases t <;> simp_all

theorem ofChars?_eq_some_iff {cs : List Char} {chunk : Chunk} :
    ofChars? cs = some chunk ↔
      ∃ ls, Lexeme.ofChars cs = some ls ∧ ofLexemes? ls = some chunk := by
  unfold ofChars?
  cases Lexeme.ofChars cs with
  | none => simp
  | some ls => simp

end Chunk

end LuaScope

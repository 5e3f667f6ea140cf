import LuaScope.Binding.Build
import LuaScope.Proofs.Dialect.Reading
import LuaScope.Proofs.Syntax.Gap
import LuaScope.Proofs.Text.Lines

/-!
# LuaScope.Proofs.Dialect.Flagged

What the version of Lua changes of an index: nothing but the constructs that are flagged in it.

* `Construct.supportedBy_iff` — each construct comes with one release and stays.
* `Lexeme.Tell.starts`        — no two features of a text start at one place.
* `Index.build_flagged`       — a later release flags some of what an earlier one flags, and finds
  the same names; each release flags what it lacks, each place once, and nothing else.
-/

namespace LuaScope

/-! ## Releases -/

/-- Place of a version among the releases that brought constructs; LuaJIT has those of 5.2. -/
def LuaVersion.release : LuaVersion → Nat
  | .lua51 => 1
  | .lua52 | .luaJit => 2
  | .lua53 => 3
  | .lua54 => 4

/-- The first release that has the construct. -/
def Construct.since : Construct → Nat
  | .gotoOrLabel => 2
  | .integerOperator _ => 3
  | .attrib => 4

theorem Construct.supportedBy_iff (c : Construct) (v : LuaVersion) :
    c.supportedBy v = true ↔ c.since ≤ v.release := by
  cases c <;> cases v <;>
    simp [supportedBy, since, LuaVersion.release, LuaVersion.supportsGoto,
      LuaVersion.supportsIntegerOps, LuaVersion.supportsAttributes]

/-! ## Each operator stands in the text -/

theorem Mark.take_of_scan {cs : List Char} {m : Mark} {n : Nat} {symbol : String}
    (h : Mark.scan cs = some (m, n)) (hm : m.integerSymbol? = some symbol) :
    cs.take n = symbol.toList := by
  unfold Mark.scan at h
  split at h
  -- Most marks have no such symbol.
  all_goals cases h <;> cases hm <;> rfl

namespace Lexeme

/-- The text of an operator is its symbol; the two characters `~=` are a mark of their own. -/
theorem slice_of_integerSymbol {cs : List Char} {ls : List Lexeme} (h : ofChars cs = some ls)
    {l : Lexeme} (hl : l ∈ ls) {m : Mark} {symbol : String} (htoken : l.token = .mark m)
    (hm : m.integerSymbol? = some symbol) :
    takeBytes (dropBytes cs l.span.start) (l.span.stop - l.span.start) = symbol.toList := by
  obtain ⟨mark, rest, opening, comments, rfl, hcut⟩ := cut_of_ofChars h
  obtain ⟨before, behind, rfl⟩ := List.append_of_mem hl
  obtain ⟨opening', comments', passed, rest', rfl, hcut'⟩ := hcut.drop before
  obtain ⟨gap, found, n, -, rfl, hscan, hspan, -⟩ := hcut'.uncons
  rw [htoken] at hscan
  have hmark := Token.scan_mark (scan_of_scanAt (by simp) hscan)
  rw [← Mark.take_of_scan hmark hm, hspan]
  have hslice := slice_append (mark ++ (passed ++ gap)) (found.take n) (found.drop n)
  rw [List.take_append_drop] at hslice
  simpa [Nat.add_assoc] using hslice

namespace Tell

variable {ls : List Lexeme} {fs : List Feature}

/-- Each feature starts with a token of its own. -/
theorem starts (h : Tell ls fs) :
    (fs.map fun f => f.span.start).Sublist (ls.map fun l => l.span.start) := by
  induction h with
  | nil => exact .slnil
  | other _ _ ih => exact ih.cons _
  | operator _ _ _ ih => exact ih.cons_cons _
  | less _ _ ih => exact ih.cons_cons _
  | goto _ _ _ ih => exact (ih.cons _).cons_cons _
  | label _ _ _ _ ih => exact ((ih.cons _).cons _).cons_cons _
  | attrib _ _ _ _ ih => exact ((ih.cons _).cons _).cons_cons _
  | attribAssign _ _ _ _ ih => exact ((ih.cons _).cons _).cons_cons _

end Tell

end Lexeme

/-! ## What is flagged -/

/-- Places and constructs of a chunk that this version does not have. -/
def Chunk.flags (chunk : Chunk) (source : Source) (v : LuaVersion) : List (Range × Construct) :=
  (chunk.unsupported v).map fun u => (source.range u.span, u.construct)

/-- The warning that a construct gives in this place. -/
def Construct.warning (c : Construct) (v : LuaVersion) (range : Range) : Diagnostic :=
  { range := range, severity := .warning, source := syntaxSource, message := c.message v }

/-- The uses of what a version lacks, down to the depth limit, in the order of the text. -/
def Chunk.lacking (chunk : Chunk) (v : LuaVersion) : List Usage :=
  (Placed.shown 0 chunk.placed).filter fun u => v.release < u.construct.since

namespace Chunk

variable {text : String} {chunk : Chunk}

theorem unsupported_perm (chunk : Chunk) (v : LuaVersion) :
    (chunk.unsupported v).Perm (chunk.lacking v) := by
  have hlacks : ∀ u : Usage,
      (!u.construct.supportedBy v) = decide (v.release < u.construct.since) := by
    intro u
    rw [Bool.eq_iff_iff, Bool.not_eq_true', ← Bool.not_eq_true, u.construct.supportedBy_iff]
    simp
  rw [unsupported, lacking, funext hlacks]
  exact chunk.usages_perm.filter _

theorem unsupported_sublist (chunk : Chunk) {v w : LuaVersion} (h : v.release ≤ w.release) :
    (chunk.unsupported w).Sublist (chunk.unsupported v) := by
  refine List.monotone_filter_right _ fun u hu => ?_
  simp only [Bool.not_eq_true', ← Bool.not_eq_true, Construct.supportedBy_iff] at hu ⊢
  exact fun hv => hu (Nat.le_trans hv h)

/-- The places that are shown are those of tokens, one behind the other. -/
theorem shown_starts (chunk : Chunk) :
    ((Placed.shown 0 chunk.placed).map fun u => u.span.start).Sublist
      ((Placed.features chunk.placed).map fun f => f.span.start) := by
  generalize chunk.placed = ps
  induction ps with
  | nil => exact .slnil
  | cons p ps ih =>
    rw [Placed.shown, List.filterMap_cons]
    split
    · exact ih.cons _
    · rename_i u hu
      have hspan := Feature.span_of_usage? (Option.ite_none_right_eq_some.mp hu).2
      rw [List.map_cons, Placed.features_cons, List.map_cons, hspan]
      exact ih.cons_cons _

/-- The features of a text start at different offsets, which lie at different positions. -/
theorem flags_nodup (htext : Chunk.ofChars? text.toList = some chunk) (v : LuaVersion) :
    (chunk.flags (Source.ofString text) v).Nodup := by
  obtain ⟨ls, hls, htold⟩ := placed_told htext
  have hsub : ((chunk.lacking v).map fun u => u.span.start).Sublist
      (ls.map fun l => l.span.start) :=
    ((List.filter_sublist.map _).trans chunk.shown_starts).trans htold.starts
  have htokens : (ls.map fun l => l.span.start).Pairwise (· < ·) :=
    List.pairwise_map.mpr (Lexeme.ofChars_ascending hls)
  have hascending : (chunk.lacking v).Pairwise fun u u' => u.span.start < u'.span.start :=
    List.pairwise_map.mp (htokens.sublist hsub)
  have hinside : ∀ u ∈ chunk.lacking v, u.span.start ≤ byteLength text.toList := by
    intro u hu
    obtain ⟨l, hl, hstart⟩ := List.mem_map.mp (hsub.subset (List.mem_map_of_mem hu))
    exact hstart ▸ Lexeme.ofChars_start_le hls l hl
  refine ((chunk.unsupported_perm v).map _).nodup_iff.mpr (List.pairwise_map.mpr ?_)
  refine hascending.imp_of_mem fun {u u'} hu hu' hlt heq => Nat.ne_of_lt hlt ?_
  have hposition := congrArg (fun flag : Range × Construct => flag.1.start) heq
  exact LineTable.position_inj (hinside u hu) (hinside u' hu') hposition

end Chunk

/-- Of one text and two versions the indices have the same names, and the later release flags some
of what the earlier one flags. Each version flags, each once, the uses down to the depth limit of
what it lacks, and nothing else; these are told of by the tokens of the text one for one, and an
operator is what stands in the text. -/
theorem Index.build_flagged {σ : Type} {text : String} {chunk : Chunk}
    (htext : Chunk.ofChars? text.toList = some chunk) (document : DocumentId) (revision : Revision)
    (allowDefined : Bool) (loader : Loader σ) (world : σ) :
    let index (v : LuaVersion) : Index :=
      (Index.build document revision text ⟨v, allowDefined⟩ loader world).1
    let source := Source.ofString text
    let flags (v : LuaVersion) := chunk.flags source v
    (∀ v, (index v).diagnostics = (flags v).map fun flag => flag.2.warning v flag.1) ∧
      (∀ v w, (index v).table = (index w).table ∧ (index v).references = (index w).references ∧
        (index v).exports = (index w).exports) ∧
      (∀ v w, v.release ≤ w.release → (flags w).Sublist (flags v)) ∧
      (∀ v, (flags v).Nodup ∧
        (flags v).Perm ((chunk.lacking v).map fun u => (source.range u.span, u.construct))) ∧
      ∃ ls, Lexeme.ofChars text.toList = some ls ∧
        Lexeme.Tell ls (Placed.features chunk.placed) ∧
        ∀ l ∈ ls, ∀ m symbol, l.token = .mark m → m.integerSymbol? = some symbol →
          source.slice l.span = symbol.toList := by
  intro index source flags
  have hchars : Chunk.ofChars? (Source.ofString text).chars = some chunk := htext
  obtain ⟨ls, hls, htold⟩ := Chunk.placed_told htext
  refine ⟨fun v => ?_, fun v w => ?_, fun v w h => (chunk.unsupported_sublist h).map _,
    fun v => ⟨chunk.flags_nodup htext v, (chunk.unsupported_perm v).map _⟩, ls, hls, htold, ?_⟩
  · simp only [index, flags, Index.build, hchars]
    rw [Chunk.flags, List.map_map]
    rfl
  · -- The walk is not told of the version.
    simp only [index, Index.build, hchars]
    exact ⟨rfl, rfl, rfl⟩
  · intro l hl m symbol htoken hm
    exact Lexeme.slice_of_integerSymbol hls hl htoken hm

/-- LuaJIT has the `goto` and the label, the `~=` is none of the operators, and each of the other
three is flagged once; nothing of this is flagged in 5.4 that is not flagged in 5.1. -/
theorem Index.flagged_once :
    let text := "goto done local x <const> = 1 // 2 ~ 3 x = 1 ~= 2 ::done::"
    let index (v : LuaVersion) := Index.buildAlone ⟨"file:///a.lua"⟩ 1 text { version := v }
    ∃ chunk, Chunk.ofChars? text.toList = some chunk ∧
      ((chunk.flags (Source.ofString text) .luaJit).map (·.2)).Perm
        [.attrib, .integerOperator "//", .integerOperator "~"] ∧
      (chunk.flags (Source.ofString text) .lua54).Sublist
        (chunk.flags (Source.ofString text) .lua51) ∧
      (index .lua51).references = (index .lua54).references := by
  intro text index
  have hlacking : (Chunk.ofChars? text.toList).map
      (fun chunk => (chunk.lacking .luaJit).map (·.construct)) =
        some [.attrib, .integerOperator "//", .integerOperator "~"] := by
    decide +kernel
  obtain ⟨chunk, htext, hconstructs⟩ := Option.map_eq_some_iff.mp hlacking
  obtain ⟨-, hnames, hsublist, hflags, -⟩ :=
    Index.build_flagged htext ⟨"file:///a.lua"⟩ 1 false Loader.none ()
  refine ⟨chunk, htext, ?_, hsublist .lua51 .lua54 (by decide), (hnames .lua51 .lua54).2.1⟩
  have hperm := (hflags .luaJit).2.map Prod.snd
  rw [List.map_map] at hperm
  exact hconstructs ▸ hperm

end LuaScope

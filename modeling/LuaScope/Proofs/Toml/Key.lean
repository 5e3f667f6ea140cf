import LuaScope.Proofs.Toml.Text

/-!
# LuaScope.Proofs.Toml.Key

Keys that are written are read back.

* `TomlReader.simpleKey_keyText` — one key, with or without quotes.
* `TomlReader.key_dotted`        — keys with dots between them.
-/

namespace LuaScope

open Toml

namespace TomlReader

variable {cs rest : List Char} {n : Nat}

/-- What stands behind a key is no part of it. -/
def EndsKey (rest : List Char) : Prop := ∀ c, rest.head? = some c → isBareKeyChar c = false

theorem EndsKey.cons (hc : isBareKeyChar c = false) (rest : List Char) : EndsKey (c :: rest) := by
  intro d hd
  obtain rfl := Option.some.inj hd
  exact hc

theorem simpleKey_of_quote {quote : Char} (hquote : quote = '"' ∨ quote = '\'') (cs : List Char) :
    simpleKey (quote :: cs) = (shortString (quote :: cs)).map fun p => (String.ofList p.1, p.2) := by
  rcases hquote with rfl | rfl <;> rfl

theorem simpleKey_bare (hne : cs ≠ []) (hcs : ∀ c ∈ cs, isBareKeyChar c = true) (hrest : EndsKey rest) :
    simpleKey (cs ++ rest) = .ok (String.ofList cs, rest) := by
  have hstop : rest.takeWhile isBareKeyChar = [] ∧ rest.dropWhile isBareKeyChar = rest := by
    cases rest with
    | nil => exact ⟨rfl, rfl⟩
    | cons c rest =>
      have hc : ¬isBareKeyChar c = true := by
        rw [hrest c rfl]
        decide
      exact ⟨List.takeWhile_cons_of_neg hc, List.dropWhile_cons_of_neg hc⟩
  have htake : (cs ++ rest).takeWhile isBareKeyChar = cs := by
    rw [List.takeWhile_append_of_pos hcs, hstop.1, List.append_nil]
  have hdrop : (cs ++ rest).dropWhile isBareKeyChar = rest := by
    rw [List.dropWhile_append_of_pos hcs, hstop.2]
  obtain ⟨c, cs, rfl⟩ := List.exists_cons_of_ne_nil hne
  have hc := hcs c (.head _)
  have hdouble : c ≠ '"' := by
    rintro rfl
    exact absurd hc (by decide)
  have hsingle : c ≠ '\'' := by
    rintro rfl
    exact absurd hc (by decide)
  rw [List.cons_append] at htake hdrop ⊢
  simp [simpleKey, hdouble, hsingle, htake, hdrop]

theorem simpleKey_keyText (s : String) (hrest : EndsKey rest) :
    simpleKey (keyText s ++ rest) = .ok (s, rest) := by
  have hs : String.ofList s.toList = s := String.ofList_toList
  have hbasic : simpleKey ('"' :: (basicText false 0 0 s.toList ++ '"' :: rest)) = .ok (s, rest) := by
    rw [simpleKey_of_quote (.inl rfl), shortString_basic, map_ok, hs]
  unfold keyText
  simp only
  split
  · rename_i hbare
    rw [isBareKey, Bool.and_eq_true, List.all_eq_true] at hbare
    have hne : s.toList ≠ [] := by
      intro hempty
      simp [String.toList_eq_nil_iff.mp hempty] at hbare
    rw [simpleKey_bare hne hbare.2 hrest, hs]
  split
  · rename_i hliteral
    simp only [Bool.and_eq_true, Bool.not_eq_true'] at hliteral
    obtain ⟨⟨⟨hescape, hline⟩, -⟩, hquote⟩ := hliteral
    have hcontrol : ∀ c ∈ s.toList, isControl c = false := by
      intro c hc
      refine isControl_eq_false (Bool.eq_false_iff.mpr (List.any_eq_false.mp hescape c hc)) ?_
      rintro rfl
      rw [List.contains_iff_mem.mpr hc] at hline
      cases hline
    have hmem : '\'' ∉ s.toList := by
      intro hc
      rw [List.contains_iff_mem.mpr hc] at hquote
      cases hquote
    have hread : shortString ('\'' :: (s.toList ++ '\'' :: rest)) = .ok (s.toList, rest) :=
      shortString_literal hmem hcontrol
    simp only [List.cons_append, List.append_assoc, List.nil_append]
    rw [simpleKey_of_quote (.inr rfl), hread, map_ok, hs]
  · simp only [List.cons_append, List.append_assoc, List.nil_append]
    exact hbasic

/-- A key begins with a quote or with a character of its own. -/
theorem keyText_eq_cons (s : String) : ∃ c cs, keyText s = c :: cs ∧
    (c = '"' ∨ c = '\'' ∨ isBareKeyChar c = true) := by
  unfold keyText
  simp only
  split
  · rename_i hbare
    rw [isBareKey, Bool.and_eq_true, List.all_eq_true] at hbare
    cases hlist : s.toList with
    | nil => simp [String.toList_eq_nil_iff.mp hlist] at hbare
    | cons c cs => exact ⟨c, cs, rfl, .inr (.inr (hbare.2 c (hlist ▸ .head _)))⟩
  split
  · exact ⟨_, _, rfl, .inr (.inl rfl)⟩
  · exact ⟨_, _, rfl, .inl rfl⟩

theorem blanks_apply (cs : List Char) : blanks cs = .ok ((), cs.dropWhile isTomlBlank) := rfl

/-- Keys behind dots. -/
def dotted (path : List String) : List Char := path.flatMap fun key => '.' :: keyText key

theorem dotted_cons (key : String) (path : List String) :
    dotted (key :: path) = '.' :: (keyText key ++ dotted path) := rfl

theorem length_le_dotted (path : List String) : path.length ≤ (dotted path).length := by
  induction path with
  | nil => exact Nat.le_refl 0
  | cons key path ih =>
    rw [dotted_cons, List.length_cons, List.length_cons, List.length_append]
    omega

theorem endsKey_dotted (path : List String) (hrest : EndsKey rest) : EndsKey (dotted path ++ rest) := by
  cases path with
  | nil => exact hrest
  | cons key path => exact .cons (by decide) _

theorem moreKeys_dotted {path : List String} (hrest : EndsKey rest)
    (hdot : (rest.dropWhile isTomlBlank).head? ≠ some '.') (h : path.length < n) :
    moreKeys n (dotted path ++ rest) = .ok (path, rest.dropWhile isTomlBlank) := by
  induction path generalizing n with
  | nil =>
    obtain ⟨m, rfl⟩ := Nat.exists_eq_add_of_lt h
    have hstop : accept ['.'] (rest.dropWhile isTomlBlank) = .ok (false, rest.dropWhile isTomlBlank) := by
      cases hcs : rest.dropWhile isTomlBlank with
      | nil => rfl
      | cons c cs =>
        have hc : ('.' == c) = false := beq_eq_false_iff_ne.mpr fun heq => hdot (hcs ▸ heq ▸ rfl)
        simp [accept_apply, List.isPrefixOf, hc]
    have hdotted : dotted [] = [] := rfl
    rw [hdotted, List.nil_append, moreKeys, bind_apply, blanks_apply, bind_ok, bind_apply, hstop]
    rfl
  | cons key path ih =>
    obtain ⟨m, rfl⟩ := Nat.exists_eq_add_of_lt h
    have hmore := ih (n := (key :: path).length + m) (by rw [List.length_cons]; omega)
    have hkey : (keyText key ++ (dotted path ++ rest)).dropWhile isTomlBlank =
        keyText key ++ (dotted path ++ rest) := by
      obtain ⟨c, cs, htext, hc⟩ := keyText_eq_cons key
      rw [htext, List.cons_append]
      refine List.dropWhile_cons_of_neg ?_
      rcases hc with rfl | rfl | hc
      · decide
      · decide
      · intro hblank
        rw [isTomlBlank, Bool.or_eq_true, beq_iff_eq, beq_iff_eq] at hblank
        rcases hblank with rfl | rfl
        · exact absurd hc (by decide)
        · exact absurd hc (by decide)
    have haccept : accept ['.'] ('.' :: (keyText key ++ (dotted path ++ rest))) =
        .ok (true, keyText key ++ (dotted path ++ rest)) := accept_append ['.'] _
    have hdotStays : ('.' :: (keyText key ++ (dotted path ++ rest))).dropWhile isTomlBlank =
        '.' :: (keyText key ++ (dotted path ++ rest)) := rfl
    rw [dotted_cons, List.cons_append, List.append_assoc, moreKeys, bind_apply, blanks_apply, bind_ok,
      bind_apply, hdotStays, haccept, bind_ok]
    simp only [if_true, bind_apply, blanks_apply, hkey, bind_ok,
      simpleKey_keyText key (endsKey_dotted path hrest), hmore, bind_pure_comp, map_apply, map_ok]

theorem key_dotted (first : String) (path : List String) (hrest : EndsKey rest) (hne : rest ≠ [])
    (hdot : (rest.dropWhile isTomlBlank).head? ≠ some '.') :
    key (keyText first ++ (dotted path ++ rest)) = .ok (first :: path, rest.dropWhile isTomlBlank) := by
  have hlength := length_le_dotted path
  have hpos := List.length_pos_iff.mpr hne
  have hmore : moreKeys (dotted path ++ rest).length (dotted path ++ rest) =
      .ok (path, rest.dropWhile isTomlBlank) := by
    refine moreKeys_dotted hrest hdot ?_
    rw [List.length_append]
    omega
  unfold key
  simp only [bind_apply, simpleKey_keyText first (endsKey_dotted path hrest), bind_ok, rest_apply,
    hmore, bind_pure_comp, map_apply, map_ok]

theorem intercalate_keyText (first : String) (path : List String) :
    ['.'].intercalate ((first :: path).map keyText) = keyText first ++ dotted path := by
  induction path generalizing first with
  | nil => simp [dotted]
  | cons second path ih =>
    rw [List.map_cons, List.intercalate_cons_of_ne_nil (by simp), ih, dotted_cons]
    simp

end TomlReader

end LuaScope

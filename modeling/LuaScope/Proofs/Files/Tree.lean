import LuaScope.Proofs.Files.Path
import Mathlib.Data.List.Induction
import Mathlib.Data.List.Nodup
import Mathlib.Data.List.Perm.Subperm

/-!
# LuaScope.Proofs.Files.Tree

File trees that a file system can be in.

* `FileTree.Sound` — every entry stands once, in a directory, under a name.
* `FileTree.Sound.length_le` — no place lies deeper than there are entries.
* `FileTree.entryAt_put`, `FileTree.Sound.entryAt_erase_file` — creating or deleting a file changes
  what stands at its own place alone.
-/

namespace LuaScope

/-- Of the kept keys each has its first value still, the others have none. -/
theorem lookup_filter_fst {α β : Type} [BEq α] [LawfulBEq α] (keep : α → Bool) (k : α) :
    ∀ l : List (α × β), (l.filter fun entry => keep entry.1).lookup k =
      if keep k = true then l.lookup k else none
  | [] => by simp
  | (key, value) :: rest => by
    have ih := lookup_filter_fst keep k rest
    by_cases hkey : k = key
    · subst hkey
      cases hkeep : keep k with
      | true => simp [hkeep]
      | false =>
        rw [hkeep] at ih
        simpa [hkeep] using ih
    · have hne : (k == key) = false := beq_eq_false_iff_ne.mpr hkey
      cases hkeep : keep key <;> simp [hkeep, hne, List.lookup_cons, ih]

namespace FileTree

structure Sound (t : FileTree) : Prop where
  proper : ∀ entry ∈ t.entries, entry.1 ≠ [] ∧ Place.Proper entry.1
  once : (t.entries.map Prod.fst).Nodup
  parents : ∀ entry ∈ t.entries, t.entryAt entry.1.dropLast = some .directory

instance (t : FileTree) : Decidable t.Sound :=
  decidable_of_iff ((∀ entry ∈ t.entries, entry.1 ≠ [] ∧ Place.Proper entry.1) ∧
    (t.entries.map Prod.fst).Nodup ∧
    ∀ entry ∈ t.entries, t.entryAt entry.1.dropLast = some .directory)
    ⟨fun h => ⟨h.1, h.2.1, h.2.2⟩, fun h => ⟨h.proper, h.once, h.parents⟩⟩

variable {t : FileTree} {p q : Place} {e e' : FileEntry} {name : String}

theorem entryAt_eq (t : FileTree) (hne : p ≠ []) : t.entryAt p = t.entries.lookup p := by
  cases p with
  | nil => exact absurd rfl hne
  | cons => rfl

theorem mem_of_entryAt (hne : p ≠ []) (h : t.entryAt p = some e) : (p, e) ∈ t.entries := by
  rw [t.entryAt_eq hne] at h
  obtain ⟨before, behind, hentries, -⟩ := List.lookup_eq_some_iff.mp h
  rw [hentries]
  simp

namespace Sound

theorem entryAt_of_mem (h : t.Sound) (hmem : (p, e) ∈ t.entries) : t.entryAt p = some e := by
  rw [t.entryAt_eq (h.proper _ hmem).1, List.lookup_eq_some_iff]
  obtain ⟨before, behind, hentries⟩ := List.append_of_mem hmem
  refine ⟨before, behind, hentries, fun entry hentry => ?_⟩
  have honce := h.once
  rw [hentries, List.map_append, List.nodup_append] at honce
  have hne : entry.1 ≠ p := honce.2.2 _ (List.mem_map_of_mem hentry) _ (by simp)
  exact bne_iff_ne.mpr (Ne.symm hne)

theorem proper_of_entryAt (h : t.Sound) (hentry : t.entryAt p = some e) : p.Proper := by
  by_cases hne : p = []
  · subst hne
    nofun
  · exact (h.proper _ (mem_of_entryAt hne hentry)).2

/-- Everything stands in a directory. -/
theorem parent (h : t.Sound) (hentry : t.entryAt (p ++ [name]) = some e) :
    t.entryAt p = some .directory := by
  have hparent := h.parents _ (mem_of_entryAt (by simp) hentry)
  rwa [List.dropLast_concat] at hparent

theorem directory_of_prefix (h : t.Sound) : ∀ {q : Place}, q ≠ [] →
    t.entryAt (p ++ q) = some e → t.entryAt p = some .directory := by
  intro q
  induction q using List.reverseRecOn generalizing e with
  | nil => exact fun hne => absurd rfl hne
  | append_singleton front last ih =>
    intro _ hentry
    rw [← List.append_assoc] at hentry
    have hparent := h.parent hentry
    by_cases hfront : front = []
    · rwa [hfront, List.append_nil] at hparent
    · exact ih hfront hparent

/-- Nothing stands below what is no directory. -/
theorem eq_nil_of_prefix (h : t.Sound) (hp : t.entryAt p ≠ some .directory)
    (hentry : t.entryAt (p ++ q) = some e) : q = [] := by
  by_contra hne
  exact hp (h.directory_of_prefix hne hentry)

theorem length_le (h : t.Sound) (hentry : t.entryAt p = some e) : p.length ≤ t.entries.length := by
  -- The places on the way are entries, each of them once.
  have hnodup : ((List.range p.length).map fun i => p.take (i + 1)).Nodup := by
    refine List.Nodup.map_on (fun i hi j hj heq => ?_) List.nodup_range
    have hlength := congrArg List.length heq
    rw [List.mem_range] at hi hj
    simp only [List.length_take] at hlength
    omega
  have hsubset : ((List.range p.length).map fun i => p.take (i + 1)) ⊆ t.entries.map Prod.fst := by
    intro place hplace
    obtain ⟨i, hi, rfl⟩ := List.mem_map.mp hplace
    have hi := List.mem_range.mp hi
    have hne : p.take (i + 1) ≠ [] := by
      rw [ne_eq, List.take_eq_nil_iff]
      rintro (hzero | rfl)
      · exact absurd hzero (Nat.succ_ne_zero i)
      · exact absurd hi (Nat.not_lt_zero i)
    have hsplit : t.entryAt (p.take (i + 1) ++ p.drop (i + 1)) = some e := by
      rw [List.take_append_drop]
      exact hentry
    obtain ⟨e', he'⟩ : ∃ e', t.entryAt (p.take (i + 1)) = some e' := by
      by_cases hend : p.drop (i + 1) = []
      · rw [hend, List.append_nil] at hsplit
        exact ⟨e, hsplit⟩
      · exact ⟨_, h.directory_of_prefix hend hsplit⟩
    exact List.mem_map_of_mem (mem_of_entryAt hne he')
  have hle := (hnodup.subperm hsubset).length_le
  rwa [List.length_map, List.length_map, List.length_range] at hle

end Sound

/-! ## Entries of a directory -/

theorem mem_children (h : t.Sound) {dir : Place} :
    name ∈ t.children dir ↔ ∃ e, t.entryAt (dir ++ [name]) = some e := by
  unfold children
  simp only [List.mem_filterMap, Prod.exists]
  constructor
  · rintro ⟨p, e, hmem, hname⟩
    split at hname
    · rename_i last hlast
      split at hname
      · rename_i hdir
        cases hname
        obtain ⟨front, rfl⟩ := List.getLast?_eq_some_iff.mp hlast
        rw [List.dropLast_concat] at hdir
        subst hdir
        exact ⟨e, h.entryAt_of_mem hmem⟩
      · cases hname
    · cases hname
  · rintro ⟨e, hentry⟩
    refine ⟨dir ++ [name], e, mem_of_entryAt (by simp) hentry, ?_⟩
    simp

theorem children_nodup (h : t.Sound) (dir : Place) : (t.children dir).Nodup := by
  have hplaces : t.children dir = (t.entries.map Prod.fst).filterMap fun p =>
      p.getLast?.bind fun name => if p.dropLast = dir then some name else none := by
    rw [List.filterMap_map]
    unfold children
    refine List.filterMap_congr fun entry _ => ?_
    cases hlast : entry.1.getLast? <;> simp [hlast]
  rw [hplaces]
  -- A name and its directory make up the place.
  have hplace : ∀ (p : Place) (name : String),
      name ∈ (p.getLast?.bind fun name => if p.dropLast = dir then some name else none) →
        p = dir ++ [name] := by
    intro p name hname
    obtain ⟨last, hlast, hname⟩ := Option.bind_eq_some_iff.mp hname
    split at hname
    · rename_i hdir
      cases hname
      obtain ⟨front, rfl⟩ := List.getLast?_eq_some_iff.mp hlast
      rw [List.dropLast_concat] at hdir
      rw [hdir]
    · cases hname
  exact h.once.filterMap fun p q name hp hq => (hplace p name hp).trans (hplace q name hq).symm

/-! ## Changes -/

theorem entryAt_put (t : FileTree) (hne : p ≠ []) (e : FileEntry) (q : Place) :
    (t.put p e).entryAt q = if q = p then some e else t.entryAt q := by
  by_cases hq : q = []
  · subst hq
    rw [if_neg (Ne.symm hne)]
    rfl
  · rw [entryAt_eq _ hq, entryAt_eq _ hq, put, List.lookup_cons]
    by_cases heq : q = p
    · rw [if_pos heq, beq_iff_eq.mpr heq]
    · rw [if_neg heq, beq_eq_false_iff_ne.mpr heq, lookup_filter_fst (fun k => decide (k ≠ p)),
        if_pos (decide_eq_true heq)]

theorem entryAt_erase (t : FileTree) (hne : q ≠ []) :
    (t.erase p).entryAt q = if p <+: q then none else t.entryAt q := by
  rw [entryAt_eq _ hne, entryAt_eq _ hne, erase, lookup_filter_fst (fun k => !p.isPrefixOf k)]
  by_cases hp : p <+: q
  · rw [if_pos hp, List.isPrefixOf_iff_prefix.mpr hp]
    rfl
  · rw [if_neg hp, Bool.eq_false_iff.mpr fun h => hp (List.isPrefixOf_iff_prefix.mp h)]
    rfl

namespace Sound

/-- Only one entry is gone when a file is deleted. -/
theorem entryAt_erase_file (h : t.Sound) (hp : t.entryAt p ≠ some .directory) (q : Place) :
    (t.erase p).entryAt q = if q = p then none else t.entryAt q := by
  have hne : p ≠ [] := by
    rintro rfl
    exact hp rfl
  by_cases hq : q = []
  · subst hq
    rw [if_neg (Ne.symm hne)]
    rfl
  · rw [t.entryAt_erase hq]
    by_cases hprefix : p <+: q
    · obtain ⟨rest, rfl⟩ := hprefix
      rw [if_pos (List.prefix_append p rest)]
      by_cases hrest : rest = []
      · rw [if_pos (by rw [hrest, List.append_nil])]
      · rw [if_neg (by simpa using hrest)]
        cases hentry : t.entryAt (p ++ rest) with
        | none => rfl
        | some e => exact absurd (h.eq_nil_of_prefix hp hentry) hrest
    · rw [if_neg hprefix, if_neg (fun heq : q = p => hprefix (heq ▸ List.prefix_refl p))]

end Sound

end FileTree

end LuaScope

import LuaScope.Proofs.Files.Walk
import LuaScope.Workspace.Catalog

/-!
# LuaScope.Proofs.Catalog.Map

The map from names to files.

* `ModuleMap.Ordered`    — under each name stand its files, at least one, in the order of their paths.
* `ModuleMap.get_set`, `ModuleMap.get_insert` — what the changes of a map do to what is read.
* `Catalog.agrees_of_get` — what is read under the names is all there is to an ordered map.
-/

namespace LuaScope

/-! ## The name of a file -/

/-- Paths of the same parts have the same name. -/
theorem moduleKey?_congr {path path' : String} (h : Path.parts path = Path.parts path') :
    moduleKey? path = moduleKey? path' := by
  have hname : Path.fileName? path = Path.fileName? path' := by
    rw [Path.fileName?, Path.fileName?, h]
  have hparent : Path.parent? path = Path.parent? path' := by
    rw [Path.parent?, Path.parent?, Path.parentParts?, Path.parentParts?, h]
  have hlua : Path.isLuaFile path = Path.isLuaFile path' := by
    rw [Path.isLuaFile, Path.isLuaFile, Path.extension?, Path.extension?, hname]
  rw [moduleKey?, moduleKey?, hname, hparent, hlua]

theorem isLuaFile_of_moduleKey? {path name : String} (h : moduleKey? path = some name) :
    Path.isLuaFile path = true := by
  unfold moduleKey? at h
  split_ifs at h with hlua
  simpa using hlua

namespace ModuleMap

/-! ## Sorted entries -/

variable {entries : List ModuleEntry}

/-- Entries in the order of their paths. -/
def Sorted (entries : List ModuleEntry) : Prop :=
  entries.Pairwise fun a b => Path.le a.path b.path = true

theorem path_le_trans (a b c : ModuleEntry) : Path.le a.path b.path = true →
    Path.le b.path c.path = true → Path.le a.path c.path = true :=
  Path.le_trans a.path b.path c.path

theorem path_le_total (a b : ModuleEntry) :
    (Path.le a.path b.path || Path.le b.path a.path) = true :=
  Path.le_total a.path b.path

theorem sorted_sortByPath (entries : List ModuleEntry) : Sorted (sortByPath entries) :=
  List.pairwise_mergeSort path_le_trans path_le_total entries

theorem sortByPath_perm (entries : List ModuleEntry) : (sortByPath entries).Perm entries :=
  List.mergeSort_perm _ _

/-- What is in order already stays so when more is sorted in. -/
theorem sublist_sortByPath {front : List ModuleEntry} (hsorted : Sorted front)
    (h : front.Sublist entries) : front.Sublist (sortByPath entries) :=
  List.sublist_mergeSort path_le_trans path_le_total hsorted h

/-- Entries with different paths can be put in order in one way only. -/
theorem Sorted.eq_of_perm {entries' : List ModuleEntry} (h : Sorted entries)
    (h' : Sorted entries') (honce : (entries.map fun e => Path.parts e.path).Nodup)
    (hperm : entries.Perm entries') : entries = entries' := by
  refine List.Perm.eq_of_pairwise (fun a b ha hb hab hba => ?_) h h' hperm
  exact List.inj_on_of_nodup_map honce ha (hperm.mem_iff.mpr hb) (Path.le_antisymm hab hba)

/-! ## Reading -/

variable {m m' : ModuleMap} {name : String} {e : ModuleEntry}

/-- Under each name stand its files, at least one, in the order of their paths. -/
structure Ordered (m : ModuleMap) : Prop where
  once : (m.map Prod.fst).Nodup
  nonempty : ∀ entry ∈ m, entry.2 ≠ []
  sorted : ∀ entry ∈ m, Sorted entry.2
  keyed : ∀ entry ∈ m, ∀ e ∈ entry.2, e.name = entry.1 ∧ moduleKey? e.path = some entry.1

theorem Ordered.nil : Ordered [] := ⟨List.nodup_nil, nofun, nofun, nofun⟩

theorem mem_of_get (h : m.get name ≠ []) : (name, m.get name) ∈ m := by
  unfold get at h ⊢
  split at h
  · rename_i entries hlookup
    obtain ⟨before, behind, hm, -⟩ := List.lookup_eq_some_iff.mp hlookup
    rw [hm]
    simp
  · exact absurd rfl h

namespace Ordered

theorem get_of_mem (h : m.Ordered) (hmem : (name, entries) ∈ m) : m.get name = entries := by
  have hlookup : m.lookup name = some entries := by
    rw [List.lookup_eq_some_iff]
    obtain ⟨before, behind, hm⟩ := List.append_of_mem hmem
    refine ⟨before, behind, hm, fun entry hentry => ?_⟩
    have honce := h.once
    rw [hm, List.map_append, List.nodup_append] at honce
    exact bne_iff_ne.mpr (honce.2.2 _ (List.mem_map_of_mem hentry) _ (by simp)).symm
  rw [get, hlookup]

theorem mem_names_iff (h : m.Ordered) : name ∈ m.map Prod.fst ↔ m.get name ≠ [] := by
  constructor
  · intro hname
    obtain ⟨⟨_, entries⟩, hmem, rfl⟩ := List.mem_map.mp hname
    rw [h.get_of_mem hmem]
    exact h.nonempty _ hmem
  · exact fun hne => List.mem_map_of_mem (mem_of_get hne)

theorem get_sorted (h : m.Ordered) (name : String) : Sorted (m.get name) := by
  by_cases hne : m.get name = []
  · rw [hne]
    exact List.Pairwise.nil
  · exact h.sorted _ (mem_of_get hne)

theorem get_keyed (h : m.Ordered) (he : e ∈ m.get name) :
    e.name = name ∧ moduleKey? e.path = some name :=
  h.keyed _ (mem_of_get (List.ne_nil_of_mem he)) e he

end Ordered

/-! ## Changes -/

theorem set_eq (m : ModuleMap) (name : String) (entries : List ModuleEntry) :
    m.set name entries =
      if entries.isEmpty then m.filter (fun entry => entry.1 != name)
      else (name, entries) :: m.filter fun entry => entry.1 != name := rfl

theorem get_set (m : ModuleMap) (name : String) (entries : List ModuleEntry) (x : String) :
    (m.set name entries).get x = if x = name then entries else m.get x := by
  have hothers : (m.filter fun entry => entry.1 != name).lookup x =
      if (x != name) = true then m.lookup x else none :=
    lookup_filter_fst (· != name) x m
  rw [set_eq]
  unfold get
  by_cases hx : x = name
  · subst hx
    rw [if_pos rfl]
    cases entries with
    | nil => simp [hothers]
    | cons => simp
  · rw [if_neg hx]
    cases entries with
    | nil => simp [hothers, hx]
    | cons =>
      have hne : (x == name) = false := beq_eq_false_iff_ne.mpr hx
      simp [hothers, hx, List.lookup_cons, hne]

theorem Ordered.set (h : m.Ordered) (hsorted : Sorted entries)
    (hkeyed : ∀ e ∈ entries, e.name = name ∧ moduleKey? e.path = some name) :
    (m.set name entries).Ordered := by
  have hothers : Ordered (m.filter fun entry => entry.1 != name) :=
    ⟨h.once.sublist (List.filter_sublist.map _),
      fun entry hentry => h.nonempty entry (List.mem_of_mem_filter hentry),
      fun entry hentry => h.sorted entry (List.mem_of_mem_filter hentry),
      fun entry hentry => h.keyed entry (List.mem_of_mem_filter hentry)⟩
  rw [set_eq]
  split_ifs with hempty
  · exact hothers
  · refine ⟨?_, ?_, ?_, ?_⟩
    · rw [List.map_cons, List.nodup_cons]
      refine ⟨fun hname => ?_, hothers.once⟩
      obtain ⟨entry, hentry, heq⟩ := List.mem_map.mp hname
      exact absurd heq (bne_iff_ne.mp (List.mem_filter.mp hentry).2)
    · exact List.forall_mem_cons.mpr
        ⟨fun hnil => hempty (List.isEmpty_iff.mpr hnil), hothers.nonempty⟩
    · exact List.forall_mem_cons.mpr ⟨hsorted, hothers.sorted⟩
    · exact List.forall_mem_cons.mpr ⟨hkeyed, hothers.keyed⟩

theorem get_insert (m : ModuleMap) (e : ModuleEntry) (x : String) :
    (m.insert e).get x = if x = e.name then sortByPath (m.get e.name ++ [e]) else m.get x :=
  get_set m e.name _ x

theorem Ordered.insert (h : m.Ordered) (hkey : moduleKey? e.path = some e.name) :
    (m.insert e).Ordered := by
  refine h.set (sorted_sortByPath _) fun x hx => ?_
  rcases List.mem_append.mp ((sortByPath_perm _).mem_iff.mp hx) with hx | hx
  · exact h.get_keyed hx
  · rw [List.mem_singleton.mp hx]
    exact ⟨rfl, hkey⟩

end ModuleMap

/-! ## Catalogs that answer alike -/

/-- The same names, and under each of them the same entries in the same order. -/
def Catalog.Agrees (c c' : Catalog) : Prop :=
  c.names = c'.names ∧ ∀ name, c.entries name = c'.entries name

theorem Catalog.agrees_of_get {c c' : Catalog} (h : c.map.Ordered) (h' : c'.map.Ordered)
    (hget : ∀ name, c.map.get name = c'.map.get name) : c.Agrees c' := by
  refine ⟨?_, hget⟩
  have hperm : (c.map.map Prod.fst).Perm (c'.map.map Prod.fst) := by
    rw [List.perm_ext_iff_of_nodup h.once h'.once]
    intro name
    rw [h.mem_names_iff, h'.mem_names_iff, hget]
  have hsorted : ∀ names : List String,
      (names.mergeSort fun a b => a ≤ b).Pairwise fun a b => decide (a ≤ b) = true :=
    List.pairwise_mergeSort (by simpa using fun _ _ _ => String.le_trans)
      (by simpa using String.le_total)
  refine List.Perm.eq_of_pairwise (fun a b _ _ hab hba => ?_) (hsorted _) (hsorted _)
    ((List.mergeSort_perm _ _).trans (hperm.trans (List.mergeSort_perm _ _).symm))
  exact String.le_antisymm (of_decide_eq_true hab) (of_decide_eq_true hba)

end LuaScope

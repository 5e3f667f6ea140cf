import LuaScope.Proofs.Catalog.Map

/-!
# LuaScope.Proofs.Catalog.Rescan

What a rescan puts into the map.

* `Catalog.get_rescan`         — under each name what the walks of the roots found of it, sorted.
* `Catalog.once_rescan_iff`    — a path is listed twice exactly when two roots lead to it.
* `Catalog.apart_of_unnested`  — roots of which none lies in another do not.
-/

namespace LuaScope

/-! ## Grouping -/

theorem nodup_eraseDups {α : Type} [BEq α] [LawfulBEq α] : ∀ l : List α, l.eraseDups.Nodup
  | [] => by simp
  | a :: l => by
    rw [List.eraseDups_cons, List.nodup_cons]
    refine ⟨fun hmem => ?_, nodup_eraseDups _⟩
    have hkept := (List.mem_filter.mp (List.mem_eraseDups.mp hmem)).2
    simp at hkept
termination_by l => l.length
decreasing_by exact Nat.lt_succ_of_le (List.length_filter_le _ _)

theorem map_filterMap_sublist {α β : Type} {f : β → α} {g : α → Option β}
    (h : ∀ a b, g a = some b → f b = a) : ∀ l : List α, ((l.filterMap g).map f).Sublist l
  | [] => .slnil
  | a :: l => by
    have hrest := map_filterMap_sublist h l
    cases hg : g a with
    | none =>
      rw [List.filterMap_cons_none hg]
      exact hrest.cons a
    | some b =>
      rw [List.filterMap_cons_some hg, List.map_cons, h a b hg]
      exact hrest.cons_cons a

/-- The groups of all keys together are the whole list. -/
theorem flatMap_filter_perm {α β : Type} [BEq β] [LawfulBEq β] (key : α → β) :
    ∀ {keys : List β} {l : List α}, keys.Nodup → (∀ a ∈ l, key a ∈ keys) →
      (keys.flatMap fun k => l.filter fun a => key a == k).Perm l
  | [], l, _, hkeys => by
    cases l with
    | nil => exact .nil
    | cons a l => cases hkeys a (.head _)
  | k :: keys, l, hnodup, hkeys => by
    obtain ⟨hk, hrest⟩ := List.nodup_cons.mp hnodup
    have hothers : ∀ a ∈ l.filter (fun a => !(key a == k)), key a ∈ keys := by
      intro a ha
      obtain ⟨hmem, hne⟩ := List.mem_filter.mp ha
      exact (List.mem_cons.mp (hkeys a hmem)).resolve_left (by simpa using hne)
    have hgroups : (keys.flatMap fun k' => l.filter fun a => key a == k') =
        keys.flatMap fun k' => (l.filter fun a => !(key a == k)).filter fun a => key a == k' := by
      refine List.flatMap_congr fun k' hk' => ?_
      rw [List.filter_filter]
      refine List.filter_congr fun a _ => ?_
      by_cases hkey : key a = k'
      · have hne : k' ≠ k := fun heq => hk (heq ▸ hk')
        simp [hkey, hne]
      · simp [hkey]
    rw [List.flatMap_cons, hgroups]
    exact ((flatMap_filter_perm key hrest hothers).append_left _).trans
      (List.filter_append_perm _ l)

namespace ModuleMap

/-- All files of a map. -/
def files (m : ModuleMap) : List ModuleEntry := m.flatMap Prod.snd

/-- No path is listed twice. -/
def Once (m : ModuleMap) : Prop := (m.files.map fun e => Path.parts e.path).Nodup

instance (m : ModuleMap) : Decidable m.Once := inferInstanceAs (Decidable (List.Nodup _))

/-- Only under one name could a path be listed twice. -/
theorem once_iff {m : ModuleMap} (h : m.Ordered) :
    m.Once ↔ ∀ name, ((m.get name).map fun e => Path.parts e.path).Nodup := by
  unfold Once files
  rw [List.map_flatMap, List.nodup_flatMap]
  constructor
  · rintro ⟨heach, -⟩ name
    by_cases hne : m.get name = []
    · rw [hne]
      exact List.nodup_nil
    · exact heach _ (mem_of_get hne)
  · intro heach
    refine ⟨fun entry hentry => ?_, ?_⟩
    · rw [← h.get_of_mem hentry]
      exact heach entry.1
    · refine (List.pairwise_map.mp h.once).imp_of_mem fun {a b} ha hb hne ps hpa hpb => ?_
      obtain ⟨x, hx, rfl⟩ := List.mem_map.mp hpa
      obtain ⟨y, hy, heq⟩ := List.mem_map.mp hpb
      have hkeys := moduleKey?_congr heq
      rw [(h.keyed b hb y hy).2, (h.keyed a ha x hx).2] at hkeys
      exact hne (Option.some.inj hkeys).symm

end ModuleMap

namespace Catalog

variable {c : Catalog} {t : FileTree} {root : String} {e : ModuleEntry}

/-- `size` counts the files. -/
theorem size_eq (c : Catalog) : c.size = c.map.files.length := by
  have hfold : ∀ (m : ModuleMap) (n : Nat),
      m.foldl (fun n entry => n + entry.2.length) n = n + m.files.length := by
    intro m
    induction m with
    | nil => exact fun _ => rfl
    | cons entry rest ih =>
      intro n
      rw [List.foldl_cons, ih, ModuleMap.files, ModuleMap.files, List.flatMap_cons,
        List.length_append, Nat.add_assoc]
  exact (hfold c.map 0).trans (Nat.zero_add _)

/-! ## What the roots lead to -/

/-- Files that the walks of the roots find, root by root. -/
def found (c : Catalog) (t : FileTree) : List ModuleEntry := c.roots.flatMap (c.scanRoot t)

theorem mem_scanRoot : e ∈ c.scanRoot t root ↔ t.isDirectory root = true ∧
    e.path ∈ c.walker.walk t root ∧ moduleKey? e.path = some e.name ∧ e.root = root := by
  unfold scanRoot
  split_ifs with hdir
  · rw [List.mem_filterMap]
    constructor
    · rintro ⟨path, hpath, hkey⟩
      obtain ⟨name, hname, rfl⟩ := Option.map_eq_some_iff.mp hkey
      exact ⟨hdir, hpath, hname, rfl⟩
    · rintro ⟨-, hpath, hkey, rfl⟩
      exact ⟨e.path, hpath, by rw [hkey]; rfl⟩
  · exact ⟨nofun, fun h => absurd h.1 hdir⟩

theorem scanRoot_once (h : t.Sound) (c : Catalog) (root : String) :
    ((c.scanRoot t root).map fun e => Path.parts e.path).Nodup := by
  unfold scanRoot
  split_ifs
  · have hpaths := map_filterMap_sublist (f := ModuleEntry.path)
      (g := fun path => (moduleKey? path).map fun name => ⟨name, path, root⟩)
      (fun path e he => by
        obtain ⟨name, -, rfl⟩ := Option.map_eq_some_iff.mp he
        rfl) (c.walker.walk t root)
    have hsublist := hpaths.map Path.parts
    rw [List.map_map] at hsublist
    exact (c.walker.walk_once h root).sublist hsublist
  · exact List.nodup_nil

/-- No two of the roots lead to one path. -/
def Apart (c : Catalog) (t : FileTree) : Prop :=
  c.roots.Pairwise fun root root' => ∀ e ∈ c.scanRoot t root, ∀ e' ∈ c.scanRoot t root',
    Path.parts e.path ≠ Path.parts e'.path

instance (c : Catalog) (t : FileTree) : Decidable (c.Apart t) :=
  inferInstanceAs (Decidable (List.Pairwise _ _))

/-- Roots of which none lies in another, and none is repeated, do not. -/
theorem apart_of_unnested (h : t.Sound) (hroots : c.roots.Pairwise fun root root' =>
    Path.startsWith root root' = false ∧ Path.startsWith root' root = false) : c.Apart t := by
  refine hroots.imp fun {root root'} hnested e he e' he' heq => ?_
  have hbelow : ∀ {root : String} {e : ModuleEntry}, e ∈ c.scanRoot t root →
      Path.parts root <+: Path.parts e.path := fun hmem =>
    FileWalker.parts_of_mem_walk h (mem_scanRoot.mp hmem).2.1
  rcases List.prefix_or_prefix_of_prefix (hbelow he) (heq ▸ hbelow he') with hprefix | hprefix
  · exact Bool.eq_false_iff.mp hnested.2 (Path.startsWith_iff.mpr hprefix)
  · exact Bool.eq_false_iff.mp hnested.1 (Path.startsWith_iff.mpr hprefix)

/-! ## Rescans -/

theorem lookup_map_self {β : Type} (f : String → β) (name : String) : ∀ names : List String,
    (names.map fun n => (n, f n)).lookup name = if name ∈ names then some (f name) else none
  | [] => by simp
  | n :: names => by
    rw [List.map_cons, List.lookup_cons, lookup_map_self f name names]
    by_cases hn : name = n
    · subst hn
      simp
    · have hne : (name == n) = false := beq_eq_false_iff_ne.mpr hn
      simp [hn, hne]

theorem get_rescan (c : Catalog) (t : FileTree) (name : String) :
    (c.rescan t).2.map.get name =
      ModuleMap.sortByPath ((c.found t).filter fun e => e.name == name) := by
  unfold rescan ModuleMap.get
  simp only [lookup_map_self, List.mem_eraseDups]
  rw [← found]
  by_cases hname : name ∈ (c.found t).map (·.name)
  · rw [if_pos hname]
  · have hnone : (c.found t).filter (fun e => e.name == name) = [] := by
      rw [List.filter_eq_nil_iff]
      intro e he hkey
      exact hname (beq_iff_eq.mp hkey ▸ List.mem_map_of_mem he)
    rw [if_neg hname, hnone]
    exact List.mergeSort_nil.symm

theorem moduleKey?_of_mem_found (he : e ∈ c.found t) : moduleKey? e.path = some e.name := by
  obtain ⟨root, -, hroot⟩ := List.mem_flatMap.mp he
  exact (mem_scanRoot.mp hroot).2.2.1

theorem mem_get_rescan {name : String} :
    e ∈ (c.rescan t).2.map.get name ↔ e ∈ c.found t ∧ e.name = name := by
  rw [get_rescan, (ModuleMap.sortByPath_perm _).mem_iff, List.mem_filter, beq_iff_eq]

theorem ordered_rescan (c : Catalog) (t : FileTree) : (c.rescan t).2.map.Ordered where
  once := by
    unfold rescan
    simp only [List.map_map]
    exact (nodup_eraseDups _).map fun _ _ h => h
  nonempty := by
    intro entry hentry
    obtain ⟨name, hname, rfl⟩ := List.mem_map.mp hentry
    obtain ⟨e, he, rfl⟩ := List.mem_map.mp (List.mem_eraseDups.mp hname)
    refine List.ne_nil_of_mem (a := e) ?_
    rw [(ModuleMap.sortByPath_perm _).mem_iff]
    exact List.mem_filter.mpr ⟨he, beq_self_eq_true _⟩
  sorted := by
    intro entry hentry
    obtain ⟨name, -, rfl⟩ := List.mem_map.mp hentry
    exact ModuleMap.sorted_sortByPath _
  keyed := by
    intro entry hentry e he
    obtain ⟨name, -, rfl⟩ := List.mem_map.mp hentry
    obtain ⟨hfound, hname⟩ := List.mem_filter.mp ((ModuleMap.sortByPath_perm _).mem_iff.mp he)
    rw [← beq_iff_eq.mp hname]
    exact ⟨rfl, moduleKey?_of_mem_found hfound⟩

theorem files_rescan_perm (c : Catalog) (t : FileTree) :
    (c.rescan t).2.map.files.Perm (c.found t) := by
  have hgroups : (c.rescan t).2.map.files.Perm
      (((c.found t).map (·.name)).eraseDups.flatMap fun name =>
        (c.found t).filter fun e => e.name == name) := by
    unfold rescan ModuleMap.files
    simp only [List.flatMap_map]
    exact List.Perm.flatMap_left _ fun name _ => ModuleMap.sortByPath_perm _
  refine hgroups.trans (flatMap_filter_perm ModuleEntry.name (nodup_eraseDups _) fun e he => ?_)
  exact List.mem_eraseDups.mpr (List.mem_map_of_mem he)

/-- A rescan answers how many files it lists. -/
theorem rescan_size (c : Catalog) (t : FileTree) : (c.rescan t).1 = (c.rescan t).2.size := by
  rw [size_eq, (c.files_rescan_perm t).length_eq]
  rfl

/-- A path is listed twice exactly when two roots lead to it. -/
theorem once_rescan_iff (h : t.Sound) (c : Catalog) : (c.rescan t).2.map.Once ↔ c.Apart t := by
  have hperm := (c.files_rescan_perm t).map fun e => Path.parts e.path
  unfold ModuleMap.Once Apart
  rw [hperm.nodup_iff, found, List.map_flatMap, List.nodup_flatMap]
  constructor
  · rintro ⟨-, hpairs⟩
    refine hpairs.imp fun {root root'} hdisjoint e he e' he' heq => ?_
    exact hdisjoint (List.mem_map_of_mem he) (heq ▸ List.mem_map_of_mem he')
  · refine fun hpairs => ⟨fun root _ => scanRoot_once h c root, hpairs.imp ?_⟩
    intro root root' hapart ps hps hps'
    obtain ⟨e, he, rfl⟩ := List.mem_map.mp hps
    obtain ⟨e', he', heq⟩ := List.mem_map.mp hps'
    exact hapart e he e' he' heq.symm

end Catalog

end LuaScope

import LuaScope.Proofs.Catalog.Rescan

/-!
# LuaScope.Proofs.Catalog.Reached

What holds of a catalog after any calls.

* `Catalog.Adds`, `Catalog.addFile_cases`, `Catalog.removeFile_cases` — what a call can do to the map.
* `Catalog.map_of_reached` — the map is ordered at all times, and lists a path once when the roots
  of the last rescan led to it once.
-/

namespace LuaScope

namespace ModuleMap

variable {m : ModuleMap} {e : ModuleEntry}

theorem Once.insert (honce : m.Once) (h : m.Ordered) (hkey : moduleKey? e.path = some e.name)
    (hnew : ∀ x ∈ m.get e.name, Path.parts x.path ≠ Path.parts e.path) : (m.insert e).Once := by
  rw [once_iff h] at honce
  rw [once_iff (h.insert hkey)]
  intro name
  rw [get_insert]
  split_ifs
  · have hperm := (sortByPath_perm (m.get e.name ++ [e])).map fun x => Path.parts x.path
    rw [hperm.nodup_iff, List.map_append, List.map_singleton, ← List.concat_eq_append,
      List.nodup_concat]
    refine ⟨fun hmem => ?_, honce e.name⟩
    obtain ⟨x, hx, heq⟩ := List.mem_map.mp hmem
    exact hnew x hx heq
  · exact honce name

/-- Some of the entries under a name are taken away. -/
theorem Ordered.set_filter (h : m.Ordered) (name : String) (keep : ModuleEntry → Bool) :
    (m.set name ((m.get name).filter keep)).Ordered :=
  h.set ((h.get_sorted name).sublist List.filter_sublist)
    fun _ he => h.get_keyed (List.mem_of_mem_filter he)

theorem Once.set_filter (honce : m.Once) (h : m.Ordered) (name : String)
    (keep : ModuleEntry → Bool) : (m.set name ((m.get name).filter keep)).Once := by
  rw [once_iff h] at honce
  rw [once_iff (h.set_filter name keep)]
  intro x
  rw [get_set]
  split_ifs
  · exact (honce name).sublist (List.filter_sublist.map _)
  · exact honce x

end ModuleMap

namespace Catalog

variable {c : Catalog} {t : FileTree} {path : String} {e : ModuleEntry}

/-! ## What a call does -/

/-- The entry under which a file is added. -/
structure Adds (c : Catalog) (t : FileTree) (path : String) (e : ModuleEntry) : Prop where
  path : e.path = (t.canonicalize? path).getD path
  key : moduleKey? e.path = some e.name
  root : c.rootFor e.path = some e.root
  accepted : c.walker.accepts e.root e.path = true
  new : ∀ x ∈ c.map.get e.name, Path.parts x.path ≠ Path.parts e.path

theorem Adds.eq (h : c.Adds t path e) :
    c.addFile t path = (true, { c with map := c.map.insert e }) := by
  have hall : ((c.map.get e.name).all fun x => !Path.same x.path e.path) = true := by
    rw [List.all_eq_true]
    intro x hx
    rw [Bool.not_eq_true', Bool.eq_false_iff]
    exact fun hsame => h.new x hx (Path.same_iff.mp hsame)
  unfold addFile
  simp only [← h.path, h.key, h.root, h.accepted, hall, Bool.and_self, if_true]

theorem addFile_cases (c : Catalog) (t : FileTree) (path : String) :
    c.addFile t path = (false, c) ∧ (∀ e, ¬c.Adds t path e) ∨ ∃ e, c.Adds t path e := by
  by_cases h : ∃ e, c.Adds t path e
  · exact .inr h
  · refine .inl ⟨?_, not_exists.mp h⟩
    unfold addFile
    simp only
    split
    · rename_i name root hkey hroot
      split_ifs with hadds
      · rw [Bool.and_eq_true, List.all_eq_true] at hadds
        refine absurd ⟨⟨name, _, root⟩, rfl, hkey, hroot, hadds.1, fun x hx hparts => ?_⟩ h
        exact Bool.eq_false_iff.mp (Bool.not_eq_true' _ ▸ hadds.2 x hx) (Path.same_iff.mpr hparts)
      · rfl
    · rfl

theorem removeFile_cases (c : Catalog) (t : FileTree) (path : String) :
    c.removeFile t path = (false, c) ∨ ∃ name, moduleKey? path = some name ∧
      c.removeFile t path = (true, { c with
        map := c.map.set name ((c.map.get name).filter fun e => !isDeleted t path e) }) := by
  unfold removeFile
  split
  · exact .inl rfl
  · rename_i name hkey
    simp only
    split_ifs
    · exact .inl rfl
    · exact .inr ⟨name, hkey, rfl⟩

/-- The calls for single files leave the configuration as it is. -/
theorem configuration_addFile (c : Catalog) (t : FileTree) (path : String) :
    (c.addFile t path).2.roots = c.roots ∧ (c.addFile t path).2.walker = c.walker := by
  rcases c.addFile_cases t path with ⟨heq, -⟩ | ⟨e, hadds⟩
  · rw [heq]
    exact ⟨rfl, rfl⟩
  · rw [hadds.eq]
    exact ⟨rfl, rfl⟩

theorem configuration_removeFile (c : Catalog) (t : FileTree) (path : String) :
    (c.removeFile t path).2.roots = c.roots ∧ (c.removeFile t path).2.walker = c.walker := by
  rcases c.removeFile_cases t path with heq | ⟨name, -, heq⟩
  · rw [heq]
    exact ⟨rfl, rfl⟩
  · rw [heq]
    exact ⟨rfl, rfl⟩

theorem get_removeFile (c : Catalog) (t : FileTree) (path name : String) :
    (c.removeFile t path).2.map.get name =
      if moduleKey? path = some name then (c.map.get name).filter fun e => !isDeleted t path e
      else c.map.get name := by
  unfold removeFile
  split
  · rename_i hnone
    rw [hnone, if_neg nofun]
  · rename_i key hkey
    simp only [hkey, Option.some.injEq]
    split_ifs with hlength hname hname
    · rw [← hname, List.filter_eq_self.mpr (List.length_filter_eq_length_iff.mp hlength)]
    · rfl
    · rw [ModuleMap.get_set, if_pos hname.symm, hname]
    · rw [ModuleMap.get_set, if_neg (Ne.symm hname)]

theorem ordered_addFile (h : c.map.Ordered) (t : FileTree) (path : String) :
    (c.addFile t path).2.map.Ordered := by
  rcases c.addFile_cases t path with ⟨heq, -⟩ | ⟨e, hadds⟩
  · rwa [heq]
  · rw [hadds.eq]
    exact h.insert hadds.key

theorem once_addFile (h : c.map.Ordered) (honce : c.map.Once) (t : FileTree) (path : String) :
    (c.addFile t path).2.map.Once := by
  rcases c.addFile_cases t path with ⟨heq, -⟩ | ⟨e, hadds⟩
  · rwa [heq]
  · rw [hadds.eq]
    exact honce.insert h hadds.key hadds.new

theorem ordered_removeFile (h : c.map.Ordered) (t : FileTree) (path : String) :
    (c.removeFile t path).2.map.Ordered := by
  rcases c.removeFile_cases t path with heq | ⟨name, -, heq⟩
  · rwa [heq]
  · rw [heq]
    exact h.set_filter name _

theorem once_removeFile (h : c.map.Ordered) (honce : c.map.Once) (t : FileTree) (path : String) :
    (c.removeFile t path).2.map.Once := by
  rcases c.removeFile_cases t path with heq | ⟨name, -, heq⟩
  · rwa [heq]
  · rw [heq]
    exact honce.set_filter h name _

/-! ## Any calls -/

/-- Catalogs that calls lead to, in any order and on any trees, from a new one; with the catalog
and the tree of the last rescan. -/
inductive Reached : Option (Catalog × FileTree) → Catalog → Prop where
  | new : Reached none {}
  | configure {last c} (t : FileTree) (roots filters : List String) (followLinks : Bool) :
      Reached last c → Reached last (c.configure t roots filters followLinks)
  | rescan {last c} (t : FileTree) : t.Sound → Reached last c → Reached (some (c, t)) (c.rescan t).2
  | addFile {last c} (t : FileTree) (path : String) :
      Reached last c → Reached last (c.addFile t path).2
  | removeFile {last c} (t : FileTree) (path : String) :
      Reached last c → Reached last (c.removeFile t path).2

variable {last : Option (Catalog × FileTree)}

theorem Reached.ordered (h : Reached last c) : c.map.Ordered := by
  induction h with
  | new => exact .nil
  | configure _ _ _ _ _ ih => exact ih
  | rescan t _ _ _ => exact ordered_rescan _ t
  | addFile t path _ ih => exact ordered_addFile ih t path
  | removeFile t path _ ih => exact ordered_removeFile ih t path

/-- What the last rescan listed once stays listed once. -/
theorem Reached.once (h : Reached last c) (hlast : ∀ s ∈ last, s.1.Apart s.2) : c.map.Once := by
  induction h with
  | new => exact List.nodup_nil
  | configure _ _ _ _ _ ih => exact ih hlast
  | rescan t hsound _ _ => exact (once_rescan_iff hsound _).mpr (hlast _ rfl)
  | addFile t path hc ih => exact once_addFile hc.ordered (ih hlast) t path
  | removeFile t path hc ih => exact once_removeFile hc.ordered (ih hlast) t path

/-- After any calls each name has files, which are sorted by path and named so by their paths.
They are counted by `size`, and no path stands twice where the roots of the last rescan led to
none twice; a rescan lists a path twice if the roots do. -/
theorem map_of_reached (h : Reached last c) :
    (∀ entry ∈ c.map, entry.2 ≠ [] ∧ ModuleMap.Sorted entry.2 ∧
      ∀ e ∈ entry.2, e.name = entry.1 ∧ moduleKey? e.path = some entry.1) ∧
    c.size = c.map.files.length ∧ ((∀ s ∈ last, s.1.Apart s.2) → c.map.Once) ∧
    ∀ t : FileTree, t.Sound → ((c.rescan t).2.map.Once ↔ c.Apart t) := by
  have hordered := h.ordered
  refine ⟨fun entry hentry => ?_, c.size_eq, h.once, fun t ht => once_rescan_iff ht c⟩
  exact ⟨hordered.nonempty entry hentry, hordered.sorted entry hentry, hordered.keyed entry hentry⟩

/-- Two roots side by side, and a file that comes later. -/
theorem map_of_reached_beside : ∃ last c, Reached last c ∧ (∀ s ∈ last, s.1.Apart s.2) ∧
    c.map.Once ∧ c.size = 3 := by
  let t : FileTree :=
    { entries := [(["ws"], .directory), (["ws", "lib"], .directory),
        (["ws", "lib", "a.lua"], .file (some "return 1")), (["ws", "app"], .directory),
        (["ws", "app", "b.lua"], .file (some "return 2"))] }
  let t' : FileTree := t.put ["ws", "lib", "c.lua"] (.file (some "return 3"))
  let c : Catalog := Catalog.configure {} t ["/ws/lib", "/ws/app"] [] false
  have hsound : t.Sound := by decide +kernel
  have hapart : c.Apart t := by decide +kernel
  have hreached : Reached (some (c, t)) ((c.rescan t).2.addFile t' "/ws/lib/c.lua").2 :=
    .addFile t' _ (.rescan t hsound (.configure t _ _ _ .new))
  have hlast : ∀ s ∈ some (c, t), s.1.Apart s.2 := by
    intro s hs
    cases hs
    exact hapart
  exact ⟨_, _, hreached, hlast, (map_of_reached hreached).2.2.1 hlast, by decide +kernel⟩

/-- A root inside another one lists its files a second time. -/
theorem nested_root_listed_twice :
    ∃ last c, Reached last c ∧ ¬c.map.Once ∧ c.size = 2 ∧
      ∀ e ∈ c.map.files, e.path = "/ws/lib/a.lua" := by
  let t : FileTree :=
    { entries := [(["ws"], .directory), (["ws", "lib"], .directory),
        (["ws", "lib", "a.lua"], .file (some "return 1"))] }
  let c : Catalog := Catalog.configure {} t ["/ws", "/ws/lib"] [] false
  have hsound : t.Sound := by decide +kernel
  have hreached : Reached (some (c, t)) (c.rescan t).2 :=
    .rescan t hsound (.configure t _ _ _ .new)
  refine ⟨_, _, hreached, ?_, ?_, ?_⟩
  · rw [once_rescan_iff hsound]
    decide +kernel
  · rw [← rescan_size]
    decide +kernel
  · intro e he
    have hfound : ∀ e ∈ c.found t, e.path = "/ws/lib/a.lua" := by decide +kernel
    exact hfound e ((files_rescan_perm c t).mem_iff.mp he)

end Catalog

end LuaScope

import LuaScope.Proofs.Catalog.Reached

/-!
# LuaScope.Proofs.Catalog.Deleted

Whether the removal of a file takes back that it was added.

* `Catalog.isDeleted_iff` — what counts as the deleted file: the path as it is spelled, and the
  place it stood at if the path has a directory.
* `Catalog.removeFile_undoes_addFile_iff` — the removal takes back the addition exactly when the
  spelling gives the name that the place gives, has a directory, and is no other entry's path.
-/

namespace LuaScope

/-- A path with a name at its end has a directory, be it the empty one. -/
theorem Path.parent?_of_fileName? {path name : String} (h : Path.fileName? path = some name) :
    ∃ d, Path.parent? path = some d := by
  unfold Path.fileName? at h
  split at h
  · rename_i text hlast
    exact ⟨_, by rw [Path.parent?, Path.parentParts?, hlast]; rfl⟩
  · cases h

/-- The path names a regular file of the directory, by its own name; the way to the directory may
lead through links. -/
structure FileTree.NamesFile (t : FileTree) (path : String) (dir : Place) (name : String) :
    Prop where
  file : ∃ text, t.entryAt (dir ++ [name]) = some (.file text)
  resolve : t.resolve path = .ok (dir ++ [name])
  fileName : Path.fileName? path = some name
  directory : ∀ d, Path.parent? path = some d → d ≠ "" → t.resolve d = .ok dir

theorem FileTree.NamesFile.of_parent {t : FileTree} {path name d : String} {dir : Place}
    (hfile : ∃ text, t.entryAt (dir ++ [name]) = some (.file text))
    (hresolve : t.resolve path = .ok (dir ++ [name])) (hname : Path.fileName? path = some name)
    (hparent : Path.parent? path = some d) (hdir : t.resolve d = .ok dir) :
    t.NamesFile path dir name := by
  refine ⟨hfile, hresolve, hname, fun d' hd' _ => ?_⟩
  rw [hparent] at hd'
  cases hd'
  exact hdir

namespace Catalog

variable {last : Option (Catalog × FileTree)} {c : Catalog} {t : FileTree} {path name : String}
  {dir : Place} {e : ModuleEntry}

/-! ## What counts as deleted -/

theorem deletedSpelling?_erase (ht : t.Sound) (hp : t.NamesFile path dir name)
    (hdir : Path.parent? path ≠ some "") :
    deletedSpelling? (t.erase (dir ++ [name])) path = some (Place.text (dir ++ [name])) := by
  obtain ⟨text, hfile⟩ := hp.file
  obtain ⟨d, hd⟩ := Path.parent?_of_fileName? hp.fileName
  have hresolve : t.resolve d = .ok dir :=
    hp.directory d hd fun hempty => hdir (hempty ▸ hd)
  have hcanonical : (t.erase (dir ++ [name])).canonicalize? d = some dir.text := by
    rw [FileTree.canonicalize?, ht.resolve_erase hfile (ht.parent hfile) hresolve]
  unfold deletedSpelling?
  simp only [hd, Option.bind_some, hcanonical, hp.fileName]
  rw [Place.join_text (ht.proper_of_entryAt hfile)]

/-- Without a directory only the spelling itself is compared. -/
theorem deletedSpelling?_bare (hdir : Path.parent? path = some "") :
    deletedSpelling? t path = none := by
  unfold deletedSpelling?
  simp only [hdir, Option.bind_some]
  rfl

theorem isDeleted_iff (ht : t.Sound) (hp : t.NamesFile path dir name) :
    isDeleted (t.erase (dir ++ [name])) path e = true ↔
      Path.parts e.path = Path.parts path ∨ Path.parent? path ≠ some "" ∧
        Path.parts e.path = Path.parts (Place.text (dir ++ [name])) := by
  unfold isDeleted
  rw [Bool.or_eq_true, Path.same_iff]
  by_cases hdir : Path.parent? path = some ""
  · simp [deletedSpelling?_bare hdir, hdir]
  · simp [deletedSpelling?_erase ht hp hdir, hdir, Path.same_iff]

theorem isDeleted_self_iff (ht : t.Sound) (hp : t.NamesFile path dir name)
    (he : e.path = Place.text (dir ++ [name])) :
    isDeleted (t.erase (dir ++ [name])) path e = true ↔ Path.parent? path ≠ some "" := by
  obtain ⟨text, hfile⟩ := hp.file
  rw [isDeleted_iff ht hp, he]
  constructor
  · rintro (hparts | ⟨hdir, -⟩)
    · have hparent := Place.parent?_text (ht.proper_of_entryAt hfile)
      rw [Path.parent?, Path.parentParts?, hparts, ← Path.parentParts?, ← Path.parent?] at hparent
      rw [hparent]
      exact fun hempty => dir.text_ne_empty (Option.some.inj hempty)
    · exact hdir
  · exact fun hdir => .inr ⟨hdir, rfl⟩

/-! ## Taken back -/

/-- Entries of which the last is sorted in and then taken out. -/
theorem filter_sortByPath_concat {entries : List ModuleEntry} (hsorted : ModuleMap.Sorted entries)
    {keep : ModuleEntry → Bool} (hkeep : ∀ x ∈ entries, keep x = true) (he : keep e = false) :
    (ModuleMap.sortByPath (entries ++ [e])).filter keep = entries := by
  have hall : entries.filter keep = entries := List.filter_eq_self.mpr hkeep
  have hsublist : entries.Sublist ((ModuleMap.sortByPath (entries ++ [e])).filter keep) := by
    have hstays := ModuleMap.sublist_sortByPath hsorted (List.sublist_append_left entries [e])
    have hfiltered := hstays.filter keep
    rwa [hall] at hfiltered
  refine (hsublist.eq_of_length ?_).symm
  have hperm := (ModuleMap.sortByPath_perm (entries ++ [e])).filter keep
  rw [hperm.length_eq, List.filter_append, hall]
  simp [he]

/-- What is added last is taken back by a removal that finds its name and deletes nothing else. -/
theorem removeFile_insert_iff (h : c.map.Ordered) (hkey : moduleKey? e.path = some e.name)
    {removed : Bool × Catalog}
    (hremoved : removeFile { c with map := c.map.insert e } t path = removed) :
    removed.1 = true ∧ removed.2.Agrees c ↔
      moduleKey? path = some e.name ∧ isDeleted t path e = true ∧
        ∀ x ∈ c.map.get e.name, isDeleted t path x = false := by
  have hinserted : (c.map.insert e).get e.name =
      ModuleMap.sortByPath (c.map.get e.name ++ [e]) := by
    rw [ModuleMap.get_insert, if_pos rfl]
  have hperm := ModuleMap.sortByPath_perm (c.map.get e.name ++ [e])
  have hlonger : (ModuleMap.sortByPath (c.map.get e.name ++ [e])).length ≠
      (c.map.get e.name).length := by
    rw [hperm.length_eq, List.length_append, List.length_singleton]
    exact Nat.succ_ne_self _
  subst hremoved
  constructor
  · rintro ⟨-, hagrees⟩
    have hback := hagrees.2 e.name
    rw [entries, entries, get_removeFile, hinserted] at hback
    split_ifs at hback with hname
    · have hothers : ∀ x ∈ c.map.get e.name, isDeleted t path x = false := by
        intro x hx
        rw [← hback] at hx
        simpa using (List.mem_filter.mp hx).2
      refine ⟨hname, ?_, hothers⟩
      by_contra hkept
      rw [List.filter_eq_self.mpr] at hback
      · exact hlonger (congrArg List.length hback)
      · intro x hx
        rcases List.mem_append.mp (hperm.mem_iff.mp hx) with hx | hx
        · simp [hothers x hx]
        · rw [List.mem_singleton.mp hx]
          simpa using hkept
    · exact absurd (congrArg List.length hback) hlonger
  · rintro ⟨hname, hnew, hothers⟩
    have hagrees : (removeFile { c with map := c.map.insert e } t path).2.Agrees c := by
      refine agrees_of_get (ordered_removeFile (h.insert hkey) t path) h fun x => ?_
      rw [get_removeFile, hname]
      split_ifs with hx
      · rw [← Option.some.inj hx, hinserted]
        exact filter_sortByPath_concat (h.get_sorted _) (fun x hx => by simp [hothers x hx])
          (by simp [hnew])
      · rw [ModuleMap.get_insert, if_neg fun heq => hx (congrArg some heq.symm)]
    refine ⟨?_, hagrees⟩
    -- A removal that deletes nothing leaves the new entry where it is.
    rcases removeFile_cases { c with map := c.map.insert e } t path with heq | ⟨_, -, heq⟩
    · rw [heq] at hagrees
      exact absurd (congrArg List.length (hinserted.symm.trans (hagrees.2 e.name))) hlonger
    · rw [heq]

/-- The removal of a file takes back that it was added exactly when its path gives the name that
its place gives, has a directory, and is not the path of another entry. -/
theorem removeFile_undoes_addFile_iff (h : Reached last c) (ht : t.Sound)
    (hp : t.NamesFile path dir name) (hadded : (c.addFile t path).1 = true) :
    let removed := (c.addFile t path).2.removeFile (t.erase (dir ++ [name])) path
    removed.1 = true ∧ removed.2.Agrees c ↔
      moduleKey? path = moduleKey? (Place.text (dir ++ [name])) ∧ Path.parent? path ≠ some "" ∧
        ∀ key, ∀ e ∈ c.entries key, Path.same e.path path = false := by
  rcases c.addFile_cases t path with ⟨heq, -⟩ | ⟨e, he⟩
  · rw [heq] at hadded
    cases hadded
  · have hplace : e.path = Place.text (dir ++ [name]) := by
      rw [he.path, FileTree.canonicalize?, hp.resolve]
      rfl
    have hordered := h.ordered
    rw [he.eq]
    simp only
    rw [removeFile_insert_iff hordered he.key rfl, isDeleted_self_iff ht hp hplace, ← hplace, he.key]
    refine and_congr_right fun hname => and_congr_right fun hdir => ?_
    constructor
    · intro hkept key x hx
      have hkeyed := hordered.get_keyed hx
      rw [Bool.eq_false_iff]
      intro hsame
      have hsame := Path.same_iff.mp hsame
      rw [moduleKey?_congr hsame, hname] at hkeyed
      rw [← Option.some.inj hkeyed.2] at hx
      refine Bool.eq_false_iff.mp (hkept x hx) ?_
      exact (isDeleted_iff ht hp).mpr (.inl hsame)
    · intro hother x hx
      rw [Bool.eq_false_iff, ne_eq, isDeleted_iff ht hp]
      rintro (hsame | ⟨-, hsame⟩)
      · exact Bool.eq_false_iff.mp (hother e.name x hx) (Path.same_iff.mpr hsame)
      · exact he.new x hx (hplace ▸ hsame)

/-- A file of a linked directory is known by the same name on both ways. -/
theorem removeFile_undoes_addFile_linked :
    ∃ (c : Catalog) (t t' : FileTree) (path : String), t.canonicalize? path ≠ some path ∧
      (c.addFile t path).1 = true ∧ ((c.addFile t path).2.removeFile t' path).1 = true ∧
      ((c.addFile t path).2.removeFile t' path).2.Agrees c := by
  let t : FileTree :=
    { entries := [(["ws"], .directory), (["ws", "net"], .directory), (["ws", "link"], .link "net"),
        (["ws", "net", "util.lua"], .file (some "return 1"))] }
  let c : Catalog := Catalog.configure {} t ["/ws"] [] false
  have hsound : t.Sound := by decide +kernel
  have hnames : t.NamesFile "/ws/link/util.lua" ["ws", "net"] "util.lua" :=
    .of_parent (d := "/ws/link") ⟨_, rfl⟩ (by decide +kernel) (by decide +kernel)
      (by decide +kernel) (by decide +kernel)
  have hadded : (c.addFile t "/ws/link/util.lua").1 = true := by decide +kernel
  have hback := removeFile_undoes_addFile_iff (.configure t ["/ws"] [] false .new) hsound hnames
    hadded
  refine ⟨c, t, _, _, by decide +kernel, hadded, hback.mpr ⟨?_, ?_, fun _ _ he => nomatch he⟩⟩
  · decide +kernel
  · decide +kernel

/-- The file that stands for a directory has the directory's name, which a link spells otherwise. -/
theorem removed_init_stays :
    ∃ (c : Catalog) (t : FileTree), Reached none c ∧ t.Sound ∧
      t.NamesFile "/ws/link/init.lua" ["ws", "net"] "init.lua" ∧
      (c.addFile t "/ws/link/init.lua").1 = true ∧
      ((c.addFile t "/ws/link/init.lua").2.removeFile (t.erase ["ws", "net", "init.lua"])
        "/ws/link/init.lua").1 = false := by
  let t : FileTree :=
    { entries := [(["ws"], .directory), (["ws", "net"], .directory), (["ws", "link"], .link "net"),
        (["ws", "net", "init.lua"], .file (some "return 1"))] }
  let c : Catalog := Catalog.configure {} t ["/ws"] [] false
  have hnames : t.NamesFile "/ws/link/init.lua" ["ws", "net"] "init.lua" :=
    .of_parent (d := "/ws/link") ⟨_, rfl⟩ (by decide +kernel) (by decide +kernel)
      (by decide +kernel) (by decide +kernel)
  refine ⟨c, t, .configure t _ _ _ .new, by decide +kernel, hnames, ?_, ?_⟩
  · decide +kernel
  · decide +kernel

end Catalog

end LuaScope

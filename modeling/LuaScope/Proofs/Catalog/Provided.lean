import LuaScope.Proofs.Catalog.Maintained

/-!
# LuaScope.Proofs.Catalog.Provided

Which file a name leads to, said of the paths that are listed.

* `Catalog.resolve_cases`      — a name leads to the first one of its candidates.
* `Path.moduleKey?_of_dotted`  — a file has the last segment of its dotted path for its key.
* `Catalog.resolve_of_reached` — both, for every catalog that calls lead to.
-/

namespace LuaScope

namespace Path

variable {path p q : String} {directories : List String} {name : String}

/-! ## Ends of paths -/

/-- The path ends with these directories and this module: the file `a/b/c.lua`, or `init.lua` in
the directory `a/b/c`. -/
def EndsAs (path : String) (directories : List String) (module : String) : Prop :=
  (directories ++ [module ++ ".lua"]).map PathPart.name <:+ parts path ∨
    (directories ++ [module, "init.lua"]).map PathPart.name <:+ parts path

/-- A path of the set that no other path of it stands in front of. -/
def First (S : String → Prop) (path : String) : Prop := S path ∧ ∀ q, S q → le path q = true

theorem EndsAs.congr (h : parts p = parts q) (hp : EndsAs p directories name) :
    EndsAs q directories name := by
  unfold EndsAs at hp ⊢
  rwa [← h]

/-- The same paths have the same first one, however they are spelled. -/
theorem First.parts_eq {S S' : String → Prop} (h : First S p) (h' : First S' q)
    (hS : ∀ x, S x → ∃ y, S' y ∧ parts y = parts x)
    (hS' : ∀ x, S' x → ∃ y, S y ∧ parts y = parts x) : parts p = parts q := by
  have hbefore : ∀ {T : String → Prop} {x y z : String}, First T x → T y → parts y = parts z →
      le x z = true := by
    intro T x y z hx hy hsame
    have hle := hx.2 y hy
    rwa [le, hsame] at hle
  obtain ⟨x, hx, hxq⟩ := hS' q h'.1
  obtain ⟨y, hy, hyp⟩ := hS p h.1
  exact le_antisymm (hbefore h hx hxq) (hbefore h' hy hyp)

/-! ## Names in paths -/

/-- The names of a path could stand in a directory. -/
theorem isName_of_mem_parts (path : String) (h : .name name ∈ parts path) : IsName name := by
  rw [parts_eq, List.mem_append] at h
  rcases h with h | h
  · split_ifs at h <;> simp at h
  · obtain ⟨piece, hpiece, hpart⟩ := List.mem_filterMap.mp h
    unfold PathPart.ofPiece? at hpart
    split_ifs at hpart with hempty hup
    · cases hpart
    obtain rfl : String.ofList piece = name := PathPart.name.inj (Option.some.inj hpart)
    have hchars : (String.ofList piece).toList = piece := String.toList_ofList
    rw [Bool.or_eq_true, not_or, List.isEmpty_iff, beq_iff_eq] at hempty
    rw [beq_iff_eq] at hup
    refine ⟨fun heq => hempty.1 ?_, fun heq => hempty.2 ?_, fun heq => hup ?_, fun hslash => ?_⟩
    · rw [← hchars, heq]
      rfl
    · rw [← hchars, heq]
      rfl
    · rw [← hchars, heq]
      rfl
    · rw [hchars] at hslash
      exact absurd (not_of_mem_splitWhere hpiece hslash) (by decide)

/-- A text that ends in a name, right behind a slash if anything stands in front of it. -/
theorem fileName?_of_toList (hname : IsName name) (before : List Char)
    (htext : path.toList = before ++ name.toList)
    (hslash : before = [] ∨ ∃ front, before = front ++ ['/']) : fileName? path = some name := by
  have hpieces : ∃ front, pieces path = front ++ [name.toList] := by
    rw [pieces, htext]
    rcases hslash with rfl | ⟨front, rfl⟩
    · exact ⟨[], hname.splitWhere⟩
    · refine ⟨splitWhere (· == '/') front, ?_⟩
      rw [List.append_assoc, List.singleton_append, splitWhere_append (by rfl), hname.splitWhere]
  obtain ⟨front, hpieces⟩ := hpieces
  have hlast : (parts path).getLast? = some (.name name) := by
    rw [parts_eq, hpieces, List.filterMap_append, List.filterMap_cons_some hname.ofPiece?,
      List.filterMap_nil, ← List.append_assoc, List.getLast?_concat]
  rw [fileName?, hlast]

/-- The name at the end of parts is the one at the end of their text. -/
theorem fileName?_ofParts (hname : IsName name) (front : List PathPart) :
    fileName? (ofParts (front ++ [.name name])) = some name := by
  have hjoined : ∀ texts : List String, ∃ before : List Char,
      ("/".intercalate (texts ++ [name])).toList = before ++ name.toList ∧
        (before = [] ∨ ∃ front, before = front ++ ['/']) := by
    intro texts
    cases texts with
    | nil => exact ⟨[], by simp, .inl rfl⟩
    | cons text texts =>
      refine ⟨("/".intercalate (text :: texts)).toList ++ ['/'], ?_, .inr ⟨_, rfl⟩⟩
      rw [String.intercalate_append_of_ne_nil (by simp) (by simp), String.intercalate_singleton]
      simp
  have hplain : ∀ ps : List PathPart, ofParts ps = "/".intercalate (ps.map PathPart.text) ∨
      ∃ rest, ps = .root :: rest ∧ ofParts ps = "/" ++ "/".intercalate (rest.map PathPart.text) := by
    intro ps
    unfold ofParts
    split
    · exact .inr ⟨_, rfl, rfl⟩
    · exact .inl rfl
  rcases hplain (front ++ [.name name]) with heq | ⟨rest, hrest, heq⟩
  · obtain ⟨before, htext, hslash⟩ := hjoined (front.map PathPart.text)
    rw [heq, List.map_append]
    exact fileName?_of_toList hname before htext hslash
  · cases front with
    | nil => cases hrest
    | cons first front =>
      rw [List.cons_append] at hrest
      obtain ⟨-, rfl⟩ := List.cons.inj hrest
      obtain ⟨before, htext, hslash⟩ := hjoined (front.map PathPart.text)
      rw [heq, List.map_append]
      refine fileName?_of_toList hname ('/' :: before) ?_ (.inr ?_)
      · rw [String.toList_append]
        exact congrArg ('/' :: ·) htext
      · rcases hslash with rfl | ⟨front, rfl⟩
        · exact ⟨[], rfl⟩
        · exact ⟨'/' :: front, rfl⟩

/-- The stem of a Lua file is what stands in front of its extension. -/
theorem splitExtension_lua {stem : String} (h : stem ≠ "") :
    splitExtension (stem ++ ".lua") = (stem, some "lua") := by
  have hchars : (stem ++ ".lua").toList.reverse = ['a', 'u', 'l', '.'] ++ stem.toList.reverse := by
    simp
  have hstem : stem.toList.reverse ≠ [] := by simpa using h
  unfold splitExtension
  rw [hchars]
  cases hback : stem.toList.reverse with
  | nil => exact absurd hback hstem
  | cons c front =>
    have hfront : (c :: front).reverse = stem.toList := by rw [← hback, List.reverse_reverse]
    simp [hfront]

end Path

/-! ## Dotted paths -/

/-- What a file is called below a directory: the directories on the way and its stem, where
`init.lua` stands for its own directory. -/
def dottedSegments (directories : List String) (stem : String) : List String :=
  if stem = "init" then directories else directories ++ [stem]

namespace Catalog

theorem nameSegments_dotted {segments : List String} (hne : segments ≠ [])
    (h : ∀ s ∈ segments, IsName s ∧ '.' ∉ s.toList) :
    nameSegments (".".intercalate segments) = segments := by
  have hpieces : splitWhere (fun ch => ch == '.' || ch == '/')
      (['.'].intercalate (segments.map String.toList)) = segments.map String.toList := by
    refine splitWhere_intercalate (by decide) (by simpa using hne) ?_
    intro piece hpiece c hc
    obtain ⟨s, hs, rfl⟩ := List.mem_map.mp hpiece
    obtain ⟨hname, hdot⟩ := h s hs
    rw [Bool.or_eq_false_iff, beq_eq_false_iff_ne, beq_eq_false_iff_ne]
    exact ⟨fun heq => hdot (heq ▸ hc), fun heq => hname.2.2.2 (heq ▸ hc)⟩
  have hfull : (segments.map String.toList).filter (fun s => !s.isEmpty) =
      segments.map String.toList := by
    rw [List.filter_eq_self]
    intro piece hpiece
    obtain ⟨s, hs, rfl⟩ := List.mem_map.mp hpiece
    rw [Bool.not_eq_true', List.isEmpty_eq_false_iff]
    exact fun heq => (h s hs).1.1 (String.toList_inj.mp heq)
  rw [nameSegments, String.toList_intercalate]
  show List.map String.ofList (List.filter _ (splitWhere _ (['.'].intercalate _))) = _
  rw [hpieces, hfull, List.map_map]
  exact (List.map_congr_left fun s _ => String.ofList_toList).trans (List.map_id _)

end Catalog

namespace Path

variable {path stem : String} {front : List PathPart} {directories : List String}

theorem fileName?_of_parts {file : String}
    (hparts : parts path = front ++ (directories ++ [file]).map .name) :
    fileName? path = some file := by
  rw [fileName?, hparts, List.map_append, List.map_singleton, ← List.append_assoc,
    List.getLast?_concat]

/-- A name that is all extension has none. -/
theorem stem_ne_empty (hpath : isLuaFile path = true)
    (hparts : parts path = front ++ (directories ++ [stem ++ ".lua"]).map .name) : stem ≠ "" := by
  rintro rfl
  rw [isLuaFile, extension?, fileName?_of_parts hparts] at hpath
  exact absurd hpath (by decide)

/-- The segments of a dotted path are names without dots. -/
theorem isName_of_dotted (hpath : isLuaFile path = true)
    (hparts : parts path = front ++ (directories ++ [stem ++ ".lua"]).map .name)
    (hdots : ∀ n ∈ directories ++ [stem], '.' ∉ n.toList) :
    ∀ s ∈ dottedSegments directories stem, IsName s ∧ '.' ∉ s.toList := by
  have hdirectory : ∀ s ∈ directories, IsName s := fun s hs =>
    isName_of_mem_parts path (by rw [hparts]; simp [hs])
  have hstem : IsName stem := by
    have hdot : '.' ∉ stem.toList := hdots stem (by simp)
    have hfile : IsName (stem ++ ".lua") :=
      isName_of_mem_parts path (by rw [hparts]; simp)
    refine ⟨stem_ne_empty hpath hparts, ?_, ?_, fun hslash => hfile.2.2.2 (by simp [hslash])⟩
    · rintro rfl
      exact hdot (by decide)
    · rintro rfl
      exact hdot (by decide)
  intro s hs
  have hmem : s ∈ directories ++ [stem] := by
    unfold dottedSegments at hs
    split_ifs at hs
    · exact List.mem_append_left _ hs
    · exact hs
  refine ⟨?_, hdots s hmem⟩
  rcases List.mem_append.mp hmem with hs | hs
  · exact hdirectory s hs
  · exact List.mem_singleton.mp hs ▸ hstem

/-- A file of a dotted path has the last segment for its key, and ends as the segments say. -/
theorem moduleKey?_of_dotted (hpath : isLuaFile path = true)
    (hparts : parts path = front ++ (directories ++ [stem ++ ".lua"]).map .name)
    (hne : dottedSegments directories stem ≠ []) :
    ∃ directories' module, dottedSegments directories stem = directories' ++ [module] ∧
      moduleKey? path = some module ∧ EndsAs path directories' module := by
  have hkey : (fileName? path).map (fun n => (splitExtension n).1) = some stem := by
    rw [fileName?_of_parts hparts, Option.map_some,
      splitExtension_lua (stem_ne_empty hpath hparts)]
  unfold dottedSegments at hne ⊢
  by_cases hinit : stem = "init"
  · subst hinit
    rw [if_pos rfl] at hne ⊢
    obtain ⟨directories', module, rfl⟩ : ∃ directories' module,
        directories = directories' ++ [module] :=
      ⟨_, _, (List.dropLast_concat_getLast hne).symm⟩
    refine ⟨directories', module, rfl, ?_, .inr ⟨front, ?_⟩⟩
    · have hmodule : IsName module := isName_of_mem_parts path (by rw [hparts]; simp)
      have hparent : parent? path =
          some (ofParts ((front ++ directories'.map .name) ++ [.name module])) := by
        have hlast : (parts path).getLast? = some (.name "init.lua") := by
          rw [hparts, List.map_append, List.map_singleton, ← List.append_assoc,
            List.getLast?_concat]
          rfl
        rw [parent?, parentParts?, hlast, hparts]
        simp [← List.append_assoc]
      unfold moduleKey?
      rw [hpath, hkey, hparent]
      exact fileName?_ofParts hmodule _
    · rw [hparts, List.append_assoc]
      rfl
  · rw [if_neg hinit]
    refine ⟨directories, stem, rfl, ?_, .inl ⟨front, hparts.symm⟩⟩
    unfold moduleKey?
    rw [hpath, hkey, Bool.not_true, if_neg (by decide)]
    split
    · rename_i heq
      exact absurd (Option.some.inj heq) hinit
    · rfl

end Path

/-! ## The file of a name -/

/-- The files of a key stand under it, and no others. -/
theorem ModuleMap.Ordered.mem_get_iff {m : ModuleMap} (h : m.Ordered) {key : String}
    {e : ModuleEntry} : e ∈ m.get key ↔ e ∈ m.files ∧ moduleKey? e.path = some key := by
  constructor
  · exact fun he => ⟨List.mem_flatMap.mpr ⟨_, mem_of_get (List.ne_nil_of_mem he), he⟩,
      (h.get_keyed he).2⟩
  · rintro ⟨he, hkey⟩
    obtain ⟨entry, hentry, he⟩ := List.mem_flatMap.mp he
    obtain rfl : entry.1 = key :=
      Option.some.inj ((h.keyed entry hentry e he).2.symm.trans hkey)
    rwa [h.get_of_mem hentry]

/-- Of sorted entries the one that is found is the first of its kind. -/
theorem ModuleMap.Sorted.le_of_find? {entries : List ModuleEntry} (h : ModuleMap.Sorted entries)
    {f : ModuleEntry → Bool} {e : ModuleEntry} (hfind : entries.find? f = some e) :
    ∀ x ∈ entries, f x = true → Path.le e.path x.path = true := by
  obtain ⟨-, before, behind, rfl, hbefore⟩ := List.find?_eq_some_iff_append.mp hfind
  intro x hx hfx
  rcases List.mem_append.mp hx with hx | hx
  · exact absurd hfx (by simpa using hbefore x hx)
  · rcases List.mem_cons.mp hx with rfl | hx
    · exact Path.partsLe_refl _
    · exact (List.pairwise_cons.mp (List.pairwise_append.mp h).2.1).1 x hx

namespace Catalog

variable {c c' : Catalog} {last last' : Option (Catalog × FileTree)} {name key : String}
  {directories : List String}

/-- The path is that of a file of the catalog. -/
def Has (c : Catalog) (path : String) : Prop := ∃ e ∈ c.map.files, e.path = path

/-- A file of the catalog that has this key. -/
def Keyed (c : Catalog) (key path : String) : Prop := c.Has path ∧ moduleKey? path = some key

/-- A file of the catalog that has the key, and the path that goes with it. -/
def Fits (c : Catalog) (directories : List String) (key path : String) : Prop :=
  c.Keyed key path ∧ Path.EndsAs path directories key

/-- A file that the name may lead to: those of its key that fit it come before all others. -/
def Candidate (c : Catalog) (directories : List String) (key path : String) : Prop :=
  c.Keyed key path ∧ ((∃ q, c.Fits directories key q) → c.Fits directories key path)

theorem keyed_iff (h : c.map.Ordered) {path : String} :
    c.Keyed key path ↔ ∃ e ∈ c.map.get key, e.path = path := by
  constructor
  · rintro ⟨⟨e, he, rfl⟩, hkey⟩
    exact ⟨e, h.mem_get_iff.mpr ⟨he, hkey⟩, rfl⟩
  · rintro ⟨e, he, rfl⟩
    obtain ⟨hfile, hkey⟩ := h.mem_get_iff.mp he
    exact ⟨⟨e, hfile, rfl⟩, hkey⟩

theorem endsWithSegments_iff {path : String} :
    endsWithSegments (directories ++ [key]) path = true ↔ Path.EndsAs path directories key := by
  unfold endsWithSegments Path.endsWithParts Path.EndsAs
  simp only [List.getLast?_concat, List.dropLast_concat, Bool.or_eq_true,
    List.isSuffixOf_iff_suffix, List.append_assoc, List.singleton_append]

/-- A name is given the first one of its candidates, or none if there are none. -/
theorem resolve_cases (h : c.map.Ordered) (hname : nameSegments name = directories ++ [key]) :
    (c.resolve name = none ∧ ∀ p, ¬c.Keyed key p) ∨
      ∃ p, c.resolve name = some p ∧ Path.First (c.Candidate directories key) p := by
  have hfits : ∀ {e}, e ∈ c.map.get key →
      (c.Fits directories key e.path ↔ endsWithSegments (directories ++ [key]) e.path = true) := by
    intro e he
    rw [endsWithSegments_iff]
    exact ⟨And.right, fun hends => ⟨(keyed_iff h).mpr ⟨e, he, rfl⟩, hends⟩⟩
  have hsorted := h.get_sorted key
  unfold resolve
  simp only [hname, List.getLast?_concat]
  split
  · rename_i e hfind
    have he := List.mem_of_find?_eq_some hfind
    have hends : c.Fits directories key e.path := (hfits he).mpr (List.find?_some hfind :)
    refine .inr ⟨e.path, rfl, ⟨hends.1, fun _ => hends⟩, fun q hq => ?_⟩
    obtain ⟨x, hx, rfl⟩ := (keyed_iff h).mp hq.1
    exact hsorted.le_of_find? hfind x hx ((hfits hx).mp (hq.2 ⟨_, hends⟩))
  · rename_i hfind
    have hnone : ∀ q, ¬c.Fits directories key q := by
      intro q hq
      obtain ⟨x, hx, rfl⟩ := (keyed_iff h).mp hq.1
      exact List.find?_eq_none.mp hfind x hx ((hfits hx).mp hq)
    cases hget : c.map.get key with
    | nil =>
      refine .inl ⟨rfl, fun p hp => ?_⟩
      obtain ⟨x, hx, -⟩ := (keyed_iff h).mp hp
      rw [hget] at hx
      cases hx
    | cons e rest =>
      rw [hget] at hsorted
      have he : c.Keyed key e.path := (keyed_iff h).mpr ⟨e, by simp [hget], rfl⟩
      refine .inr ⟨e.path, rfl, ⟨he, fun ⟨q, hq⟩ => absurd hq (hnone q)⟩, fun q hq => ?_⟩
      obtain ⟨x, hx, rfl⟩ := (keyed_iff h).mp hq.1
      rw [hget] at hx
      rcases List.mem_cons.mp hx with rfl | hx
      · exact Path.partsLe_refl _
      · exact (List.pairwise_cons.mp hsorted).1 x hx

/-- Where some file fits the name, the first candidate is the first file that does. -/
theorem Candidate.first_fits {p : String} (h : Path.First (c.Candidate directories key) p)
    (hsome : ∃ q, c.Fits directories key q) : Path.First (c.Fits directories key) p :=
  ⟨h.1.2 hsome, fun q hq => h.2 q ⟨hq.1, fun _ => hq⟩⟩

/-- Where none does, it is the first file of the key. -/
theorem Candidate.first_keyed {p : String} (h : Path.First (c.Candidate directories key) p)
    (hnone : ∀ q, ¬c.Fits directories key q) : Path.First (c.Keyed key) p :=
  ⟨h.1.1, fun q hq => h.2 q ⟨hq, fun ⟨x, hx⟩ => absurd hx (hnone x)⟩⟩

/-! ## After any calls -/

theorem mem_files_iff (h : c.map.Ordered) {e : ModuleEntry} :
    e ∈ c.map.files ↔ ∃ key, e ∈ c.map.get key := by
  constructor
  · intro he
    obtain ⟨entry, hentry, hmem⟩ := List.mem_flatMap.mp he
    exact ⟨entry.1, by rwa [h.get_of_mem hentry]⟩
  · rintro ⟨key, he⟩
    exact (h.mem_get_iff.mp he).1

/-- Every file of the catalog lies below the root it was found under. -/
theorem Reached.below_root (h : Reached last c) :
    ∀ e ∈ c.map.files, Path.startsWith e.path e.root = true := by
  induction h with
  | new => nofun
  | configure _ _ _ _ _ ih => exact ih
  | @rescan _ c t hsound _ _ =>
    intro e he
    obtain ⟨root, -, hroot⟩ := List.mem_flatMap.mp ((c.files_rescan_perm t).mem_iff.mp he)
    obtain ⟨-, hwalk, -, rfl⟩ := mem_scanRoot.mp hroot
    exact Path.startsWith_iff.mpr (FileWalker.parts_of_mem_walk hsound hwalk)
  | @addFile _ c t path hc ih =>
    intro e he
    rcases c.addFile_cases t path with ⟨heq, -⟩ | ⟨e', hadds⟩
    · rw [heq] at he
      exact ih e he
    · obtain ⟨key, hkey⟩ := (mem_files_iff (ordered_addFile hc.ordered t path)).mp he
      rw [hadds.eq] at hkey
      simp only [ModuleMap.get_insert] at hkey
      split_ifs at hkey
      · rcases List.mem_append.mp ((ModuleMap.sortByPath_perm _).mem_iff.mp hkey) with hold | hnew
        · exact ih e ((mem_files_iff hc.ordered).mpr ⟨_, hold⟩)
        · obtain rfl := List.mem_singleton.mp hnew
          exact (List.mem_filter.mp (lastMax_mem hadds.root)).2
      · exact ih e ((mem_files_iff hc.ordered).mpr ⟨_, hkey⟩)
  | @removeFile _ c t path hc ih =>
    intro e he
    obtain ⟨key, hkey⟩ := (mem_files_iff (ordered_removeFile hc.ordered t path)).mp he
    rw [get_removeFile] at hkey
    split_ifs at hkey
    · exact ih e ((mem_files_iff hc.ordered).mpr ⟨_, List.mem_of_mem_filter hkey⟩)
    · exact ih e ((mem_files_iff hc.ordered).mpr ⟨_, hkey⟩)

/-- The two catalogs have the same paths, whatever their spelling. -/
def SamePaths (c c' : Catalog) : Prop :=
  ∀ parts, (∃ p, c.Has p ∧ Path.parts p = parts) ↔ ∃ p, c'.Has p ∧ Path.parts p = parts

theorem SamePaths.symm (h : c.SamePaths c') : c'.SamePaths c := fun parts => (h parts).symm

theorem SamePaths.keyed (h : c.SamePaths c') {p : String} (hp : c.Keyed key p) :
    ∃ q, c'.Keyed key q ∧ Path.parts q = Path.parts p := by
  obtain ⟨q, hq, hparts⟩ := (h (Path.parts p)).mp ⟨p, hp.1, rfl⟩
  exact ⟨q, ⟨hq, (moduleKey?_congr hparts).trans hp.2⟩, hparts⟩

theorem SamePaths.fits (h : c.SamePaths c') {p : String} (hp : c.Fits directories key p) :
    ∃ q, c'.Fits directories key q ∧ Path.parts q = Path.parts p := by
  obtain ⟨q, hq, hparts⟩ := h.keyed hp.1
  exact ⟨q, ⟨hq, hp.2.congr hparts.symm⟩, hparts⟩

theorem SamePaths.candidate (h : c.SamePaths c') {p : String}
    (hp : c.Candidate directories key p) :
    ∃ q, c'.Candidate directories key q ∧ Path.parts q = Path.parts p := by
  obtain ⟨q, hq, hparts⟩ := h.keyed hp.1
  refine ⟨q, ⟨hq, fun ⟨x, hx⟩ => ⟨hq, ?_⟩⟩, hparts⟩
  obtain ⟨y, hy, -⟩ := h.symm.fits hx
  exact (hp.2 ⟨y, hy⟩).2.congr hparts.symm

/-- What a name leads to depends on the paths alone. -/
theorem SamePaths.resolve (h : c.SamePaths c') (hc : c.map.Ordered) (hc' : c'.map.Ordered)
    (name : String) : (c.resolve name).map Path.parts = (c'.resolve name).map Path.parts := by
  cases hsegments : (nameSegments name).getLast? with
  | none => simp only [Catalog.resolve, hsegments]
  | some key =>
    obtain ⟨directories, hname⟩ := List.getLast?_eq_some_iff.mp hsegments
    rcases resolve_cases hc hname with ⟨heq, hnone⟩ | ⟨p, heq, hp⟩ <;>
      rcases resolve_cases hc' hname with ⟨heq', hnone'⟩ | ⟨q, heq', hq⟩
    · rw [heq, heq']
    · obtain ⟨x, hx, -⟩ := h.symm.keyed hq.1.1
      exact absurd hx (hnone x)
    · obtain ⟨x, hx, -⟩ := h.keyed hp.1.1
      exact absurd hx (hnone' x)
    · rw [heq, heq']
      exact congrArg some (hp.parts_eq hq (fun _ => h.candidate) fun _ => h.symm.candidate)

/-- A file is found, or one that ends the same, under the dotted path of its end. -/
theorem resolve_dotted (h : c.map.Ordered) {e : ModuleEntry} (he : e ∈ c.map.files)
    {front : List PathPart} {stem : String}
    (hparts : Path.parts e.path = front ++ (directories ++ [stem ++ ".lua"]).map .name)
    (hdots : ∀ n ∈ directories ++ [stem], '.' ∉ n.toList)
    (hne : dottedSegments directories stem ≠ []) :
    ∃ p directories' module, c.resolve (".".intercalate (dottedSegments directories stem)) = some p ∧
      dottedSegments directories stem = directories' ++ [module] ∧
      Path.EndsAs p directories' module := by
  obtain ⟨key, hkey⟩ := (mem_files_iff h).mp he
  have hlua := isLuaFile_of_moduleKey? (h.get_keyed hkey).2
  obtain ⟨directories', module, hsegments, hmodule, hends⟩ :=
    Path.moduleKey?_of_dotted hlua hparts hne
  have hfits : c.Fits directories' module e.path := ⟨⟨⟨e, he, rfl⟩, hmodule⟩, hends⟩
  have hname := nameSegments_dotted hne (Path.isName_of_dotted hlua hparts hdots)
  rw [hsegments] at hname ⊢
  rcases resolve_cases h hname with ⟨-, hnone⟩ | ⟨p, heq, hp⟩
  · exact absurd hfits.1 (hnone _)
  · exact ⟨p, directories', module, heq, rfl, (hp.1.2 ⟨_, hfits⟩).2⟩

/--
After any calls a name leads to a file of the catalog, or to none if no file has its last segment
for its key. Of the files with that key it is the first whose path ends as the name says, or the
first of all if none does; so it depends on the paths alone. And each file, which lies below its
root, is found under its dotted path from there (or from any other directory on the way), or
another one is whose path ends in the same segments.
-/
theorem resolve_of_reached (h : Reached last c) (name : String) :
    (∀ p, c.resolve name = some p → c.Has p) ∧
    (c.resolve name = none ↔
      ∀ key, (nameSegments name).getLast? = some key → ∀ p, ¬c.Keyed key p) ∧
    (∀ directories key p, nameSegments name = directories ++ [key] → c.resolve name = some p →
      ((∃ q, c.Fits directories key q) → Path.First (c.Fits directories key) p) ∧
      ((∀ q, ¬c.Fits directories key q) → Path.First (c.Keyed key) p)) ∧
    (∀ last' c', Reached last' c' → c.SamePaths c' →
      (c.resolve name).map Path.parts = (c'.resolve name).map Path.parts) ∧
    ∀ e ∈ c.map.files, Path.startsWith e.path e.root = true ∧ ∀ front directories stem,
      Path.parts e.path = front ++ (directories ++ [stem ++ ".lua"]).map .name →
      (∀ n ∈ directories ++ [stem], '.' ∉ n.toList) → dottedSegments directories stem ≠ [] →
        ∃ p directories' module,
          c.resolve (".".intercalate (dottedSegments directories stem)) = some p ∧
          dottedSegments directories stem = directories' ++ [module] ∧
          Path.EndsAs p directories' module := by
  have hordered := h.ordered
  refine ⟨fun p hp => ?_, ?_, fun directories key p hname hp => ?_, ?_, ?_⟩
  · cases hsegments : (nameSegments name).getLast? with
    | none => simp [Catalog.resolve, hsegments] at hp
    | some key =>
      obtain ⟨directories, hname⟩ := List.getLast?_eq_some_iff.mp hsegments
      rcases resolve_cases hordered hname with ⟨heq, -⟩ | ⟨q, heq, hq⟩ <;> cases hp.symm.trans heq
      exact hq.1.1.1
  · cases hsegments : (nameSegments name).getLast? with
    | none => simp [Catalog.resolve, hsegments]
    | some key =>
      obtain ⟨directories, hname⟩ := List.getLast?_eq_some_iff.mp hsegments
      rcases resolve_cases hordered hname with ⟨heq, hnone⟩ | ⟨q, heq, hq⟩
      · simpa [heq] using hnone
      · simpa [heq] using ⟨q, hq.1.1⟩
  · rcases resolve_cases hordered hname with ⟨heq, -⟩ | ⟨q, heq, hq⟩ <;> cases hp.symm.trans heq
    exact ⟨Candidate.first_fits hq, Candidate.first_keyed hq⟩
  · exact fun last' c' h' hsame => hsame.resolve hordered h'.ordered name
  · exact fun e he => ⟨h.below_root e he, fun front directories stem hparts hdots hne =>
      resolve_dotted hordered he hparts hdots hne⟩

/-- Two files of one key, of which a name's path picks the second, and a directory's own file. -/
theorem resolve_of_reached_twins : ∃ last c, Reached last c ∧
    c.resolve "b/c" = some "/ws/b/c.lua" ∧ Path.First (c.Fits ["b"] "c") "/ws/b/c.lua" ∧
    c.resolve "d" = none ∧
    ∃ p directories' module, c.resolve "net" = some p ∧ ["net"] = directories' ++ [module] ∧
      Path.EndsAs p directories' module := by
  let t : FileTree :=
    { entries := [(["ws"], .directory), (["ws", "a"], .directory), (["ws", "b"], .directory),
        (["ws", "a", "c.lua"], .file (some "return 1")),
        (["ws", "b", "c.lua"], .file (some "return 2")), (["ws", "net"], .directory),
        (["ws", "net", "init.lua"], .file (some "return 3"))] }
  let c : Catalog := Catalog.configure {} t ["/ws"] [] false
  have hreached : Reached (some (c, t)) (c.rescan t).2 :=
    .rescan t (by decide +kernel) (.configure t _ _ _ .new)
  have hfiles : ∀ e, e ∈ (c.rescan t).2.map.files ↔ e ∈ c.found t :=
    fun e => (files_rescan_perm c t).mem_iff
  have hb : (c.rescan t).2.Fits ["b"] "c" "/ws/b/c.lua" := by
    refine ⟨⟨⟨⟨"c", "/ws/b/c.lua", "/ws"⟩, (hfiles _).mpr ?_, rfl⟩, ?_⟩,
      endsWithSegments_iff.mp ?_⟩ <;> decide +kernel
  have hnet : (⟨"net", "/ws/net/init.lua", "/ws"⟩ : ModuleEntry) ∈ (c.rescan t).2.map.files :=
    (hfiles _).mpr (by decide +kernel)
  have hd : ∀ e ∈ c.found t, moduleKey? e.path ≠ some "d" := by decide +kernel
  have honly : ∀ e ∈ c.found t, endsWithSegments ["b", "c"] e.path = true →
      e.path = "/ws/b/c.lua" := by decide +kernel
  obtain ⟨-, hnone, hfirst, -, hdotted⟩ := resolve_of_reached hreached "b/c"
  have hname : nameSegments "b/c" = ["b"] ++ ["c"] := by decide +kernel
  obtain ⟨p, hp⟩ : ∃ p, (c.rescan t).2.resolve "b/c" = some p := by
    refine Option.ne_none_iff_exists'.mp fun heq => ?_
    exact hnone.mp heq "c" (by rw [hname]; rfl) _ hb.1
  have hpfirst := (hfirst ["b"] "c" p hname hp).1 ⟨_, hb⟩
  obtain rfl : p = "/ws/b/c.lua" := by
    obtain ⟨⟨⟨e, he, rfl⟩, -⟩, hends⟩ := hpfirst.1
    exact honly e ((hfiles e).mp he) (endsWithSegments_iff.mpr hends)
  refine ⟨_, _, hreached, hp, hpfirst, ?_, (hdotted _ hnet).2 [.root, .name "ws"] ["net"] "init"
    (by decide +kernel) (by decide +kernel) (by decide)⟩
  refine (resolve_of_reached hreached "d").2.1.mpr fun key hkey q hq => ?_
  obtain rfl : key = "d" := by
    rw [show nameSegments "d" = ["d"] by decide +kernel] at hkey
    exact (Option.some.inj hkey).symm
  obtain ⟨⟨e, he, rfl⟩, hekey⟩ := hq
  exact hd e ((hfiles e).mp he) hekey

end Catalog

end LuaScope

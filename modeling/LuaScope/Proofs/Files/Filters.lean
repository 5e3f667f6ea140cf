import LuaScope.Proofs.Files.Walk

/-!
# LuaScope.Proofs.Files.Filters

What a walk finds, and what is accepted one by one, where there are neither links nor ignore files.

* `FileWalker.mem_walk_iff`  — a walk finds the Lua files to which the filters let it come.
* `FileWalker.accepts_iff`   — one by one only the names and the verdict on the file itself count.
* `FileWalker.walk_agrees_with_accepts_iff` — the two differ where a filter leaves out a directory
  but not the file in it, or names something hidden as one to keep.
* `FileWalker.mem_walk`, `FileWalker.accepts_text` — without filters the two find the visible Lua
  files.
-/

namespace LuaScope

def isHidden (name : String) : Bool := name.toList.head? == some '.'

/-! ## The way to a file -/

/-- Something that a walk passes on its way down. -/
structure WayEntry where
  path : String
  name : String
  isDirectory : Bool

namespace Path

variable {base : String} {names : List String}

/-- The path of what stands at names below a directory. -/
def below (base : String) (names : List String) : String := names.foldl join base

/-- What a walk passes from a directory to the file at these names, the file included. -/
def way (base : String) : List String → List WayEntry
  | [] => []
  | name :: rest =>
    { path := join base name, name := name, isDirectory := !rest.isEmpty } :: way (join base name) rest

theorem map_name_way : ∀ (base : String) (names : List String),
    (way base names).map WayEntry.name = names
  | _, [] => rfl
  | base, name :: rest => congrArg (name :: ·) (map_name_way (join base name) rest)

/-- The way ends at the file. -/
theorem file_mem_way : ∀ (base : String) {names : List String}, names ≠ [] →
    ∃ e ∈ way base names, e.path = below base names ∧ e.isDirectory = false
  | base, [name], _ => ⟨_, .head _, rfl, rfl⟩
  | base, name :: next :: rest, _ => by
    obtain ⟨e, hmem, hfile⟩ := file_mem_way (join base name) (List.cons_ne_nil next rest)
    exact ⟨e, .tail _ hmem, hfile⟩

theorem parts_below (hbase : base ≠ "") (hnames : ∀ n ∈ names, IsName n) :
    parts (below base names) = parts base ++ names.map .name := by
  induction names generalizing base with
  | nil => exact (List.append_nil _).symm
  | cons name rest ih =>
    obtain ⟨hname, hrest⟩ := List.forall_mem_cons.mp hnames
    have hjoin : parts (below base (name :: rest)) = _ := ih (join_ne_empty hbase hname) hrest
    rw [hjoin, parts_join hbase hname, List.append_assoc]
    rfl

theorem below_injective {names' : List String} (hbase : base ≠ "") (hnames : ∀ n ∈ names, IsName n)
    (hnames' : ∀ n ∈ names', IsName n) (heq : below base names = below base names') :
    names = names' := by
  have hparts := congrArg parts heq
  rw [parts_below hbase hnames, parts_below hbase hnames'] at hparts
  exact List.map_injective_iff.mpr (fun _ _ h => PathPart.name.inj h)
    (List.append_cancel_left hparts)

theorem below_text {q : Place} (h : Place.Proper (q ++ names)) :
    below q.text names = Place.text (q ++ names) := by
  induction names generalizing q with
  | nil => exact congrArg Place.text (List.append_nil q).symm
  | cons name rest ih =>
    have hsplit : q ++ name :: rest = q ++ [name] ++ rest := by simp
    rw [hsplit] at h ⊢
    rw [← ih h, ← Place.join_text h.left]
    rfl

end Path

/-! ## Where a path leads -/

namespace FileTree

variable {t : FileTree} {path name : String} {p : Place}

/-- The path leads nowhere but to the place. -/
def Leads (t : FileTree) (path : String) (p : Place) : Prop :=
  path ≠ "" ∧ ∀ place, t.resolve path = .ok place → place = p

theorem leads_of_resolve (h : t.resolve path = .ok p) : t.Leads path p := by
  refine ⟨?_, fun place hplace => ?_⟩
  · rintro rfl
    cases h
  · rw [h] at hplace
    exact (Except.ok.inj hplace).symm

theorem leads_text (h : t.Unlinked) (hp : p.Proper) : t.Leads p.text p :=
  ⟨p.text_ne_empty, fun _ hplace => eq_of_resolve_text h hp hplace⟩

/-- Stepping to a name goes through the directory, with or without a slash behind it. -/
theorem stepThrough_concat {onLink : Place → List String → Except FileError Place}
    (h : t.Unlinked) (hname : IsName name) {place : Place} :
    ∀ {names : List String} {at' : Place}, t.stepThrough .found onLink at' (names ++ [name]) = .ok place →
      ∃ dir, place = dir ++ [name] ∧ t.stepThrough .found onLink at' names = .ok dir ∧
        t.stepThrough .found onLink at' (names ++ [""]) = .ok dir
  | [], at', hstep => by
    refine ⟨at', ?_, rfl, rfl⟩
    exact stepThrough_eq h (List.forall_mem_singleton.mpr hname) hstep
  | first :: rest, at', hstep => by
    have hrest : ∀ last : String, (rest ++ [last]).isEmpty = false := by simp
    rw [List.cons_append] at hstep ⊢
    unfold stepThrough at hstep ⊢
    split at hstep
    · rename_i hskip
      simp only [if_pos hskip]
      exact stepThrough_concat h hname hstep
    · rename_i hskip
      simp only [if_neg hskip]
      split at hstep
      · rename_i hup
        simp only [if_pos hup]
        exact stepThrough_concat h hname hstep
      · rename_i hup
        simp only [if_neg hup]
        split at hstep
        · cases hstep
        · exact stepThrough_concat h hname hstep
        · rw [hrest] at hstep
          cases hstep
        · rename_i target hlink
          exact absurd hlink (h.entryAt target)

theorem Leads.join (hleads : t.Leads path p) (h : t.Unlinked) (hname : IsName name) :
    t.Leads (Path.join path name) (p ++ [name]) := by
  refine ⟨Path.join_ne_empty hleads.1 hname, fun place hplace => ?_⟩
  obtain ⟨front, -, hpieces, hfront⟩ := Path.pieces_join hleads.1 hname
  have hfilled : ∀ {s : String}, s ≠ "" → s.isEmpty = false := fun hs =>
    Bool.eq_false_iff.mpr fun hempty => hs (String.isEmpty_iff.mp hempty)
  have hnames : namesOf (Path.join path name) = front.map String.ofList ++ [name] := by
    rw [namesOf, hpieces, List.map_append, List.map_singleton, String.ofList_toList]
  rw [resolve, resolveTo, hfilled (Path.join_ne_empty hleads.1 hname), hnames,
    Path.isAbsolute_join hleads.1 hname] at hplace
  obtain ⟨dir, rfl, hplain, hslash⟩ := stepThrough_concat h hname hplace
  have hdir : t.resolve path = .ok dir := by
    rw [resolve, resolveTo, hfilled hleads.1, namesOf]
    rcases hfront with heq | heq
    · rw [heq]
      exact hplain
    · rw [heq, List.map_append]
      exact hslash
  rw [hleads.2 dir hdir]

end FileTree

/-! ## Trees without links and ignore files -/

/-- Places of the files that say what a walk leaves out. -/
def isIgnoreFile (p : Place) : Bool :=
  p.getLast? == some ".ignore" || p.getLast? == some ".gitignore" ||
    [".git", "info", "exclude"].isSuffixOf p

/-- A tree without symbolic links and ignore files. -/
structure FileTree.Plain (t : FileTree) : Prop extends FileTree.Sound t where
  unlinked : t.Unlinked
  unignored : ∀ entry ∈ t.entries, isIgnoreFile entry.1 = true → entry.2 = .directory

instance (t : FileTree) : Decidable t.Plain :=
  decidable_of_iff (t.Sound ∧ t.Unlinked ∧
    ∀ entry ∈ t.entries, isIgnoreFile entry.1 = true → entry.2 = .directory)
    ⟨fun h => ⟨h.1, h.2.1, h.2.2⟩, fun h => ⟨h.toSound, h.unlinked, h.unignored⟩⟩

/-- Ignore files of a directory that say nothing. -/
structure IgnoreLevel.Blank (l : IgnoreLevel) : Prop where
  ignore : l.ignore.patterns = []
  gitIgnore : l.gitIgnore.patterns = []
  gitExclude : l.gitExclude.patterns = []

namespace FileTree.Plain

variable {t : FileTree} {path : String} {p : Place}

theorem ofFile_nil (h : t.Plain) (hleads : t.Leads path p) (hignore : isIgnoreFile p = true)
    (base : String) : (IgnoreRules.ofFile t base path).patterns = [] := by
  have herror : ∃ e, t.readText path = .error e := by
    unfold readText
    split
    · exact ⟨_, rfl⟩
    · rename_i place hplace
      rw [hleads.2 place hplace]
      split
      · rename_i text hfile
        have hne : p ≠ [] := by
          rintro rfl
          cases hignore
        cases h.unignored _ (mem_of_entryAt hne hfile) hignore
      · exact ⟨_, rfl⟩
      · exact ⟨_, rfl⟩
      · exact ⟨_, rfl⟩
  obtain ⟨e, he⟩ := herror
  rw [IgnoreRules.ofFile, he]

theorem blank (h : t.Plain) (hleads : t.Leads path p) : (IgnoreLevel.of t path).Blank := by
  have hjoin : ∀ {dir : String} {q : Place} {name : String}, t.Leads dir q → IsName name →
      t.Leads (Path.join dir name) (q ++ [name]) := fun hdir hname => hdir.join h.unlinked hname
  have hignore : IsName ".ignore" := by decide +kernel
  have hgitIgnore : IsName ".gitignore" := by decide +kernel
  have hgit : IsName ".git" := by decide +kernel
  have hinfo : IsName "info" := by decide +kernel
  have hexclude : IsName "exclude" := by decide +kernel
  constructor
  · exact h.ofFile_nil (hjoin hleads hignore) (by simp [isIgnoreFile]) _
  · exact h.ofFile_nil (hjoin hleads hgitIgnore) (by simp [isIgnoreFile]) _
  · show (IgnoreRules.ofFile t path (Path.join path ".git/info/exclude")).patterns = []
    have hsplit : ".git/info/exclude" = ".git" ++ "/" ++ ("info" ++ "/" ++ "exclude") := by rfl
    rw [hsplit, Path.join_join hleads.1 hgit (by decide +kernel) (by decide +kernel),
      Path.join_join (Path.join_ne_empty hleads.1 hgit) hinfo (by decide +kernel) (by decide +kernel)]
    refine h.ofFile_nil (hjoin (hjoin (hjoin hleads hgit) hinfo) hexclude) ?_ _
    simp [isIgnoreFile]

end FileTree.Plain

theorem IgnoreRules.verdict_nil {r : IgnoreRules} (h : r.patterns = []) (path : String)
    (isDirectory : Bool) : r.verdict path isDirectory = .none := by
  rw [verdict, h]
  rfl

theorem IgnoreLevel.ask_blank {levels : List IgnoreLevel} {rules : IgnoreLevel → IgnoreRules}
    (h : ∀ l ∈ levels, (rules l).patterns = []) (path : String) (isDirectory : Bool) :
    IgnoreLevel.ask levels rules path isDirectory = .none := by
  unfold ask
  induction levels with
  | nil => rfl
  | cons l rest ih =>
    rw [List.map_cons, Verdict.first, IgnoreRules.verdict_nil (h l (.head _))]
    exact ih fun l' hl' => h l' (.tail _ hl')

/-! ## What the filters let a walk come to -/

namespace SearchFilters

variable {f : SearchFilters} {base : String} {names : List String}

/-- Do the filters and the rule about hidden names leave the entry out? -/
def leavesOut (f : SearchFilters) (e : WayEntry) : Bool :=
  match f.verdict e.path e.isDirectory with
  | .ignored => true
  | .kept => false
  | .none => isHidden e.name

/-- A walk comes from the directory to the file at these names. -/
def Admits (f : SearchFilters) (base : String) (names : List String) : Prop :=
  ∀ e ∈ Path.way base names, f.leavesOut e = false

/-- The filters leave out something on the way to the file, but not the file itself. -/
def CutsOff (f : SearchFilters) (base : String) (names : List String) : Prop :=
  f.verdict (Path.below base names) false ≠ .ignored ∧
    ∃ e ∈ Path.way base names, f.verdict e.path e.isDirectory = .ignored

instance : Decidable (f.Admits base names) := inferInstanceAs (Decidable (∀ _ ∈ _, _))

instance : Decidable (f.CutsOff base names) := inferInstanceAs (Decidable (_ ∧ ∃ _ ∈ _, _))

theorem verdict_nil (root path : String) (isDirectory : Bool) :
    (SearchFilters.of root []).verdict path isDirectory = .none := rfl

/-- Among visible names only a filter leaves out anything. -/
theorem leavesOut_eq_false_iff {e : WayEntry} (hvisible : isHidden e.name = false) :
    f.leavesOut e = false ↔ f.verdict e.path e.isDirectory ≠ .ignored := by
  unfold leavesOut
  cases f.verdict e.path e.isDirectory <;> simp [hvisible]

theorem admits_cons {name : String} {rest : List String} : f.Admits base (name :: rest) ↔
    f.leavesOut { path := Path.join base name, name := name, isDirectory := !rest.isEmpty } = false ∧
      f.Admits (Path.join base name) rest := List.forall_mem_cons

/-- Without filters a walk comes to what is visible. -/
theorem admits_nil (root : String) :
    (SearchFilters.of root []).Admits base names ↔ ∀ n ∈ names, isHidden n = false := by
  conv_rhs => rw [← Path.map_name_way base names, List.forall_mem_map]
  rfl

/-- Where all names are visible, the way is free or a filter leaves out something on it. -/
theorem admits_iff_of_visible (hvisible : ∀ n ∈ names, isHidden n = false) : f.Admits base names ↔
    ∀ e ∈ Path.way base names, f.verdict e.path e.isDirectory ≠ .ignored := by
  rw [← Path.map_name_way base names, List.forall_mem_map] at hvisible
  exact forall₂_congr fun e he => leavesOut_eq_false_iff (hvisible e he)

end SearchFilters

/-! ## Walking -/

namespace WalkSetting

/-- A setting in which only filters and names decide what is left out. -/
structure Open (s : WalkSetting) (t : FileTree) : Prop where
  tree : s.tree = t
  above : ∀ l ∈ s.above, l.Blank

/-- The walk stands at a directory whose path leads there. -/
structure Straight (t : FileTree) (frame : WalkFrame) : Prop where
  leads : t.Leads frame.path frame.place
  levels : ∀ l ∈ frame.levels, l.Blank

/-- Where the walk goes on in a directory of the directory it stands at. -/
def below (s : WalkSetting) (frame : WalkFrame) (name : String) : WalkFrame :=
  { path := Path.join frame.path name, place := frame.place ++ [name],
    ancestors := frame.place :: frame.ancestors,
    levels := .of s.tree (Path.join frame.path name) :: frame.levels }

variable {s : WalkSetting} {t : FileTree} {fuel : Nat} {frame : WalkFrame} {path name : String}
  {text : Option String}

theorem Straight.below (hopen : s.Open t) (h : t.Plain) (hframe : Straight t frame)
    (hname : IsName name) : Straight t (s.below frame name) where
  leads := hframe.leads.join h.unlinked hname
  levels := by
    refine List.forall_mem_cons.mpr ⟨?_, hframe.levels⟩
    rw [hopen.tree]
    exact h.blank (hframe.leads.join h.unlinked hname)

/-- Without ignore files the filters have the only word. -/
theorem Open.skips_eq (hopen : s.Open t) (hframe : Straight t frame) (path name : String)
    (isDirectory : Bool) :
    s.skips frame.levels path name isDirectory = s.filters.leavesOut ⟨path, name, isDirectory⟩ := by
  have hask : ∀ rules : IgnoreLevel → IgnoreRules, (∀ l, IgnoreLevel.Blank l → (rules l).patterns = []) →
      (IgnoreLevel.ask frame.levels rules path isDirectory).orElse
        (IgnoreLevel.ask s.above rules (s.absolutePath path) isDirectory) = .none := by
    intro rules hrules
    rw [IgnoreLevel.ask_blank fun l hl => hrules l (hframe.levels l hl),
      IgnoreLevel.ask_blank fun l hl => hrules l (hopen.above l hl)]
    rfl
  have hverdict : s.verdict frame.levels path isDirectory = s.filters.verdict path isDirectory := by
    unfold verdict
    simp only [hask _ fun _ h => h.ignore, hask _ fun _ h => h.gitIgnore,
      hask _ fun _ h => h.gitExclude]
    cases s.filters.verdict path isDirectory <;> rfl
  rw [skips, hverdict]
  rfl

theorem mem_filesAt_file (hopen : s.Open t) (hframe : Straight t frame)
    (hentry : t.entryAt (frame.place ++ [name]) = some (.file text)) :
    path ∈ s.filesAt fuel frame name ↔ s.filters.Admits frame.path [name] ∧
      path = Path.below frame.path [name] ∧ Path.isLuaFile path = true := by
  have hadmits : s.filters.Admits frame.path [name] ↔
      s.filters.leavesOut ⟨Path.join frame.path name, name, false⟩ = false :=
    List.forall_mem_singleton
  have hbelow : Path.below frame.path [name] = Path.join frame.path name := rfl
  unfold filesAt entryOf
  simp only [hopen.tree, hentry, hopen.skips_eq hframe, hadmits, hbelow]
  split_ifs with hout hlua
  · simp [hout]
  · rw [List.mem_singleton]
    exact ⟨fun heq => ⟨Bool.eq_false_iff.mpr hout, heq, heq ▸ hlua⟩, fun hfound => hfound.2.1⟩
  · refine ⟨nofun, ?_⟩
    rintro ⟨-, rfl, hlua'⟩
    exact absurd hlua' hlua

theorem mem_filesAt_directory (hopen : s.Open t) (hframe : Straight t frame)
    (hentry : t.entryAt (frame.place ++ [name]) = some .directory) :
    path ∈ s.filesAt fuel frame name ↔
      s.filters.leavesOut ⟨Path.join frame.path name, name, true⟩ = false ∧
        path ∈ s.filesBelow fuel (s.below frame name) := by
  unfold filesAt entryOf
  simp only [hopen.tree, hentry, hopen.skips_eq hframe]
  split_ifs with hout
  · simp [hout]
  · rw [Bool.eq_false_iff.mpr hout, below, hopen.tree]
    exact (and_iff_right rfl).symm

/-- The walk of a directory finds the Lua files it is let come to, as deep as its fuel goes. -/
theorem mem_filesBelow (hopen : s.Open t) (h : t.Plain) (hframe : Straight t frame) :
    path ∈ s.filesBelow fuel frame ↔ ∃ names : List String,
      names ≠ [] ∧ names.length ≤ fuel ∧
      (∃ text, t.entryAt (frame.place ++ names) = some (.file text)) ∧
      s.filters.Admits frame.path names ∧ path = Path.below frame.path names ∧
      Path.isLuaFile path = true := by
  induction fuel generalizing frame path with
  | zero =>
    constructor
    · nofun
    · rintro ⟨names, hne, hlength, -⟩
      exact absurd (List.length_eq_zero_iff.mp (Nat.le_zero.mp hlength)) hne
  | succ fuel ih =>
    rw [filesBelow_succ, List.mem_flatMap, hopen.tree]
    constructor
    · rintro ⟨name, hname, hmem⟩
      obtain ⟨e, hentry⟩ := (FileTree.mem_children h.toSound).mp hname
      cases e with
      | directory =>
        have hisName := (h.proper_of_entryAt hentry).last
        obtain ⟨hadmitted, hmem⟩ := (mem_filesAt_directory hopen hframe hentry).mp hmem
        obtain ⟨names, hne, hlength, hfile, hbelow, rfl, hlua⟩ :=
          (ih (hframe.below hopen h hisName)).mp hmem
        have hplace : (s.below frame name).place ++ names = frame.place ++ name :: names :=
          List.append_assoc _ _ _
        rw [hplace] at hfile
        refine ⟨name :: names, List.cons_ne_nil _ _, Nat.succ_le_succ hlength, hfile, ?_, rfl, hlua⟩
        rw [SearchFilters.admits_cons, List.isEmpty_eq_false_iff.mpr hne]
        exact ⟨hadmitted, hbelow⟩
      | file text =>
        obtain ⟨hadmitted, rfl, hlua⟩ := (mem_filesAt_file hopen hframe hentry).mp hmem
        exact ⟨[name], List.cons_ne_nil _ _, Nat.succ_le_succ (Nat.zero_le _), ⟨text, hentry⟩,
          hadmitted, rfl, hlua⟩
      | link target => exact absurd hentry (h.unlinked.entryAt target)
    · rintro ⟨names, hne, hlength, ⟨text, hfile⟩, hadmits, rfl, hlua⟩
      obtain ⟨name, rest, rfl⟩ := List.exists_cons_of_ne_nil hne
      by_cases hempty : rest = []
      · subst hempty
        exact ⟨name, (FileTree.mem_children h.toSound).mpr ⟨_, hfile⟩,
          (mem_filesAt_file hopen hframe hfile).mpr ⟨hadmits, rfl, hlua⟩⟩
      · have hsplit : frame.place ++ name :: rest = frame.place ++ [name] ++ rest := by simp
        rw [hsplit] at hfile
        rw [SearchFilters.admits_cons, List.isEmpty_eq_false_iff.mpr hempty] at hadmits
        have hentry := h.directory_of_prefix hempty hfile
        have hisName := (h.proper_of_entryAt hentry).last
        refine ⟨name, (FileTree.mem_children h.toSound).mpr ⟨_, hentry⟩,
          (mem_filesAt_directory hopen hframe hentry).mpr ⟨hadmits.1, ?_⟩⟩
        exact (ih (hframe.below hopen h hisName)).mpr
          ⟨rest, hempty, Nat.le_of_succ_le_succ hlength, ⟨text, hfile⟩, hadmits.2, rfl, hlua⟩

end WalkSetting

namespace FileWalker

variable {t : FileTree} {w : FileWalker} {root path : String} {q : Place} {names : List String}

/-- The filters of a search below a root. -/
def filtersAt (w : FileWalker) (root : String) : SearchFilters := .of root w.filters

/-- A walk of a directory finds the Lua files below it to which the filters let it come. -/
theorem mem_walk_iff (h : t.Plain) (hroot : t.resolve root = .ok q)
    (hq : t.entryAt q = some .directory) : path ∈ w.walk t root ↔ ∃ names : List String,
      names ≠ [] ∧ (∃ text, t.entryAt (q ++ names) = some (.file text)) ∧
      (w.filtersAt root).Admits root names ∧ path = Path.below root names ∧
      Path.isLuaFile path = true := by
  have hproper := h.proper_of_entryAt hq
  have hleads := FileTree.leads_of_resolve hroot
  unfold walk
  simp only [hroot, hq]
  rw [WalkSetting.mem_filesBelow ⟨rfl, ?above⟩ h ⟨hleads, ?levels⟩]
  case above =>
    intro l hl
    obtain ⟨n, -, rfl⟩ := List.mem_map.mp hl
    exact h.blank (FileTree.leads_text h.unlinked fun name hname =>
      hproper name (List.mem_of_mem_take hname))
  case levels => exact List.forall_mem_singleton.mpr (h.blank hleads)
  refine exists_congr fun names => and_congr_right fun _ => ⟨And.right, fun hfile => ⟨?_, hfile⟩⟩
  -- The fuel is more than the number of entries.
  obtain ⟨text, hfile⟩ := hfile.1
  have hdepth := h.length_le hfile
  rw [List.length_append] at hdepth
  exact Nat.le_trans (by omega) (Nat.le_mul_of_pos_right (t.entries.length + 1) (Nat.succ_pos _))

/-- A file is accepted by the names that lead to it and by the verdict on it alone. -/
theorem accepts_iff (hroot : root ≠ "") (hnames : ∀ n ∈ names, IsName n) :
    w.accepts root (Path.below root names) = true ↔
      Path.isLuaFile (Path.below root names) = true ∧ (∀ n ∈ names, isHidden n = false) ∧
        (w.filtersAt root).verdict (Path.below root names) false ≠ .ignored := by
  have hparts := Path.parts_below hroot hnames
  have hbelow : Path.relativeParts? root (Path.below root names) = some (names.map .name) := by
    rw [Path.relativeParts?, if_pos (Path.startsWith_iff.mpr (hparts ▸ List.prefix_append _ _)),
      hparts, List.drop_left]
  have hhidden : ((names.map PathPart.name).any fun part => part.text.toList.head? == some '.') =
      names.any isHidden := by
    rw [List.any_map]
    rfl
  unfold accepts filtersAt
  rw [hbelow]
  simp only [hhidden]
  split_ifs with hlua hany
  · rw [Bool.not_eq_true'] at hlua
    simp [hlua]
  · have hnot : ¬∀ n ∈ names, isHidden n = false := by
      simpa using hany
    simp [hnot]
  · rw [Bool.not_eq_true, List.any_eq_false] at hany
    have hvisible : ∀ n ∈ names, isHidden n = false := fun n hn => Bool.eq_false_iff.mpr (hany n hn)
    have hlua' : Path.isLuaFile (Path.below root names) = true := by simpa using hlua
    rw [hlua', bne_iff_ne]
    exact ⟨fun hverdict => ⟨rfl, hvisible, hverdict⟩, fun haccepted => haccepted.2.2⟩

/-- A walk and the question about one file differ where a filter leaves out a directory on the way
but not the file, and where the filters keep all that is hidden on the way. -/
theorem walk_agrees_with_accepts_iff (h : t.Plain) (hroot : t.resolve root = .ok q)
    (hne : names ≠ []) {text : Option String}
    (hfile : t.entryAt (q ++ names) = some (.file text)) :
    (Path.below root names ∈ w.walk t root ↔ w.accepts root (Path.below root names) = true) ↔
      (Path.isLuaFile (Path.below root names) = true →
        ((∀ n ∈ names, isHidden n = false) → ¬(w.filtersAt root).CutsOff root names) ∧
        ((∃ n ∈ names, isHidden n = true) → ¬(w.filtersAt root).Admits root names)) := by
  have hfilled := (FileTree.leads_of_resolve hroot).1
  have hdir := h.directory_of_prefix hne hfile
  have hnames : ∀ n ∈ names, IsName n := (h.proper_of_entryAt hfile).right
  have hwalk : Path.below root names ∈ w.walk t root ↔
      (w.filtersAt root).Admits root names ∧ Path.isLuaFile (Path.below root names) = true := by
    rw [mem_walk_iff h hroot hdir]
    constructor
    · rintro ⟨names', -, ⟨text', hfile'⟩, hadmits, heq, hlua⟩
      have hnames' : ∀ n ∈ names', IsName n := (h.proper_of_entryAt hfile').right
      rw [Path.below_injective hfilled hnames hnames' heq] at hlua ⊢
      exact ⟨hadmits, hlua⟩
    · rintro ⟨hadmits, hlua⟩
      exact ⟨names, hne, ⟨text, hfile⟩, hadmits, rfl, hlua⟩
  rw [hwalk, accepts_iff hfilled hnames]
  by_cases hlua : Path.isLuaFile (Path.below root names) = true
  · by_cases hvisible : ∀ n ∈ names, isHidden n = false
    · have hnone : ¬∃ n ∈ names, isHidden n = true := by
        rintro ⟨n, hn, hhidden⟩
        rw [hvisible n hn] at hhidden
        cases hhidden
      -- The file itself is on the way, so a free way has the file's own verdict among the others.
      have hpasses : (w.filtersAt root).Admits root names →
          (w.filtersAt root).verdict (Path.below root names) false ≠ .ignored := by
        rw [SearchFilters.admits_iff_of_visible hvisible]
        obtain ⟨e, he, hpath, hdirectory⟩ := Path.file_mem_way root hne
        exact fun hfree => hpath ▸ hdirectory ▸ hfree e he
      have hcut : (w.filtersAt root).CutsOff root names ↔
          (w.filtersAt root).verdict (Path.below root names) false ≠ .ignored ∧
            ¬(w.filtersAt root).Admits root names := by
        rw [SearchFilters.admits_iff_of_visible hvisible]
        push Not
        rfl
      constructor
      · intro hsame _
        refine ⟨fun _ hcuts => ?_, fun hhidden => absurd hhidden hnone⟩
        obtain ⟨hverdict, hnot⟩ := hcut.mp hcuts
        exact hnot (hsame.mpr ⟨hlua, hvisible, hverdict⟩).1
      · intro hfree
        have hnocut := (hfree hlua).1 hvisible
        constructor
        · rintro ⟨hadmits, -⟩
          exact ⟨hlua, hvisible, hpasses hadmits⟩
        · rintro ⟨-, -, hverdict⟩
          refine ⟨?_, hlua⟩
          by_contra hnot
          exact hnocut (hcut.mpr ⟨hverdict, hnot⟩)
    · have hsome : ∃ n ∈ names, isHidden n = true := by simpa using hvisible
      simp [hlua, hvisible, hsome]
  · simp [hlua]

/-- A directory of tests beside a file. -/
def testedTree : FileTree where
  entries := [(["w"], .directory), (["w", "test"], .directory),
    (["w", "test", "util.lua"], .file (some "")), (["w", "main.lua"], .file (some ""))]

/-- A filter that names the directory keeps the walk out of it, but not the file from being
accepted. -/
theorem excluded_directory_accepted :
    testedTree.Plain ∧ testedTree.resolve "/w" = .ok ["w"] ∧
      testedTree.entryAt ["w", "test", "util.lua"] = some (.file (some "")) ∧
      "/w/test/util.lua" ∉ FileWalker.walk ⟨["test"], false⟩ testedTree "/w" ∧
      FileWalker.accepts ⟨["test"], false⟩ "/w" "/w/test/util.lua" = true := by
  decide +kernel

/-- A filter that names all below the directory keeps the file from either. -/
theorem walk_agrees_with_accepts_below :
    ("/w/test/util.lua" ∈ FileWalker.walk ⟨["test/**"], false⟩ testedTree "/w" ↔
      FileWalker.accepts ⟨["test/**"], false⟩ "/w" "/w/test/util.lua" = true) := by
  have h : testedTree.Plain := by decide +kernel
  have hroot : testedTree.resolve "/w" = .ok ["w"] := by decide +kernel
  have hne : ["test", "util.lua"] ≠ [] := List.cons_ne_nil _ _
  have hfile : testedTree.entryAt (["w"] ++ ["test", "util.lua"]) = some (.file (some "")) := by
    decide +kernel
  refine (walk_agrees_with_accepts_iff h hroot hne hfile).mpr fun _ => ⟨fun _ => ?_, ?_⟩
  · decide +kernel
  · decide +kernel

/-- A filter for files to keep lets the walk come to hidden ones, which are accepted in no case. -/
example :
    let t : FileTree := { entries := [(["w"], .directory), (["w", ".x.lua"], .file (some ""))] }
    t.Plain ∧ FileWalker.walk ⟨["!*.lua"], false⟩ t "/w" = ["/w/.x.lua"] ∧
      FileWalker.accepts ⟨["!*.lua"], false⟩ "/w" "/w/.x.lua" = false := by
  decide +kernel

/-! ## Without filters -/

/-- Without filters a walk finds the visible Lua files below its root. -/
theorem mem_walk (h : t.Plain) (hfilters : w.filters = []) (hq : t.entryAt q = some .directory) :
    path ∈ w.walk t q.text ↔ ∃ names : List String,
      names ≠ [] ∧ (∃ text, t.entryAt (q ++ names) = some (.file text)) ∧
      (∀ n ∈ names, isHidden n = false) ∧ path = Place.text (q ++ names) ∧
      Path.isLuaFile path = true := by
  rw [mem_walk_iff h (FileTree.resolve_text h.toSound h.unlinked hq) hq, filtersAt, hfilters]
  refine exists_congr fun names => and_congr_right fun _ => and_congr_right fun hfile => ?_
  obtain ⟨text, hfile⟩ := hfile
  rw [SearchFilters.admits_nil, Path.below_text (h.proper_of_entryAt hfile)]

/-- One file is accepted where a walk finds it. -/
theorem accepts_text (hfilters : w.filters = []) {p : Place} (hp : p.Proper) (hq : q.Proper) :
    w.accepts q.text p.text = true ↔
      Path.isLuaFile p.text = true ∧ ∃ names : List String,
        p = q ++ names ∧ ∀ n ∈ names, isHidden n = false := by
  by_cases hprefix : q <+: p
  · obtain ⟨names, rfl⟩ := hprefix
    rw [← Path.below_text hp, accepts_iff q.text_ne_empty hp.right, filtersAt, hfilters]
    simp [SearchFilters.verdict_nil]
  · have hstarts : ¬Path.startsWith p.text q.text = true :=
      fun h => hprefix ((Place.startsWith_text hp hq).mp h)
    have hnone : ¬∃ names : List String, p = q ++ names ∧ ∀ n ∈ names, isHidden n = false := by
      rintro ⟨names, rfl, -⟩
      exact hprefix (List.prefix_append _ _)
    unfold accepts
    rw [Path.relativeParts?, if_neg hstarts]
    simp [hnone]

end FileWalker

end LuaScope

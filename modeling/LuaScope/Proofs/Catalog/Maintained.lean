import LuaScope.Proofs.Catalog.Reached
import LuaScope.Proofs.Files.Filters
import Mathlib.Data.List.Pairwise

/-!
# LuaScope.Proofs.Catalog.Maintained

Adding and removing files one by one comes to what a rescan finds.

* `Listed`              — what roots side by side list of a tree: its visible Lua files below them.
* `Catalog.Lists`       — the catalog holds these files and no others.
* `Catalog.Lists.rescan`, `Catalog.Lists.addFile`, `Catalog.Lists.removeFile` — one call each.
* `Catalog.Maintained.agrees` — after any steps the catalog is what a rescan makes of the tree.
-/

namespace LuaScope

namespace FileTree

variable {t t' : FileTree} {p q : Place} {roots : List Place}

/-- A regular file is there. -/
def HasFile (t : FileTree) (p : Place) : Prop := ∃ text, t.entryAt p = some (.file text)

/-- The same files are there, but for one place. -/
def AlikeBut (t t' : FileTree) (p : Place) : Prop := ∀ q, q ≠ p → (t'.HasFile q ↔ t.HasFile q)

theorem alikeBut_put (t : FileTree) (hne : p ≠ []) (e : FileEntry) : t.AlikeBut (t.put p e) p := by
  intro q hq
  rw [HasFile, t.entryAt_put hne, if_neg hq]
  rfl

theorem Sound.alikeBut_erase (h : t.Sound) (hp : t.entryAt p ≠ some .directory) :
    t.AlikeBut (t.erase p) p := by
  intro q hq
  rw [HasFile, h.entryAt_erase_file hp, if_neg hq]
  rfl

/-- A tree to search: without links and ignore files, the roots being directories. -/
structure Searched (t : FileTree) (roots : List Place) : Prop extends FileTree.Plain t where
  directories : ∀ q ∈ roots, t.entryAt q = some .directory

theorem HasFile.proper_place (h : t.HasFile p) (ht : t.Sound) : p.Proper :=
  ht.proper_of_entryAt h.choose_spec

theorem Searched.proper_root (h : t.Searched roots) (hq : q ∈ roots) : q.Proper :=
  h.proper_of_entryAt (h.directories q hq)

end FileTree

/-- No root lies in another, and none is repeated. -/
def SideBySide (roots : List Place) : Prop := roots.Pairwise fun q q' => ¬q <+: q' ∧ ¬q' <+: q

instance (roots : List Place) : Decidable (SideBySide roots) :=
  inferInstanceAs (Decidable (List.Pairwise _ _))

theorem SideBySide.eq {roots : List Place} (h : SideBySide roots) {q q' p : Place} (hq : q ∈ roots)
    (hq' : q' ∈ roots) (hp : q <+: p) (hp' : q' <+: p) : q = q' := by
  by_contra hne
  have : Std.Symm fun q q' : Place => ¬q <+: q' ∧ ¬q' <+: q := ⟨fun _ _ hapart => hapart.symm⟩
  have hapart := List.Pairwise.forall h hq hq' hne
  exact (List.prefix_or_prefix_of_prefix hp hp').elim hapart.1 hapart.2

/-! ## Listed entries -/

/-- The entry for a place, if it is a visible Lua file below one of the roots. -/
def Places (roots : List Place) (p : Place) (e : ModuleEntry) : Prop :=
  ∃ q ∈ roots, ∃ names : List String, p = q ++ names ∧ (∀ n ∈ names, isHidden n = false) ∧
    e.path = p.text ∧ moduleKey? e.path = some e.name ∧ e.root = q.text

def Listed (roots : List Place) (t : FileTree) (e : ModuleEntry) : Prop :=
  ∃ p, t.HasFile p ∧ Places roots p e

section Listed

variable {roots : List Place} {t t' : FileTree} {p : Place} {e e' : ModuleEntry}

theorem Places.path_eq (h : Places roots p e) : e.path = p.text := by
  obtain ⟨-, -, -, -, -, hpath, -⟩ := h
  exact hpath

theorem Places.key (h : Places roots p e) : moduleKey? e.path = some e.name := by
  obtain ⟨-, -, -, -, -, -, hkey, -⟩ := h
  exact hkey

/-- A place has one entry. -/
theorem Places.eq (hroots : SideBySide roots) (h : Places roots p e) (h' : Places roots p e') :
    e = e' := by
  obtain ⟨q, hq, names, hp, -, hpath, hkey, hroot⟩ := h
  obtain ⟨q', hq', names', hp', -, hpath', hkey', hroot'⟩ := h'
  obtain rfl := hroots.eq hq hq' ⟨names, hp.symm⟩ ⟨names', hp'.symm⟩
  rw [hpath] at hkey
  rw [hpath', hkey] at hkey'
  cases e
  cases e'
  simp_all

theorem listed_of_created (hp : t'.HasFile p) (halike : t.AlikeBut t' p) :
    Listed roots t' e ↔ Listed roots t e ∨ Places roots p e := by
  constructor
  · rintro ⟨p', hfile, hplaces⟩
    by_cases heq : p' = p
    · exact .inr (heq ▸ hplaces)
    · exact .inl ⟨p', (halike p' heq).mp hfile, hplaces⟩
  · rintro (⟨p', hfile, hplaces⟩ | hplaces)
    · by_cases heq : p' = p
      · exact ⟨p, hp, heq ▸ hplaces⟩
      · exact ⟨p', (halike p' heq).mpr hfile, hplaces⟩
    · exact ⟨p, hp, hplaces⟩

theorem listed_of_deleted (ht : t.Sound) (hproper : p.Proper) (hp : ¬t'.HasFile p)
    (halike : t.AlikeBut t' p) : Listed roots t' e ↔
      Listed roots t e ∧ Path.parts e.path ≠ Path.parts p.text := by
  constructor
  · rintro ⟨p', hfile, hplaces⟩
    have hne : p' ≠ p := fun heq => hp (heq ▸ hfile)
    have hold := (halike p' hne).mp hfile
    refine ⟨⟨p', hold, hplaces⟩, fun hparts => hne ?_⟩
    exact Place.text_injective (hold.proper_place ht) hproper (hplaces.path_eq ▸ hparts)
  · rintro ⟨⟨p', hfile, hplaces⟩, hparts⟩
    have hne : p' ≠ p := fun heq => hparts (by rw [hplaces.path_eq, heq])
    exact ⟨p', (halike p' hne).mpr hfile, hplaces⟩

end Listed

namespace Catalog

variable {roots : List Place} {c c' : Catalog} {t t' : FileTree} {p : Place} {path : String}
  {e : ModuleEntry} {filters : List String} {followLinks : Bool}

/-- The catalog lists the files of the tree, under their names, in order and once. -/
structure Lists (rootPlaces : List Place) (t : FileTree) (c : Catalog) : Prop where
  roots : c.roots = rootPlaces.map Place.text
  filters : c.walker.filters = []
  ordered : c.map.Ordered
  once : c.map.Once
  mem : ∀ name e, e ∈ c.map.get name ↔ Listed rootPlaces t e ∧ e.name = name

theorem Lists.agrees_of_lists (h : c.Lists roots t) (h' : c'.Lists roots t) : c.Agrees c' := by
  refine agrees_of_get h.ordered h'.ordered fun name => ?_
  have honce := (ModuleMap.once_iff h.ordered).mp h.once name
  have honce' := (ModuleMap.once_iff h'.ordered).mp h'.once name
  refine (h.ordered.get_sorted name).eq_of_perm (h'.ordered.get_sorted name) honce ?_
  rw [List.perm_ext_iff_of_nodup honce.of_map honce'.of_map]
  intro e
  rw [h.mem, h'.mem]

/-! ## Rescans -/

theorem dropRepeats_eq_self : ∀ {paths : List String},
    (paths.Pairwise fun a b => Path.same a b = false) → dropRepeats paths = paths
  | [], _ => rfl
  | [a], _ => rfl
  | a :: b :: rest, h => by
    obtain ⟨ha, hrest⟩ := List.pairwise_cons.mp h
    rw [dropRepeats, dropRepeats_eq_self hrest]
    simp only [ha b (.head _), Bool.false_eq_true, if_false]

theorem roots_configure (ht : t.Searched roots) (hroots : SideBySide roots) (c : Catalog)
    (filters : List String) (followLinks : Bool) :
    (c.configure t (roots.map Place.text) filters followLinks).roots = roots.map Place.text := by
  have hcanonical : (roots.map Place.text).map (fun r => (t.canonicalize? r).getD r) =
      roots.map Place.text := by
    rw [List.map_map]
    refine List.map_congr_left fun q hq => ?_
    rw [Function.comp_apply, FileTree.canonicalize?_text ht.toSound ht.unlinked (ht.directories q hq)]
    rfl
  rw [configure]
  simp only
  rw [hcanonical]
  refine dropRepeats_eq_self (List.pairwise_map.mpr (hroots.imp_of_mem ?_))
  intro q q' hq hq' hapart
  rw [Bool.eq_false_iff, ne_eq, Path.same_iff]
  intro heq
  rw [Place.text_injective (ht.proper_root hq) (ht.proper_root hq') heq] at hapart
  exact hapart.1 (List.prefix_refl _)

theorem mem_scanRoot_iff (ht : t.Searched roots) (hfilters : c.walker.filters = []) {q : Place}
    (hq : q ∈ roots) : e ∈ c.scanRoot t q.text ↔ ∃ names : List String, t.HasFile (q ++ names) ∧
      (∀ n ∈ names, isHidden n = false) ∧ e.path = Place.text (q ++ names) ∧
      moduleKey? e.path = some e.name ∧ e.root = q.text := by
  have hdir := ht.directories q hq
  rw [mem_scanRoot, FileWalker.mem_walk ht.toPlain hfilters hdir]
  constructor
  · rintro ⟨-, ⟨names, -, hfile, hvisible, hpath, -⟩, hkey, hroot⟩
    exact ⟨names, hfile, hvisible, hpath, hkey, hroot⟩
  · rintro ⟨names, hfile, hvisible, hpath, hkey, hroot⟩
    have hne : names ≠ [] := by
      rintro rfl
      obtain ⟨text, htext⟩ := hfile
      rw [List.append_nil, hdir] at htext
      cases htext
    exact ⟨FileTree.isDirectory_text ht.toSound ht.unlinked hdir,
      ⟨names, hne, hfile, hvisible, hpath, isLuaFile_of_moduleKey? hkey⟩, hkey, hroot⟩

theorem mem_found_iff (ht : t.Searched roots) (hroots : c.roots = roots.map Place.text)
    (hfilters : c.walker.filters = []) : e ∈ c.found t ↔ Listed roots t e := by
  unfold found Listed Places
  rw [hroots, List.flatMap_map, List.mem_flatMap]
  constructor
  · rintro ⟨q, hq, he⟩
    obtain ⟨names, hfile, hrest⟩ := (mem_scanRoot_iff ht hfilters hq).mp he
    exact ⟨q ++ names, hfile, q, hq, names, rfl, hrest⟩
  · rintro ⟨_, hfile, q, hq, names, rfl, hrest⟩
    exact ⟨q, hq, (mem_scanRoot_iff ht hfilters hq).mpr ⟨names, hfile, hrest⟩⟩

theorem Lists.rescan (ht : t.Searched roots) (hside : SideBySide roots)
    (hroots : c.roots = roots.map Place.text) (hfilters : c.walker.filters = []) :
    (c.rescan t).2.Lists roots t where
  roots := hroots
  filters := hfilters
  ordered := ordered_rescan c t
  once := by
    rw [once_rescan_iff ht.toSound]
    refine apart_of_unnested ht.toSound ?_
    rw [hroots, List.pairwise_map]
    refine hside.imp_of_mem fun {q q'} hq hq' hapart => ?_
    have hproper := ht.proper_root hq
    have hproper' := ht.proper_root hq'
    rw [Bool.eq_false_iff, ne_eq, Place.startsWith_text hproper hproper', Bool.eq_false_iff, ne_eq,
      Place.startsWith_text hproper' hproper]
    exact hapart.symm
  mem := by
    intro name e
    rw [mem_get_rescan, mem_found_iff ht hroots hfilters]

/-! ## Files that are created -/

theorem lastMax_mem {α : Type} {key : α → Nat} {a : α} : ∀ {l : List α}, lastMax key l = some a → a ∈ l
  | b :: rest, h => by
    unfold lastMax at h
    split at h
    · cases h
      exact .head _
    · rename_i b' hb'
      split_ifs at h
      · cases h
        exact .head _
      · cases h
        exact .tail _ (lastMax_mem hb')

theorem lastMax_isSome {α : Type} (key : α → Nat) {a : α} {l : List α} (h : a ∈ l) :
    ∃ b, lastMax key l = some b := by
  cases l with
  | nil => cases h
  | cons b rest =>
    unfold lastMax
    split
    · exact ⟨_, rfl⟩
    · split_ifs <;> exact ⟨_, rfl⟩

/-- A place lies under one root at most. -/
theorem rootFor_iff (hside : SideBySide roots) (ht : t.Searched roots)
    (hroots : c.roots = roots.map Place.text) (hp : p.Proper) {root : String} :
    c.rootFor p.text = some root ↔ ∃ q ∈ roots, q <+: p ∧ root = q.text := by
  have hmem : ∀ root, root ∈ c.roots.filter (Path.startsWith p.text) ↔
      ∃ q ∈ roots, q <+: p ∧ root = q.text := by
    intro root
    rw [hroots, List.mem_filter, List.mem_map]
    constructor
    · rintro ⟨⟨q, hq, rfl⟩, hstarts⟩
      exact ⟨q, hq, (Place.startsWith_text hp (ht.proper_root hq)).mp hstarts, rfl⟩
    · rintro ⟨q, hq, hprefix, rfl⟩
      exact ⟨⟨q, hq, rfl⟩, (Place.startsWith_text hp (ht.proper_root hq)).mpr hprefix⟩
  unfold rootFor
  constructor
  · exact fun h => (hmem root).mp (lastMax_mem h)
  · rintro ⟨q, hq, hprefix, rfl⟩
    obtain ⟨root, hroot⟩ := lastMax_isSome (fun r => (Path.parts r).length)
      ((hmem q.text).mpr ⟨q, hq, hprefix, rfl⟩)
    obtain ⟨q', hq', hprefix', rfl⟩ := (hmem root).mp (lastMax_mem hroot)
    rw [hroot, hside.eq hq hq' hprefix hprefix']

theorem adds_iff (hside : SideBySide roots) (ht : t.Searched roots)
    (hroots : c.roots = roots.map Place.text) (hfilters : c.walker.filters = [])
    (hp : t.HasFile p) (hpath : t.resolve path = .ok p) :
    c.Adds t path e ↔ Places roots p e ∧
      ∀ x ∈ c.map.get e.name, Path.parts x.path ≠ Path.parts e.path := by
  have hproper := hp.proper_place ht.toSound
  have hcanonical : (t.canonicalize? path).getD path = p.text := by
    rw [FileTree.canonicalize?, hpath]
    rfl
  constructor
  · intro h
    have heq : e.path = p.text := h.path.trans hcanonical
    have hroot := h.root
    rw [heq, rootFor_iff hside ht hroots hproper] at hroot
    obtain ⟨q, hq, -, hroot⟩ := hroot
    have haccepted := h.accepted
    rw [heq, hroot, FileWalker.accepts_text hfilters hproper (ht.proper_root hq)] at haccepted
    obtain ⟨-, names, hnames, hvisible⟩ := haccepted
    exact ⟨⟨q, hq, names, hnames, hvisible, heq, h.key, hroot⟩, h.new⟩
  · rintro ⟨⟨q, hq, names, hnames, hvisible, heq, hkey, hroot⟩, hnew⟩
    refine ⟨heq.trans hcanonical.symm, hkey, ?_, ?_, hnew⟩
    · rw [heq, rootFor_iff hside ht hroots hproper]
      exact ⟨q, hq, ⟨names, hnames.symm⟩, hroot⟩
    · rw [heq, hroot, FileWalker.accepts_text hfilters hproper (ht.proper_root hq)]
      exact ⟨isLuaFile_of_moduleKey? (heq ▸ hkey), names, hnames, hvisible⟩

/-- A place whose path is known was a file before. -/
theorem Lists.listed_of_known (h : c.Lists roots t) (ht : t.Sound) (hp : p.Proper)
    (hplaces : Places roots p e) {x : ModuleEntry} (hx : x ∈ c.map.get e.name)
    (hparts : Path.parts x.path = Path.parts e.path) : Listed roots t e := by
  obtain ⟨⟨p', hfile, hplaces'⟩, -⟩ := (h.mem e.name x).mp hx
  have hsame : p' = p := by
    refine Place.text_injective (hfile.proper_place ht) hp ?_
    rw [← hplaces'.path_eq, hparts, hplaces.path_eq]
  exact ⟨p, hsame ▸ hfile, hplaces⟩

theorem Lists.addFile (h : c.Lists roots t) (hside : SideBySide roots) (ht : t.Sound)
    (ht' : t'.Searched roots) (hp : t'.HasFile p) (halike : t.AlikeBut t' p)
    (hpath : t'.resolve path = .ok p) : (c.addFile t' path).2.Lists roots t' := by
  have hadds : ∀ e, c.Adds t' path e ↔ _ := fun e => adds_iff hside ht' h.roots h.filters hp hpath
  obtain ⟨hroots, hwalker⟩ := c.configuration_addFile t' path
  constructor
  case roots => rw [hroots, h.roots]
  case filters => rw [hwalker, h.filters]
  case ordered => exact ordered_addFile h.ordered t' path
  case once => exact once_addFile h.ordered h.once t' path
  case mem =>
    intro name x
    rw [listed_of_created hp halike]
    rcases c.addFile_cases t' path with ⟨heq, hnone⟩ | ⟨e, he⟩
    · rw [heq, h.mem]
      refine ⟨fun hx => ⟨.inl hx.1, hx.2⟩, fun hx => ⟨hx.1.elim id fun hplaces => ?_, hx.2⟩⟩
      by_contra hunlisted
      refine hnone x ((hadds x).mpr ⟨hplaces, fun y hy hparts => hunlisted ?_⟩)
      exact h.listed_of_known ht (hp.proper_place ht'.toSound) hplaces hy hparts
    · have hplaces := ((hadds e).mp he).1
      rw [he.eq, ModuleMap.get_insert]
      split_ifs with hname
      · rw [(ModuleMap.sortByPath_perm _).mem_iff, List.mem_append, List.mem_singleton, h.mem, hname]
        constructor
        · rintro (⟨hlisted, heq⟩ | rfl)
          · exact ⟨.inl hlisted, heq⟩
          · exact ⟨.inr hplaces, rfl⟩
        · rintro ⟨hlisted | hplaces', heq⟩
          · exact .inl ⟨hlisted, heq⟩
          · exact .inr (hplaces'.eq hside hplaces)
      · rw [h.mem]
        refine ⟨fun hx => ⟨.inl hx.1, hx.2⟩, fun hx => ⟨hx.1.elim id fun hplaces' => ?_, hx.2⟩⟩
        exact absurd (hplaces'.eq hside hplaces ▸ hx.2).symm hname

/-! ## Files that are deleted -/

theorem deletedSpelling?_place (ht : t.Plain) (hp : p.Proper)
    (hpath : Path.parts path = Path.parts p.text) {spelled : String}
    (h : deletedSpelling? t path = some spelled) : spelled = p.text := by
  have hname : Path.fileName? path = Path.fileName? p.text := by
    rw [Path.fileName?, Path.fileName?, hpath]
  have hparent : Path.parent? path = Path.parent? p.text := by
    rw [Path.parent?, Path.parent?, Path.parentParts?, Path.parentParts?, hpath]
  unfold deletedSpelling? at h
  rw [hname, hparent] at h
  rcases List.eq_nil_or_concat p with rfl | ⟨dir, name, rfl⟩
  · have hroot : Path.parent? (Place.text []) = none := by decide +kernel
    rw [hroot] at h
    cases h
  · rw [List.concat_eq_append] at hp h ⊢
    rw [Place.fileName?_text hp, Place.parent?_text hp, Option.bind_some] at h
    split at h
    · rename_i parent name' hcanonical hname'
      cases h
      cases hname'
      unfold FileTree.canonicalize? at hcanonical
      split at hcanonical
      · rename_i place hplace
        cases hcanonical
        rw [FileTree.eq_of_resolve_text ht.unlinked hp.left hplace, Place.join_text hp]
      · cases hcanonical
    · cases h

theorem isDeleted_place (ht : t.Plain) (hp : p.Proper)
    (hpath : Path.parts path = Path.parts p.text) :
    isDeleted t path e = true ↔ Path.parts e.path = Path.parts p.text := by
  unfold isDeleted
  rw [Bool.or_eq_true, Path.same_iff, hpath]
  refine ⟨fun h => h.elim id fun h => ?_, .inl⟩
  split at h
  · rename_i spelled hspelled
    rw [Path.same_iff, deletedSpelling?_place ht hp hpath hspelled] at h
    exact h
  · cases h

theorem Lists.removeFile (h : c.Lists roots t) (ht : t.Sound) (ht' : t'.Searched roots)
    (hproper : p.Proper) (hp : ¬t'.HasFile p) (halike : t.AlikeBut t' p)
    (hpath : Path.parts path = Path.parts p.text) : (c.removeFile t' path).2.Lists roots t' := by
  obtain ⟨hroots, hwalker⟩ := c.configuration_removeFile t' path
  constructor
  case roots => rw [hroots, h.roots]
  case filters => rw [hwalker, h.filters]
  case ordered => exact ordered_removeFile h.ordered t' path
  case once => exact once_removeFile h.ordered h.once t' path
  case mem =>
    intro name x
    have hkey : Path.parts x.path = Path.parts p.text → moduleKey? path = moduleKey? x.path :=
      fun hparts => moduleKey?_congr (hpath.trans hparts.symm)
    rw [get_removeFile, listed_of_deleted ht hproper hp halike]
    split_ifs with hname
    · rw [List.mem_filter, h.mem, Bool.not_eq_true', Bool.eq_false_iff, ne_eq,
        isDeleted_place ht'.toPlain hproper hpath]
      exact and_right_comm
    · rw [h.mem]
      refine ⟨fun hx => ⟨⟨hx.1, fun hparts => hname ?_⟩, hx.2⟩, fun hx => ⟨hx.1.1, hx.2⟩⟩
      obtain ⟨p', -, hplaces⟩ := hx.1
      rw [hkey hparts, hplaces.key, hx.2]

/-! ## Any steps -/

/-- Catalogs that a rescan of the roots starts and calls for one file after another keep up: the
file is created or written anew, or it is deleted or missing all along. -/
inductive Maintained (roots : List Place) (followLinks : Bool) : FileTree → Catalog → Prop where
  | rescan {t : FileTree} (c : Catalog) : t.Searched roots → Maintained roots followLinks t
      ((c.configure t (roots.map Place.text) [] followLinks).rescan t).2
  | created {t t' : FileTree} {c : Catalog} {p : Place} (path : String) :
      Maintained roots followLinks t c → t'.Searched roots → t'.HasFile p → t.AlikeBut t' p →
      t'.resolve path = .ok p → Maintained roots followLinks t' (c.addFile t' path).2
  | deleted {t t' : FileTree} {c : Catalog} {p : Place} (path : String) :
      Maintained roots followLinks t c → t'.Searched roots → p.Proper → ¬t'.HasFile p →
      t.AlikeBut t' p → Path.parts path = Path.parts p.text →
      Maintained roots followLinks t' (c.removeFile t' path).2

theorem Maintained.searched (h : Maintained roots followLinks t c) : t.Searched roots := by
  cases h <;> assumption

theorem Maintained.lists (hside : SideBySide roots) (h : Maintained roots followLinks t c) :
    c.Lists roots t := by
  induction h with
  | rescan c ht => exact .rescan ht hside (roots_configure ht hside c _ _) rfl
  | created path h ht' hp halike hpath ih =>
    exact ih.addFile hside h.searched.toSound ht' hp halike hpath
  | deleted path h ht' hproper hp halike hpath ih =>
    exact ih.removeFile h.searched.toSound ht' hproper hp halike hpath

/-- Whatever files come and go, the catalog is what a rescan by a new one makes of the tree. -/
theorem Maintained.agrees (hside : SideBySide roots) (h : Maintained roots followLinks t c) :
    c.Agrees ((Catalog.configure {} t (roots.map Place.text) [] followLinks).rescan t).2 :=
  (h.lists hside).agrees_of_lists ((Maintained.rescan {} h.searched).lists hside)

/-- A file that comes and one that goes, under two roots. -/
theorem Maintained.agrees_of_two_steps :
    ∃ (roots : List Place) (t : FileTree) (c : Catalog), SideBySide roots ∧
      Maintained roots false t c ∧ c.map.map Prod.fst = ["app"] ∧
      c.Agrees ((Catalog.configure {} t (roots.map Place.text) [] false).rescan t).2 := by
  let roots : List Place := [["ws", "lib"], ["ws", "app"]]
  let t : FileTree :=
    { entries := [(["ws"], .directory), (["ws", "lib"], .directory), (["ws", "app"], .directory),
        (["ws", "lib", "a.lua"], .file (some "return 1"))] }
  let c : Catalog := ((Catalog.configure {} t (roots.map Place.text) [] false).rescan t).2
  let t' : FileTree := t.put ["ws", "app", "init.lua"] (.file (some "return 2"))
  let t'' : FileTree := t'.erase ["ws", "lib", "a.lua"]
  have hside : SideBySide roots := by decide +kernel
  have hsearched : t.Searched roots := ⟨by decide +kernel, by decide +kernel⟩
  have hsearched' : t'.Searched roots := ⟨by decide +kernel, by decide +kernel⟩
  have hsearched'' : t''.Searched roots := ⟨by decide +kernel, by decide +kernel⟩
  have hcreated : Maintained roots false t' (c.addFile t' "/ws/app/init.lua").2 :=
    .created "/ws/app/init.lua" (.rescan {} hsearched) hsearched' ⟨_, rfl⟩
      (t.alikeBut_put (by decide) _) (by decide +kernel)
  have hdeleted : Maintained roots false t''
      ((c.addFile t' "/ws/app/init.lua").2.removeFile t'' "/ws/lib/a.lua").2 :=
    .deleted (p := ["ws", "lib", "a.lua"]) "/ws/lib/a.lua" hcreated hsearched'' (by decide +kernel)
      (fun ⟨text, hfile⟩ => nomatch hfile) (hsearched'.alikeBut_erase (by decide +kernel))
      (by decide +kernel)
  exact ⟨roots, t'', _, hside, hdeleted, by decide +kernel, hdeleted.agrees hside⟩

end Catalog

end LuaScope

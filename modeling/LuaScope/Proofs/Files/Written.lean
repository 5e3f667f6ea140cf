import LuaScope.Proofs.Files.Resolve

/-!
# LuaScope.Proofs.Files.Written

Files that are written are found again.

* `FileTree.Keeps`                — a tree that still has what another has.
* `FileTree.Keeps.ensureParent`   — making directories takes nothing away.
* `FileTree.readText_writeFile`   — a file is read as it was written.
* `FileTree.resolveTo_join`       — a relative path and the one joined to the current directory
  lead to one place.
-/

namespace LuaScope
namespace FileTree

variable {t t' t'' : FileTree} {p q place : Place} {path text : String}

/-! ## Making directories -/

/-- A tree that still has what another has, seen from the same directory. -/
structure Keeps (t t' : FileTree) : Prop where
  current : t'.current = t.current
  entryAt : ∀ {p : Place} {e : FileEntry}, t.entryAt p = some e → t'.entryAt p = some e

namespace Keeps

theorem refl (t : FileTree) : t.Keeps t := ⟨rfl, id⟩

theorem trans (h : t.Keeps t') (h' : t'.Keeps t'') : t.Keeps t'' :=
  ⟨h'.current.trans h.current, fun hentry => h'.entryAt (h.entryAt hentry)⟩

theorem put (h : t.entryAt p = none) (e : FileEntry) : t.Keeps (t.put p e) := by
  have hne : p ≠ [] := by
    rintro rfl
    cases h
  refine ⟨rfl, fun {q _} hentry => ?_⟩
  rw [t.entryAt_put hne, if_neg, hentry]
  rintro rfl
  rw [h] at hentry
  cases hentry

theorem makeDirectory (h : t.makeDirectory path = .ok t') : t.Keeps t' := by
  unfold FileTree.makeDirectory at h
  split at h
  · split at h
    · cases h
    · split at h
      · rename_i hnone
        cases h
        exact .put hnone _
      · cases h
      · cases h
      · cases h
  · split at h <;> cases h

theorem ensureDirectory : ∀ {n : Nat} {t t' : FileTree} {path : String},
    t.ensureDirectory n path = .ok t' → t.Keeps t'
  | 0, _, _, _, h => by cases h
  | n + 1, t, t', path, h => by
    unfold FileTree.ensureDirectory at h
    split at h
    · cases h
      exact .refl t
    · split at h
      · -- The directory it stands in had to be made first.
        split at h
        · rename_i t₁ hparent
          have hkeeps : t.Keeps t₁ := by
            cases hparts : Path.parent? path with
            | none =>
              rw [hparts] at hparent
              cases hparent
            | some parent =>
              rw [hparts] at hparent
              exact ensureDirectory (Option.some.inj hparent)
          split at h
          · cases h
            exact hkeeps
          · exact hkeeps.trans (.makeDirectory h)
        · cases h
        · cases h
      · exact .makeDirectory h

theorem ensureParent (h : t.ensureParent path = .ok t') : t.Keeps t' := .ensureDirectory h

end Keeps

/-! ## Writing a file -/

/-- Nothing stands at a place, or a file. -/
def Writable (t : FileTree) (p : Place) : Prop := ∀ e, t.entryAt p = some e → ∃ text, e = .file text

theorem Writable.ne_nil (h : t.Writable p) : p ≠ [] := by
  rintro rfl
  obtain ⟨text, heq⟩ := h .directory rfl
  cases heq

theorem writeFile_ok (h : t.writeFile path text = .ok t') : ∃ place,
    t.resolveTo .written path = .ok place ∧ t.Writable place ∧
      t' = t.put place (.file (some text)) := by
  unfold writeFile at h
  split at h
  · cases h
  · rename_i place hplace
    refine ⟨place, hplace, ?_⟩
    split at h
    · rename_i hnone
      split at h
      · cases h
        refine ⟨fun e he => ?_, rfl⟩
        rw [hnone] at he
        cases he
      · cases h
    · rename_i old hfile
      split at h
      · cases h
        refine ⟨fun e he => ⟨old, ?_⟩, rfl⟩
        rw [hfile] at he
        exact (Option.some.inj he).symm
      · cases h
    · cases h

section Put

variable {onLink onLink' : Place → List String → Except FileError Place} {content : Option String}

/-- The way to a file that is written is the way to the file once it is there. -/
theorem stepThrough_put (h : t.Writable place)
    (hlink : ∀ {at' names}, onLink at' names = .ok place → onLink' at' names = .ok place) :
    ∀ {names : List String} {at' : Place}, t.stepThrough .written onLink at' names = .ok place →
      (t.put place (.file content)).stepThrough .found onLink' at' names = .ok place
  | [], _, hstep => hstep
  | name :: rest, at', hstep => by
    have hhere : (t.put place (.file content)).entryAt place = some (.file content) := by
      rw [t.entryAt_put h.ne_nil, if_pos rfl]
    have hother : ∀ e, t.entryAt (at' ++ [name]) = some e → (∀ text, e ≠ .file text) →
        (t.put place (.file content)).entryAt (at' ++ [name]) = some e := by
      intro e hentry hfile
      rw [t.entryAt_put h.ne_nil, if_neg, hentry]
      intro heq
      obtain ⟨text, rfl⟩ := h e (heq ▸ hentry)
      exact hfile text rfl
    unfold stepThrough at hstep ⊢
    split at hstep
    · rename_i hskip
      rw [if_pos hskip]
      exact stepThrough_put h hlink hstep
    · rename_i hskip
      rw [if_neg hskip]
      split at hstep
      · rename_i hup
        rw [if_pos hup]
        exact stepThrough_put h hlink hstep
      · rename_i hup
        rw [if_neg hup]
        split at hstep
        · -- The new file.
          cases rest with
          | nil =>
            cases hstep
            rw [hhere]
            rfl
          | cons next rest => cases hstep
        · rename_i hentry
          rw [hother _ hentry nofun]
          exact stepThrough_put h hlink hstep
        · -- The file that is written over.
          cases rest with
          | nil =>
            cases hstep
            rw [hhere]
            rfl
          | cons next rest => cases hstep
        · rename_i target hentry
          rw [hother _ hentry nofun]
          exact hlink hstep

theorem resolveWithin_put (h : t.Writable place) :
    ∀ {links : Nat} {at' : Place} {names : List String},
      t.resolveWithin .written links at' names = .ok place →
        (t.put place (.file content)).resolveWithin .found links at' names = .ok place
  | 0, _, _, hresolve => stepThrough_put h (fun h => by cases h) hresolve
  | _ + 1, _, _, hresolve => stepThrough_put h (fun h' => resolveWithin_put h h') hresolve

theorem resolve_put (h : t.Writable place) (hresolve : t.resolveTo .written path = .ok place) :
    (t.put place (.file content)).resolve path = .ok place := by
  unfold resolve
  unfold resolveTo at hresolve ⊢
  split at hresolve
  · cases hresolve
  · rename_i hempty
    rw [if_neg hempty]
    exact resolveWithin_put h hresolve

end Put

theorem find?_writeFile (h : t.writeFile path text = .ok t') :
    t'.find? path = some (.file (some text)) := by
  obtain ⟨place, hresolve, hwritable, rfl⟩ := writeFile_ok h
  rw [find?, resolve_put hwritable hresolve]
  exact (t.entryAt_put hwritable.ne_nil _ place).trans (if_pos rfl)

theorem current_writeFile (h : t.writeFile path text = .ok t') : t'.current = t.current := by
  obtain ⟨_, -, -, rfl⟩ := writeFile_ok h
  rfl

theorem ne_empty_of_writeFile (h : t.writeFile path text = .ok t') : path ≠ "" := by
  rintro rfl
  obtain ⟨_, hresolve, -⟩ := writeFile_ok h
  cases hresolve

/-- A file is read as it was written. -/
theorem readText_writeFile (h : t.writeFile path text = .ok t') : t'.readText path = .ok text := by
  obtain ⟨place, hresolve, hwritable, rfl⟩ := writeFile_ok h
  have hentry : (t.put place (.file (some text))).entryAt place = some (.file (some text)) := by
    rw [t.entryAt_put hwritable.ne_nil, if_pos rfl]
  rw [readText, resolve_put hwritable hresolve]
  simp only [hentry]

/-! ## Relative paths -/

/-- Down to a place there are directories only. -/
def OpenTo (t : FileTree) (p : Place) : Prop := ∀ q, q <+: p → t.entryAt q = some .directory

theorem Sound.openTo (h : t.Sound) (hp : t.entryAt p = some .directory) : t.OpenTo p := by
  rintro q ⟨rest, rfl⟩
  by_cases hrest : rest = []
  · rwa [hrest, List.append_nil] at hp
  · exact h.directory_of_prefix hrest hp

theorem OpenTo.of_keeps (h : t.OpenTo p) (hkeeps : t.Keeps t') : t'.OpenTo p :=
  fun q hq => hkeeps.entryAt (h q hq)

theorem OpenTo.put (h : t.OpenTo p) (hplace : t.Writable place) (content : Option String) :
    (t.put place (.file content)).OpenTo p := by
  intro q hq
  rw [t.entryAt_put hplace.ne_nil, if_neg, h q hq]
  rintro rfl
  obtain ⟨text, heq⟩ := hplace _ (h q hq)
  cases heq

theorem OpenTo.writeFile (h : t.OpenTo p) (hwrite : t.writeFile path text = .ok t') : t'.OpenTo p := by
  obtain ⟨place, -, hwritable, rfl⟩ := writeFile_ok hwrite
  exact h.put hwritable _

theorem OpenTo.stepThrough {ending : PathEnding}
    {onLink : Place → List String → Except FileError Place} (rest : List String) :
    ∀ {names : List String} {at' : Place}, t.OpenTo (at' ++ names) → (∀ n ∈ names, IsName n) →
      t.stepThrough ending onLink at' (names ++ rest) = t.stepThrough ending onLink (at' ++ names) rest
  | [], at', _, _ => by rw [List.nil_append, List.append_nil]
  | name :: names, at', h, hnames => by
    have hsplit : at' ++ name :: names = at' ++ [name] ++ names := by simp
    rw [hsplit] at h ⊢
    rw [List.cons_append, stepThrough_name (hnames name (.head _)), h _ (List.prefix_append _ _)]
    exact OpenTo.stepThrough rest h fun n hn => hnames n (.tail _ hn)

theorem namesOf_join (hp : p.Proper) (hpath : Path.isAbsolute path = false) :
    namesOf (Path.join p.text path) = "" :: (p ++ namesOf path) := by
  have hslash : ∀ front : String, Path.pieces (front ++ "/" ++ path) =
      Path.pieces front ++ Path.pieces path := by
    intro front
    have htext : (front ++ "/" ++ path).toList = front.toList ++ '/' :: path.toList := by
      simp [String.toList_append]
    rw [Path.pieces, htext]
    exact splitWhere_append (by rfl) _ _
  rw [Path.join, hpath, p.isEmpty_text]
  by_cases hne : p = []
  · subst hne
    have hroot : Place.text [] ++ path = "" ++ "/" ++ path := by
      rw [Place.text]
      simp
    rw [if_neg (by decide), if_pos (by decide +kernel), hroot, namesOf, hslash]
    rfl
  · have hlast : (p.text.toList.getLast? == some '/') = false :=
      beq_eq_false_iff_ne.mpr fun h => hne ((Place.getLast?_text hp).mp h)
    rw [if_neg (by decide), hlast, if_neg (by decide), namesOf, hslash, List.map_append,
      ← namesOf, ← namesOf, Place.namesOf_text hp hne]
    rfl

/-- A relative path and the one joined to the current directory lead to one place. -/
theorem resolveTo_join (ending : PathEnding) (hcurrent : t.OpenTo t.current)
    (hproper : t.current.Proper) (hpath : Path.isAbsolute path = false) (hne : path ≠ "") :
    t.resolveTo ending (Path.join t.current.text path) = t.resolveTo ending path := by
  have hfilled : path.isEmpty = false :=
    Bool.eq_false_iff.mpr fun hempty => hne (String.isEmpty_iff.mp hempty)
  obtain ⟨tail, htail⟩ : ∃ tail, (Path.join t.current.text path).toList = '/' :: tail := by
    rw [Path.join, hpath, t.current.isEmpty_text, if_neg (by decide)]
    split <;> simp [String.toList_append, Place.toList_text]
  have hjoined : (Path.join t.current.text path).isEmpty = false := by
    rw [Bool.eq_false_iff, ne_eq, String.isEmpty_iff]
    rintro heq
    rw [heq] at htail
    cases htail
  have habsolute : Path.isAbsolute (Path.join t.current.text path) = true := by
    rw [Path.isAbsolute, htail]
    rfl
  rw [resolveTo, hjoined, habsolute, namesOf_join hproper hpath, resolveTo, hfilled, hpath]
  exact OpenTo.stepThrough (namesOf path) hcurrent hproper

end FileTree

end LuaScope

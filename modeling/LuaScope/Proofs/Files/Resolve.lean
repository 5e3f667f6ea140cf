import LuaScope.Proofs.Files.Tree

/-!
# LuaScope.Proofs.Files.Resolve

Where paths lead.

* `FileTree.Unlinked`     — a tree without symbolic links.
* `FileTree.resolve_text` — there the text of a place leads to the place, if something stands there.
* `FileTree.Sound.resolve_erase` — deleting a file changes the way to no directory.
-/

namespace LuaScope

def FileEntry.isLink : FileEntry → Bool
  | .link _ => true
  | _ => false

namespace FileTree

variable {t : FileTree} {p q : Place} {e : FileEntry}

def Unlinked (t : FileTree) : Prop := ∀ entry ∈ t.entries, entry.2.isLink = false

instance (t : FileTree) : Decidable t.Unlinked := inferInstanceAs (Decidable (∀ _ ∈ _, _))

theorem Unlinked.entryAt (h : t.Unlinked) (target : String) :
    t.entryAt p ≠ some (.link target) := by
  intro hlink
  by_cases hne : p = []
  · subst hne
    cases hlink
  · cases h _ (mem_of_entryAt hne hlink)

/-! ## Places -/

section Step

variable {ending : PathEnding} {onLink : Place → List String → Except FileError Place}
  {name : String} {rest : List String}

theorem stepThrough_name (hname : IsName name) :
    t.stepThrough ending onLink p (name :: rest) =
      match t.entryAt (p ++ [name]) with
      | none => ending.missing (p ++ [name]) rest
      | some .directory => t.stepThrough ending onLink (p ++ [name]) rest
      | some (.file _) => if rest.isEmpty then .ok (p ++ [name]) else .error (ending.blocked rest)
      | some (.link target) =>
        onLink (if Path.isAbsolute target then [] else p) (namesOf target ++ rest) := by
  have hskip : (name == "" || name == ".") = false := by
    simp [hname.1, hname.2.1]
  have hup : (name == "..") = false := beq_eq_false_iff_ne.mpr hname.2.2.1
  rw [stepThrough, hskip, hup]
  rfl

/-- Without links names lead nowhere but to their place. -/
theorem stepThrough_eq (h : t.Unlinked) : ∀ {names : List String} {p place : Place},
    (∀ n ∈ names, IsName n) → t.stepThrough .found onLink p names = .ok place → place = p ++ names
  | [], p, place, _, hstep => by
    cases hstep
    rw [List.append_nil]
  | name :: rest, p, place, hnames, hstep => by
    rw [stepThrough_name (hnames name (.head _))] at hstep
    have hrest : ∀ n ∈ rest, IsName n := fun n hn => hnames n (.tail _ hn)
    split at hstep
    · cases hstep
    · rw [stepThrough_eq h hrest hstep, List.append_assoc, List.singleton_append]
    · split at hstep
      · rename_i hempty
        cases hstep
        rw [List.isEmpty_iff.mp hempty]
      · cases hstep
    · rename_i target hlink
      exact absurd hlink (h.entryAt target)

/-- They lead there if something stands there. -/
theorem stepThrough_of_entryAt (hsound : t.Sound) (h : t.Unlinked) :
    ∀ {names : List String} {p : Place}, (∀ n ∈ names, IsName n) →
      t.entryAt (p ++ names) = some e → t.stepThrough ending onLink p names = .ok (p ++ names)
  | [], p, _, _ => by
    rw [List.append_nil]
    rfl
  | name :: rest, p, hnames, hentry => by
    have hrest : ∀ n ∈ rest, IsName n := fun n hn => hnames n (.tail _ hn)
    have hsplit : p ++ name :: rest = p ++ [name] ++ rest := by simp
    rw [hsplit] at hentry ⊢
    rw [stepThrough_name (hnames name (.head _))]
    by_cases hempty : rest = []
    · subst hempty
      rw [List.append_nil] at hentry ⊢
      rw [hentry]
      cases e with
      | directory => rfl
      | file text => rfl
      | link target => exact absurd hentry (h.entryAt target)
    · rw [hsound.directory_of_prefix hempty hentry]
      exact stepThrough_of_entryAt hsound h hrest hentry

end Step

theorem resolve_eq_stepThrough (t : FileTree) (p : Place) :
    ∃ onLink, t.resolve p.text = t.stepThrough .found onLink [] (namesOf p.text) := by
  refine ⟨t.resolveWithin .found 39, ?_⟩
  rw [resolve, resolveTo, p.isEmpty_text, p.isAbsolute_text]
  rfl

theorem stepThrough_root {ending : PathEnding}
    {onLink : Place → List String → Except FileError Place} (h : p.Proper) :
    t.stepThrough ending onLink [] (namesOf p.text) = t.stepThrough ending onLink [] p := by
  by_cases hne : p = []
  · subst hne
    have hnames : namesOf (Place.text []) = ["", ""] := by decide +kernel
    rw [hnames]
    rfl
  · rw [Place.namesOf_text h hne]
    rfl

theorem eq_of_resolve_text (h : t.Unlinked) (hp : p.Proper) {place : Place}
    (hresolve : t.resolve p.text = .ok place) : place = p := by
  obtain ⟨onLink, heq⟩ := t.resolve_eq_stepThrough p
  rw [heq, stepThrough_root hp] at hresolve
  exact stepThrough_eq h hp hresolve

theorem resolve_text (hsound : t.Sound) (h : t.Unlinked) (hentry : t.entryAt p = some e) :
    t.resolve p.text = .ok p := by
  have hp := hsound.proper_of_entryAt hentry
  obtain ⟨onLink, heq⟩ := t.resolve_eq_stepThrough p
  rw [heq, stepThrough_root hp]
  exact stepThrough_of_entryAt hsound h hp hentry

theorem canonicalize?_text (hsound : t.Sound) (h : t.Unlinked) (hentry : t.entryAt p = some e) :
    t.canonicalize? p.text = some p.text := by
  rw [canonicalize?, resolve_text hsound h hentry]

theorem isDirectory_text (hsound : t.Sound) (h : t.Unlinked)
    (hentry : t.entryAt p = some .directory) : t.isDirectory p.text = true := by
  rw [isDirectory, find?, resolve_text hsound h hentry]
  exact beq_iff_eq.mpr hentry

/-! ## Deleting a file -/

namespace Sound

/-- Stepping through names meets no file on the way to a directory. -/
theorem stepThrough_erase (h : t.Sound) {text : Option String}
    (hfile : t.entryAt p = some (.file text))
    {onLink onLink' : Place → List String → Except FileError Place}
    (hlink : ∀ {at' names dir}, t.entryAt dir = some .directory → onLink at' names = .ok dir →
      onLink' at' names = .ok dir) {dir : Place} (hdir : t.entryAt dir = some .directory) :
    ∀ {names : List String} {at' : Place}, t.stepThrough .found onLink at' names = .ok dir →
      (t.erase p).stepThrough .found onLink' at' names = .ok dir
  | [], _, hstep => hstep
  | name :: rest, at', hstep => by
    unfold stepThrough at hstep ⊢
    split at hstep
    · rename_i hskip
      rw [if_pos hskip]
      exact stepThrough_erase h hfile hlink hdir hstep
    · rename_i hskip
      rw [if_neg hskip]
      split at hstep
      · rename_i hup
        rw [if_pos hup]
        exact stepThrough_erase h hfile hlink hdir hstep
      · rename_i hup
        have hkept : ∀ e, t.entryAt (at' ++ [name]) = some e → (∀ text, e ≠ .file text) →
            (t.erase p).entryAt (at' ++ [name]) = some e := by
          intro e hentry hother
          rw [h.entryAt_erase_file (by rw [hfile]; nofun), if_neg, hentry]
          intro heq
          rw [heq, hfile] at hentry
          exact hother text (Option.some.inj hentry).symm
        rw [if_neg hup]
        split at hstep
        · cases hstep
        · rename_i hentry
          rw [hkept _ hentry nofun]
          exact stepThrough_erase h hfile hlink hdir hstep
        · rename_i hentry
          split at hstep
          · cases hstep
            rw [hdir] at hentry
            cases hentry
          · cases hstep
        · rename_i target hentry
          rw [hkept _ hentry nofun]
          exact hlink hdir hstep

theorem resolveWithin_erase (h : t.Sound) {text : Option String}
    (hfile : t.entryAt p = some (.file text)) :
    ∀ {links : Nat} {at' : Place} {names : List String} {dir : Place},
      t.entryAt dir = some .directory → t.resolveWithin .found links at' names = .ok dir →
        (t.erase p).resolveWithin .found links at' names = .ok dir
  | 0, _, _, _, hdir, hresolve => h.stepThrough_erase hfile (fun _ h => h) hdir hresolve
  | _ + 1, _, _, _, hdir, hresolve =>
    h.stepThrough_erase hfile (fun hdir => h.resolveWithin_erase hfile hdir) hdir hresolve

/-- Deleting a file changes the way to no directory. -/
theorem resolve_erase (h : t.Sound) {text : Option String}
    (hfile : t.entryAt p = some (.file text)) {path : String} {dir : Place}
    (hdir : t.entryAt dir = some .directory) (hresolve : t.resolve path = .ok dir) :
    (t.erase p).resolve path = .ok dir := by
  unfold resolve resolveTo at hresolve ⊢
  split at hresolve
  · cases hresolve
  · rename_i hempty
    rw [if_neg hempty]
    exact h.resolveWithin_erase hfile hdir hresolve

end Sound

end FileTree

end LuaScope

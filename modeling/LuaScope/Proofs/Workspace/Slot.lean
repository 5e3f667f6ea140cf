import LuaScope.Proofs.Binding.Build
import LuaScope.Workspace.Documents

/-!
# LuaScope.Proofs.Workspace.Slot

What each operation on the documents does to the slots, one statement for each operation.

* `Slot.Loads` — all that any number of loads can do to one slot: nothing, or put an index into
  it once, when it was idle and had none.
* `Documents.build_loads` — a build does no more than that to any slot.
-/

namespace LuaScope

/-- May a load store this index in the slot? -/
def Slot.Admits (s : Slot) (index : Index) : Prop :=
  s.index = none ∧ s.settled = s.revision ∧ s.revision + 1 = index.revision

instance (s : Slot) (index : Index) : Decidable (s.Admits index) :=
  inferInstanceAs (Decidable (_ ∧ _ ∧ _))

namespace Documents

/-! ## Reading back what was set -/

theorem put_lookup (document : DocumentId) (s : Slot) (x : DocumentId) :
    ∀ slots : List (DocumentId × Slot),
      (setSlot.put document s slots).lookup x = if x = document then some s else slots.lookup x
  | [] => by
    by_cases hx : x = document
    · simp [setSlot.put, hx]
    · have hne : (x == document) = false := by simpa using hx
      simp [setSlot.put, List.lookup_cons, hx, hne]
  | (id, old) :: rest => by
    unfold setSlot.put
    by_cases hid : id = document
    · subst hid
      by_cases hx : x = id
      · simp [hx]
      · have hne : (x == id) = false := by simpa using hx
        simp [List.lookup_cons, hx, hne]
    · rw [if_neg hid, List.lookup_cons, List.lookup_cons, put_lookup document s x rest]
      by_cases hx : x = id
      · have hne : x ≠ document := fun h => hid (hx ▸ h)
        simp [hx, hid]
      · have hne : (x == id) = false := by simpa using hx
        simp [hne]

@[simp] theorem slot?_setSlot (d : Documents) (document : DocumentId) (s : Slot)
    (x : DocumentId) :
    (d.setSlot document s).slot? x = if x = document then some s else d.slot? x :=
  put_lookup document s x d.slots

@[simp] theorem slot_setSlot (d : Documents) (document : DocumentId) (s : Slot)
    (x : DocumentId) :
    (d.setSlot document s).slot x = if x = document then s else d.slot x := by
  unfold slot
  rw [slot?_setSlot]
  split <;> rfl

theorem get_eq (d : Documents) (x : DocumentId) : d.get x = (d.slot x).index := by
  unfold get slot
  cases d.slot? x <;> rfl

theorem revision_eq (d : Documents) (x : DocumentId) : d.revision x = (d.slot x).revision := rfl

/-! ## One statement for each operation -/

theorem slot_beginEdit (d : Documents) (document : DocumentId) (text : String)
    (x : DocumentId) :
    (d.beginEdit document text).2.slot x =
      if x = document then { d.slot x with revision := (d.slot x).revision + 1 }
      else d.slot x := by
  simp only [beginEdit, slot_setSlot]
  split
  · rename_i hx
    rw [hx]
  · rfl

theorem commit_eq (d : Documents) (index : Index) :
    (d.commit index).1 =
      if (d.slot index.document).revision = index.revision then .applied index
      else .stale index.revision (d.slot index.document).revision := by
  simp only [commit]
  split <;> rfl

theorem slot_commit (d : Documents) (index : Index) (x : DocumentId) :
    (d.commit index).2.slot x =
      if x = index.document ∧ (d.slot x).revision = index.revision then
        { d.slot x with settled := (d.slot x).revision, index := some index }
      else d.slot x := by
  simp only [commit]
  by_cases hx : x = index.document
  · subst hx
    split <;> simp [*]
  · split <;> simp [hx]

theorem publishLoaded_eq (d : Documents) (index : Index) :
    (d.publishLoaded index).1 = (d.get index.document).getD index := by
  rw [get_eq]
  simp only [publishLoaded]
  split
  · rename_i current hcurrent
    rw [hcurrent]
    rfl
  · rename_i hnone
    rw [hnone]
    split <;> rfl

theorem slot_publishLoaded (d : Documents) (index : Index) (x : DocumentId) :
    (d.publishLoaded index).2.slot x =
      if x = index.document ∧ (d.slot x).Admits index then
        { revision := index.revision, settled := index.revision, index := some index }
      else d.slot x := by
  simp only [publishLoaded, Slot.Admits]
  by_cases hx : x = index.document
  · subst hx
    split
    · rename_i current hcurrent
      simp [hcurrent]
    · rename_i hnone
      by_cases hidle : (d.slot index.document).settled = (d.slot index.document).revision
      · by_cases hnext : (d.slot index.document).revision + 1 = index.revision
        · simp [Slot.isPending, hnone, hidle, hnext]
        · simp [Slot.isPending, hidle, hnext]
      · simp [Slot.isPending, hidle]
  · split
    · simp [hx]
    · split <;> simp [hx]

/-- A loaded index that its slot admits is put into it. -/
theorem slot_publishLoaded_of_admits {d : Documents} {index : Index}
    (h : (d.slot index.document).Admits index) (x : DocumentId) :
    (d.publishLoaded index).2.slot x =
      if x = index.document then ⟨index.revision, index.revision, some index⟩ else d.slot x := by
  rw [slot_publishLoaded]
  by_cases hx : x = index.document
  · rw [if_pos ⟨hx, hx ▸ h⟩, if_pos hx]
  · rw [if_neg fun h => hx h.1, if_neg hx]

theorem slot_remove (d : Documents) (document : DocumentId) (x : DocumentId) :
    (d.remove document).2.slot x =
      if x = document ∧ (d.slot? x).isSome then
        { revision := (d.slot x).revision + 1, settled := (d.slot x).revision + 1, index := none }
      else d.slot x := by
  simp only [remove]
  by_cases hx : x = document
  · subst hx
    split
    · rename_i hnone
      simp [hnone]
    · rename_i s hs
      simp [hs, slot]
  · split <;> simp [hx]

theorem slot_eq_default {d : Documents} {x : DocumentId} (h : (d.slot? x).isSome = false) :
    d.slot x = {} := by
  unfold slot
  cases hs : d.slot? x with
  | none => rfl
  | some s => rw [hs] at h; cases h

end Documents

/-! ## Loads -/

/-- What any number of loads may make of the slot of a document. -/
def Slot.Loads (document : DocumentId) (s s' : Slot) : Prop :=
  s' = s ∨ ∃ index, index.document = document ∧ s.Admits index ∧
    s' = { revision := index.revision, settled := index.revision, index := some index }

namespace Slot

variable {document : DocumentId}

theorem Loads.refl (s : Slot) : s.Loads document s := .inl rfl

/-- A slot that was filled admits nothing more. -/
theorem Loads.trans {s s' s'' : Slot} (h : s.Loads document s') (h' : s'.Loads document s'') :
    s.Loads document s'' := by
  rcases h with rfl | ⟨index, hdoc, hadmits, rfl⟩
  · exact h'
  · rcases h' with rfl | ⟨_, _, ⟨hnone, _⟩, _⟩
    · exact .inr ⟨index, hdoc, hadmits, rfl⟩
    · cases hnone

theorem Loads.eq_of_isSome {s s' : Slot} (h : s.Loads document s') (hs : s.index.isSome) :
    s' = s := by
  rcases h with rfl | ⟨_, _, ⟨hnone, _⟩, _⟩
  · rfl
  · rw [hnone] at hs; cases hs

theorem Loads.eq_of_isPending {s s' : Slot} (h : s.Loads document s')
    (hs : s.settled ≠ s.revision) : s' = s := by
  rcases h with rfl | ⟨_, _, ⟨_, hidle, _⟩, _⟩
  · rfl
  · exact absurd hidle hs

end Slot

namespace Documents

theorem publishLoaded_loads (d : Documents) (index : Index) (x : DocumentId) :
    (d.slot x).Loads x ((d.publishLoaded index).2.slot x) := by
  rw [slot_publishLoaded]
  split
  · rename_i h
    exact .inr ⟨index, h.1.symm, h.2, rfl⟩
  · exact .refl _

/-- All slots of the second manager are those of the first, but for loads. -/
def Loads (d d' : Documents) : Prop := ∀ x, (d.slot x).Loads x (d'.slot x)

theorem Loads.refl (d : Documents) : d.Loads d := fun x => .refl (d.slot x)

theorem Loads.trans {d d' d'' : Documents} (h : d.Loads d') (h' : d'.Loads d'') :
    d.Loads d'' := fun x => (h x).trans (h' x)

/-- By induction on the fuel: the loader of a required file calls itself with less of it. -/
theorem load_loads (m : ModuleSource) :
    ∀ (fuel : Nat) (stack : List DocumentId) (name : String) (d : Documents),
      d.Loads (load m fuel stack name d).2 := by
  intro fuel
  induction fuel with
  | zero =>
    intro stack name d
    unfold load
    simp only
    split
    · exact .refl d
    · split
      · exact .refl d
      · split <;> exact .refl d
  | succ fuel ih =>
    intro stack name d
    unfold load
    simp only
    split
    · exact .refl d
    · split
      · exact .refl d
      · split
        · exact .refl d
        · split
          · exact .refl d
          · rename_i path _ _ _ _ _ text _
            have hbuild := Index.build_world Loads.refl (fun _ _ _ => Loads.trans) _
              (ih (stack ++ [DocumentId.ofPath path])) (DocumentId.ofPath path)
              (d.revision (DocumentId.ofPath path) + 1) text d.options d
            exact hbuild.trans (publishLoaded_loads _ _)

theorem build_loads (d : Documents) (m : ModuleSource) (p : PendingBuild) :
    d.Loads (d.build m p).2 :=
  Index.build_world Loads.refl (fun _ _ _ => Loads.trans) _ (load_loads m _ _) _ _ _ _ d

end Documents

/-- Some loader, in some state of its own, leads the pending build to this index. -/
def PendingBuild.Builds (p : PendingBuild) (index : Index) : Prop :=
  ∃ (σ : Type) (loader : Loader σ) (world : σ), index = (Documents.buildWith p loader world).1

namespace PendingBuild

variable {p : PendingBuild} {index : Index}

theorem Builds.document (h : p.Builds index) : index.document = p.document := by
  obtain ⟨σ, loader, world, rfl⟩ := h
  exact Index.build_document _ _ _ _ loader world

theorem Builds.revision (h : p.Builds index) : index.revision = p.revision := by
  obtain ⟨σ, loader, world, rfl⟩ := h
  exact Index.build_revision _ _ _ _ loader world

/-- The build of the program is such a build. -/
theorem builds_build (p : PendingBuild) (d : Documents) (m : ModuleSource) :
    p.Builds (d.build m p).1 := ⟨Documents, _, d, rfl⟩

end PendingBuild

end LuaScope

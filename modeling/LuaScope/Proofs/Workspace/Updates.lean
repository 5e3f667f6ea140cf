import LuaScope.Proofs.Workspace.Loading

/-!
# LuaScope.Proofs.Workspace.Updates

Updates of documents, one after the other, while the files stay as they are.

* `Documents.slot_update`        — an update puts the index that it built into the slot of its
  document, and leaves the other slots as the build did.
* `Documents.get_updated_append` — an index stays published until its document is updated.
-/

namespace LuaScope

/-- A text of a document. -/
structure Contents where
  document : DocumentId
  text : String
deriving DecidableEq

namespace Documents

/-- The documents of a new manager after these updates. -/
def updated (m : ModuleSource) (options : ParserOptions) (us : List Contents) : Documents :=
  us.foldl (fun d u => (d.update m u.document u.text).2) { options := options }

variable {m : ModuleSource} {options : ParserOptions} {d : Documents} {u : Contents}
  {us vs : List Contents} {x : DocumentId} {index : Index}

theorem updated_snoc (m : ModuleSource) (options : ParserOptions) (us : List Contents)
    (u : Contents) :
    updated m options (us ++ [u]) = ((updated m options us).update m u.document u.text).2 := by
  rw [updated, List.foldl_append]
  rfl

/-- The build that an update waits for. -/
def built (d : Documents) (m : ModuleSource) (u : Contents) : Index × Documents :=
  (d.beginEdit u.document u.text).2.build m (d.beginEdit u.document u.text).1

theorem get_beginEdit (d : Documents) (document : DocumentId) (text : String) (x : DocumentId) :
    (d.beginEdit document text).2.get x = d.get x := by
  rw [get_eq, get_eq, slot_beginEdit]
  split <;> rfl

theorem built_fills (d : Documents) (m : ModuleSource) (u : Contents) :
    (d.beginEdit u.document u.text).2.Fills m [u.document] (d.built m u).2 :=
  build_fills (d.beginEdit u.document u.text).2 m (d.beginEdit u.document u.text).1

/-- The slot of the document waits for the index. -/
theorem slot_built (d : Documents) (m : ModuleSource) (u : Contents) :
    (d.built m u).2.slot u.document =
      { d.slot u.document with revision := (d.slot u.document).revision + 1 } := by
  have hkept := ((d.built_fills m u).slot? u.document).eq_of_mem (List.mem_singleton.mpr rfl)
  rw [slot, hkept, ← slot, slot_beginEdit, if_pos rfl]

theorem built_loads (d : Documents) (m : ModuleSource) {u : Contents} {x : DocumentId}
    (hx : x ≠ u.document) : (d.slot x).Loads x ((d.built m u).2.slot x) := by
  have hloads := build_loads (d.beginEdit u.document u.text).2 m
    (d.beginEdit u.document u.text).1 x
  rwa [slot_beginEdit, if_neg hx] at hloads

theorem built_document (d : Documents) (m : ModuleSource) (u : Contents) :
    (d.built m u).1.document = u.document :=
  (PendingBuild.builds_build (d.beginEdit u.document u.text).1 _ m).document

theorem built_revision (d : Documents) (m : ModuleSource) (u : Contents) :
    (d.built m u).1.revision = (d.slot u.document).revision + 1 :=
  (PendingBuild.builds_build (d.beginEdit u.document u.text).1 _ m).revision

theorem slot_update (d : Documents) (m : ModuleSource) (u : Contents) (x : DocumentId) :
    (d.update m u.document u.text).2.slot x =
      if x = u.document then
        { revision := (d.slot x).revision + 1, settled := (d.slot x).revision + 1,
          index := some (d.built m u).1 }
      else (d.built m u).2.slot x := by
  have hcommit : (d.update m u.document u.text).2 =
      ((d.built m u).2.commit (d.built m u).1).2 := rfl
  rw [hcommit, slot_commit, built_document, built_revision]
  by_cases hx : x = u.document
  · rw [hx, slot_built, if_pos ⟨rfl, rfl⟩, if_pos rfl]
  · rw [if_neg hx, if_neg fun h => hx h.1]

theorem get_update_self (d : Documents) (m : ModuleSource) (u : Contents) :
    (d.update m u.document u.text).2.get u.document = some (d.built m u).1 := by
  rw [get_eq, slot_update, if_pos rfl]

theorem get_update_of_ne (hx : x ≠ u.document) :
    (d.update m u.document u.text).2.get x = (d.built m u).2.get x := by
  rw [get_eq, get_eq, slot_update, if_neg hx]

/-- Loads replace no index. -/
theorem get_built (h : d.get x = some index) : (d.built m u).2.get x = some index := by
  rw [← get_beginEdit d u.document u.text, get_eq] at h
  have hkept := ((d.built_fills m u).slot? x).eq_of_isSome (by rw [← slot, h]; rfl)
  rw [get_eq, slot, hkept, ← slot, h]

theorem get_updated_append (h : (updated m options us).get x = some index)
    (hvs : ∀ v ∈ vs, v.document ≠ x) : (updated m options (us ++ vs)).get x = some index := by
  induction vs generalizing us with
  | nil => rwa [List.append_nil]
  | cons v vs ih =>
    rw [List.append_cons]
    refine ih ?_ fun w hw => hvs w (.tail _ hw)
    rw [updated_snoc, get_update_of_ne (hvs v (.head _)).symm]
    exact get_built h

/-- A document that has an index keeps one. -/
theorem isSome_get_updated_append (h : ((updated m options us).get x).isSome)
    (vs : List Contents) : ((updated m options (us ++ vs)).get x).isSome := by
  induction vs generalizing us with
  | nil => rwa [List.append_nil]
  | cons v vs ih =>
    rw [List.append_cons]
    refine ih ?_
    rw [updated_snoc]
    by_cases hx : x = v.document
    · rw [hx, get_update_self]
      rfl
    · obtain ⟨index, hindex⟩ := Option.isSome_iff_exists.mp h
      rw [get_update_of_ne hx, get_built hindex]
      rfl

end Documents

end LuaScope

import LuaScope.Proofs.Binding.Answers
import LuaScope.Proofs.Linking.Build

/-!
# LuaScope.Proofs.Linking.Traced

An index keeps the indices of the modules it requires as they were when it was built, and they keep
those of theirs. `Index.Traced` says of all of them what a property says of one.

* `Index.build_traced`     — a build makes a traced index of traced answers.
* `Index.Traced.of_resolve` — a path is resolved to a symbol of an index that has the property.
-/

namespace LuaScope

/-- The index knows what its text holds and has the property, and so does every index that its links
lead into: all of them belong to some set of indices that lead into no others. -/
def Index.Traced (P : Index → Prop) (i : Index) : Prop :=
  ∃ S : Index → Prop, S i ∧ ∀ j, S j → P j ∧ j.Faithful (.all S)

namespace Index

variable {P Q : Index → Prop} {i : Index}

namespace Traced

theorem holds (h : i.Traced P) : P i := by
  obtain ⟨_, hi, hall⟩ := h
  exact (hall i hi).1

/-- The links of a traced index lead into traced ones. -/
theorem faithful (h : i.Traced P) : i.Faithful (.all (Traced P)) := by
  obtain ⟨S, hi, hall⟩ := h
  exact (hall i hi).2.weaken ⟨id, fun o ho => ⟨S, ho, hall⟩⟩

theorem imp (h : i.Traced P) (himp : ∀ j, P j → Q j) : i.Traced Q := by
  obtain ⟨S, hi, hall⟩ := h
  exact ⟨S, hi, fun j hj => (hall j hj).imp_left (himp j)⟩

end Traced

theorem Faithful.traced (h : i.Faithful (.all (Traced P))) (hi : P i) : i.Traced P :=
  ⟨fun j => P j ∧ j.Faithful (.all (Traced P)), ⟨hi, h⟩,
    fun _ hj => ⟨hj.1, hj.2.weaken ⟨id, fun _ ho => ⟨ho.holds, ho.faithful⟩⟩⟩⟩

theorem met_traced (P : Index → Prop) : (Demand.all (Traced P)).Met :=
  fun _ _ ho => ho.faithful.safe

/-- What a build is answered is all that it takes in. -/
theorem build_traced {σ : Type} {loader : Loader σ} {world : σ} {text : String}
    (hanswers : ∀ o, some o ∈ (loader.askAll (asked text) world).1 → o.Traced P)
    (document : DocumentId) (revision : Revision) (options : ParserOptions) :
    (Index.build document revision text options loader world).1.Faithful (.all (Traced P)) := by
  rw [build_eq_ofAnswers]
  -- The answers are handed out again by a loader whose state is those that are left.
  refine build_faithful (met_traced P)
    (W := fun answers => ∀ o, some o ∈ answers → o.Traced P) (fun name answers hleft => ?_)
    document revision text options hanswers
  cases answers with
  | nil => exact ⟨nofun, nofun⟩
  | cons answer answers =>
    refine ⟨fun o ho => hleft o (.tail _ ho), fun o ho _ => hleft o ?_⟩
    have ho : answer = some o := ho
    exact ho ▸ .head _

/-- A path is resolved to a symbol of the index itself or of one that it leads into. -/
theorem Traced.of_resolve (h : i.Traced P) {path : String} {offset : Nat} {handle : Handle}
    (hfound : (i.resolve path offset).first? = some handle) :
    handle.index.Traced P ∧
      ∃ x, handle.symbol? = some x ∧ (splitPath path).getLast? = some x.name :=
  symbol_of_resolve (met_traced P) h hfound

end Index

end LuaScope

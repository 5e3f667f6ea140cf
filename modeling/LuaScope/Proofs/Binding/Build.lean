import LuaScope.Binding.Build
import LuaScope.Proofs.Binding.Walk

/-!
# LuaScope.Proofs.Binding.Build

What an index takes over from the build it comes from, and what a build does to the state of its
loader: nothing but what the calls of the loader do (`Index.build_world`).
-/

namespace LuaScope

variable {σ : Type}

theorem Index.build_document (document : DocumentId) (revision : Revision) (text : String)
    (options : ParserOptions) (loader : Loader σ) (world : σ) :
    (Index.build document revision text options loader world).1.document = document := by
  unfold Index.build
  simp only
  split <;> rfl

theorem Index.build_revision (document : DocumentId) (revision : Revision) (text : String)
    (options : ParserOptions) (loader : Loader σ) (world : σ) :
    (Index.build document revision text options loader world).1.revision = revision := by
  unfold Index.build
  simp only
  split <;> rfl

theorem Index.build_source (document : DocumentId) (revision : Revision) (text : String)
    (options : ParserOptions) (loader : Loader σ) (world : σ) :
    (Index.build document revision text options loader world).1.source = .ofString text := by
  unfold Index.build
  simp only
  split <;> rfl

/-- Only a `require` touches the loader's state. -/
theorem Binder.worldLaws {W : σ → σ → Prop} (refl : ∀ w, W w w)
    (trans : ∀ u v w, W u v → W v w → W u w) (s : Setting σ)
    (hload : ∀ name w, W w (s.loader name w).2) :
    Binder.Laws s (fun b b' => W b.world b'.world) (fun b b' => W b.world b'.world) where
  refl b := refl b.world
  trans _ _ _ := trans _ _ _
  outerTrans _ _ _ := trans _ _ _
  weaken _ _ h := h
  record _ _ _ b := refl b.world
  member _ b _ := refl b.world
  modify _ _ b _ := refl b.world
  load name b := hload name b.world
  declare _ b _ _ := refl b.world
  note value b := by
    have hworld : (b.noteReturn value).world = b.world := by
      unfold Binder.noteReturn
      split
      · rfl
      · simp only
        split <;> split <;> rfl
    rw [hworld]
    exact refl b.world
  scope _ _ _ _ h := h
  frame b b' h := by
    have hworld : b'.popFrame.2.world = b'.world := by
      unfold Binder.popFrame
      split <;> rfl
    rw [hworld]
    exact h

theorem Index.build_world {W : σ → σ → Prop} (refl : ∀ w, W w w)
    (trans : ∀ u v w, W u v → W v w → W u w) (loader : Loader σ)
    (hload : ∀ name w, W w (loader name w).2) (document : DocumentId) (revision : Revision)
    (text : String) (options : ParserOptions) (world : σ) :
    W world (Index.build document revision text options loader world).2 := by
  unfold Index.build
  simp only
  split
  · exact refl world
  · rename_i chunk _
    let setting : Setting σ :=
      { source := .ofString text, document := document, allowDefined := options.allowDefined,
        loader := loader }
    exact Walk.statements_moves (Binder.worldLaws refl trans setting hload) chunk.statements 1
      (.start setting.source world)

end LuaScope

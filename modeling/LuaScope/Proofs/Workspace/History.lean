import LuaScope.Proofs.Linking.Traced
import LuaScope.Proofs.Workspace.Updates

/-!
# LuaScope.Proofs.Workspace.History

Where the indices come from that the published ones have taken in. Nothing replaces them there when
their documents are updated, so they are of different ages; but each was published at its time.

* `Documents.load_leads`  — what a loader answers is published when it is done, with all it took in.
* `Documents.get_traced`  — hence all that a published index holds was published after some of the
  updates made so far.
-/

namespace LuaScope

namespace Documents

/-- The index was published after the first ones of these updates. -/
def Seen (m : ModuleSource) (options : ParserOptions) (us : List Contents) (i : Index) : Prop :=
  ∃ earlier later, us = earlier ++ later ∧ (updated m options earlier).get i.document = some i

/-- The index is published, or was so in the past. -/
def Knows (past : Index → Prop) (d : Documents) (i : Index) : Prop :=
  past i ∨ d.get i.document = some i

/-- Documents that are not under build are idle, and published indices hold known ones alone. -/
structure Accounted (past : Index → Prop) (stack : List DocumentId) (d : Documents) : Prop where
  idle : ∀ x ∉ stack, (d.slot x).settled = (d.slot x).revision
  owned : ∀ x i, d.get x = some i → i.document = x
  traced : ∀ x i, d.get x = some i → i.Traced (d.Knows past)

/-- The loader was asked, and has led to accounted documents with these answers. -/
structure Leads (past : Index → Prop) (stack : List DocumentId) (d d' : Documents)
    (answers : List (Option Index)) : Prop where
  accounted : d'.Accounted past stack
  loads : d.Loads d'
  answers : ∀ i, some i ∈ answers → i.Traced (d'.Knows past)

variable {m : ModuleSource} {options : ParserOptions} {past : Index → Prop}
  {stack : List DocumentId} {d d' : Documents} {loader : Loader Documents} {us : List Contents}
  {i : Index}

theorem Knows.loads (h : d.Knows past i) (hloads : d.Loads d') : d'.Knows past i := by
  refine h.imp_right fun hget => ?_
  rw [get_eq] at hget ⊢
  rw [(hloads i.document).eq_of_isSome (by rw [hget]; rfl), hget]

/-- More documents may be under build. -/
theorem Accounted.mono (h : d.Accounted past stack) {inner : List DocumentId}
    (hsub : stack ⊆ inner) : d.Accounted past inner :=
  { h with idle := fun x hx => h.idle x fun hmem => hx (hsub hmem) }

/-- By induction on the names: the answers to the first ones stay known. -/
theorem Leads.askAll (h : ∀ name d, d.Accounted past stack →
      Leads past stack d (loader name d).2 [(loader name d).1]) (names : List String) :
    ∀ {d}, d.Accounted past stack →
      Leads past stack d (loader.askAll names d).2 (loader.askAll names d).1 := by
  induction names with
  | nil => exact fun hd => ⟨hd, .refl _, nofun⟩
  | cons name names ih =>
    intro d hd
    have hfirst := h name d hd
    have hrest := ih hfirst.accounted
    refine ⟨hrest.accounted, hfirst.loads.trans hrest.loads, fun i hi => ?_⟩
    rcases List.mem_cons.mp hi with heq | hi
    · exact (hfirst.answers i (List.mem_singleton.mpr heq)).imp fun _ hj => hj.loads hrest.loads
    · exact hrest.answers i hi

/-- A build takes in what its loader answers. -/
theorem Leads.build (h : ∀ name d, d.Accounted past stack →
      Leads past stack d (loader name d).2 [(loader name d).1])
    (hd : d.Accounted past stack) (p : PendingBuild) :
    let built := buildWith p loader d
    Leads past stack d built.2 [] ∧ built.1.Faithful (.all (Index.Traced (built.2.Knows past))) := by
  intro built
  have hasked := Leads.askAll h (Index.asked p.text) hd
  have hworld : built.2 = (loader.askAll (Index.asked p.text) d).2 :=
    congrArg Prod.snd (Index.build_eq_ofAnswers _ _ _ _ loader d)
  rw [hworld]
  exact ⟨⟨hasked.accounted, hasked.loads, nofun⟩, Index.build_traced hasked.answers _ _ _⟩

/-- An index is put into the slot of its document, and all that was known stays known. -/
theorem Accounted.put {inner : List DocumentId} (hd : d.Accounted past inner)
    {past' : Index → Prop} {revision : Revision}
    (hslot : ∀ x, d'.slot x =
      if x = i.document then ⟨revision, revision, some i⟩ else d.slot x)
    (hknown : ∀ j, d.Knows past j → d'.Knows past' j)
    (hi : i.Faithful (.all (Index.Traced (d.Knows past))))
    (hinner : ∀ x ∈ inner, x = i.document ∨ x ∈ stack) : d'.Accounted past' stack := by
  have hkept : ∀ j : Index, j.Traced (d.Knows past) → j.Traced (d'.Knows past') :=
    fun j hj => hj.imp hknown
  have hself : d'.get i.document = some i := by
    rw [get_eq, hslot, if_pos rfl]
  refine ⟨fun x hx => ?_, fun x j hj => ?_, fun x j hj => ?_⟩
  · rw [hslot]
    split
    · rfl
    · rename_i hne
      exact hd.idle x fun hmem => (hinner x hmem).elim hne hx
  · rw [get_eq, hslot] at hj
    split at hj
    · rename_i hx
      cases hj
      exact hx.symm
    · exact hd.owned x j ((get_eq d x).trans hj)
  · rw [get_eq, hslot] at hj
    split at hj
    · cases hj
      exact Index.Faithful.traced (hi.weaken ⟨id, hkept⟩) (.inr hself)
    · exact hkept j (hd.traced x j ((get_eq d x).trans hj))

/-- A loaded index that the slot of its document admits is published. -/
theorem Leads.publish (hd : d.Accounted past (stack ++ [i.document]))
    (hadmits : (d.slot i.document).Admits i)
    (hi : i.Faithful (.all (Index.Traced (d.Knows past)))) :
    Leads past stack d (d.publishLoaded i).2 [some (d.publishLoaded i).1] := by
  have hslot := slot_publishLoaded_of_admits hadmits
  have hloads : d.Loads (d.publishLoaded i).2 := publishLoaded_loads d i
  have haccounted : (d.publishLoaded i).2.Accounted past stack :=
    hd.put hslot (fun _ hj => hj.loads hloads) hi fun x hx => by simpa [or_comm] using hx
  refine ⟨haccounted, hloads, fun j hj => ?_⟩
  rw [publishLoaded_eq, get_eq, hadmits.1] at hj
  obtain rfl : j = i := Option.some.inj (List.mem_singleton.mp hj)
  exact haccounted.traced j.document j (by rw [get_eq, hslot, if_pos rfl])

theorem consult_published {fuel : Nat} {name : String}
    (h : consult m fuel stack name d = .published i) : ∃ x, d.get x = some i := by
  unfold consult at h
  split at h
  · cases h
  · split at h
    · cases h
    · split at h
      · rename_i index hget
        cases h
        exact ⟨_, hget⟩
      · split at h <;> cases h

/-- By induction on the fuel. The slot of a file stays as it was while the file is built, so its
index is published. -/
theorem load_leads (m : ModuleSource) (fuel : Nat) :
    ∀ (stack : List DocumentId) (name : String) (d : Documents), d.Accounted past stack →
      Leads past stack d (load m fuel stack name d).2 [(load m fuel stack name d).1] := by
  induction fuel using Nat.strongRecOn with
  | ind fuel ih =>
    intro stack name d hd
    rw [load_eq]
    cases hconsult : consult m fuel stack name d with
    | nothing => exact ⟨hd, .refl d, by simp⟩
    | published index =>
      obtain ⟨x, hget⟩ := consult_published hconsult
      refine ⟨hd, .refl d, fun i hi => ?_⟩
      cases List.mem_singleton.mp hi
      exact hd.traced x index hget
    | file document text =>
      obtain ⟨hstack, hget, hfuel, -⟩ := consult_file hconsult
      let p := d.beginLoad document text
      let built := buildWith p (load m (fuel - 1) (stack ++ [document])) d
      obtain ⟨hleads, hfaithful⟩ := Leads.build
        (ih (fuel - 1) (Nat.sub_one_lt_of_lt hfuel) (stack ++ [document]))
        (hd.mono (List.subset_append_left stack [document])) p
      have hbuilds : p.Builds built.1 := ⟨_, _, d, rfl⟩
      have hdoc : built.1.document = document := hbuilds.document
      have hkept : built.2.slot document = d.slot document := by
        have hfills : d.Fills m (stack ++ [document]) built.2 :=
          buildWith_fills (load_fills m _ _) p d
        rw [slot, (hfills.slot? document).eq_of_mem (by simp), ← slot]
      have hadmits : (built.2.slot built.1.document).Admits built.1 := by
        rw [hdoc, hkept]
        exact ⟨(get_eq d document).symm.trans hget, hd.idle document hstack,
          hbuilds.revision.symm⟩
      have haccounted : built.2.Accounted past (stack ++ [built.1.document]) := by
        rw [hdoc]
        exact hleads.accounted
      have hpublish := Leads.publish haccounted hadmits hfaithful
      exact { hpublish with loads := hleads.loads.trans hpublish.loads }

/-! ## Updates -/

theorem Accounted.beginEdit (h : d.Accounted past []) (document : DocumentId) (text : String) :
    (d.beginEdit document text).2.Accounted past [document] := by
  have hknows : (d.beginEdit document text).2.Knows past = d.Knows past := by
    funext i
    simp only [Knows, get_beginEdit]
  refine ⟨fun x hx => ?_, fun x i hi => ?_, fun x i hi => ?_⟩
  · rw [slot_beginEdit, if_neg (by simpa using hx)]
    exact h.idle x nofun
  · exact h.owned x i ((get_beginEdit d document text x).symm.trans hi)
  · rw [hknows]
    exact h.traced x i ((get_beginEdit d document text x).symm.trans hi)

theorem Seen.snoc (h : Seen m options us i) (u : Contents) : Seen m options (us ++ [u]) i := by
  obtain ⟨earlier, later, rfl, hget⟩ := h
  exact ⟨earlier, later ++ [u], List.append_assoc _ _ _, hget⟩

theorem seen_of_get {x : DocumentId} (howned : i.document = x)
    (h : (updated m options us).get x = some i) : Seen m options us i :=
  ⟨us, [], (List.append_nil us).symm, howned ▸ h⟩

/-- The index that an update replaces was published before, and no other one is lost. -/
theorem Accounted.update (h : (updated m options us).Accounted (Seen m options us) [])
    (u : Contents) :
    (updated m options (us ++ [u])).Accounted (Seen m options (us ++ [u])) [] := by
  let d := updated m options us
  obtain ⟨hleads, hfaithful⟩ := Leads.build (load_leads m maxRequireDepth [u.document])
    (h.beginEdit u.document u.text) (d.beginEdit u.document u.text).1
  have hdoc : (d.built m u).1.document = u.document := built_document d m u
  have hknown : ∀ i, (d.built m u).2.Knows (Seen m options us) i →
      Seen m options (us ++ [u]) i := by
    rintro i (hseen | hi)
    · exact hseen.snoc u
    · by_cases hx : i.document = u.document
      · rw [hx, get_eq, slot_built, ← get_eq] at hi
        exact (seen_of_get hx hi).snoc u
      · refine seen_of_get rfl ?_
        rw [updated_snoc, get_update_of_ne hx, hi]
  have hslot : ∀ x, (updated m options (us ++ [u])).slot x =
      if x = (d.built m u).1.document then
        ⟨(d.slot u.document).revision + 1, (d.slot u.document).revision + 1, some (d.built m u).1⟩
      else (d.built m u).2.slot x := by
    intro x
    rw [hdoc, updated_snoc, slot_update]
    split
    · rename_i hx
      rw [hx]
    · rfl
  exact hleads.accounted.put hslot (fun j hj => .inl (hknown j hj)) hfaithful
    fun x hx => .inl ((List.mem_singleton.mp hx).trans hdoc.symm)

/-- By induction on the updates still to come. -/
theorem Accounted.updates (h : (updated m options us).Accounted (Seen m options us) [])
    (vs : List Contents) :
    (updated m options (us ++ vs)).Accounted (Seen m options (us ++ vs)) [] := by
  induction vs generalizing us with
  | nil => rwa [List.append_nil]
  | cons v vs ih =>
    rw [List.append_cons]
    exact ih (h.update v)

theorem accounted_updated (m : ModuleSource) (options : ParserOptions) (us : List Contents) :
    (updated m options us).Accounted (Seen m options us) [] := by
  have hstart : (updated m options []).Accounted (Seen m options []) [] :=
    ⟨fun _ _ => rfl, nofun, nofun⟩
  exact hstart.updates us

/-- A published index, and all that it has taken in, was published after some of the updates. -/
theorem get_traced {x : DocumentId} (h : (updated m options us).get x = some i) :
    i.document = x ∧ i.Traced (Seen m options us) := by
  have haccounted := accounted_updated m options us
  have howned := haccounted.owned x i h
  refine ⟨howned, (haccounted.traced x i h).imp fun j hj => hj.elim id ?_⟩
  exact seen_of_get rfl

end Documents

end LuaScope

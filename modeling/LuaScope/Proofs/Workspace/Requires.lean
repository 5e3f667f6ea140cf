import LuaScope.Proofs.Workspace.Updates

/-!
# LuaScope.Proofs.Workspace.Requires

Which files require which, and what the index of a file is once all that it requires is loaded.

* `ModuleSource.Requires` — the build of a text asks for a file of another document.
* `ModuleSource.Chain`    — so many hops from one file to another.
* `ModuleSource.index`    — the index of a file, which only the files tell; `index_eq` says what it
  makes of the files it requires, where no chain is too long.
-/

namespace LuaScope

namespace ModuleSource

/-- The file that a name leads to, if it can be read. -/
def find (m : ModuleSource) (name : String) : Option Contents :=
  (m.path? name).bind fun path =>
    (m.files.readText path).toOption.map fun text => ⟨DocumentId.ofPath path, text⟩

/-- Files of one document have one text. -/
def Unambiguous (m : ModuleSource) : Prop :=
  ∀ name name' path path', m.path? name = some path → m.path? name' = some path' →
    DocumentId.ofPath path = DocumentId.ofPath path' →
      (m.files.readText path).toOption = (m.files.readText path').toOption

/-- The build of the first text asks for the second file, and this is another document. -/
def Requires (m : ModuleSource) (a b : Contents) : Prop :=
  (∃ name ∈ Index.asked a.text, m.find name = some b) ∧ b.document ≠ a.document

/-- So many requires lead from the first file to the second one. -/
inductive Chain (m : ModuleSource) : Nat → Contents → Contents → Prop
  | nil (a : Contents) : Chain m 0 a a
  | cons {n : Nat} {a b c : Contents} : m.Requires a b → Chain m n b c → Chain m (n + 1) a c

/-- No chain from the file is longer. -/
def Within (m : ModuleSource) (n : Nat) (a : Contents) : Prop := ∀ k b, m.Chain k a b → k ≤ n

/-- The document is no module: no name leads to a file of it. -/
def Foreign (m : ModuleSource) (document : DocumentId) : Prop :=
  ∀ name path, m.path? name = some path → DocumentId.ofPath path ≠ document

variable {m : ModuleSource} {a b c : Contents} {n k : Nat} {name : String}

theorem find_eq_some {path : String} (hpath : m.path? name = some path) :
    m.find name = some b ↔
      m.files.readText path = .ok b.text ∧ DocumentId.ofPath path = b.document := by
  obtain ⟨document, text⟩ := b
  simp only [find, hpath, Option.bind_some]
  cases m.files.readText path with
  | error e => simp [Except.toOption]
  | ok found => simp [Except.toOption, and_comm]

theorem path_of_find (h : m.find name = some b) :
    ∃ path, m.path? name = some path ∧ DocumentId.ofPath path = b.document ∧
      m.files.readText path = .ok b.text := by
  cases hpath : m.path? name with
  | none =>
    rw [find, hpath] at h
    cases h
  | some path =>
    obtain ⟨htext, hdoc⟩ := (find_eq_some hpath).mp h
    exact ⟨path, rfl, hdoc, htext⟩

theorem Foreign.ne {document : DocumentId} (h : m.Foreign document) (hb : m.find name = some b) :
    b.document ≠ document := by
  obtain ⟨path, hpath, hdoc, _⟩ := path_of_find hb
  exact hdoc ▸ h name path hpath

/-- Any path to the document of a readable file has its text. -/
theorem Unambiguous.find (h : m.Unambiguous) {name' path : String} (hb : m.find name = some b)
    (hpath : m.path? name' = some path) (hdoc : DocumentId.ofPath path = b.document) :
    m.find name' = some b := by
  obtain ⟨path', hpath', hdoc', htext'⟩ := path_of_find hb
  have hsame := h name name' path' path hpath' hpath (hdoc'.trans hdoc.symm)
  refine (find_eq_some hpath).mpr ⟨?_, hdoc⟩
  rw [htext'] at hsame
  cases hread : m.files.readText path with
  | error e => rw [hread] at hsame; cases hsame
  | ok text => rw [hread] at hsame; cases hsame; rfl

theorem Unambiguous.eq (h : m.Unambiguous) {name' : String} (hb : m.find name = some b)
    (hc : m.find name' = some c) (hdoc : c.document = b.document) : c = b := by
  obtain ⟨path, hpath, hpathdoc, _⟩ := path_of_find hc
  exact Option.some.inj (hc.symm.trans (h.find hb hpath (hpathdoc.trans hdoc)))

/-! ## Chains -/

theorem Chain.trans (h : m.Chain k a b) (h' : m.Chain n b c) : m.Chain (k + n) a c := by
  induction h with
  | nil a =>
    rw [Nat.zero_add]
    exact h'
  | cons hreq _ ih =>
    rw [Nat.add_right_comm]
    exact .cons hreq (ih h')

/-- Every file that a chain leads to is one that some name leads to. -/
theorem Chain.found (h : m.Chain (k + 1) a b) : ∃ name, m.find name = some b := by
  obtain _ | ⟨hreq, hrest⟩ := h
  induction hrest generalizing a with
  | nil b =>
    obtain ⟨⟨name, _, hname⟩, _⟩ := hreq
    exact ⟨name, hname⟩
  | cons hreq' _ ih => exact ih hreq'

/-- Around a circle there are chains of any length. -/
theorem Chain.repeat (h : m.Chain k a a) (n : Nat) : m.Chain (n * k) a a := by
  induction n with
  | zero =>
    rw [Nat.zero_mul]
    exact .nil a
  | succ n ih =>
    rw [Nat.succ_mul]
    exact ih.trans h

namespace Within

theorem mono (h : m.Within n a) (hle : n ≤ k) : m.Within k a :=
  fun i b hb => Nat.le_trans (h i b hb) hle

theorem pos (h : m.Within n a) (hreq : m.Requires a b) : 0 < n :=
  h 1 b (.cons hreq (.nil b))

theorem required (h : m.Within n a) (hreq : m.Requires a b) : m.Within (n - 1) b := by
  intro k c hc
  have hle := h (k + 1) c (.cons hreq hc)
  omega

theorem no_circle (h : m.Within n a) (hcircle : m.Chain (k + 1) a a) : False := by
  have hle := h _ a (hcircle.repeat (n + 1))
  rw [Nat.mul_succ] at hle
  omega

end Within

/-- Is every chain from the file as short as that? -/
def isWithin (m : ModuleSource) : Nat → Contents → Bool
  | 0, a => (Index.asked a.text).all fun name =>
    ((m.find name).filter (·.document ≠ a.document)).isNone
  | n + 1, a => (Index.asked a.text).all fun name =>
    ((m.find name).filter (·.document ≠ a.document)).all (m.isWithin n)

theorem requires_iff :
    m.Requires a b ↔ ∃ name ∈ Index.asked a.text,
      (m.find name).filter (·.document ≠ a.document) = some b := by
  simp only [Requires, Option.filter_eq_some_iff, decide_eq_true_iff, ← and_assoc,
    exists_and_right]

theorem within_iff_isWithin : m.Within n a ↔ m.isWithin n a = true := by
  induction n generalizing a with
  | zero =>
    simp only [isWithin, List.all_eq_true, Option.isNone_iff_eq_none]
    constructor
    · intro h name hname
      refine Option.eq_none_iff_forall_ne_some.mpr fun b hb => ?_
      exact absurd (h.pos (requires_iff.mpr ⟨name, hname, hb⟩)) (Nat.lt_irrefl 0)
    · rintro h k b (_ | ⟨hreq, _⟩)
      · exact Nat.le_refl 0
      · obtain ⟨name, hname, hfound⟩ := requires_iff.mp hreq
        rw [h name hname] at hfound
        cases hfound
  | succ n ih =>
    simp only [isWithin, List.all_eq_true, Option.all_eq_true_iff_get, ← ih]
    constructor
    · exact fun h name hname hsome =>
        h.required (requires_iff.mpr ⟨name, hname, (Option.some_get hsome).symm⟩)
    · rintro h k b (_ | ⟨hreq, hrest⟩)
      · exact Nat.zero_le _
      · obtain ⟨name, hname, hfound⟩ := requires_iff.mp hreq
        have hbehind := h name hname (by rw [hfound]; rfl)
        simp only [hfound, Option.get_some] at hbehind
        exact Nat.succ_le_succ (hbehind _ _ hrest)

instance (m : ModuleSource) (n : Nat) (a : Contents) : Decidable (m.Within n a) :=
  decidable_of_iff _ within_iff_isWithin.symm

/-! ## The files of a catalog -/

/-- All paths that names may lead to. -/
def paths (m : ModuleSource) : List String :=
  match m.catalog with
  | none => []
  | some catalog => catalog.map.flatMap fun entry => entry.2.map (·.path)

theorem path?_mem {path : String} (h : m.path? name = some path) : path ∈ m.paths := by
  unfold path? at h
  unfold paths
  cases hcatalog : m.catalog with
  | none =>
    rw [hcatalog] at h
    cases h
  | some catalog =>
    rw [hcatalog, Option.bind_some] at h
    have hget : ∀ key, ∀ e ∈ catalog.map.get key, ∃ entry ∈ catalog.map, e ∈ entry.2 := by
      intro key e he
      unfold ModuleMap.get at he
      split at he
      · rename_i entries hlookup
        obtain ⟨before, behind, hmap, _⟩ := List.lookup_eq_some_iff.mp hlookup
        exact ⟨(key, entries), by rw [hmap]; simp, he⟩
      · cases he
    have hmem : ∀ key, ∀ e ∈ catalog.map.get key,
        e.path ∈ catalog.map.flatMap fun entry => entry.2.map (·.path) := by
      intro key e he
      obtain ⟨entry, hentry, hin⟩ := hget key e he
      exact List.mem_flatMap.mpr ⟨entry, hentry, List.mem_map_of_mem hin⟩
    simp only [Catalog.resolve] at h
    split at h
    · cases h
    · rename_i key _
      split at h
      · rename_i e hfound
        cases h
        exact hmem key e (List.mem_of_find?_eq_some hfound)
      · obtain ⟨e, hhead, rfl⟩ := Option.map_eq_some_iff.mp h
        exact hmem key e (List.mem_of_head? hhead)

theorem unambiguous_of_paths (h : ∀ p ∈ m.paths, ∀ q ∈ m.paths,
    DocumentId.ofPath p = DocumentId.ofPath q →
      (m.files.readText p).toOption = (m.files.readText q).toOption) : m.Unambiguous :=
  fun _ _ p q hp hq => h p (path?_mem hp) q (path?_mem hq)

theorem foreign_of_paths {document : DocumentId}
    (h : ∀ p ∈ m.paths, DocumentId.ofPath p ≠ document) : m.Foreign document :=
  fun _ p hp => h p (path?_mem hp)

/-! ## The index of a file -/

/-- The index of a file, as far as so many hops tell; it is deep enough where no chain is longer. -/
def indexWithin (m : ModuleSource) (options : ParserOptions) :
    Nat → Revision → Contents → Index
  | 0, revision, a =>
    .ofAnswers a.document revision a.text options ((Index.asked a.text).map fun _ => none)
  | n + 1, revision, a =>
    .ofAnswers a.document revision a.text options ((Index.asked a.text).map fun name =>
      ((m.find name).filter (·.document ≠ a.document)).map (m.indexWithin options n 1))

/-- The index of a file, with those of the files that it requires in it. -/
def index (m : ModuleSource) (options : ParserOptions) (revision : Revision) (a : Contents) :
    Index := m.indexWithin options maxRequireDepth revision a

/-- What a name stands for in a file: the index of the file it leads to, unless that is the file
itself. -/
def answer (m : ModuleSource) (options : ParserOptions) (a : Contents) (name : String) :
    Option Index :=
  ((m.find name).filter (·.document ≠ a.document)).map (m.index options 1)

theorem index_document (options : ParserOptions) (revision : Revision) (a : Contents) :
    (m.index options revision a).document = a.document :=
  Index.build_document _ _ _ _ _ _

theorem index_revision (options : ParserOptions) (revision : Revision) (a : Contents) :
    (m.index options revision a).revision = revision :=
  Index.build_revision _ _ _ _ _ _

theorem index_source (options : ParserOptions) (revision : Revision) (a : Contents) :
    (m.index options revision a).source = .ofString a.text :=
  Index.build_source _ _ _ _ _ _

/-- More hops than the longest chain has tell nothing more. -/
theorem indexWithin_eq (options : ParserOptions) :
    ∀ {n k : Nat} (revision : Revision) {a : Contents}, m.Within n a → n ≤ k →
      m.indexWithin options n revision a = m.indexWithin options k revision a := by
  intro n
  induction n with
  | zero =>
    intro k revision a h _
    cases k with
    | zero => rfl
    | succ k =>
      simp only [indexWithin]
      congr 1
      refine List.map_congr_left fun name hname => ?_
      cases hfound : (m.find name).filter (·.document ≠ a.document) with
      | none => rfl
      | some b => exact absurd (h.pos (requires_iff.mpr ⟨name, hname, hfound⟩)) (Nat.lt_irrefl 0)
  | succ n ih =>
    intro k revision a h hle
    obtain ⟨k, rfl⟩ : ∃ i, k = i + 1 := ⟨k - 1, by omega⟩
    simp only [indexWithin]
    congr 1
    refine List.map_congr_left fun name hname => ?_
    cases hfound : (m.find name).filter (·.document ≠ a.document) with
    | none => rfl
    | some b =>
      have hwithin : m.Within n b := h.required (requires_iff.mpr ⟨name, hname, hfound⟩)
      exact congrArg some (ih 1 hwithin (Nat.le_of_succ_le_succ hle))

theorem index_eq (options : ParserOptions) (revision : Revision) (h : m.Within maxRequireDepth a) :
    m.index options revision a =
      .ofAnswers a.document revision a.text options
        ((Index.asked a.text).map (m.answer options a)) :=
  indexWithin_eq options revision h (Nat.le_succ maxRequireDepth)

end ModuleSource

end LuaScope

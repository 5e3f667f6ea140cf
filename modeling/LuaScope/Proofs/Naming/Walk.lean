import LuaScope.Proofs.Binding.Spot
import LuaScope.Proofs.Naming.Mention

/-!
# LuaScope.Proofs.Naming.Walk

A walk over a tree notes its mentions: at each name that counts a reference is recorded or a symbol
is made, and nowhere else.

* `Binder.Notes`         — what a step adds to a state, said of a list of mentions.
* `Walk.statements_notes` and the others — a walk notes the mentions of its tree, and all of them if
  the tree is not nested too deep.
-/

namespace LuaScope

variable {σ : Type}

/-- The reference stands at the end of a front of the mentioned path, and has its text. -/
def Mention.Records (s : Setting σ) (m : Mention) (r : Reference) : Prop :=
  m.standing.isRecorded = true ∧ ∃ front first last, front ++ [last] <+: m.path ∧
    (front ++ [last]).head? = some first ∧ r.span = last.span ∧ r.text = s.pathText first last

theorem Standing.isNoted_of_isRecorded {standing : Standing} (h : standing.isRecorded = true) :
    standing.isNoted = true := by
  cases standing <;> first | rfl | cases h

namespace Binder

/-- Neither a symbol nor a reference was added. -/
def Silent (b b' : Binder σ) : Prop := b'.spots = b.spots ∧ b'.references = b.references

theorem silentLaws (s : Setting σ) : TypeLaws s (Silent (σ := σ)) where
  refl _ := ⟨rfl, rfl⟩
  trans _ _ _ h h' := ⟨h'.1.trans h.1, h'.2.trans h.2⟩
  modify id _ b hf := ⟨b.spots_modifySymbol id hf, rfl⟩
  load _ _ := ⟨rfl, rfl⟩

theorem silent_noteReturn (b : Binder σ) (value : Inferred) : Silent b (b.noteReturn value) := by
  refine ⟨b.spots_noteReturn value, ?_⟩
  unfold noteReturn
  split
  · rfl
  · dsimp only
    split <;> split <;> rfl

theorem silent_popFrame (b : Binder σ) : Silent b b.popFrame.2 := by
  refine ⟨b.spots_popFrame, ?_⟩
  unfold popFrame
  split <;> rfl

theorem mem_spots_record {s : Setting σ} {b : Binder σ} {first last : Ident}
    {target : Option Link} {p : Spot} : p ∈ (b.record s first last target).spots ↔
      p ∈ b.spots ∨ p = s.source.spot last.span := by
  simp [spots, record, ReferenceOver.spot, Source.spot, Setting.range, Source.range,
    LineTable.range, or_assoc]

theorem mem_spots_push {b : Binder σ} {x : Symbol} {table : SymbolTable}
    (htable : table.symbols = b.table.symbols.push x) {p : Spot} :
    p ∈ Binder.spots { b with table := table } ↔ p ∈ b.spots ∨ p = x.spot := by
  simp only [spots, htable, Array.toList_push, List.map_append, List.map_cons, List.map_nil,
    List.mem_append, List.mem_singleton]
  tauto

/-! ## The names of one mention -/

/-- The step notes these names of a mention, and nothing else. -/
structure Marks (s : Setting σ) (m : Mention) (idents : List Ident) (b b' : Binder σ) : Prop where
  keeps : ∀ p ∈ b.spots, p ∈ b'.spots
  stands : ∀ p ∈ b'.spots, p ∈ b.spots ∨ ∃ ident ∈ idents, p = s.source.spot ident.span
  records : ∀ r ∈ b'.references, r ∈ b.references ∨ m.Records s r
  whole : ∀ ident ∈ idents, s.source.spot ident.span ∈ b'.spots

namespace Marks

variable {s : Setting σ} {m : Mention} {idents rest : List Ident} {b b' b'' : Binder σ}

theorem silent (h : Silent b b') : Marks s m [] b b' where
  keeps _ hp := h.1 ▸ hp
  stands _ hp := .inl (h.1 ▸ hp)
  records _ hr := .inl (h.2 ▸ hr)
  whole := nofun

theorem trans (h : Marks s m idents b b') (h' : Marks s m rest b' b'') :
    Marks s m (idents ++ rest) b b'' where
  keeps p hp := h'.keeps p (h.keeps p hp)
  stands p hp := by
    rcases h'.stands p hp with hp | ⟨ident, hident, heq⟩
    · rcases h.stands p hp with hp | ⟨ident, hident, heq⟩
      · exact .inl hp
      · exact .inr ⟨ident, List.mem_append_left _ hident, heq⟩
    · exact .inr ⟨ident, List.mem_append_right _ hident, heq⟩
  records r hr := by
    rcases h'.records r hr with hr | hr
    · exact h.records r hr
    · exact .inr hr
  whole ident hident := by
    rcases List.mem_append.mp hident with hident | hident
    · exact h'.keeps _ (h.whole ident hident)
    · exact h'.whole ident hident

theorem andSilent (h : Marks s m idents b b') (h' : Silent b' b'') : Marks s m idents b b'' := by
  have htrans := h.trans (Marks.silent h')
  rwa [List.append_nil] at htrans

end Marks

section

variable {s : Setting σ} {m : Mention}

theorem marks_record (b : Binder σ) {front : List Ident} {first last : Ident}
    (hrecorded : m.standing.isRecorded = true) (hfront : front ++ [last] <+: m.path)
    (hfirst : (front ++ [last]).head? = some first) (target : Option Link) :
    Marks s m [last] b (b.record s first last target) where
  keeps p hp := mem_spots_record.mpr (.inl hp)
  stands p hp := by
    rcases mem_spots_record.mp hp with hp | heq
    · exact .inl hp
    · exact .inr ⟨last, List.mem_singleton_self last, heq⟩
  records r hr := by
    rcases Array.mem_push.mp hr with hr | rfl
    · exact .inl hr
    · exact .inr ⟨hrecorded, front, first, last, hfront, hfirst, rfl, rfl⟩
  whole ident hident := by
    rw [List.mem_singleton.mp hident]
    exact mem_spots_record.mpr (.inr rfl)

/-- A new symbol stands at this name. -/
theorem marks_push (b : Binder σ) {x : Symbol} {name : Ident}
    (hspot : x.spot = s.source.spot name.span) {table : SymbolTable}
    (htable : table.symbols = b.table.symbols.push x) :
    Marks s m [name] b { b with table := table } where
  keeps p hp := (mem_spots_push htable).mpr (.inl hp)
  stands p hp := by
    rcases (mem_spots_push htable).mp hp with hp | rfl
    · exact .inl hp
    · exact .inr ⟨name, List.mem_singleton_self name, hspot⟩
  records r hr := .inl hr
  whole ident hident := by
    rw [List.mem_singleton.mp hident, ← hspot]
    exact (mem_spots_push htable).mpr (.inr rfl)

theorem marks_declare (b : Binder σ) {x : Symbol} {name : Ident}
    (hspot : x.spot = s.source.spot name.span) : Marks s m [name] b (b.declare x) :=
  b.marks_push hspot rfl

theorem marks_bind (b : Binder σ) {x : Symbol} {name : Ident}
    (hspot : x.spot = s.source.spot name.span) : Marks s m [name] b (b.bind x) :=
  (b.marks_declare hspot).andSilent ((silentLaws s).adopt _ _)

theorem marks_recordAll {first : Ident} (hrecorded : m.standing.isRecorded = true)
    (hfirst : m.path.head? = some first) :
    ∀ (front segments behind : List Ident) (links : List (Option Link)) (b : Binder σ),
      m.path = front ++ (segments ++ behind) → links.length = segments.length →
      Marks s m segments b (b.recordAll s first (segments ++ behind) links)
  | _, [], behind, [], b, _, _ => by
    have hnone : recordAll s first ([] ++ behind) [] b = b := by cases behind <;> rfl
    rw [hnone]
    exact .silent ⟨rfl, rfl⟩
  | front, segment :: segments, behind, link :: links, b, hpath, hlength => by
    have hprefix : front ++ [segment] <+: m.path := ⟨segments ++ behind, by simp [hpath]⟩
    have hhead : (front ++ [segment]).head? = some first := by
      rw [hpath] at hfirst
      cases front <;> exact hfirst
    refine (b.marks_record hrecorded hprefix hhead link).trans ?_
    exact marks_recordAll hrecorded hfirst (front ++ [segment]) segments behind links _
      (by simp [hpath]) (Nat.succ.inj hlength)

theorem marks_inferPath (hrecorded : m.standing.isRecorded = true) (b : Binder σ) :
    Marks s m m.path b (b.inferPath s m.path).2 := by
  cases hpath : m.path with
  | nil => exact .silent ⟨rfl, rfl⟩
  | cons first rest =>
    have hall := marks_recordAll (s := s) hrecorded (by rw [hpath]; rfl) [] (first :: rest) []
      (b.walkPath (first :: rest)) b (by rw [hpath]; simp) (length_walkPath b _)
    rw [List.append_nil] at hall
    simp only [inferPath]
    split <;> exact hall

theorem marks_insertMember {container : Link} {x : Symbol} {b b' : Binder σ} {id : SymbolId}
    {name : Ident} (hspot : x.spot = s.source.spot name.span)
    (h : b.insertMember container x = some (id, b')) : Marks s m [name] b b' := by
  unfold insertMember at h
  split at h
  · cases h
  · rename_i target _
    cases h
    have htable := (silentLaws s).modify target _ b keeps_asTable
    refine ((Marks.silent htable).trans ?_ : Marks s m ([] ++ [name]) b _)
    refine Marks.andSilent ?_ ((silentLaws s).modify target _ _ (keeps_mapTable _))
    exact marks_push _ (x := { x with container := some target }) hspot rfl

/-- The segments in front are recorded, and the last one is either recorded or made. -/
theorem marks_defineMember (hrecorded : m.standing.isRecorded = true) (kind : SymbolKind)
    (statement : Span) (value : Inferred) (doc : Option String) (b : Binder σ) :
    Marks s m m.path b (b.defineMember s m.path kind statement value doc).2 := by
  unfold defineMember
  split
  · rename_i first last hfirst hlast
    obtain ⟨front, hpath⟩ := List.getLast?_eq_some_iff.mp hlast
    have hlength : (b.walkPath m.path).dropLast.length = front.length := by
      rw [List.length_dropLast, length_walkPath, hpath, List.length_append, List.length_singleton,
        Nat.add_sub_cancel]
    have hfront := marks_recordAll (s := s) hrecorded hfirst [] front [last]
      (b.walkPath m.path).dropLast b (by simp [hpath]) hlength
    rw [← hpath] at hfront
    have hhead : (front ++ [last]).head? = some first := by rw [← hpath]; exact hfirst
    have hwhole : front ++ [last] <+: m.path := hpath ▸ List.prefix_refl _
    refine Eq.subst (motive := fun idents => Marks s m idents b _) hpath.symm ?_
    simp only
    generalize recordAll s first m.path (b.walkPath m.path).dropLast b = b₁ at hfront ⊢
    have hrecord := fun target => hfront.trans (b₁.marks_record hrecorded hwhole hhead target)
    split
    · split
      · exact (hrecord _).andSilent ((silentLaws s).refine _ value _)
      · exact hrecord _
    · split
      · exact hrecord none
      · split
        · rename_i hinsert
          exact (hfront.trans (marks_insertMember rfl hinsert)).andSilent
            ((silentLaws s).adopt _ _)
        · exact hrecord none
  · rename_i hnone
    have hpath : m.path = [] := by
      cases hpath : m.path with
      | nil => rfl
      | cons first rest =>
        rw [hpath] at hnone
        exact absurd (List.getLast?_cons ..) (hnone _ _ rfl)
    rw [hpath]
    exact .silent ⟨rfl, rfl⟩

theorem marks_assignName (name : Ident) (statement : Span) (value : Inferred)
    (doc : Option String) (b : Binder σ) :
    Marks s ⟨[name], .variable⟩ [name] b (b.assignName s name statement value doc) := by
  have hrecord (target : Option Link) :
      Marks s ⟨[name], .variable⟩ [name] b (b.record s name name target) :=
    b.marks_record rfl (List.prefix_refl ([] ++ [name])) rfl target
  unfold assignName
  split
  · exact (hrecord _).andSilent ((silentLaws s).refine _ value _)
  · split
    · exact b.marks_bind (b.spot_newSymbol s name _ _ _ _ _)
    · exact hrecord none

theorem marks_declareFunction (reach : FunctionReach) (name : FunctionName) (statement : Span)
    (params : List String) (doc : Option String) (b : Binder σ) :
    Marks s (name.mention reach) (name.mention reach).path b
      (b.declareFunction s reach name statement params doc).2 := by
  by_cases hdotted : (!name.fields.isEmpty || name.method.isSome) = true
  · have hmention : name.mention reach = ⟨name.path, .variable⟩ := by
      unfold FunctionName.mention
      split
      · exact absurd hdotted Bool.false_ne_true
      · rfl
    rw [hmention]
    simp only [declareFunction, if_pos hdotted]
    exact marks_defineMember (m := ⟨name.path, .variable⟩) rfl _ statement _ doc b
  · have hpath : (name.mention reach).path = [name.head] := by
      rw [FunctionName.mention_path]
      obtain ⟨head, fields, method⟩ := name
      simp_all [FunctionName.path]
    have hdeclare : ∀ isLocal, Marks s (name.mention reach) [name.head] b
        (b.declare (newSymbol s b name.head .function statement
          { ty := .function params .unknown name.method.isSome } isLocal doc)) :=
      fun isLocal => b.marks_declare (b.spot_newSymbol s name.head _ _ _ _ _)
    simp only [declareFunction, if_neg hdotted]
    rw [hpath]
    split
    · exact hdeclare true
    · rename_i hreach
      split
      · have hrecorded : (name.mention reach).standing.isRecorded = true := by
          unfold FunctionName.mention
          split
          · exact absurd rfl hreach
          · rfl
        have hprefix : [] ++ [name.head] <+: (name.mention reach).path := by
          rw [hpath]
          exact List.prefix_refl _
        exact (b.marks_record hrecorded hprefix rfl _).andSilent
          ((silentLaws s).modify _ _ _ (by constructor <;> intro x <;> rfl))
      · exact hdeclare false

end

/-! ## Lists of mentions -/

/-- The step notes these mentions, those that count, and nothing else; if it is `deep` it notes all
of them. -/
structure Notes (s : Setting σ) (deep : Prop) (mentions : List Mention) (b b' : Binder σ) :
    Prop where
  keeps : ∀ p ∈ b.spots, p ∈ b'.spots
  stands : ∀ p ∈ b'.spots, p ∈ b.spots ∨ p.span.isEmpty = true ∨ ∃ m ∈ mentions,
    m.standing.isNoted = true ∧ ∃ ident ∈ m.path, p = s.source.spot ident.span
  records : ∀ r ∈ b'.references, r ∈ b.references ∨ ∃ m ∈ mentions, m.Records s r
  whole : deep → ∀ m ∈ mentions, m.standing.isNoted = true → ∀ ident ∈ m.path,
    s.source.spot ident.span ∈ b'.spots

namespace Notes

variable {s : Setting σ} {deep : Prop} {ms ms' : List Mention} {b b' b'' : Binder σ}

/-- Nothing is noted if none of the mentions counts, or if the step is not deep. -/
theorem skip (h : Silent b b') (hskip : deep → ∀ m ∈ ms, m.standing.isNoted = false) :
    Notes s deep ms b b' where
  keeps _ hp := h.1 ▸ hp
  stands _ hp := .inl (h.1 ▸ hp)
  records _ hr := .inl (h.2 ▸ hr)
  whole hdeep m hm hnoted := by
    rw [hskip hdeep m hm] at hnoted
    cases hnoted

theorem silent (h : Silent b b') : Notes s deep [] b b' := .skip h fun _ => nofun

theorem ofMarks {m : Mention} (h : Marks s m m.path b b') (hnoted : m.standing.isNoted = true) :
    Notes s deep [m] b b' where
  keeps := h.keeps
  stands p hp := (h.stands p hp).imp_right fun hident =>
    .inr ⟨m, List.mem_singleton_self m, hnoted, hident⟩
  records r hr := (h.records r hr).imp_right fun hrecords =>
    ⟨m, List.mem_singleton_self m, hrecords⟩
  whole _ m' hm' _ := by
    rw [List.mem_singleton.mp hm']
    exact h.whole

theorem trans (h : Notes s deep ms b b') (h' : Notes s deep ms' b' b'') :
    Notes s deep (ms ++ ms') b b'' where
  keeps p hp := h'.keeps p (h.keeps p hp)
  stands p hp := by
    rcases h'.stands p hp with hp | hempty | ⟨m, hm, hstands⟩
    · rcases h.stands p hp with hp | hempty | ⟨m, hm, hstands⟩
      · exact .inl hp
      · exact .inr (.inl hempty)
      · exact .inr (.inr ⟨m, List.mem_append_left _ hm, hstands⟩)
    · exact .inr (.inl hempty)
    · exact .inr (.inr ⟨m, List.mem_append_right _ hm, hstands⟩)
  records r hr := by
    rcases h'.records r hr with hr | ⟨m, hm, hrecords⟩
    · rcases h.records r hr with hr | ⟨m, hm, hrecords⟩
      · exact .inl hr
      · exact .inr ⟨m, List.mem_append_left _ hm, hrecords⟩
    · exact .inr ⟨m, List.mem_append_right _ hm, hrecords⟩
  whole hdeep m hm hnoted ident hident := by
    rcases List.mem_append.mp hm with hm | hm
    · exact h'.keeps _ (h.whole hdeep m hm hnoted ident hident)
    · exact h'.whole hdeep m hm hnoted ident hident

theorem andSilent (h : Notes s deep ms b b') (h' : Silent b' b'') : Notes s deep ms b b'' := by
  have htrans := h.trans (.silent h')
  rwa [List.append_nil] at htrans

theorem ofSilent (h : Silent b b') (h' : Notes s deep ms b' b'') : Notes s deep ms b b'' :=
  (silent h).trans h'

/-- The order of the mentions does not matter. -/
theorem perm (h : Notes s deep ms b b') (hperm : ms.Perm ms') : Notes s deep ms' b b' where
  keeps := h.keeps
  stands p hp := by
    simpa only [hperm.mem_iff] using h.stands p hp
  records r hr := by
    simpa only [hperm.mem_iff] using h.records r hr
  whole hdeep m hm := h.whole hdeep m (hperm.mem_iff.mpr hm)

end Notes

section

variable {s : Setting σ} {deep : Prop}

theorem notes_declareSelf (parameters : Span) (container : Option Link) (b : Binder σ) :
    Notes s deep [] b (b.declareSelf s parameters container) where
  keeps p hp := (mem_spots_push rfl).mpr (.inl hp)
  stands p hp := by
    rcases (mem_spots_push rfl).mp hp with hp | rfl
    · exact .inl hp
    · exact .inr (.inl (beq_self_eq_true parameters.start))
  records r hr := .inl hr
  whole _ := nofun

theorem notes_declare (b : Binder σ) (name : Ident) {x : Symbol}
    (hspot : x.spot = s.source.spot name.span) :
    Notes s deep [⟨[name], .declared⟩] b (b.declare x) :=
  .ofMarks (m := ⟨[name], .declared⟩) (b.marks_declare hspot) rfl

theorem notes_declareLocals (statement : Span) (doc : Option String) :
    ∀ (names : List Ident) (values : List Inferred) (b : Binder σ),
      Notes s deep (declaredMentions names) b (b.declareLocals s statement doc names values)
  | [], _, _ => .silent ⟨rfl, rfl⟩
  | name :: names, values, b => by
    have hbind : Notes s deep [⟨[name], .declared⟩] b (b.bind (newSymbol s b name
        (.ofTy (values.headD {}).ty .variable) statement (values.headD {}) true doc)) :=
      (b.notes_declare name (b.spot_newSymbol s name _ _ _ _ _)).andSilent
        ((silentLaws s).adopt _ _)
    exact hbind.trans (notes_declareLocals statement doc names values.tail _)

theorem notes_declareCounters (statement : Span) (ty : Ty) :
    ∀ (names : List Ident) (b : Binder σ),
      Notes s deep (declaredMentions names) b
        (names.foldl (fun b name => b.declareCounter s statement ty name) b)
  | [], _ => .silent ⟨rfl, rfl⟩
  | name :: names, b =>
    (b.notes_declare name (b.spot_newSymbol s name _ _ _ _ _)).trans
      (notes_declareCounters statement ty names _)

theorem notes_declareParameters (parameters : Span) :
    ∀ (entries : List Parameter) (b : Binder σ),
      Notes s deep (declaredMentions (entries.flatMap Parameter.idents)) b
        (b.declareParameters s parameters entries)
  | [], _ => .silent ⟨rfl, rfl⟩
  | .vararg :: rest, b => notes_declareParameters parameters rest b
  | .name name :: rest, b =>
    (b.notes_declare name (b.spot_newSymbol s name _ _ _ _ _)).trans
      (notes_declareParameters parameters rest _)

end

end Binder

/-! ## Walks -/

namespace Walk

/-- Run on any state, the walk notes these mentions. -/
def Notes {α : Type} (s : Setting σ) (deep : Prop) (mentions : List Mention) (w : Walk σ α) :
    Prop := ∀ b, Binder.Notes s deep mentions b (w b).2

/-- A deep walk does not get below the deepest level that is looked at. -/
def Fits (deep : Prop) (level : Nat) : Prop := deep → level ≤ maxDepth + 1

theorem Fits.le {deep : Prop} {level level' : Nat} (h : Fits deep level) (hle : level' ≤ level) :
    Fits deep level' := fun hdeep => Nat.le_trans hle (h hdeep)

section

variable {s : Setting σ} {deep : Prop}

namespace Notes

variable {α β : Type} {ms ms' ms'' : List Mention}

theorem pure (x : α) : Notes s deep [] (Pure.pure x : Walk σ α) := fun _ => .silent ⟨rfl, rfl⟩

/-- What is nested too deep is not looked at. -/
theorem cut {level : Nat} (h : Fits deep level) (hcut : maxDepth + 1 < level) (x : α) :
    Notes s deep ms (Pure.pure x : Walk σ α) :=
  fun _ => .skip ⟨rfl, rfl⟩ fun hdeep => absurd (h hdeep) (Nat.not_le_of_lt hcut)

theorem bind {w : Walk σ α} {k : α → Walk σ β} (hw : Notes s deep ms w)
    (hk : ∀ x, Notes s deep ms' (k x)) : Notes s deep (ms ++ ms') (w >>= k) :=
  fun b => (hw b).trans (hk (w b).1 (w b).2)

/-- What a walk answers does not matter. -/
theorem andPure {w : Walk σ α} (h : Notes s deep ms w) (f : α → β) :
    Notes s deep ms (w >>= fun x => Pure.pure (f x)) := h

theorem andSilent {w : Walk σ α} {k : α → Walk σ β} (h : Notes s deep ms w)
    (hk : ∀ x b, Binder.Silent b (k x b).2) : Notes s deep ms (w >>= k) :=
  fun b => (h b).andSilent (hk (w b).1 (w b).2)

/-- The first walk is over what stands behind. -/
theorem bindBack {w : Walk σ α} {k : α → Walk σ β} (hw : Notes s deep ms w)
    (hk : ∀ x, Notes s deep ms' (k x)) : Notes s deep (ms' ++ ms) (w >>= k) :=
  fun b => (hw.bind hk b).perm List.perm_append_comm

/-- The first walk is over what stands between. -/
theorem bindBetween {w : Walk σ α} {k : α → Walk σ β} (hw : Notes s deep ms w)
    (hk : ∀ x, Notes s deep (ms' ++ ms'') (k x)) :
    Notes s deep (ms' ++ (ms ++ ms'')) (w >>= k) :=
  fun b => (hw.bind hk b).perm (List.perm_append_comm_assoc ms ms' ms'')

end Notes

variable {ms : List Mention}

theorem path_notes {path : List Ident} {standing : Standing}
    (hrecorded : standing.isRecorded = true) :
    Notes s deep [⟨path, standing⟩] (inferPath s path : Walk σ Inferred) := fun b =>
  .ofMarks (m := ⟨path, standing⟩) (Binder.marks_inferPath hrecorded b)
    (Standing.isNoted_of_isRecorded hrecorded)

theorem name_notes (ident : Ident) {standing : Standing} (hrecorded : standing.isRecorded = true)
    {depth : Nat} (hdepth : Fits deep (depth + 1)) :
    Notes s deep [⟨[ident], standing⟩] (inferName s ident depth : Walk σ Inferred) := by
  unfold inferName
  split
  · exact .cut hdepth (by omega) _
  · exact path_notes hrecorded

theorem within_notes {inside : Walk σ Unit} (h : Notes s deep ms inside) (kind : ScopeKind)
    (span : Span) : Notes s deep ms (within kind span inside) := by
  intro b
  have henter : Binder.Silent b (b.enterScope kind span) := ⟨rfl, rfl⟩
  exact (Binder.Notes.ofSilent henter (h _)).andSilent ⟨rfl, rfl⟩

theorem function_notes {body : Walk σ Unit} (parameters : Parameters)
    (hbody : Notes s deep ms body) (stop : Nat) (isMethod : Bool) (container : Option Link) :
    Notes s deep (parameters.mentions ++ ms)
      (inFunction s parameters stop isMethod container body) := by
  have hself : Notes s deep [] (do
      if isMethod then modify (Binder.declareSelf s parameters.span container) : Walk σ Unit) := by
    cases isMethod with
    | true => exact Binder.notes_declareSelf parameters.span container
    | false => exact .pure _
  have hentries : Notes s deep parameters.mentions
      (modify (Binder.declareParameters s parameters.span parameters.entries) : Walk σ Unit) :=
    Binder.notes_declareParameters parameters.span parameters.entries
  have hframe : Notes s deep ms (do modify (·.pushFrame); body; modify (·.popFrame.2) :
      Walk σ Unit) := by
    intro b
    have hpush : Binder.Silent b b.pushFrame := ⟨rfl, rfl⟩
    exact (Binder.Notes.ofSilent hpush (hbody _)).andSilent (Binder.silent_popFrame _)
  have hinside := within_notes ((hself.bind fun _ => hentries).bind fun _ => hframe) .function
    ⟨parameters.span.start, stop⟩
  intro b
  cases isMethod <;> exact hinside b

/-- The names of a loop are made in front of its block. -/
theorem loop_notes {body : Walk σ Unit} (names : List Ident) (hbody : Notes s deep ms body)
    (ty : Ty)
    (span : Span) : Notes s deep (declaredMentions names ++ ms) (within .loop span (do
      modify (fun b => names.foldl (fun b name => b.declareCounter s span ty name) b)
      body)) := by
  have hnames : Notes s deep (declaredMentions names)
      (modify fun b => names.foldl (fun b name => b.declareCounter s span ty name) b) :=
    Binder.notes_declareCounters span ty names
  exact within_notes (hnames.bind fun _ => hbody) .loop span

theorem define_notes {base : Expr} {key : Ident} {path : List Ident} (h : base.path? = some path)
    (kind : SymbolKind) (statement : Span) (value : Inferred) (doc : Option String) :
    Notes s deep (base.memberMentions base.mentions key .assignedKey)
      (modify fun b => (b.defineMember s (path ++ [key]) kind statement value doc).2) := by
  simp only [Expr.memberMentions, h]
  exact fun b => .ofMarks (m := ⟨path ++ [key], .variable⟩)
    (Binder.marks_defineMember rfl kind statement value doc b) rfl

/-- A mention that does not count. -/
theorem Notes.unnoted {α : Type} {m : Mention} (hm : m.standing.isNoted = false) (x : α) :
    Notes s deep [m] (Pure.pure x : Walk σ α) := fun _ => .skip ⟨rfl, rfl⟩ fun _ m' hm' => by
  rw [List.mem_singleton.mp hm']
  exact hm

mutual

theorem expr_notes : ∀ (e : Expr) (depth : Nat), Fits deep (depth + e.height + 1) →
    Notes s deep e.mentions (inferExpr s e depth)
  | .nil, depth, _ | .boolean, depth, _ | .number, depth, _ | .literal _, depth, _ => by
    simp only [inferExpr]
    split <;> exact .pure _
  | .vararg, _, _ | .global, _, _ => .pure _
  | .name ident, depth, hdepth => name_notes ident rfl hdepth
  | .field base key, depth, hdepth => by
    simp only [Expr.height] at hdepth
    simp only [inferExpr]
    split
    · exact .cut hdepth (by omega) _
    · simp only [Expr.mentions, Expr.memberMentions]
      cases base.path? with
      | some path => exact path_notes (rfl : Standing.variable.isRecorded = true)
      | none =>
        exact .bind (expr_notes base _ (hdepth.le (by omega))) fun _ =>
          (name_notes key (rfl : Standing.key.isRecorded = true) (hdepth.le (by omega))).andPure _
  | .subscript base key, depth, hdepth => by
    simp only [Expr.height] at hdepth
    simp only [inferExpr]
    split
    · exact .cut hdepth (by omega) _
    · exact .bind (expr_notes base _ (hdepth.le (by omega))) fun _ =>
        (expr_notes key _ (hdepth.le (by omega))).andPure _
  | .paren inner, depth, hdepth => by
    simp only [Expr.height] at hdepth
    simp only [inferExpr]
    split
    · exact .cut hdepth (by omega) _
    · exact expr_notes inner _ (hdepth.le (by omega))
  | .table fields, depth, hdepth => by
    simp only [Expr.height] at hdepth
    simp only [inferExpr]
    split
    · exact .cut hdepth (by omega) _
    · exact (fields_notes fields depth [] hdepth).andPure _
  | .function (.mk parameters block stop), depth, hdepth => by
    simp only [Expr.height, FunctionBody.height] at hdepth
    simp only [inferExpr]
    split
    · exact .cut hdepth (by omega) _
    · exact (function_notes parameters (block_notes block _ (hdepth.le (by omega))) stop false
        none).andPure _
  | .call callee none arguments, depth, hdepth => by
    simp only [Expr.height] at hdepth
    simp only [inferExpr]
    split
    · exact .cut hdepth (by omega) _
    · split
      · rename_i span name _ hliteral
        have hmentions : (Expr.call (.name ⟨"require", span⟩) none arguments).mentions =
            [⟨[⟨"require", span⟩], .builtin⟩] := by
          simp only [Expr.mentions, Expr.builtin?, hliteral, Option.isSome_some, if_true,
            Expr.mentionsOf_of_literalArgument hliteral]
        rw [hmentions]
        exact (Notes.unnoted rfl ()).andSilent fun _ => (Binder.silentLaws s).require name
      · exact (Notes.unnoted rfl ()).bind fun _ =>
          setmetatable_notes arguments depth (hdepth.le (by omega))
      · rename_i hsetmetatable _ hrequire
        simp only [Expr.mentions, Expr.builtin?_eq_none hrequire hsetmetatable]
        exact .bind (expr_notes _ _ (hdepth.le (by omega))) fun _ =>
          (list_notes arguments depth (hdepth.le (by omega))).andPure _
      · rename_i hmethod
        cases hmethod
  | .call callee (some name) arguments, depth, hdepth => by
    simp only [Expr.height] at hdepth
    have harguments : ∀ value : Inferred, Notes s deep (Expr.mentionsOf arguments) (do
        let _ ← inferList s arguments depth
        pure (Binder.callResult value)) := fun value =>
      (list_notes arguments depth (hdepth.le (by omega))).andPure _
    simp only [inferExpr]
    split
    · exact .cut hdepth (by omega) _
    · split
      · exact (Notes.cut hdepth (by omega) {}).bind harguments
      · simp only [Expr.mentions, Expr.memberMentions]
        cases callee.path? with
        | some path => exact (path_notes (rfl : Standing.variable.isRecorded = true)).bind harguments
        | none =>
          have hmember : Notes s deep (callee.mentions ++ [⟨[name], .key⟩]) (do
              let _ ← inferExpr s callee (depth + 2)
              inferName s name (depth + 2)) :=
            .bind (expr_notes callee _ (hdepth.le (by omega))) fun _ =>
              name_notes name rfl (hdepth.le (by omega))
          exact hmember.bind fun _ => harguments {}
  | .binary op _ left right, depth, hdepth => by
    simp only [Expr.height] at hdepth
    simp only [inferExpr]
    split
    · exact .cut hdepth (by omega) _
    · exact .bind (expr_notes left _ (hdepth.le (by omega))) fun _ =>
        (expr_notes right _ (hdepth.le (by omega))).andPure _
  | .unary op _ operand, depth, hdepth => by
    simp only [Expr.height] at hdepth
    simp only [inferExpr]
    split
    · exact .cut hdepth (by omega) _
    · exact (expr_notes operand _ (hdepth.le (by omega))).andPure _

theorem list_notes : ∀ (es : List Expr) (depth : Nat), Fits deep (depth + Expr.heightOf es + 1) →
    Notes s deep (Expr.mentionsOf es) (inferList s es depth)
  | [], _, _ => .pure _
  | e :: rest, depth, hdepth => by
    simp only [Expr.heightOf] at hdepth
    have hrest : Notes s deep (Expr.mentionsOf rest) (inferList s rest depth) :=
      list_notes rest depth (hdepth.le (by omega))
    have hcons : Notes s deep (Expr.mentionsOf (e :: rest)) (do
        let value ← inferExpr s e (depth + 1)
        return value :: (← inferList s rest depth)) :=
      .bind (expr_notes e _ (hdepth.le (by omega))) fun _ => hrest.andPure _
    cases e <;> first | exact hrest | exact hcons

theorem fields_notes : ∀ (fields : List Field) (depth : Nat) (members : Members),
    Fits deep (depth + Field.heightOf fields + 1) →
    Notes s deep (Field.mentionsOf fields) (inferFields s fields depth members)
  | [], _, _, _ => .pure _
  | .positional value :: rest, depth, members, hdepth
  | .unnamed value :: rest, depth, members, hdepth => by
    simp only [Field.heightOf] at hdepth
    simp only [inferFields]
    exact .bind (expr_notes value _ (hdepth.le (by omega))) fun _ =>
      fields_notes rest depth members (hdepth.le (by omega))
  | .computed key value :: rest, depth, members, hdepth => by
    simp only [Field.heightOf] at hdepth
    simp only [inferFields]
    refine .bind (expr_notes key _ (hdepth.le (by omega))) fun _ => ?_
    exact .bind (expr_notes value _ (hdepth.le (by omega))) fun _ =>
      fields_notes rest depth members (hdepth.le (by omega))
  | .named comments span key value :: rest, depth, members, hdepth => by
    simp only [Field.heightOf] at hdepth
    simp only [inferFields]
    change Notes s deep ([⟨[key], .declared⟩] ++ (value.mentions ++ Field.mentionsOf rest)) _
    refine .bindBetween (expr_notes value _ (hdepth.le (by omega))) fun found b => ?_
    let x := Binder.newSymbol s b key (.ofTy found.ty .field) span found false
      (Comment.doc? s.source.lines span.start comments)
    have hmember : Binder.Notes s deep [⟨[key], .declared⟩] b
        ((b.addMember x).adoptMembers x.id) :=
      .ofMarks (m := ⟨[key], .declared⟩)
        ((b.marks_push (b.spot_newSymbol s key _ _ _ _ _) rfl).andSilent
          ((Binder.silentLaws s).adopt x.id _)) rfl
    exact hmember.trans (fields_notes rest depth (members.insert key.name x.id)
      (hdepth.le (by omega)) _)

theorem setmetatable_notes : ∀ (arguments : List Expr) (depth : Nat),
    Fits deep (depth + Expr.heightOf arguments + 1) →
    Notes s deep (Expr.mentionsOf arguments) (inferSetmetatable s arguments depth)
  | [], _, _ => .pure _
  | target :: rest, depth, hdepth => by
    simp only [Expr.heightOf] at hdepth
    have hrest : Notes s deep (Expr.mentionsOf rest) (inferSetmetatable s rest depth) :=
      setmetatable_notes rest depth (hdepth.le (by omega))
    have hcons : Notes s deep (Expr.mentionsOf (target :: rest)) (do
        let target ← inferExpr s target (depth + 1)
        let prototype ← inferMetatable s rest depth
        fun b => b.attachPrototype target prototype) :=
      .bind (expr_notes target _ (hdepth.le (by omega))) fun found =>
        (metatable_notes rest depth (hdepth.le (by omega))).andSilent
          ((Binder.silentLaws s).attachPrototype found)
    cases target <;> first | exact hrest | exact hcons

theorem metatable_notes : ∀ (arguments : List Expr) (depth : Nat),
    Fits deep (depth + Expr.heightOf arguments + 1) →
    Notes s deep (Expr.mentionsOf arguments) (inferMetatable s arguments depth)
  | [], _, _ => .pure _
  | metatable :: rest, depth, hdepth => by
    simp only [Expr.heightOf] at hdepth
    have hrest : Notes s deep (Expr.mentionsOf rest) (inferMetatable s rest depth) :=
      metatable_notes rest depth (hdepth.le (by omega))
    have hlist : Notes s deep (Expr.mentionsOf rest) (inferList s rest depth) :=
      list_notes rest depth (hdepth.le (by omega))
    have hcons : Notes s deep (Expr.mentionsOf (metatable :: rest)) (do
        let value ← inferExpr s metatable (depth + 1)
        let _ ← inferList s rest depth
        pure (value.alias.map PrototypeOver.metatable)) :=
      .bind (expr_notes metatable _ (hdepth.le (by omega))) fun _ => hlist.andPure _
    cases metatable with
    | global => exact hrest
    | table fields =>
      simp only [Expr.height] at hdepth
      exact .bind (fields_notes fields _ _ (hdepth.le (by omega))) fun _ => hlist.andPure _
    | _ => exact hcons

theorem block_notes : ∀ (block : Option Block) (depth : Nat),
    Fits deep (depth + Block.height? block) →
    Notes s deep (Block.mentions? block) (visitBlock s block depth)
  | none, _, _ => .pure _
  | some (.mk _ statements), depth, hdepth => by
    simp only [Block.height?] at hdepth
    simp only [visitBlock]
    split
    · exact .cut hdepth (by omega) _
    · exact statements_notes statements _ (hdepth.le (by omega))

theorem scoped_notes (kind : ScopeKind) : ∀ (block : Option Block) (depth : Nat),
    Fits deep (depth + Block.height? block + 1) →
    Notes s deep (Block.mentions? block) (visitScoped s kind block depth)
  | none, _, _ => .pure _
  | some (.mk span statements), depth, hdepth => by
    simp only [Block.height?] at hdepth
    simp only [visitScoped]
    refine within_notes ?_ kind span
    split
    · exact .cut hdepth (by omega) _
    · exact statements_notes statements _ (hdepth.le (by omega))

theorem statements_notes : ∀ (statements : List Statement) (depth : Nat),
    Fits deep (depth + Statement.heightOf statements) →
    Notes s deep (Statement.mentionsOf statements) (visitStatements s statements depth)
  | [], _, _ => .pure _
  | .mk comments span node :: rest, depth, hdepth => by
    simp only [Statement.heightOf] at hdepth
    simp only [visitStatements]
    split
    · exact .bind (statement_notes node span _ depth (hdepth.le (by omega))) fun _ =>
        statements_notes rest depth (hdepth.le (by omega))
    · exact (Notes.cut hdepth (by omega) ()).bind fun _ =>
        statements_notes rest depth (hdepth.le (by omega))

theorem statement_notes : ∀ (node : StatementNode) (span : Span) (doc : Option String)
    (depth : Nat), Fits deep (depth + node.height + 1) →
    Notes s deep node.mentions (visitStatement s node span doc depth)
  | .empty, _, _, _, _ | .label, _, _, _, _ | .goto, _, _, _, _ | .break, _, _, _, _ => .pure _
  | .declare _ _ names none, span, doc, _, _ =>
    Binder.notes_declareLocals span doc (names.map AttributedName.ident) []
  | .declare _ _ names (some values), span, doc, depth, hdepth =>
    .bindBack (list_notes values depth hdepth) fun found =>
      Binder.notes_declareLocals span doc (names.map AttributedName.ident) found
  | .implicitGlobals none, _, _, _, _ => .pure _
  | .implicitGlobals (some (name, _)), _, _, depth, hdepth =>
    (name_notes name rfl hdepth).andPure _
  | .assign targets values, span, doc, depth, hdepth => by
    simp only [StatementNode.height] at hdepth
    exact .bindBack (list_notes values depth (hdepth.le (by omega))) fun found =>
      targets_notes targets found span doc depth (hdepth.le (by omega))
  | .function reach name (.mk parameters block stop), span, doc, depth, hdepth => by
    simp only [StatementNode.height, FunctionBody.height] at hdepth
    simp only [visitStatement]
    have hname : Notes s deep [name.mention reach] (fun b => b.declareFunction s reach name span
        parameters.names doc : Walk σ Binder.Defined) := fun b =>
      .ofMarks (Binder.marks_declareFunction reach name span parameters.names doc b)
        (FunctionName.mention_isNoted reach name)
    refine hname.bind fun defined => ?_
    exact .andSilent (function_notes parameters (block_notes block _ (hdepth.le (by omega))) stop _
      defined.container) fun returns =>
        (Binder.silentLaws s).finishFunction defined.symbol returns
  | .do body, span, _, depth, hdepth => by
    simp only [StatementNode.height] at hdepth
    simp only [visitStatement]
    split
    · exact within_notes (block_notes body _ (hdepth.le (by omega))) .block span
    · rename_i hnone
      cases body with
      | none => exact .pure _
      | some block => exact absurd rfl hnone
  | .while condition body, _, _, depth, hdepth => by
    simp only [StatementNode.height] at hdepth
    exact .bind (expr_notes condition _ (hdepth.le (by omega))) fun _ =>
      scoped_notes .loop body depth (hdepth.le (by omega))
  | .repeat body condition, span, _, depth, hdepth => by
    simp only [StatementNode.height] at hdepth
    refine within_notes (.bind (block_notes body _ (hdepth.le (by omega))) fun _ => ?_) .loop span
    exact (expr_notes condition _ (hdepth.le (by omega))).andPure _
  | .if condition body rest none, _, _, depth, hdepth => by
    simp only [StatementNode.height] at hdepth
    refine .bind (expr_notes condition _ (hdepth.le (by omega))) fun _ => ?_
    refine .bind (scoped_notes .block body depth (hdepth.le (by omega))) fun _ => ?_
    exact (elseIfs_notes rest depth (hdepth.le (by omega))).andPure _
  | .if condition body rest (some block), _, _, depth, hdepth => by
    simp only [StatementNode.height] at hdepth
    refine .bind (expr_notes condition _ (hdepth.le (by omega))) fun _ => ?_
    refine .bind (scoped_notes .block body depth (hdepth.le (by omega))) fun _ => ?_
    exact .bind (elseIfs_notes rest depth (hdepth.le (by omega))) fun _ =>
      scoped_notes .block block depth (hdepth.le (by omega))
  | .numericFor counter start limit none body, span, _, depth, hdepth => by
    simp only [StatementNode.height] at hdepth
    have hloop := loop_notes (s := s) [counter]
      (block_notes body (depth + 1) (hdepth.le (by omega))) .number span
    exact .bindBetween (expr_notes start _ (hdepth.le (by omega))) fun _ =>
      .bindBetween (expr_notes limit _ (hdepth.le (by omega))) fun _ => hloop
  | .numericFor counter start limit (some step) body, span, _, depth, hdepth => by
    simp only [StatementNode.height] at hdepth
    have hloop := loop_notes (s := s) [counter]
      (block_notes body (depth + 1) (hdepth.le (by omega))) .number span
    exact .bindBetween (expr_notes start _ (hdepth.le (by omega))) fun _ =>
      .bindBetween (expr_notes limit _ (hdepth.le (by omega))) fun _ =>
        .bindBetween (expr_notes step _ (hdepth.le (by omega))) fun _ => hloop
  | .genericFor names values body, span, _, depth, hdepth => by
    simp only [StatementNode.height] at hdepth
    have hloop := loop_notes (s := s) names
      (block_notes body (depth + 1) (hdepth.le (by omega))) .unknown span
    exact .bindBetween (list_notes values depth (hdepth.le (by omega))) fun _ => hloop
  | .return none, _, _, _, _ => .pure _
  | .return (some values), _, _, depth, hdepth => by
    refine .andSilent (list_notes values depth hdepth) fun found b => ?_
    cases found with
    | nil => exact ⟨rfl, rfl⟩
    | cons first _ => exact b.silent_noteReturn first
  | .call call, _, _, depth, hdepth => by
    simp only [StatementNode.height] at hdepth
    exact (expr_notes call _ (hdepth.le (by omega))).andPure _

theorem elseIfs_notes : ∀ (rest : List ElseIf) (depth : Nat),
    Fits deep (depth + ElseIf.heightOf rest + 1) →
    Notes s deep (ElseIf.mentionsOf rest) (visitElseIfs s rest depth)
  | [], _, _ => .pure _
  | .mk condition body :: rest, depth, hdepth => by
    simp only [ElseIf.heightOf] at hdepth
    simp only [visitElseIfs]
    refine .bind (expr_notes condition _ (hdepth.le (by omega))) fun _ => ?_
    exact .bind (scoped_notes .block body depth (hdepth.le (by omega))) fun _ =>
      elseIfs_notes rest depth (hdepth.le (by omega))

theorem targets_notes : ∀ (targets : List Expr) (values : List Inferred) (span : Span)
    (doc : Option String) (depth : Nat), Fits deep (depth + Expr.heightOf targets + 1) →
    Notes s deep (Expr.targetMentions targets) (assignTargets s targets values span doc depth)
  | [], _, _, _, _, _ => .pure _
  | target :: rest, values, span, doc, depth, hdepth => by
    simp only [Expr.heightOf] at hdepth
    have hrest := fun values => targets_notes rest values span doc depth (hdepth.le (by omega))
    cases target with
    | global => exact hrest values
    | name ident =>
      have hassign : Notes s deep [⟨[ident], .variable⟩]
          (modify (Binder.assignName s ident span (values.headD {}) doc)) := fun b =>
        .ofMarks (m := ⟨[ident], .variable⟩) (Binder.marks_assignName ident span _ doc b) rfl
      exact hassign.bind fun _ => hrest values.tail
    | field base key =>
      simp only [Expr.height] at hdepth
      simp only [assignTargets, Expr.targetMentions]
      split
      · rename_i path hpath
        exact (define_notes hpath _ span _ doc).bind fun _ => hrest values.tail
      · rename_i hpath
        simp only [Expr.memberMentions, hpath]
        have hbase : Notes s deep (base.mentions ++ [⟨[key], .assignedKey⟩])
            (do let _ ← inferExpr s base (depth + 1)) :=
          (expr_notes base _ (hdepth.le (by omega))).bind fun _ => .unnoted rfl ()
        exact hbase.bind fun _ => hrest values.tail
    | _ => exact (expr_notes _ (depth + 1) (hdepth.le (by omega))).bind fun _ => hrest values.tail

end

end

end Walk

end LuaScope

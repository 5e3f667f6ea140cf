import LuaScope.Proofs.Member.Lineage
import LuaScope.Binding.Build
import LuaScope.Index.Resolve

/-!
# LuaScope.Proofs.Member.Listing

`members` lists each name once, and lists what a lookup finds. A lookup that goes on behind a
metatable looks `__index` up with the tables visited so far, a listing from the start; so the
listing may reach a table that the lookup gives up on. Where each metatable has an `__index` of its
own, both find the same, and what `p.n` is resolved to is what is listed of `p` under `n`
(`Index.resolve_member`).
-/

namespace LuaScope

theorem Members.get?_cons (first name : String) (id : SymbolId) (rest : Members) :
    Members.get? ((first, id) :: rest) name =
      if name = first then some id else Members.get? rest name := by
  simp only [Members.get?, List.lookup_cons]
  by_cases hname : name = first
  · simp [hname]
  · simp [hname, beq_false_of_ne hname]

namespace Home

/-! ## Own members -/

section

variable {home : Home} {ms : Members} {listed : List (String × Located)} {name : String}
  {m : Located}

theorem addMembers_cons (home : Home) (listed : List (String × Located)) (first : String)
    (id : SymbolId) (rest : Members) :
    home.addMembers listed ((first, id) :: rest) =
      home.addMembers (if first ∈ listed.map Prod.fst then listed
        else listed ++ [(first, home.locate id)]) rest := by
  have hany : listed.any (fun entry => entry.1 == first) = true ↔ first ∈ listed.map Prod.fst := by
    simp only [List.any_eq_true, beq_iff_eq, List.mem_map]
  unfold addMembers
  rw [List.foldl_cons]
  simp only [hany]

/-- Own members are listed unless their names are listed before. -/
theorem mem_addMembers :
    (name, m) ∈ home.addMembers listed ms ↔
      (name, m) ∈ listed ∨
        (name ∉ listed.map Prod.fst ∧ (ms.get? name).map home.locate = some m) := by
  induction ms generalizing listed with
  | nil =>
    simp only [addMembers, List.foldl_nil, Members.get?, List.lookup_nil, Option.map_none,
      reduceCtorEq, and_false, or_false]
  | cons entry rest ih =>
    obtain ⟨first, id⟩ := entry
    rw [addMembers_cons, ih, Members.get?_cons]
    by_cases hlisted : first ∈ listed.map Prod.fst
    · rw [if_pos hlisted]
      by_cases hname : name = first
      · subst hname
        simp only [hlisted, not_true_eq_false, false_and]
      · simp only [hname, if_false]
    · rw [if_neg hlisted]
      by_cases hname : name = first
      · subst hname
        simp only [List.map_append, List.mem_append, List.map_singleton, List.mem_singleton, hlisted,
          Prod.mk.injEq, true_and, or_true, not_true_eq_false, not_false_eq_true, false_and,
          or_false, if_true, Option.map_some, Option.some.injEq, eq_comm]
      · simp only [List.map_append, List.mem_append, List.map_singleton, List.mem_singleton, hname,
          Prod.mk.injEq, false_and, or_false, if_false]

theorem mem_names_addMembers :
    name ∈ (home.addMembers listed ms).map Prod.fst ↔
      name ∈ listed.map Prod.fst ∨ (ms.get? name).isSome := by
  simp only [List.mem_map, Prod.exists, exists_and_right, exists_eq_right, mem_addMembers]
  constructor
  · rintro ⟨m, hm | ⟨-, hm⟩⟩
    · exact .inl ⟨m, hm⟩
    · refine .inr ?_
      obtain ⟨id, hid, -⟩ := Option.map_eq_some_iff.mp hm
      simp [hid]
  · rintro (⟨m, hm⟩ | hsome)
    · exact ⟨m, .inl hm⟩
    · by_cases hlisted : ∃ m, (name, m) ∈ listed
      · obtain ⟨m, hm⟩ := hlisted
        exact ⟨m, .inl hm⟩
      · obtain ⟨id, hid⟩ := Option.isSome_iff_exists.mp hsome
        exact ⟨home.locate id, .inr ⟨hlisted, by simp [hid]⟩⟩

theorem nodup_addMembers (hnodup : (listed.map Prod.fst).Nodup) :
    ((home.addMembers listed ms).map Prod.fst).Nodup := by
  induction ms generalizing listed with
  | nil => exact hnodup
  | cons entry rest ih =>
    obtain ⟨first, id⟩ := entry
    rw [addMembers_cons]
    refine ih ?_
    split
    · exact hnodup
    · rename_i hlisted
      rw [List.map_append, List.map_singleton]
      refine List.nodup_append.mpr ⟨hnodup, List.nodup_cons.mpr ⟨List.not_mem_nil, .nil⟩, ?_⟩
      intro a ha b hb hab
      rw [hab, List.mem_singleton.mp hb] at ha
      exact hlisted ha

end

/-! ## One step of a listing -/

/-- The base with which a listing goes on: an `__index` may be inherited. -/
def listedBaseOf (h : Home) : Prototype → Option Located
  | .base link => some (h.follow link).resolveAlias
  | .metatable link =>
    let metatable := (h.follow link).resolveAlias
    (metatable.extendedMember "__index").map Located.resolveAlias

/-- Own members first, then what the base adds, unless that was visited before. -/
theorem collectMembers_succ (fuel : Nat) (h : Home) (ty : Ty) (listed : List (String × Located))
    (visited : Visited) :
    collectMembers true (fuel + 1) h ty listed visited =
      (h.tableOf ty).elim listed fun p =>
        (p.2.prototype.bind p.1.listedBaseOf).elim (p.1.addMembers listed p.2.members) fun b =>
          if visited.contains b.key then p.1.addMembers listed p.2.members
          else collectMembers true fuel b.container.1 b.container.2
            (p.1.addMembers listed p.2.members) (b.key :: visited) := by
  rw [collectMembers]
  cases h.tableOf ty with
  | none => rfl
  | some p =>
    obtain ⟨home, t⟩ := p
    cases hproto : t.prototype with
    | none => simp [hproto]
    | some proto =>
      cases proto with
      | base link => simp [hproto, listedBaseOf]
      | metatable link =>
        simp only [if_true, Option.elim_some, Option.bind_some, hproto, listedBaseOf,
          Located.extendedMember]
        cases extendedMember _ _ "__index" <;> rfl

/-- What is listed stays listed. -/
theorem mem_collectMembers_of_mem {entry : String × Located} (fuel : Nat) :
    ∀ {h : Home} {ty : Ty} {listed : List (String × Located)} {visited : Visited},
      entry ∈ listed → entry ∈ collectMembers true fuel h ty listed visited := by
  induction fuel with
  | zero => exact fun hentry => hentry
  | succ fuel ih =>
    intro h ty listed visited hentry
    have hown : ∀ (home : Home) (ms : Members), entry ∈ home.addMembers listed ms := fun home ms =>
      mem_addMembers.mpr (.inl hentry)
    rw [collectMembers_succ]
    cases h.tableOf ty with
    | none => exact hentry
    | some p =>
      rw [Option.elim_some]
      cases p.2.prototype.bind p.1.listedBaseOf with
      | none => exact hown _ _
      | some b =>
        rw [Option.elim_some]
        split
        · exact hown _ _
        · exact ih (hown _ _)

theorem nodup_collectMembers (fuel : Nat) :
    ∀ {h : Home} {ty : Ty} {listed : List (String × Located)} {visited : Visited},
      (listed.map Prod.fst).Nodup →
        ((collectMembers true fuel h ty listed visited).map Prod.fst).Nodup := by
  induction fuel with
  | zero => exact fun hnodup => hnodup
  | succ fuel ih =>
    intro h ty listed visited hnodup
    rw [collectMembers_succ]
    cases h.tableOf ty with
    | none => exact hnodup
    | some p =>
      rw [Option.elim_some]
      cases p.2.prototype.bind p.1.listedBaseOf with
      | none => exact nodup_addMembers hnodup
      | some b =>
        rw [Option.elim_some]
        split
        · exact nodup_addMembers hnodup
        · exact ih (nodup_addMembers hnodup)

/-! ## What is found is listed -/

/-- How a search ends with a member: it is an own one, or it is found behind the base. -/
theorem searchMember_eq_some_iff {fuel : Nat} {h : Home} {ty : Ty} {name : String}
    {vs vs' : Visited} {m : Located} :
    searchMember (fuel + 1) h ty name vs = some (m, vs') ↔
      (h.ownMember ty name = some m ∧ vs = vs') ∨
        (h.ownMember ty name = none ∧ ∃ p proto b us, h.tableOf ty = some p ∧
          p.2.prototype = some proto ∧ p.1.searchedBase fuel vs proto = some (b, us) ∧
          b.key ∉ us ∧
          searchMember fuel b.container.1 b.container.2 name (b.key :: us) = some (m, vs')) := by
  rw [searchMember_succ]
  cases h.ownMember ty name with
  | some found =>
    simp only [Option.map_some, Option.some_or, Option.some.injEq, Prod.mk.injEq, reduceCtorEq,
      false_and, or_false]
  | none =>
    simp only [Option.map_none, Option.none_or, Option.bind_eq_some_iff, reduceCtorEq, false_and,
      true_and, false_or]
    constructor
    · rintro ⟨p, htable, ⟨b, us⟩, ⟨proto, hproto, hbase⟩, hrest⟩
      split at hrest
      · cases hrest
      · rename_i hnew
        exact ⟨p, proto, b, us, htable, hproto, hbase, mt List.contains_iff_mem.mpr hnew, hrest⟩
    · rintro ⟨p, proto, b, us, htable, hproto, hbase, hnew, hrest⟩
      refine ⟨p, htable, (b, us), ⟨proto, hproto, hbase⟩, ?_⟩
      rwa [if_neg (mt List.contains_iff_mem.mp hnew)]

/-- A search that may take more steps and has visited less finds the same and visits no more. -/
theorem searchMember_mono (fuel : Nat) :
    ∀ {fuel' : Nat} {h : Home} {ty : Ty} {name : String} {us vs vs' : Visited} {m : Located},
      searchMember fuel h ty name vs = some (m, vs') → fuel ≤ fuel' → us ⊆ vs →
        ∃ us', searchMember fuel' h ty name us = some (m, us') ∧ us' ⊆ vs' := by
  induction fuel with
  | zero => exact fun hfound => nomatch hfound
  | succ fuel ih =>
    intro fuel' h ty name us vs vs' m hfound hle hsub
    obtain ⟨fuel', rfl⟩ : ∃ k, fuel' = k + 1 := ⟨fuel' - 1, by omega⟩
    have hle := Nat.le_of_succ_le_succ hle
    rcases searchMember_eq_some_iff.mp hfound with
      ⟨hown, rfl⟩ | ⟨hown, p, proto, b, ws, htable, hproto, hbase, hnew, hrest⟩
    · exact ⟨us, searchMember_own hown, hsub⟩
    · obtain ⟨ws', hbase', hws⟩ :
          ∃ ws', p.1.searchedBase fuel' us proto = some (b, ws') ∧ ws' ⊆ ws := by
        cases proto with
        | base link =>
          cases hbase
          exact ⟨us, rfl, hsub⟩
        | metatable link =>
          -- The search for `__index` hands the tables it visited on to the search in the base.
          obtain ⟨⟨index, ws₀⟩, hindex, heq⟩ := Option.map_eq_some_iff.mp hbase
          cases heq
          obtain ⟨ws', hindex', hws⟩ := ih hindex hle hsub
          exact ⟨ws', Option.map_eq_some_iff.mpr ⟨_, hindex', rfl⟩, hws⟩
      obtain ⟨us', hrest', hus⟩ := ih hrest hle (List.cons_subset_cons _ hws)
      exact ⟨us', searchMember_eq_some_iff.mpr
        (.inr ⟨hown, p, proto, b, ws', htable, hproto, hbase', mt (hws ·) hnew, hrest'⟩), hus⟩

/-- Tables that were visited stay visited. -/
theorem visited_subset (fuel : Nat) :
    ∀ {h : Home} {ty : Ty} {name : String} {vs vs' : Visited} {m : Located},
      searchMember fuel h ty name vs = some (m, vs') → vs ⊆ vs' := by
  induction fuel with
  | zero => exact fun hfound => nomatch hfound
  | succ fuel ih =>
    intro h ty name vs vs' m hfound
    rcases searchMember_eq_some_iff.mp hfound with
      ⟨-, rfl⟩ | ⟨-, p, proto, b, us, -, -, hbase, -, hrest⟩
    · exact List.Subset.refl vs
    · refine List.Subset.trans ?_ (List.Subset.trans (List.subset_cons_self _ us) (ih hrest))
      cases proto with
      | base link =>
        cases hbase
        exact List.Subset.refl vs
      | metatable link =>
        obtain ⟨⟨index, us₀⟩, hindex, heq⟩ := Option.map_eq_some_iff.mp hbase
        cases heq
        exact ih hindex

/-- The base of a search is the base of the listing. -/
theorem listedBaseOf_of_searched {h : Home} {fuel : Nat} (hfuel : fuel ≤ maxPrototypeDepth + 1)
    {proto : Prototype} {vs us : Visited} {b : Located}
    (hbase : h.searchedBase fuel vs proto = some (b, us)) :
    h.listedBaseOf proto = some b ∧ vs ⊆ us := by
  cases proto with
  | base link =>
    cases hbase
    exact ⟨rfl, List.Subset.refl vs⟩
  | metatable link =>
    obtain ⟨⟨index, us₀⟩, hindex, heq⟩ := Option.map_eq_some_iff.mp hbase
    cases heq
    obtain ⟨ws, hindex', -⟩ := searchMember_mono fuel hindex hfuel (List.nil_subset vs)
    refine ⟨?_, visited_subset fuel hindex⟩
    simp only [listedBaseOf, Located.extendedMember, extendedMember, hindex', Option.map_some]

/-- What a search finds is listed, if its name is not listed before. -/
theorem mem_collectMembers_of_search (fuel : Nat) :
    ∀ {h : Home} {ty : Ty} {name : String} {listed : List (String × Located)}
      {us vs vs' : Visited} {m : Located},
      searchMember fuel h ty name vs = some (m, vs') → fuel ≤ maxPrototypeDepth + 1 → us ⊆ vs →
        name ∉ listed.map Prod.fst → (name, m) ∈ collectMembers true fuel h ty listed us := by
  induction fuel with
  | zero => exact fun hfound => nomatch hfound
  | succ fuel ih =>
    intro h ty name listed us vs vs' m hfound hfuel hsub hlisted
    rw [collectMembers_succ]
    rcases searchMember_eq_some_iff.mp hfound with
      ⟨hown, -⟩ | ⟨hown, p, proto, b, ws, htable, hproto, hbase, hnew, hrest⟩
    · rw [ownMember_eq] at hown
      obtain ⟨p, htable, hown⟩ := Option.bind_eq_some_iff.mp hown
      have hmem : (name, m) ∈ p.1.addMembers listed p.2.members :=
        mem_addMembers.mpr (.inr ⟨hlisted, hown⟩)
      rw [htable, Option.elim_some]
      cases p.2.prototype.bind p.1.listedBaseOf with
      | none => exact hmem
      | some b =>
        rw [Option.elim_some]
        split
        · exact hmem
        · exact mem_collectMembers_of_mem fuel hmem
    · -- The listing has visited less: not the tables on the way to an inherited `__index`.
      obtain ⟨hlistedBase, hws⟩ := listedBaseOf_of_searched (Nat.le_of_succ_le hfuel) hbase
      have hsub' : us ⊆ ws := List.Subset.trans hsub hws
      have hnew' : us.contains b.key = false := by
        rw [List.contains_eq_mem, decide_eq_false_iff_not]
        exact mt (hsub' ·) hnew
      have hnone : p.2.members.get? name = none := by
        rw [ownMember_eq, htable, Option.bind_some, Option.map_eq_none_iff] at hown
        exact hown
      rw [htable, Option.elim_some, hproto, Option.bind_some, hlistedBase, Option.elim_some, hnew',
        if_neg Bool.false_ne_true]
      refine ih hrest (Nat.le_of_succ_le hfuel) (List.cons_subset_cons _ hsub') ?_
      rw [mem_names_addMembers, hnone]
      simpa only [Option.isSome_none, Bool.false_eq_true, or_false] using hlisted

/-! ## What is listed is found -/

/-- Where the `__index` of the metatable is its own member, listing and search have one base. -/
theorem listedBaseOf_eq {h : Home} {proto : Prototype} (hbase : (h.baseOf proto).isSome) :
    h.listedBaseOf proto = h.baseOf proto := by
  obtain ⟨b, hb⟩ := Option.isSome_iff_exists.mp hbase
  have hsearched : h.searchedBase (maxPrototypeDepth + 1) [] proto = some (b, []) := by
    rw [searchedBase_succ maxPrototypeDepth [] hbase, hb]
    rfl
  rw [(listedBaseOf_of_searched (Nat.le_refl _) hsearched).1, hb]

/-- An entry of a listing was listed before, is an own member, or comes from the base. -/
theorem mem_collectMembers_succ {l : Located} (hindexed : l.Indexed) {fuel : Nat} {name : String}
    {m : Located} {listed : List (String × Located)} {visited : Visited}
    (hmem : (name, m) ∈ collectMembers true (fuel + 1) l.container.1 l.container.2 listed visited) :
    (name, m) ∈ listed ∨
      (name ∉ listed.map Prod.fst ∧ l.ownMember name = some m) ∨
        (∃ b listed', l.base? = some b ∧ visited.contains b.key = false ∧
          (name, m) ∈ collectMembers true fuel b.container.1 b.container.2 listed'
            (b.key :: visited) ∧
          (name ∈ listed'.map Prod.fst ↔
            name ∈ listed.map Prod.fst ∨ (l.ownMember name).isSome) ∧
          ((name, m) ∈ listed' ↔
            (name, m) ∈ listed ∨ (name ∉ listed.map Prod.fst ∧ l.ownMember name = some m))) := by
  have hown : ∀ p, l.container.1.tableOf l.container.2 = some p →
      l.ownMember name = (p.2.members.get? name).map p.1.locate := fun p htable => by
    rw [Located.ownMember, ownMember_eq, htable, Option.bind_some]
  rw [collectMembers_succ] at hmem
  cases htable : l.container.1.tableOf l.container.2 with
  | none =>
    rw [htable] at hmem
    exact .inl hmem
  | some p =>
    rw [htable, Option.elim_some] at hmem
    have hentry : (name, m) ∈ p.1.addMembers listed p.2.members ↔ _ := mem_addMembers
    rw [← hown p htable] at hentry
    cases hproto : p.2.prototype with
    | none =>
      rw [hproto] at hmem
      exact or_assoc.mp (.inl (hentry.mp hmem))
    | some proto =>
      obtain ⟨b, hb⟩ := Option.isSome_iff_exists.mp (hindexed p htable proto hproto)
      have hbase : l.base? = some b := by
        rw [Located.base?, base?, htable, Option.bind_some, hproto, Option.bind_some, hb]
      rw [hproto, Option.bind_some, listedBaseOf_eq (hindexed p htable proto hproto), hb,
        Option.elim_some] at hmem
      split at hmem
      · exact or_assoc.mp (.inl (hentry.mp hmem))
      · rename_i hnew
        refine .inr (.inr ⟨b, _, hbase, by simpa using hnew, hmem, ?_, hentry⟩)
        rw [mem_names_addMembers, hown p htable, Option.isSome_map]

/-- What a listing adds is found by the search that has visited the same tables. -/
theorem search_of_mem_collectMembers {name : String} {m : Located} (steps : Nat) :
    ∀ {l : Located} {listed : List (String × Located)} {visited : Visited},
      (∀ x ∈ l.lineage steps, x.Indexed) →
      (name, m) ∈ collectMembers true (steps + 1) l.container.1 l.container.2 listed visited →
        (name, m) ∈ listed ∨ (name ∉ listed.map Prod.fst ∧
          (searchMember (steps + 1) l.container.1 l.container.2 name visited).map Prod.fst =
            some m) := by
  have hfound : ∀ {steps : Nat} {l : Located} {visited : Visited}, l.ownMember name = some m →
      (searchMember (steps + 1) l.container.1 l.container.2 name visited).map Prod.fst = some m :=
    fun hown => by rw [searchMember_own hown]; rfl
  induction steps with
  | zero =>
    intro l listed visited hindexed hmem
    rcases mem_collectMembers_succ (hindexed l (l.mem_lineage_self 0)) hmem with
      hlisted | ⟨hnew, hown⟩ | ⟨b, listed', -, -, hrest, -, hentry⟩
    · exact .inl hlisted
    · exact .inr ⟨hnew, hfound hown⟩
    · exact (hentry.mp hrest).imp_right fun h => ⟨h.1, hfound h.2⟩
  | succ steps ih =>
    intro l listed visited hindexed hmem
    have hl := hindexed l (l.mem_lineage_self _)
    rcases mem_collectMembers_succ hl hmem with
      hlisted | ⟨hnew, hown⟩ | ⟨b, listed', hbase, hunvisited, hrest, hnames, hentry⟩
    · exact .inl hlisted
    · exact .inr ⟨hnew, hfound hown⟩
    · rcases ih (fun x hx => hindexed x (Located.mem_lineage_of_base hbase hx)) hrest with
        hlisted' | ⟨hnew', hsearch⟩
      · exact (hentry.mp hlisted').imp_right fun h => ⟨h.1, hfound h.2⟩
      · rw [hnames, not_or, Option.not_isSome_iff_eq_none] at hnew'
        refine .inr ⟨hnew'.1, ?_⟩
        have hbase : l.container.1.base? l.container.2 = some b := hbase
        rw [searchMember_base hl hnew'.2, hbase, Option.bind_some, hunvisited,
          if_neg Bool.false_ne_true]
        exact hsearch

end Home

namespace Located

theorem nodup_members (l : Located) : ((l.members true).map Prod.fst).Nodup :=
  Home.nodup_collectMembers _ .nil

theorem mem_members_of_found {l m : Located} {name : String}
    (hfound : l.extendedMember name = some m) :
    (name, m) ∈ l.members true := by
  obtain ⟨⟨found, visited⟩, hsearch, rfl⟩ := Option.map_eq_some_iff.mp hfound
  exact Home.mem_collectMembers_of_search _ hsearch (Nat.le_refl _) (List.Subset.refl [])
    List.not_mem_nil

theorem found_of_mem_members {l m : Located} {name : String}
    (hindexed : ∀ x ∈ l.lineage maxPrototypeDepth, x.Indexed) (hmem : (name, m) ∈ l.members true) :
    l.extendedMember name = some m := by
  rcases Home.search_of_mem_collectMembers maxPrototypeDepth hindexed hmem with hnil | ⟨-, hsearch⟩
  · cases hnil
  · exact hsearch

/-- A listing names each member once and lists what the lookup finds. Where the metatables on the
way have an `__index` of their own, it lists nothing else. -/
theorem mem_members_iff_found (l : Located) :
    ((l.members true).map Prod.fst).Nodup ∧
      (∀ name m, l.extendedMember name = some m → (name, m) ∈ l.members true) ∧
      ((∀ x ∈ l.lineage maxPrototypeDepth, x.Indexed) →
        ∀ name m, (name, m) ∈ l.members true ↔ l.extendedMember name = some m) :=
  ⟨l.nodup_members, fun _ _ => mem_members_of_found, fun hindexed _ _ =>
    ⟨found_of_mem_members hindexed, mem_members_of_found⟩⟩

theorem members_of_cycle :
    let object := (Home.here classes).locate 2
    (∀ x ∈ object.lineage maxPrototypeDepth, x.Indexed) ∧
      (∀ m, ("kind", m) ∈ object.members true ↔ object.extendedMember "kind" = some m) ∧
      (object.members true).map Prod.fst = ["__index", "kind"] := by
  have hindexed : ∀ x ∈ ((Home.here classes).locate 2).lineage maxPrototypeDepth, x.Indexed := by
    decide +kernel
  exact ⟨hindexed, (mem_members_iff_found _).2.2 hindexed "kind", by decide +kernel⟩

/-- The metatable of `t` has no `__index` of its own; its base `B` has one, which is `B`. -/
def inheritedIndex : SymbolTable :=
  arena [
    ("B", .table { members := [("__index", 3), ("foo", 4)] }, none),
    ("mt", .table { prototype := some (.base (.here 0)) }, none),
    ("t", .table { prototype := some (.metatable (.here 1)) }, none),
    ("__index", .unknown, some (.here 0)),
    ("foo", .function [] .unknown false, none)]

/-- The lookup visits `B` for its `__index` and does not enter it again. -/
theorem members_of_inherited_index :
    let t := (Home.here inheritedIndex).locate 2
    t.extendedMember "foo" = none ∧
      (t.members true).map (fun entry => (entry.1, entry.2.key)) =
        [("__index", 0, 3), ("foo", 0, 4)] := by
  refine ⟨?_, by decide +kernel⟩
  rw [← Option.isNone_iff_eq_none]
  decide +kernel

/-- The listing as a map answers like the lookup. -/
theorem lookup_members {l : Located} (hindexed : ∀ x ∈ l.lineage maxPrototypeDepth, x.Indexed)
    (name : String) : (l.members true).lookup name = l.extendedMember name := by
  have hiff : ∀ m, (name, m) ∈ l.members true ↔ l.extendedMember name = some m := fun m =>
    ⟨found_of_mem_members hindexed, mem_members_of_found⟩
  ext m
  rw [← hiff m, List.lookup_eq_some_iff]
  constructor
  · rintro ⟨front, behind, heq, -⟩
    rw [heq]
    exact List.mem_append_right _ List.mem_cons_self
  · intro hmem
    obtain ⟨front, behind, heq⟩ := List.append_of_mem hmem
    refine ⟨front, behind, heq, fun entry hentry => ?_⟩
    have hnodup := nodup_members l
    rw [heq, List.map_append, List.nodup_append] at hnodup
    have hne := hnodup.2.2 entry.1 (List.mem_map_of_mem hentry) name List.mem_cons_self
    exact bne_iff_ne.mpr hne.symm

end Located

/-- What a path of two names is resolved to is what is listed under the second name. -/
theorem Index.resolve_member {i : Index} {path root name : String} {offset : Nat} {id : SymbolId}
    (hpath : splitPath path = [root, name])
    (hroot : i.table.lookup (i.scopeAt offset) root offset = some id)
    (hindexed : ∀ x ∈ ((Home.here i.table).locate id).lineage maxPrototypeDepth, x.Indexed) :
    (i.resolve path offset).first? =
      ((((Home.here i.table).locate id).members true).lookup name).map (·.handle i) := by
  rw [Located.lookup_members hindexed, resolve, hpath]
  simp only [hroot, List.getLast?_singleton]
  split
  · rename_i hcontainer
    have hnone : ((Home.here i.table).locate id).container.1.tableOf
        ((Home.here i.table).locate id).container.2 = none := by
      revert hcontainer
      cases ((Home.here i.table).locate id).container.2 <;> simp [TyOver.isContainer, Home.tableOf]
    rw [Located.extendedMember, Home.extendedMember, Home.searchMember_succ, Home.ownMember_eq,
      hnone]
    rfl
  · rfl

/-- The table `t` has no member of its own; `f` is a member of its base. -/
theorem Index.resolve_member_inherited :
    let text := "local B = {f = 1} local t = setmetatable({}, {__index = B}) print(t.f)"
    let i := (Index.build ⟨"file:///a.lua"⟩ 1 text {} Loader.none ()).1
    ∃ id, i.table.lookup (i.scopeAt 66) "t" 66 = some id ∧
      ((Home.here i.table).locate id).ownMember "f" = none ∧
      (i.resolve "t.f" 66).first? =
        ((((Home.here i.table).locate id).members true).lookup "f").map (·.handle i) ∧
      ((((Home.here i.table).locate id).members true).lookup "f").map Located.id = some 0 := by
  intro text i
  have hroot : ∃ id ∈ i.table.lookup (i.scopeAt 66) "t" 66,
      (((Home.here i.table).locate id).ownMember "f").isNone ∧
      (∀ x ∈ ((Home.here i.table).locate id).lineage maxPrototypeDepth, x.Indexed) ∧
      ((((Home.here i.table).locate id).members true).lookup "f").map Located.id = some 0 := by
    decide +kernel
  obtain ⟨id, hid, hown, hindexed, hlisted⟩ := hroot
  exact ⟨id, hid, Option.isNone_iff_eq_none.mp hown,
    resolve_member (by decide +kernel) hid hindexed, hlisted⟩

end LuaScope

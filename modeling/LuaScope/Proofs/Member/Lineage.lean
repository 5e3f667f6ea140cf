import LuaScope.Index.Member

/-!
# LuaScope.Proofs.Member.Lineage

The tables on which a member lookup goes on. The `base?` of a value is what its prototype leads to,
its `lineage` the value and the bases behind it. Where metatables have an `__index` of their own,
`extendedMember` is the first own member along the lineage: no entry of the visited list stands for
two tables, so the search gives up only where the lineage repeats.
-/

namespace LuaScope

/-! ## Aliases -/

namespace Located

/-- The link of a symbol that holds the value of another one. -/
def aliasLink? (l : Located) : Option Link := l.symbol?.bind (·.«alias»)

/-- So many aliases lead from one symbol to the other. -/
inductive Aliases : Nat → Located → Located → Prop where
  | here (l : Located) : Aliases 0 l l
  | hop {hops : Nat} {l m : Located} {link : Link} : l.aliasLink? = some link →
      Aliases hops (l.home.follow link) m → Aliases (hops + 1) l m

theorem aliasWithin_eq {hops fuel : Nat} {l m : Located} (h : Aliases hops l m)
    (hfuel : hops ≤ fuel)
    (hlast : m.aliasLink? = none) : l.aliasWithin fuel = m := by
  unfold aliasLink? at hlast
  induction h generalizing fuel with
  | here l => cases fuel <;> simp [aliasWithin, hlast]
  | hop hlink _ ih =>
    obtain ⟨fuel, rfl⟩ : ∃ k, fuel = k + 1 := ⟨fuel - 1, by omega⟩
    unfold aliasLink? at hlink
    simp only [aliasWithin, hlink]
    exact ih (Nat.le_of_succ_le_succ hfuel) hlast

/-- A chain of aliases within the bound is followed to its end. -/
theorem resolveAlias_eq {hops : Nat} {l m : Located} (h : Aliases hops l m)
    (hbound : hops ≤ maxAliasHops) (hlast : m.aliasLink? = none) : l.resolveAlias = m :=
  aliasWithin_eq h hbound hlast

end Located

/-! ## Bases -/

namespace Home

/-- Where a prototype of this table leads, read without inheritance. -/
def baseOf (h : Home) : Prototype → Option Located
  | .base link => some (h.follow link).resolveAlias
  | .metatable link => ((h.follow link).resolveAlias.ownMember "__index").map Located.resolveAlias

def base? (h : Home) (ty : Ty) : Option Located :=
  (h.tableOf ty).bind fun p => p.2.prototype.bind p.1.baseOf

/-- Is the `__index` of the metatable, if the value has one, its own member? -/
def Indexed (h : Home) (ty : Ty) : Prop :=
  ∀ p ∈ h.tableOf ty, ∀ proto ∈ p.2.prototype, (p.1.baseOf proto).isSome

instance (h : Home) (ty : Ty) : Decidable (h.Indexed ty) := by
  unfold Indexed
  infer_instance

theorem indexed_iff {h : Home} {ty : Ty} :
    h.Indexed ty ↔ ∀ home t link, h.tableOf ty = some (home, t) →
      t.prototype = some (.metatable link) →
        ((home.follow link).resolveAlias.ownMember "__index").isSome := by
  constructor
  · intro hindexed home t link htable hproto
    simpa [baseOf] using hindexed _ htable _ hproto
  · intro hown p htable proto hproto
    cases proto with
    | base link => rfl
    | metatable link => simpa [baseOf] using hown p.1 p.2 link htable hproto

end Home

namespace Located

def base? (l : Located) : Option Located := l.container.1.base? l.container.2

def Indexed (l : Located) : Prop := l.container.1.Indexed l.container.2

instance (l : Located) : Decidable l.Indexed := by
  unfold Indexed
  infer_instance

/-- The value and the bases behind it, as many steps as given. -/
def lineage : Nat → Located → List Located
  | 0, l => [l]
  | steps + 1, l => l :: l.base?.elim [] (lineage steps)

theorem lineage_zero (l : Located) : l.lineage 0 = [l] := rfl

theorem lineage_succ (l : Located) (steps : Nat) :
    l.lineage (steps + 1) = l :: l.base?.elim [] (lineage steps) := rfl

theorem mem_lineage_self (l : Located) (steps : Nat) : l ∈ l.lineage steps := by
  cases steps <;> exact List.mem_cons_self

theorem mem_lineage_of_base {l b x : Located} {steps : Nat} (hbase : l.base? = some b)
    (hx : x ∈ b.lineage steps) : x ∈ l.lineage (steps + 1) := by
  rw [lineage_succ, hbase]
  exact List.mem_cons_of_mem _ hx

/-- A lineage stays among tables that are closed under bases. -/
theorem mem_of_mem_lineage {S : Located → Prop} (hclosed : ∀ x, S x → ∀ b, x.base? = some b → S b) :
    ∀ {steps : Nat} {l x : Located}, S l → x ∈ l.lineage steps → S x := by
  intro steps
  induction steps with
  | zero =>
    intro l x hl hx
    obtain rfl : x = l := List.mem_singleton.mp hx
    exact hl
  | succ steps ih =>
    intro l x hl hx
    rw [lineage_succ] at hx
    cases hbase : l.base? with
    | none =>
      rw [hbase] at hx
      obtain rfl : x = l := List.mem_singleton.mp hx
      exact hl
    | some b =>
      rw [hbase] at hx
      rcases List.mem_cons.mp hx with rfl | hx
      · exact hl
      · exact ih (hclosed l hl b hbase) hx

end Located

/-! ## Homes along a walk

A walk stays in its table or enters one with a higher count, so the key of a symbol of the walk
tells which symbol it is. -/

namespace Home

def Leads (a b : Home) : Prop := a = b ∨ a.hops < b.hops

theorem Leads.refl (h : Home) : h.Leads h := .inl rfl

theorem Leads.trans {a b c : Home} (hab : a.Leads b) (hbc : b.Leads c) : a.Leads c := by
  rcases hab with rfl | hab
  · exact hbc
  · rcases hbc with rfl | hbc
    · exact .inr hab
    · exact .inr (Nat.lt_trans hab hbc)

theorem leads_enter (h : Home) (origin : Option Index) : h.Leads (h.enter origin) := by
  cases origin with
  | none => exact .refl h
  | some _ => exact .inr (Nat.lt_succ_self h.hops)

theorem leads_tableOf {h home : Home} {ty : Ty} {t : Table}
    (htable : h.tableOf ty = some (home, t)) :
    h.Leads home := by
  unfold tableOf at htable
  split at htable
  · cases htable
    exact h.leads_enter _
  · split at htable
    · cases htable
      exact (h.leads_enter _).trans (leads_enter _ _)
    · cases htable
  · cases htable

theorem leads_follow (h : Home) (link : Link) : h.Leads (h.follow link).home :=
  h.leads_enter link.origin

theorem leads_aliasWithin (fuel : Nat) (l : Located) : l.home.Leads (l.aliasWithin fuel).home := by
  induction fuel generalizing l with
  | zero => exact .refl _
  | succ fuel ih =>
    unfold Located.aliasWithin
    split
    · exact (l.home.leads_follow _).trans (ih _)
    · exact .refl _

theorem leads_resolveAlias (l : Located) : l.home.Leads l.resolveAlias.home :=
  leads_aliasWithin maxAliasHops l

theorem leads_ownMember {h : Home} {ty : Ty} {name : String} {m : Located}
    (hown : h.ownMember ty name = some m) : h.Leads m.home := by
  unfold ownMember at hown
  split at hown
  · rename_i home t htable
    obtain ⟨id, -, rfl⟩ := Option.map_eq_some_iff.mp hown
    exact leads_tableOf htable
  · cases hown

theorem leads_baseOf {h : Home} {proto : Prototype} {b : Located}
    (hbase : h.baseOf proto = some b) :
    h.Leads b.home := by
  cases proto with
  | base link =>
    cases hbase
    exact (h.leads_follow link).trans (leads_resolveAlias _)
  | metatable link =>
    obtain ⟨index, hown, rfl⟩ := Option.map_eq_some_iff.mp hbase
    have hmetatable := (h.leads_follow link).trans (leads_resolveAlias _)
    have hcontainer := hmetatable.trans (leads_resolveAlias _)
    exact (hcontainer.trans (leads_ownMember hown)).trans (leads_resolveAlias _)

end Home

namespace Located

theorem leads_base {l b : Located} (hbase : l.base? = some b) : l.home.Leads b.home := by
  obtain ⟨p, htable, hbase⟩ := Option.bind_eq_some_iff.mp hbase
  obtain ⟨proto, -, hbase⟩ := Option.bind_eq_some_iff.mp hbase
  exact ((Home.leads_resolveAlias l).trans (Home.leads_tableOf htable)).trans
    (Home.leads_baseOf hbase)

theorem eq_of_key_eq {a b : Located} (hleads : a.home.Leads b.home) (hkey : a.key = b.key) :
    a = b := by
  obtain ⟨hhops, hid⟩ := Prod.mk.inj hkey
  rcases hleads with hhome | hlt
  · cases a
    cases b
    cases hhome
    cases hid
    rfl
  · omega

end Located

/-! ## One step of the search -/

namespace Home

theorem ownMember_eq (h : Home) (ty : Ty) (name : String) :
    h.ownMember ty name =
      (h.tableOf ty).bind fun p => (p.2.members.get? name).map p.1.locate := by
  unfold ownMember
  cases h.tableOf ty <;> rfl

/-- The base with which a search goes on, and the tables visited then: an `__index` may be inherited
by tables that were not visited before. -/
def searchedBase (fuel : Nat) (h : Home) (visited : Visited) :
    Prototype → Option (Located × Visited)
  | .base link => some ((h.follow link).resolveAlias, visited)
  | .metatable link =>
    let metatable := (h.follow link).resolveAlias
    (searchMember fuel metatable.container.1 metatable.container.2 "__index" visited).map
      fun found => (found.1.resolveAlias, found.2)

/-- What is not an own member is looked up in the base, unless that was visited before. -/
theorem searchMember_succ (fuel : Nat) (h : Home) (ty : Ty) (name : String) (visited : Visited) :
    searchMember (fuel + 1) h ty name visited =
      ((h.ownMember ty name).map (·, visited)).or
        ((h.tableOf ty).bind fun p =>
          (p.2.prototype.bind (p.1.searchedBase fuel visited)).bind fun b =>
            if b.2.contains b.1.key then none
            else searchMember fuel b.1.container.1 b.1.container.2 name (b.1.key :: b.2)) := by
  rw [searchMember]
  cases h.ownMember ty name with
  | some found => rfl
  | none =>
    cases h.tableOf ty with
    | none => rfl
    | some p =>
      obtain ⟨home, t⟩ := p
      cases hproto : t.prototype with
      | none => simp [hproto]
      | some proto =>
        cases proto with
        | base link => simp [hproto, searchedBase]
        | metatable link =>
          simp only [Option.map_none, Option.none_or, Option.bind_some, hproto, searchedBase]
          cases searchMember fuel _ _ "__index" visited <;> rfl

theorem searchMember_own {fuel : Nat} {h : Home} {ty : Ty} {name : String} {visited : Visited}
    {m : Located} (hown : h.ownMember ty name = some m) :
    searchMember (fuel + 1) h ty name visited = some (m, visited) := by
  rw [searchMember_succ, hown]
  rfl

/-- An `__index` of the metatable's own is found without a further visit. -/
theorem searchedBase_succ {h : Home} {proto : Prototype} (fuel : Nat) (visited : Visited)
    (hbase : (h.baseOf proto).isSome) :
    h.searchedBase (fuel + 1) visited proto = (h.baseOf proto).map (·, visited) := by
  cases proto with
  | base link => rfl
  | metatable link =>
    obtain ⟨index, hindex⟩ := Option.isSome_iff_exists.mp (Option.isSome_map.symm.trans hbase)
    have hfound : searchMember (fuel + 1) _ _ "__index" visited = _ := searchMember_own hindex
    simp only [searchedBase, baseOf, hfound, hindex, Option.map_some]

theorem searchMember_base {h : Home} {ty : Ty} (hindexed : h.Indexed ty) {fuel : Nat}
    {name : String}
    {visited : Visited} (hown : h.ownMember ty name = none) :
    searchMember (fuel + 1) h ty name visited =
      (h.base? ty).bind fun b =>
        if visited.contains b.key then none
        else searchMember fuel b.container.1 b.container.2 name (b.key :: visited) := by
  rw [searchMember_succ, hown, base?]
  cases htable : h.tableOf ty with
  | none => rfl
  | some p =>
    cases hproto : p.2.prototype with
    | none => simp [hproto]
    | some proto =>
      have hbase := hindexed p htable proto hproto
      simp only [Option.map_none, Option.none_or, Option.bind_some, hproto]
      cases fuel with
      | zero => simp [searchMember]
      | succ fuel =>
        rw [searchedBase_succ fuel visited hbase]
        cases p.1.baseOf proto <;> rfl

end Home

/-! ## The whole search -/

namespace Located

/-- The bases visited on the way from some table to `l`, the last one first. The table the walk
began with is not among them. -/
inductive Trail : Located → List Located → Prop where
  | start (l : Located) : Trail l []
  | step {l b : Located} {trail : List Located} : Trail l trail → l.base? = some b →
      Trail b (b :: trail)

namespace Trail

variable {l b x : Located} {trail : List Located}

theorem leads (h : Trail l trail) (hx : x ∈ trail) : x.home.Leads l.home := by
  induction h with
  | start => cases hx
  | step _ hbase ih =>
    rcases List.mem_cons.mp hx with rfl | hx
    · exact .refl _
    · exact (ih hx).trans (leads_base hbase)

/-- Among the visited tables only the last one may have a base that was not visited. -/
theorem base_mem (h : Trail l trail) (hx : x ∈ trail) (hbase : x.base? = some b) :
    b ∈ trail ∨ x = l := by
  induction h with
  | start => cases hx
  | @step l c trail _ hlast ih =>
    rcases List.mem_cons.mp hx with rfl | hx
    · exact .inr rfl
    · rcases ih hx with hb | rfl
      · exact .inl (List.mem_cons_of_mem _ hb)
      · rw [hlast] at hbase
        cases hbase
        exact .inl List.mem_cons_self

/-- Where the search meets the key of a visited table, it has come back to that table. -/
theorem mem_of_key (h : Trail l trail) (hbase : l.base? = some b)
    (hkey : (trail.map key).contains b.key = true) : b ∈ trail := by
  obtain ⟨x, hx, hxb⟩ := List.mem_map.mp (List.contains_iff_mem.mp hkey)
  exact eq_of_key_eq ((h.leads hx).trans (leads_base hbase)) hxb ▸ hx

/-- Behind a repetition come only tables that were visited. -/
theorem closed (h : Trail l trail) (hlast : ∀ b, l.base? = some b → b ∈ trail) :
    ∀ x, x ∈ trail → ∀ b, x.base? = some b → b ∈ trail := by
  intro x hx b hbase
  rcases h.base_mem hx hbase with hb | rfl
  · exact hb
  · exact hlast b hbase

end Trail

/-- A search that has visited the trail and found nothing there goes on with the lineage. -/
theorem searchMember_eq_findSome? {name : String} (steps : Nat) :
    ∀ {l : Located} {trail : List Located}, Trail l trail →
      (∀ x ∈ trail, x = l ∨ x.ownMember name = none) →
      (∀ x ∈ l.lineage steps, x.Indexed) →
      (Home.searchMember (steps + 1) l.container.1 l.container.2 name (trail.map key)).map Prod.fst =
        (l.lineage steps).findSome? (·.ownMember name) := by
  induction steps with
  | zero =>
    intro l trail _ _ hindexed
    rw [lineage_zero, List.findSome?_singleton]
    cases hown : l.ownMember name with
    | some m => rw [Home.searchMember_own hown]; rfl
    | none =>
      rw [Home.searchMember_base (hindexed l (l.mem_lineage_self 0)) hown]
      cases l.container.1.base? l.container.2 <;> simp [Home.searchMember]
  | succ steps ih =>
    intro l trail htrail hnone hindexed
    cases hown : l.ownMember name with
    | some m =>
      rw [Home.searchMember_own hown, lineage_succ, List.findSome?_cons_of_isSome (by simp [hown])]
      simp [hown]
    | none =>
      rw [Home.searchMember_base (hindexed l (l.mem_lineage_self _)) hown, lineage_succ,
        List.findSome?_cons_of_isNone (by simp [hown])]
      have hvisited : ∀ x ∈ trail, x.ownMember name = none := fun x hx =>
        (hnone x hx).elim (fun heq => heq ▸ hown) fun h => h
      cases hbase : l.base? with
      | none =>
        rw [show l.container.1.base? l.container.2 = none from hbase]
        rfl
      | some b =>
        rw [show l.container.1.base? l.container.2 = some b from hbase, Option.bind_some]
        cases hkey : (trail.map key).contains b.key with
        | true =>
          -- the lineage repeats: nothing new comes behind
          have hb := htrail.mem_of_key hbase hkey
          have hclosed := htrail.closed fun c hc => by
            rw [hbase] at hc
            exact Option.some.inj hc ▸ hb
          simp only [if_true, Option.map_none, Option.elim_some]
          exact (List.findSome?_eq_none_iff.mpr fun x hx =>
            hvisited x (mem_of_mem_lineage hclosed hb hx)).symm
        | false =>
          simp only [Bool.false_eq_true, if_false, Option.elim_some]
          refine ih (htrail.step hbase) (fun x hx => ?_)
            fun x hx => hindexed x (mem_lineage_of_base hbase hx)
          rcases List.mem_cons.mp hx with rfl | hx
          · exact .inl rfl
          · exact .inr (hvisited x hx)

/-- A member is looked up among the own members of the value, of its base, of the base of that and
so on, up to the depth bound; where the lineage runs in a circle, all its tables are searched. -/
theorem extendedMember_eq_findSome? (l : Located) (name : String)
    (hindexed : ∀ x ∈ l.lineage maxPrototypeDepth, x.Indexed) :
    l.extendedMember name = (l.lineage maxPrototypeDepth).findSome? (·.ownMember name) :=
  searchMember_eq_findSome? maxPrototypeDepth (.start l) (fun _ hx => by cases hx) hindexed

/-- A table of variables with these names, values and aliases. -/
def arena (values : List (String × Ty × Option Link)) : SymbolTable :=
  let symbol (value : String × Ty × Option Link) (id : Nat) : Symbol :=
    { id := id, name := value.1, kind := .variable, document := ⟨""⟩, range := ⟨⟨0, 0⟩, ⟨0, 0⟩⟩,
      span := ⟨0, 0⟩, fullRange := ⟨⟨0, 0⟩, ⟨0, 0⟩⟩, scope := 0, container := none, isLocal := true,
      ty := value.2.1, «alias» := value.2.2, doc := none }
  { (SymbolTableOver.new 0 : SymbolTable) with
    symbols := (values.zipIdx.map fun p => symbol p.1 p.2).toArray }

/-- `Object` and `Class` inherit from each other. The metatable of `object` is `Class`, which is its
own `__index`. -/
def classes : SymbolTable :=
  arena [
    ("Object", .table { members := [("kind", 3)], prototype := some (.base (.here 1)) }, none),
    ("Class", .table { members := [("__index", 4)], prototype := some (.base (.here 0)) }, none),
    ("object", .table { prototype := some (.metatable (.here 1)) }, none),
    ("kind", .string, none),
    ("__index", .unknown, some (.here 1))]

theorem extendedMember_of_cycle :
    let object := (Home.here classes).locate 2
    (∀ x ∈ object.lineage maxPrototypeDepth, x.Indexed) ∧
      object.extendedMember "kind" =
        (object.lineage maxPrototypeDepth).findSome? (·.ownMember "kind") ∧
      (object.extendedMember "kind").map key = some (0, 3) ∧
      (object.extendedMember "size").map key = none := by
  have hindexed : ∀ x ∈ ((Home.here classes).locate 2).lineage maxPrototypeDepth, x.Indexed := by
    decide +kernel
  exact ⟨hindexed, extendedMember_eq_findSome? _ _ hindexed, by decide +kernel, by decide +kernel⟩

end Located

end LuaScope

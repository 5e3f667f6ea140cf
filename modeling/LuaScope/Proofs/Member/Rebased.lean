import LuaScope.Binding.Build
import LuaScope.Proofs.Linking.Follow

/-!
# LuaScope.Proofs.Member.Rebased

A type that is copied into another document goes on meaning the same. What a lookup finds does not
depend on how many documents were entered before it began, so it is the same from the home of a type
and from the document that keeps a copy, once the copy says where its numbers are read.

* `Home.extendedMember_later`, `Home.members_later` — lookups count from wherever they begin.
* `Home.agrees_of_alike`     — tables that are read in one place hold the same members.
* `Located.valueType_agrees` — the value of a symbol, and what its calls return, as kept elsewhere.
-/

namespace LuaScope

/-! ## Counting from another start -/

/-- The same table, with so many more documents entered before. -/
def Home.later (k : Nat) (h : Home) : Home := { h with hops := h.hops + k }

def Located.later (k : Nat) (l : Located) : Located := (l.home.later k).locate l.id

def laterKey (k : Nat) (key : Nat × SymbolId) : Nat × SymbolId := (key.1 + k, key.2)

theorem laterKey_injective (k : Nat) : Function.Injective (laterKey k) := by
  rintro ⟨hops, id⟩ ⟨hops', id'⟩ h
  obtain ⟨hhops, hid⟩ := Prod.mk.inj h
  exact Prod.ext (Nat.add_right_cancel hhops) hid

theorem contains_laterKey (k : Nat) (visited : Visited) (key : Nat × SymbolId) :
    (visited.map (laterKey k)).contains (laterKey k key) = visited.contains key := by
  rw [Bool.eq_iff_iff, List.contains_iff_mem, List.contains_iff_mem]
  exact List.mem_map.trans ⟨fun ⟨_, hmem, heq⟩ => laterKey_injective k heq ▸ hmem,
    fun hmem => ⟨key, hmem, rfl⟩⟩

theorem Located.key_later (k : Nat) (l : Located) : (l.later k).key = laterKey k l.key := rfl

theorem Home.enter_later (k : Nat) (h : Home) (origin : Option Index) :
    (h.later k).enter origin = (h.enter origin).later k := by
  cases origin with
  | none => rfl
  | some o => exact congrArg (Home.foreign o) (Nat.add_right_comm h.hops k 1)

theorem Home.follow_later (k : Nat) (h : Home) (link : Link) :
    (h.later k).follow link = (h.follow link).later k :=
  congrArg (Home.locate · link.id) (h.enter_later k link.origin)

theorem Home.tableOf_later (k : Nat) (h : Home) (ty : Ty) :
    (h.later k).tableOf ty = (h.tableOf ty).map fun p => (p.1.later k, p.2) := by
  cases ty with
  | table t => exact congrArg (fun home => some (home, t)) (h.enter_later k t.origin)
  | module name origin =>
    simp only [tableOf]
    cases origin.exportedTable with
    | none => rfl
    | some exported => simp only [enter_later, Option.map_some]
  | _ => rfl

theorem Home.ownMember_later (k : Nat) (h : Home) (ty : Ty) (name : String) :
    (h.later k).ownMember ty name = (h.ownMember ty name).map (Located.later k) := by
  rw [ownMember_eq, ownMember_eq, tableOf_later]
  cases h.tableOf ty with
  | none => rfl
  | some p => exact (Option.map_map (Located.later k) p.1.locate _).symm

theorem Located.aliasWithin_later (k fuel : Nat) (l : Located) :
    (l.later k).aliasWithin fuel = (l.aliasWithin fuel).later k := by
  induction fuel generalizing l with
  | zero => rfl
  | succ fuel ih =>
    have hsymbol : (l.later k).symbol? = l.symbol? := rfl
    simp only [aliasWithin, hsymbol]
    cases l.symbol?.bind (·.alias) with
    | none => rfl
    | some link =>
      exact (congrArg (aliasWithin fuel) (l.home.follow_later k link)).trans (ih _)

theorem Located.resolveAlias_later (k : Nat) (l : Located) :
    (l.later k).resolveAlias = l.resolveAlias.later k := l.aliasWithin_later k maxAliasHops

theorem Located.container_later (k : Nat) (l : Located) :
    (l.later k).container = (l.container.1.later k, l.container.2) := by
  simp only [container, resolveAlias_later]
  rfl

/-- The tables have the same members and prototype. -/
structure Table.Alike (t t' : Table) : Prop where
  members : t.members = t'.members
  prototype : t.prototype = t'.prototype

namespace Home

/-- By induction on the fuel: the keys of the visited tables are all later by the same count. -/
theorem searchMember_later (k fuel : Nat) : ∀ (h : Home) (ty : Ty) (name : String)
    (visited : Visited), searchMember fuel (h.later k) ty name (visited.map (laterKey k)) =
      (searchMember fuel h ty name visited).map fun p => (p.1.later k, p.2.map (laterKey k)) := by
  induction fuel with
  | zero => exact fun _ _ _ _ => rfl
  | succ fuel ih =>
    intro h ty name visited
    have hbase : ∀ (home : Home) (proto : Prototype),
        (home.later k).searchedBase fuel (visited.map (laterKey k)) proto =
          (home.searchedBase fuel visited proto).map
            fun b => (b.1.later k, b.2.map (laterKey k)) := by
      intro home proto
      cases proto with
      | base link =>
        simp only [searchedBase, follow_later, Located.resolveAlias_later, Option.map_some]
      | metatable link =>
        simp only [searchedBase, follow_later, Located.resolveAlias_later, Located.container_later,
          ih, Option.map_map, Function.comp_def]
    rw [searchMember_succ, searchMember_succ, ownMember_later, tableOf_later]
    cases h.ownMember ty name with
    | some found => rfl
    | none =>
      cases h.tableOf ty with
      | none => rfl
      | some p =>
        simp only [Option.map_none, Option.none_or, Option.map_some, Option.bind_some]
        cases p.2.prototype with
        | none => rfl
        | some proto =>
          simp only [Option.bind_some, hbase]
          cases p.1.searchedBase fuel visited proto with
          | none => rfl
          | some b =>
            simp only [Option.map_some, Option.bind_some, Located.key_later, contains_laterKey,
              Located.container_later]
            split
            · rfl
            · exact ih b.1.container.1 b.1.container.2 name (b.1.key :: b.2)

theorem extendedMember_later (k : Nat) (h : Home) (ty : Ty) (name : String) :
    (h.later k).extendedMember ty name = (h.extendedMember ty name).map (Located.later k) := by
  have hsearch := searchMember_later k (maxPrototypeDepth + 1) h ty name []
  rw [List.map_nil] at hsearch
  simp only [extendedMember, hsearch, Option.map_map, Function.comp_def]

/-- What is listed, with so many more documents entered before. -/
def laterEntry (k : Nat) (entry : String × Located) : String × Located :=
  (entry.1, entry.2.later k)

theorem addMembers_later (k : Nat) (h : Home) (ms : Members) (listed : List (String × Located)) :
    (h.later k).addMembers (listed.map (laterEntry k)) ms =
      (h.addMembers listed ms).map (laterEntry k) := by
  have hnames : ∀ listed : List (String × Located),
      (listed.map (laterEntry k)).map Prod.fst = listed.map Prod.fst := fun listed =>
    List.map_map
  induction ms generalizing listed with
  | nil => rfl
  | cons entry rest ih =>
    rw [addMembers_cons, addMembers_cons, hnames, ← ih]
    split
    · rfl
    · rw [List.map_append]
      rfl

theorem listedBaseOf_later (k : Nat) (h : Home) (proto : Prototype) :
    (h.later k).listedBaseOf proto = (h.listedBaseOf proto).map (Located.later k) := by
  cases proto with
  | base link => simp only [listedBaseOf, follow_later, Located.resolveAlias_later, Option.map_some]
  | metatable link =>
    simp only [listedBaseOf, follow_later, Located.resolveAlias_later, Located.extendedMember,
      Located.container_later, extendedMember_later, Option.map_map, Function.comp_def]

theorem collectMembers_own (fuel : Nat) (h : Home) (ty : Ty) (listed : List (String × Located))
    (visited : Visited) :
    collectMembers false (fuel + 1) h ty listed visited =
      (h.tableOf ty).elim listed fun p => p.1.addMembers listed p.2.members := by
  rw [collectMembers]
  cases h.tableOf ty <;> rfl

theorem collectMembers_later (k fuel : Nat) (extended : Bool) : ∀ (h : Home) (ty : Ty)
    (listed : List (String × Located)) (visited : Visited),
    collectMembers extended fuel (h.later k) ty (listed.map (laterEntry k))
        (visited.map (laterKey k)) =
      (collectMembers extended fuel h ty listed visited).map (laterEntry k) := by
  induction fuel with
  | zero => exact fun _ _ _ _ => rfl
  | succ fuel ih =>
    intro h ty listed visited
    cases extended with
    | false =>
      rw [collectMembers_own, collectMembers_own, tableOf_later]
      cases h.tableOf ty with
      | none => rfl
      | some p => exact addMembers_later k p.1 p.2.members listed
    | true =>
      rw [collectMembers_succ, collectMembers_succ, tableOf_later]
      cases h.tableOf ty with
      | none => rfl
      | some p =>
        simp only [Option.map_some, Option.elim_some, addMembers_later]
        cases p.2.prototype with
        | none => rfl
        | some proto =>
          simp only [Option.bind_some, listedBaseOf_later]
          cases p.1.listedBaseOf proto with
          | none => rfl
          | some b =>
            simp only [Option.map_some, Option.elim_some, Located.key_later, contains_laterKey,
              Located.container_later]
            split
            · rfl
            · exact ih b.container.1 b.container.2 _ (b.key :: visited)

theorem members_later (k : Nat) (h : Home) (ty : Ty) (extended : Bool) :
    (h.later k).members ty extended = (h.members ty extended).map (laterEntry k) :=
  collectMembers_later k (maxPrototypeDepth + 1) extended h ty [] []

/-! ## Types that hold the same members -/

/-- Both homes are of one document. -/
structure Beside (a b : Home) : Prop where
  table : a.table = b.table
  origin : a.origin = b.origin

/-- What the names of a listing lead to. -/
def links (listed : List (String × Located)) : List (String × Link) :=
  listed.map fun entry => (entry.1, entry.2.toLink)

/-- Lookups in the two types find the same symbols of the same documents. -/
structure Agrees (h : Home) (ty : Ty) (h' : Home) (ty' : Ty) : Prop where
  own : ∀ name, (h.ownMember ty name).map Located.toLink =
    (h'.ownMember ty' name).map Located.toLink
  extended : ∀ name, (h.extendedMember ty name).map Located.toLink =
    (h'.extendedMember ty' name).map Located.toLink
  members : ∀ extended, links (h.members ty extended) = links (h'.members ty' extended)

theorem Agrees.trans {h h' h'' : Home} {ty ty' ty'' : Ty} (a : h.Agrees ty h' ty')
    (b : h'.Agrees ty' h'' ty'') : h.Agrees ty h'' ty'' :=
  ⟨fun name => (a.own name).trans (b.own name),
    fun name => (a.extended name).trans (b.extended name),
    fun extended => (a.members extended).trans (b.members extended)⟩

theorem agrees_later (k : Nat) (h : Home) (ty : Ty) : (h.later k).Agrees ty h ty where
  own name := by
    rw [ownMember_later, Option.map_map]
    rfl
  extended name := by
    rw [extendedMember_later, Option.map_map]
    rfl
  members extended := by
    rw [members_later, links, List.map_map]
    rfl

theorem Agrees.symm {h h' : Home} {ty ty' : Ty} (a : h.Agrees ty h' ty') : h'.Agrees ty' h ty :=
  ⟨fun name => (a.own name).symm, fun name => (a.extended name).symm,
    fun extended => (a.members extended).symm⟩

/-- Both count on from a walk that has not entered any document. -/
theorem agrees_of_beside {a b : Home} (h : a.Beside b) (ty : Ty) : a.Agrees ty b ty := by
  let base : Home := { a with hops := 0 }
  have ha : a = base.later a.hops := by
    simp [base, later]
  have hb : b = base.later b.hops := by
    simp [base, later, h.table, h.origin]
  rw [ha, hb]
  exact (agrees_later a.hops base ty).trans (agrees_later b.hops base ty).symm

theorem Beside.enter {a b : Home} (h : a.Beside b) (origin : Option Index) :
    (a.enter origin).Beside (b.enter origin) := by
  cases origin with
  | none => exact h
  | some o => exact ⟨rfl, rfl⟩

section

variable {h h' home home' : Home} {ty ty' : Ty} {t t' : Table}

/-- A lookup sees no more of a type than its table. -/
theorem agrees_of_tableOf (htable : h.tableOf ty = some (home, t))
    (htable' : h'.tableOf ty' = some (home, t')) (halike : Table.Alike t t') :
    h.Agrees ty h' ty' := by
  have hown : ∀ name, h.ownMember ty name = h'.ownMember ty' name := fun name => by
    rw [ownMember_eq, ownMember_eq, htable, htable', Option.bind_some, Option.bind_some,
      halike.members]
  refine ⟨fun name => by rw [hown], fun name => ?_, fun extended => ?_⟩
  · rw [extendedMember, extendedMember, searchMember_succ, searchMember_succ, hown, htable, htable',
      Option.bind_some, Option.bind_some, halike.prototype]
  · cases extended with
    | false =>
      rw [members, members, collectMembers_own, collectMembers_own, htable, htable',
        Option.elim_some, Option.elim_some, halike.members]
    | true =>
      rw [members, members, collectMembers_succ, collectMembers_succ, htable, htable',
        Option.elim_some, Option.elim_some, halike.members, halike.prototype]

theorem agrees_of_alike (htable : h.tableOf ty = some (home, t))
    (htable' : h'.tableOf ty' = some (home', t')) (hbeside : home.Beside home')
    (halike : Table.Alike t t') : h.Agrees ty h' ty' := by
  -- The table as one that is kept where its members are.
  let plain : Table := { t with origin := none }
  have hplain : ∀ at_ : Home, at_.tableOf (.table plain) = some (at_, plain) := fun _ => rfl
  have hleft := agrees_of_tableOf htable (hplain home) ⟨rfl, rfl⟩
  have hright := agrees_of_tableOf htable' (hplain home')
    ⟨halike.members.symm, halike.prototype.symm⟩
  exact (hleft.trans (agrees_of_beside hbeside _)).trans hright.symm

theorem agrees_of_no_table (htable : h.tableOf ty = none) (htable' : h'.tableOf ty' = none) :
    h.Agrees ty h' ty' := by
  have hown : ∀ name, h.ownMember ty name = h'.ownMember ty' name := fun name => by
    rw [ownMember_eq, ownMember_eq, htable, htable']
  refine ⟨fun name => by rw [hown], fun name => ?_, fun extended => ?_⟩
  · rw [extendedMember, extendedMember, searchMember_succ, searchMember_succ, hown, htable, htable']
  · cases extended with
    | false =>
      rw [members, members, collectMembers_own, collectMembers_own, htable, htable']
    | true =>
      rw [members, members, collectMembers_succ, collectMembers_succ, htable, htable']

end

/-- A type that says where it was read means the same wherever it is kept. -/
theorem agrees_rebased {o : Index} {h : Home} (hhome : h.Beside (.foreign o h.hops)) (g : Home)
    (ty : Ty) : g.Agrees (ty.rebased o) h ty := by
  cases ty with
  | table t =>
    cases horigin : t.origin with
    | none =>
      have hthere : g.tableOf ((TyOver.table t).rebased o) =
          some (.foreign o (g.hops + 1), { t with origin := some o }) := by
        simp [TyOver.rebased, TableOver.isForeign, horigin, tableOf, enter]
      have hhere : h.tableOf (.table t) = some (h, t) := by simp [horigin, tableOf, enter]
      exact agrees_of_alike hthere hhere ⟨hhome.table.symm, hhome.origin.symm⟩ ⟨rfl, rfl⟩
    | some o' =>
      have hthere : g.tableOf ((TyOver.table t).rebased o) =
          some (.foreign o' (g.hops + 1), t) := by
        simp [TyOver.rebased, TableOver.isForeign, horigin, tableOf, enter]
      have hhere : h.tableOf (.table t) = some (.foreign o' (h.hops + 1), t) := by
        simp [horigin, tableOf, enter]
      exact agrees_of_alike hthere hhere ⟨rfl, rfl⟩ ⟨rfl, rfl⟩
  | module name inner =>
    cases hexports : inner.exportedTable with
    | none =>
      refine agrees_of_no_table ?_ ?_ <;> simp [TyOver.rebased, tableOf, hexports]
    | some exported =>
      obtain ⟨t, owner⟩ := exported
      have hbeside : (g.enter (some owner)).Beside (h.enter (some owner)) := ⟨rfl, rfl⟩
      have htable : ∀ at_ : Home, at_.tableOf (.module name inner) =
          some ((at_.enter (some owner)).enter t.origin, t) := fun at_ => by
        simp [tableOf, hexports]
      exact agrees_of_alike (htable g) (htable h) (hbeside.enter t.origin) ⟨rfl, rfl⟩
  | function params returns isMethod => exact agrees_of_no_table rfl rfl
  | unknown | nil | boolean | number | string => exact agrees_of_no_table rfl rfl

end Home

/-! ## Values kept in another document -/

namespace TyOver

variable {ρ : Type}

/-- What so many calls of a function answer, if each but the last answers a function. -/
def afterCalls : Nat → TyOver ρ → Option (TyOver ρ)
  | 0, ty => some ty
  | calls + 1, .function _ returns _ => returns.afterCalls calls
  | _ + 1, _ => none

theorem afterCalls_rebased (o : ρ) (calls : Nat) (ty : TyOver ρ) :
    (ty.rebased o).afterCalls calls = (ty.afterCalls calls).map (·.rebased o) := by
  induction calls generalizing ty with
  | zero => rfl
  | succ calls ih =>
    cases ty with
    | function params returns isMethod => exact ih returns
    | table t => rfl
    | module name origin => rfl
    | unknown | nil | boolean | number | string => rfl

/-- What is anchored stays so. -/
theorem rebased_rebased (o o' : ρ) (ty : TyOver ρ) :
    (ty.rebased o).rebased o' = ty.rebased o := by
  induction ty with
  | function params returns isMethod ih => exact congrArg (TyOver.function params · isMethod) ih
  | table t => cases horigin : t.origin <;> simp [rebased, TableOver.isForeign, horigin]
  | module name origin => rfl
  | unknown | nil | boolean | number | string => rfl

end TyOver

namespace Located

variable {t : SymbolTable}

theorem at_aliasWithin (fuel : Nat) : ∀ {l : Located}, l.home.At t →
    (l.aliasWithin fuel).home.At t := by
  induction fuel with
  | zero => exact fun h => h
  | succ fuel ih =>
    intro l h
    unfold aliasWithin
    split
    · exact ih (h.enter _)
    · exact h

/-- The value of a symbol as the queried document keeps it, after any number of calls. -/
theorem valueType_afterCalls {l : Located} (h : l.home.At t) (calls : Nat) :
    Option.Rel (fun kept ty => (Home.here t).Agrees kept l.container.1 ty)
      (l.valueType.afterCalls calls) (l.container.2.afterCalls calls) := by
  have hat : l.resolveAlias.home.At t := at_aliasWithin maxAliasHops h
  unfold Home.At at hat
  unfold valueType container
  dsimp only
  cases horigin : l.resolveAlias.home.origin with
  | none =>
    rw [horigin] at hat
    have hbeside : (Home.here t).Beside l.resolveAlias.home := ⟨hat.symm, horigin.symm⟩
    dsimp only
    cases l.resolveAlias.ty.afterCalls calls with
    | none => exact .none
    | some ty => exact .some (Home.agrees_of_beside hbeside ty)
  | some o =>
    rw [horigin] at hat
    have hbeside : l.resolveAlias.home.Beside (.foreign o l.resolveAlias.home.hops) :=
      ⟨hat, horigin⟩
    dsimp only
    rw [TyOver.afterCalls_rebased]
    cases l.resolveAlias.ty.afterCalls calls with
    | none => exact .none
    | some ty => exact .some (Home.agrees_rebased hbeside (.here t) ty)

/-- A name is looked up in the type that the queried document keeps of a symbol with the same
outcome as from the symbol itself; so it is in what the calls of a function answer, as seen from the
document that holds the function. A type that was anchored once is anchored for good. -/
theorem valueType_agrees {l : Located} (h : l.home.At t) :
    (∀ name, ((Home.here t).ownMember l.valueType name).map toLink =
      (l.ownMember name).map toLink) ∧
    (∀ name, ((Home.here t).extendedMember l.valueType name).map toLink =
      (l.extendedMember name).map toLink) ∧
    (∀ extended, Home.links ((Home.here t).members l.valueType extended) =
      Home.links (l.members extended)) ∧
    (∀ calls, Option.Rel (fun kept ty => (Home.here t).Agrees kept l.container.1 ty)
      (l.valueType.afterCalls calls) (l.container.2.afterCalls calls)) ∧
    ∀ (o o' : Index) (ty : Ty), (ty.rebased o).rebased o' = ty.rebased o := by
  have hvalue : (Home.here t).Agrees l.valueType l.container.1 l.container.2 := by
    cases valueType_afterCalls h 0 with
    | some hagrees => exact hagrees
  exact ⟨hvalue.own, hvalue.extended, hvalue.members, valueType_afterCalls h,
    fun o o' ty => ty.rebased_rebased o o'⟩

/-- A module whose function `f` answers an object that inherits from `b`. -/
def maker : Index :=
  .buildAlone ⟨"file:///maker.lua"⟩ 1
    "local b = {n = 1} local function f() return setmetatable({}, {__index = b}) end return {f = f}"
    {}

def makerUser : Index :=
  (Index.build ⟨"file:///user.lua"⟩ 1 "local m = require('maker') local f = m.f" {}
    (fun _ _ => (some maker, ())) ()).1

/-- A call of `f` in another document answers what inherits `n`, the first symbol of the module. -/
theorem valueType_of_required_function :
    ((Home.here makerUser.table).locate 1).home.At makerUser.table ∧
      ∃ kept ty, ((Home.here makerUser.table).locate 1).valueType.afterCalls 1 = some kept ∧
        ((Home.here makerUser.table).locate 1).container.2.afterCalls 1 = some ty ∧
        (Home.here makerUser.table).Agrees kept
          ((Home.here makerUser.table).locate 1).container.1 ty ∧
        ((Home.here makerUser.table).extendedMember kept "n").map (·.id) = some 0 := by
  have hat : ((Home.here makerUser.table).locate 1).home.At makerUser.table := Home.at_here _
  have hfound : (((Home.here makerUser.table).locate 1).valueType.afterCalls 1).bind
      (fun kept => ((Home.here makerUser.table).extendedMember kept "n").map (·.id)) = some 0 := by
    decide +kernel
  obtain ⟨kept, hkept, hfound⟩ := Option.bind_eq_some_iff.mp hfound
  have hcalls := (valueType_agrees hat).2.2.2.1 1
  rw [hkept] at hcalls
  generalize ((Home.here makerUser.table).locate 1).container.2.afterCalls 1 = answer? at hcalls ⊢
  cases hcalls with
  | some hagrees => exact ⟨hat, kept, _, hkept, rfl, hagrees, hfound⟩

end Located

end LuaScope

import LuaScope.Proofs.Linking.Safe
import LuaScope.Proofs.Member.Listing

/-!
# LuaScope.Proofs.Linking.Follow

Where lookups lead in a safe table. Every symbol that is found is there, in the table in which its
number is read, and has the name that was looked up: along the scopes, the members of a table, the
prototypes and the aliases, from document to document.
-/

namespace LuaScope

/-- What is asked of other documents holds of those whose numbers are read. -/
def Demand.Met (D : Demand) : Prop := D.strict → ∀ o, D.holds o → o.SafeWith D

theorem Demand.met_none : Demand.none.Met := fun h => h.elim

theorem Demand.met_safe : (Demand.all Index.Safe).Met := fun _ _ ho => ho.safeWith

/-! ## Lookup in the scopes -/

namespace SymbolTableOver

variable {t : SymbolTable}

theorem scope_of_mem_chain {scope : Scope} (fuel : Nat) :
    ∀ {id? : Option ScopeId}, scope ∈ t.chain fuel id? → ∃ id, t.scope? id = some scope := by
  induction fuel with
  | zero => exact fun hscope => by cases hscope
  | succ fuel ih =>
    intro id? hscope
    cases id? with
    | none => cases hscope
    | some id =>
      unfold chain at hscope
      split at hscope
      · cases hscope
      · rename_i first hfirst
        rcases List.mem_cons.mp hscope with rfl | hscope
        · exact ⟨id, hfirst⟩
        · exact ih hscope

theorem mem_of_lookupIn {name : String} {offset : Nat} {scope : Scope} {id : SymbolId}
    (hid : t.lookupIn name offset scope = some id) : id ∈ scope.declarations name := by
  unfold lookupIn at hid
  dsimp only at hid
  split at hid
  · rename_i last hlast
    cases hid
    exact (List.takeWhile_prefix _).subset (List.mem_of_getLast? hlast)
  · split at hid
    · exact List.mem_of_mem_head? hid
    · cases hid

/-- A lookup finds what some scope lists under the name. -/
theorem declared_of_lookup {scope : ScopeId} {name : String} {offset : Nat} {id : SymbolId}
    (hid : t.lookup scope name offset = some id) :
    ∃ i s, t.scope? i = some s ∧ id ∈ s.declarations name := by
  unfold lookup at hid
  split at hid
  · rename_i found hfound
    cases hid
    obtain ⟨s, hs, hfound⟩ := List.exists_of_findSome?_eq_some hfound
    obtain ⟨i, hi⟩ := scope_of_mem_chain _ hs
    exact ⟨i, s, hi, mem_of_lookupIn hfound⟩
  · unfold laterGlobal at hid
    split at hid
    · rename_i root hroot
      exact ⟨rootId, root, hroot, List.mem_of_find?_eq_some hid⟩
    · cases hid

end SymbolTableOver

namespace SymbolTable.Safe

variable {D : Demand} {t : SymbolTable}

theorem mem_of_lookup {α : Type} {name : String} {value : α} {entries : List (String × α)}
    (h : entries.lookup name = some value) : (name, value) ∈ entries := by
  obtain ⟨front, behind, rfl, -⟩ := List.lookup_eq_some_iff.mp h
  exact List.mem_append_right _ List.mem_cons_self

theorem names_of_mem_declarations {t : SymbolTable} {scope : Scope} (h : Scope.SafeIn t scope)
    {name : String} {id : SymbolId} (hid : id ∈ scope.declarations name) : t.Names id name := by
  unfold Scope.declarations at hid
  split at hid
  · rename_i ids hlookup
    exact h.byName _ (mem_of_lookup hlookup) id hid
  · cases hid

/-- A lookup finds symbols of the name that is looked up. -/
theorem names_of_lookup (h : SymbolTable.Safe D t) {scope : ScopeId} {name : String} {offset : Nat}
    {id : SymbolId} (hid : t.lookup scope name offset = some id) : t.Names id name := by
  obtain ⟨i, s, hs, hid⟩ := SymbolTableOver.declared_of_lookup hid
  exact names_of_mem_declarations (h.scopes hs) hid

/-- What is visible is there. -/
theorem lt_of_mem_visible (h : SymbolTable.Safe D t) {scope : ScopeId} {offset : Nat}
    {id : SymbolId} (hid : id ∈ t.visible scope offset) : id < t.symbols.size := by
  have hin : ∀ (scope : ScopeId) (ids : List SymbolId) (acc : List String × List SymbolId),
      (∀ id ∈ acc.2, id < t.symbols.size) →
      ∀ id ∈ (t.visibleIn offset scope ids acc).2, id < t.symbols.size := by
    intro scope ids
    induction ids with
    | nil => exact fun acc hacc => hacc
    | cons first rest ih =>
      intro acc hacc
      unfold SymbolTableOver.visibleIn
      split
      · exact ih _ hacc
      · split
        · refine ih _ fun id hid => ?_
          rcases List.mem_append.mp hid with hid | hid
          · exact hacc id hid
          · exact (h.names_of_lookup (Option.mem_toList.mp hid)).lt
        · exact ih _ hacc
  have hfold : ∀ (scopes : List Scope) (acc : List String × List SymbolId),
      (∀ id ∈ acc.2, id < t.symbols.size) →
      ∀ id ∈ (scopes.foldl (fun acc s => t.visibleIn offset s.id s.symbols.reverse acc) acc).2,
        id < t.symbols.size := by
    intro scopes
    induction scopes with
    | nil => exact fun acc hacc => hacc
    | cons s rest ih => exact fun acc hacc => ih _ (hin s.id s.symbols.reverse acc hacc)
  exact hfold (t.ancestors scope) ([], []) (fun _ hid => by cases hid) id hid

end SymbolTable.Safe

/-! ## Homes of a walk

A walk starts in the table `t`, or in one that it entered from there. -/

/-- The table in which numbers of this origin are read. -/
def Home.At (t : SymbolTable) (h : Home) : Prop := h.table = h.origin.elim t Index.table

/-- The walk has led to a symbol that is there. -/
structure Located.Stands (D : Demand) (t : SymbolTable) (l : Located) : Prop where
  home : l.home.At t
  link : Link.SafeIn D t l.toLink

/-- The walk has led to a value that is safe where it is read. -/
structure Home.Reaches (D : Demand) (t : SymbolTable) (h : Home) (ty : Ty) : Prop where
  home : h.At t
  ty : D.Reads t (fun home => Ty.SafeIn D home ty) h.origin

section Walk

variable {D : Demand} {t : SymbolTable}

theorem Home.at_here (t : SymbolTable) : (Home.here t).At t := rfl

theorem Home.At.enter {h : Home} (hat : h.At t) (origin : Option Index) :
    (h.enter origin).At t := by
  cases origin with
  | none => exact hat
  | some _ => rfl

/-- What is kept in the table that was entered is read there. -/
theorem Home.reads_enter {h : Home} {origin : Option Index} {K : SymbolTable → Prop}
    (hreads : D.Reads t (fun home => D.Reads home K origin) h.origin) :
    D.Reads t K (h.enter origin).origin := by
  cases origin with
  | none =>
    exact ⟨fun hnone => (hreads.1 hnone).1 rfl, fun o ho hstrict =>
      (hreads.2 o ho hstrict).imp id fun hK => hK.1 rfl⟩
  | some entered =>
    refine ⟨fun hnone => (by cases hnone), fun o ho hstrict => ?_⟩
    cases ho
    cases horigin : h.origin with
    | none => exact (hreads.1 horigin).2 entered rfl hstrict
    | some _ => exact (hreads.2 _ horigin hstrict).2.2 entered rfl hstrict

theorem Home.At.follow {h : Home} (hat : h.At t) {link : Link}
    (hlink : D.Reads t (fun home => Link.SafeIn D home link) h.origin) :
    (h.follow link).Stands D t :=
  ⟨hat.enter link.origin, Home.reads_enter hlink⟩

/-- A symbol that a walk has led to is safe where it is read. -/
theorem Located.Stands.symbol (hD : D.Met) (ht : SymbolTable.Safe D t) {l : Located}
    (hl : l.Stands D t) {x : Symbol} (hx : l.symbol? = some x) :
    D.Reads t (fun home => Symbol.SafeIn D home x) l.home.origin := by
  have htable : l.home.table = l.home.origin.elim t Index.table := hl.home
  refine ⟨fun hnone => ?_, fun o ho hstrict => ?_⟩
  · rw [hnone] at htable
    rw [Located.symbol?, htable] at hx
    exact ht.symbols hx
  · have hlink := hl.link.2 o ho hstrict
    rw [ho] at htable
    rw [Located.symbol?, htable] at hx
    exact ⟨hlink.1, (hD hstrict o hlink.1).table.symbols hx⟩

theorem Located.Stands.aliasWithin (hD : D.Met) (ht : SymbolTable.Safe D t) (fuel : Nat) :
    ∀ {l : Located}, l.Stands D t → (l.aliasWithin fuel).Stands D t := by
  induction fuel with
  | zero => exact fun hl => hl
  | succ fuel ih =>
    intro l hl
    unfold Located.aliasWithin
    split
    · rename_i link hlink
      obtain ⟨x, hx, halias⟩ := Option.bind_eq_some_iff.mp hlink
      have hsymbol := hl.symbol hD ht hx
      exact ih (hl.home.follow (hsymbol.mono (.refl D) (·.alias link halias)
        fun _ h => h.alias link halias))
    · exact hl

theorem Located.Stands.resolveAlias (hD : D.Met) (ht : SymbolTable.Safe D t) {l : Located}
    (hl : l.Stands D t) : l.resolveAlias.Stands D t := hl.aliasWithin hD ht maxAliasHops

theorem Located.Stands.ty (hD : D.Met) (ht : SymbolTable.Safe D t) {l : Located}
    (hl : l.Stands D t) : l.home.Reaches D t l.ty := by
  refine ⟨hl.home, ?_⟩
  unfold Located.ty
  split
  · rename_i x hx
    exact (hl.symbol hD ht hx).mono (.refl D) (·.ty) fun _ h => h.ty
  · exact ⟨fun _ => trivial, fun o ho hstrict => ⟨(hl.link.2 o ho hstrict).1, trivial⟩⟩

theorem Located.Stands.container (hD : D.Met) (ht : SymbolTable.Safe D t) {l : Located}
    (hl : l.Stands D t) : l.container.1.Reaches D t l.container.2 :=
  (hl.resolveAlias hD ht).ty hD ht

/-- The exported table of a safe index is safe where it comes from. -/
theorem Index.exportedTable_safe (hD : D.Met) (hstrict : D.strict) {i owner : Index}
    {table : Table} :
    i.exportedTable = some (table, owner) → D.holds i →
      D.holds owner ∧ Table.SafeIn D owner.table table := by
  induction i using Index.exportedTable.induct with
  | case1 =>
    intro h hi
    cases h
    exact ⟨hi, (hD hstrict _ hi).exports⟩
  | case2 _ _ _ _ _ _ _ _ _ ih =>
    intro h hi
    rw [Index.exportedTable] at h
    exact ih h ((hD hstrict _ hi).exports hstrict).1
  | case3 i hno hno' =>
    intro h
    unfold Index.exportedTable at h
    split at h
    · exact (hno _ _ _ _ _ _ _ _ rfl).elim
    · exact (hno' _ _ _ _ _ _ _ _ _ rfl).elim
    · cases h

/-- The table behind a safe value holds safe numbers. -/
theorem Home.Reaches.tableOf (hD : D.Met) {h home : Home} {ty : Ty} {table : Table}
    (hreaches : h.Reaches D t ty) (htable : h.tableOf ty = some (home, table)) :
    home.At t ∧ D.Reads t (Table.Holds D table) home.origin := by
  unfold Home.tableOf at htable
  split at htable
  · cases htable
    exact ⟨hreaches.home.enter _, Home.reads_enter hreaches.ty⟩
  · rename_i name inner
    split at htable
    · rename_i owner hexports
      cases htable
      refine ⟨(hreaches.home.enter _).enter _, Home.reads_enter ?_⟩
      refine ⟨fun hnone => (by cases hnone), fun o ho hstrict => ?_⟩
      cases ho
      have hinner : D.holds inner := by
        cases horigin : h.origin with
        | none => exact (hreaches.ty.1 horigin hstrict).1
        | some o => exact ((hreaches.ty.2 o horigin hstrict).2 hstrict).1
      exact Index.exportedTable_safe hD hstrict hexports hinner
    · cases htable
  · cases htable

/-- The walk has found a symbol of this name. -/
structure Located.Found (D : Demand) (t : SymbolTable) (l : Located) (name : String) : Prop where
  home : l.home.At t
  names : Link.Names D t l.toLink name

theorem Located.Found.stands {l : Located} {name : String} (h : l.Found D t name) :
    l.Stands D t := ⟨h.home, h.names.safeIn⟩

/-- A symbol of this document is found as it is. -/
theorem Located.found_here {id : SymbolId} {name : String} (h : t.Names id name) :
    ((Home.here t).locate id).Found D t name :=
  ⟨rfl, fun _ => h, fun _ ho => (by cases ho)⟩

theorem Located.stands_here {id : SymbolId} (hid : id < t.symbols.size) :
    ((Home.here t).locate id).Stands D t :=
  ⟨rfl, fun _ => hid, fun _ ho => (by cases ho)⟩

theorem Home.Reaches.ownMember (hD : D.Met) {h : Home} {ty : Ty} {name : String} {m : Located}
    (hreaches : h.Reaches D t ty) (hown : h.ownMember ty name = some m) : m.Found D t name := by
  rw [Home.ownMember_eq] at hown
  obtain ⟨⟨home, table⟩, htable, hown⟩ := Option.bind_eq_some_iff.mp hown
  obtain ⟨id, hid, rfl⟩ := Option.map_eq_some_iff.mp hown
  obtain ⟨hat, hholds⟩ := hreaches.tableOf hD htable
  have hmem := SymbolTable.Safe.mem_of_lookup hid
  exact ⟨hat, hholds.mono (.refl D) (·.members _ hmem) fun _ h => h.members _ hmem⟩

/-- The prototype of a table is there. -/
theorem Home.Reaches.prototype (hD : D.Met) {h home : Home} {ty : Ty} {table : Table}
    {proto : Prototype} (hreaches : h.Reaches D t ty) (htable : h.tableOf ty = some (home, table))
    (hproto : table.prototype = some proto) : (home.follow proto.link).Stands D t := by
  obtain ⟨hat, hholds⟩ := hreaches.tableOf hD htable
  exact hat.follow (hholds.mono (.refl D) (·.prototype proto hproto)
    fun _ h => h.prototype proto hproto)

/-- A search for a member finds one of that name. -/
theorem Home.Reaches.searchMember (hD : D.Met) (ht : SymbolTable.Safe D t) (fuel : Nat) :
    ∀ {h : Home} {ty : Ty} {name : String} {vs vs' : Visited} {m : Located}, h.Reaches D t ty →
      Home.searchMember fuel h ty name vs = some (m, vs') → m.Found D t name := by
  induction fuel with
  | zero => exact fun _ hfound => nomatch hfound
  | succ fuel ih =>
    intro h ty name vs vs' m hreaches hfound
    rcases Home.searchMember_eq_some_iff.mp hfound with
      ⟨hown, -⟩ | ⟨-, ⟨home, table⟩, proto, b, us, htable, hproto, hbase, -, hrest⟩
    · exact hreaches.ownMember hD hown
    · have hfollow := hreaches.prototype hD htable hproto
      have hb : b.Stands D t := by
        cases proto with
        | base link =>
          cases hbase
          exact hfollow.resolveAlias hD ht
        | metatable link =>
          -- The `__index` of a metatable is searched for as well, with what is left of the fuel.
          obtain ⟨⟨index, ws⟩, hindex, heq⟩ := Option.map_eq_some_iff.mp hbase
          cases heq
          exact (ih ((hfollow.resolveAlias hD ht).container hD ht) hindex).stands.resolveAlias hD ht
      exact ih (hb.container hD ht) hrest

theorem Located.Stands.ownMember (hD : D.Met) (ht : SymbolTable.Safe D t) {l m : Located}
    {name : String} (hl : l.Stands D t) (hown : l.ownMember name = some m) : m.Found D t name :=
  (hl.container hD ht).ownMember hD hown

theorem Home.Reaches.extendedMember (hD : D.Met) (ht : SymbolTable.Safe D t) {h : Home} {ty : Ty}
    {name : String} {m : Located} (hreaches : h.Reaches D t ty)
    (hfound : h.extendedMember ty name = some m) : m.Found D t name := by
  obtain ⟨⟨found, vs⟩, hsearch, rfl⟩ := Option.map_eq_some_iff.mp hfound
  exact hreaches.searchMember hD ht _ hsearch

theorem Located.Stands.extendedMember (hD : D.Met) (ht : SymbolTable.Safe D t) {l m : Located}
    {name : String} (hl : l.Stands D t) (hfound : l.extendedMember name = some m) :
    m.Found D t name :=
  (hl.container hD ht).extendedMember hD ht hfound

/-- What a listing holds under a name is a symbol of that name. -/
theorem Home.Reaches.collectMembers (hD : D.Met) (ht : SymbolTable.Safe D t) {name : String}
    {m : Located} (fuel : Nat) :
    ∀ {h : Home} {ty : Ty} {listed : List (String × Located)} {visited : Visited},
      h.Reaches D t ty → ((name, m) ∈ listed → m.Found D t name) →
      (name, m) ∈ Home.collectMembers true fuel h ty listed visited → m.Found D t name := by
  induction fuel with
  | zero => exact fun _ hlisted hmem => hlisted hmem
  | succ fuel ih =>
    intro h ty listed visited hreaches hlisted hmem
    rw [Home.collectMembers_succ] at hmem
    cases htable : h.tableOf ty with
    | none =>
      rw [htable] at hmem
      exact hlisted hmem
    | some p =>
      rw [htable, Option.elim_some] at hmem
      obtain ⟨hat, hholds⟩ := hreaches.tableOf hD htable
      have hown : (name, m) ∈ p.1.addMembers listed p.2.members → m.Found D t name := by
        intro hadded
        rcases Home.mem_addMembers.mp hadded with hmem | ⟨-, hget⟩
        · exact hlisted hmem
        · obtain ⟨id, hid, rfl⟩ := Option.map_eq_some_iff.mp hget
          have hentry := SymbolTable.Safe.mem_of_lookup hid
          exact ⟨hat, hholds.mono (.refl D) (·.members _ hentry) fun _ h => h.members _ hentry⟩
      cases hbase : p.2.prototype.bind p.1.listedBaseOf with
      | none =>
        rw [hbase] at hmem
        exact hown hmem
      | some b =>
        rw [hbase, Option.elim_some] at hmem
        split at hmem
        · exact hown hmem
        · obtain ⟨proto, hproto, hb⟩ := Option.bind_eq_some_iff.mp hbase
          have hfollow := hreaches.prototype hD htable hproto
          have hstands : b.Stands D t := by
            cases proto with
            | base link =>
              cases hb
              exact hfollow.resolveAlias hD ht
            | metatable link =>
              obtain ⟨index, hindex, rfl⟩ := Option.map_eq_some_iff.mp hb
              exact ((hfollow.resolveAlias hD ht).extendedMember hD ht hindex).stands.resolveAlias
                hD ht
          exact ih (hstands.container hD ht) hown hmem

theorem Located.Stands.members (hD : D.Met) (ht : SymbolTable.Safe D t) {l m : Located}
    {name : String} (hl : l.Stands D t) (hmem : (name, m) ∈ l.members true) : m.Found D t name :=
  (hl.container hD ht).collectMembers hD ht _ (fun h => by cases h) hmem

/-! ## Walks that stay in the document -/

namespace Home

/-- If `h'` reads the table of this document then it is `h` itself. -/
def Stays (h h' : Home) : Prop := h'.origin = none → h' = h

theorem Stays.refl (h : Home) : h.Stays h := fun _ => rfl

theorem Stays.trans {a b c : Home} (hab : a.Stays b) (hbc : b.Stays c) : a.Stays c := by
  intro hnone
  obtain rfl := hbc hnone
  exact hab hnone

theorem Stays.origin {a b : Home} (hab : a.Stays b) (hnone : b.origin = none) : a.origin = none :=
  hab hnone ▸ hnone

theorem stays_enter (h : Home) (origin : Option Index) : h.Stays (h.enter origin) := by
  cases origin with
  | none => exact .refl h
  | some _ => exact nofun

theorem stays_tableOf {h home : Home} {ty : Ty} {t : Table}
    (htable : h.tableOf ty = some (home, t)) : h.Stays home := by
  unfold tableOf at htable
  split at htable
  · cases htable
    exact h.stays_enter _
  · split at htable
    · cases htable
      exact (h.stays_enter _).trans (stays_enter _ _)
    · cases htable
  · cases htable

end Home

theorem Located.stays_aliasWithin (fuel : Nat) (l : Located) :
    l.home.Stays (l.aliasWithin fuel).home := by
  induction fuel generalizing l with
  | zero => exact .refl _
  | succ fuel ih =>
    unfold aliasWithin
    split
    · exact (l.home.stays_enter _).trans (ih _)
    · exact .refl _

theorem Located.stays_resolveAlias (l : Located) : l.home.Stays l.resolveAlias.home :=
  l.stays_aliasWithin maxAliasHops

/-- By induction on the fuel: the base of a table, too, is found by such a walk. -/
theorem Home.stays_searchMember (fuel : Nat) :
    ∀ {h : Home} {ty : Ty} {name : String} {vs vs' : Visited} {m : Located},
      Home.searchMember fuel h ty name vs = some (m, vs') → h.Stays m.home := by
  induction fuel with
  | zero => exact fun hfound => by cases hfound
  | succ fuel ih =>
    intro h ty name vs vs' m hfound
    rcases Home.searchMember_eq_some_iff.mp hfound with
      ⟨hown, -⟩ | ⟨-, ⟨home, table⟩, proto, b, us, htable, -, hbase, -, hrest⟩
    · rw [Home.ownMember_eq] at hown
      obtain ⟨⟨home, table⟩, htable, hown⟩ := Option.bind_eq_some_iff.mp hown
      obtain ⟨id, -, rfl⟩ := Option.map_eq_some_iff.mp hown
      exact Home.stays_tableOf htable
    · refine (Home.stays_tableOf htable).trans (.trans ?_ (b.stays_resolveAlias.trans (ih hrest)))
      cases proto with
      | base link =>
        cases hbase
        exact (home.stays_enter _).trans (Located.stays_resolveAlias _)
      | metatable link =>
        obtain ⟨⟨index, ws⟩, hindex, heq⟩ := Option.map_eq_some_iff.mp hbase
        cases heq
        refine (home.stays_enter link.origin).trans ?_
        refine (Located.stays_resolveAlias (home.follow link)).trans ?_
        exact ((Located.stays_resolveAlias _).trans (ih hindex)).trans
          (Located.stays_resolveAlias index)

theorem Located.stays_extendedMember {l m : Located} {name : String}
    (hfound : l.extendedMember name = some m) : l.home.Stays m.home := by
  obtain ⟨⟨found, vs⟩, hsearch, rfl⟩ := Option.map_eq_some_iff.mp hfound
  exact l.stays_resolveAlias.trans (Home.stays_searchMember _ hsearch)

/-! ## Values -/

/-- A value that is kept in another document than the one it was read in. -/
theorem Ty.SafeIn.rebased {o : Index} {ty : Ty}
    (h : D.strict → D.holds o ∧ Ty.SafeIn D o.table ty) :
    Ty.SafeIn D t (ty.rebased o) := by
  induction ty with
  | table table =>
    rw [TyOver.rebased]
    cases horigin : table.origin with
    | some origin =>
      rw [if_pos (by simp [TableOver.isForeign, horigin])]
      exact ⟨fun hnone => (by rw [horigin] at hnone; cases hnone), fun o' ho' hstrict =>
        (h hstrict).2.2 o' ho' hstrict⟩
    | none =>
      rw [if_neg (by simp [TableOver.isForeign, horigin])]
      refine ⟨fun hnone => (by cases hnone), fun o' ho' hstrict => ?_⟩
      cases ho'
      obtain ⟨ho, htable⟩ := h hstrict
      have hholds := htable.1 horigin
      exact ⟨ho, hholds.members, hholds.prototype⟩
  | function _ _ _ ih => exact ih h
  | module _ _ => exact fun hstrict => (h hstrict).2 hstrict
  | unknown | nil | boolean | number | string => trivial

theorem Located.Stands.valueType (hD : D.Met) (ht : SymbolTable.Safe D t) {l : Located}
    (hl : l.Stands D t) : Ty.SafeIn D t l.valueType := by
  have hty := ((hl.resolveAlias hD ht).ty hD ht).ty
  unfold Located.valueType
  dsimp only
  split
  · rename_i o ho
    exact Ty.SafeIn.rebased (hty.2 o ho)
  · rename_i hnone
    exact hty.1 hnone

/-- The name of a symbol that is there is a name. -/
theorem Located.Found.spelled (hD : D.Met) (ht : SymbolTable.Safe D t) {l : Located} {name : String}
    (h : l.Found D t name) (hread : D.strict ∨ l.home.origin = none) : Spelled name := by
  cases horigin : l.home.origin with
  | none =>
    obtain ⟨x, hx, rfl⟩ := h.names.1 horigin
    exact (ht.symbols hx).name
  | some o =>
    have hstrict := hread.resolve_right (by simp [horigin])
    obtain ⟨ho, x, hx, rfl⟩ := h.names.2 o horigin hstrict
    exact ((hD hstrict o ho).table.symbols hx).name

theorem Located.walk_none (names : List String) :
    names.foldl (fun (at? : Option Located) name => at?.bind (·.extendedMember name)) none =
      none := by
  induction names with
  | nil => rfl
  | cons _ _ ih => exact ih

/-- A path that is walked name by name leads to a symbol of its last name, over symbols of its
names. -/
theorem Located.Found.walk (hD : D.Met) (ht : SymbolTable.Safe D t) {m : Located} :
    ∀ {rest : List String} {first : String} {l : Located}, l.Found D t first →
      rest.foldl (fun at? name => at?.bind (·.extendedMember name)) (some l) = some m →
      (∃ last, (first :: rest).getLast? = some last ∧ m.Found D t last) ∧
        (m.home.origin = none → l.home.origin = none) ∧
        (D.strict ∨ m.home.origin = none → ∀ segment ∈ first :: rest, Spelled segment) := by
  intro rest
  induction rest with
  | nil =>
    intro first l hl hm
    cases hm
    exact ⟨⟨first, rfl, hl⟩, fun hnone => hnone, fun hread => by simpa using hl.spelled hD ht hread⟩
  | cons name rest ih =>
    intro first l hl hm
    rw [List.foldl_cons, Option.bind_some] at hm
    cases hnext : l.extendedMember name with
    | none =>
      rw [hnext, Located.walk_none] at hm
      cases hm
    | some next =>
      rw [hnext] at hm
      obtain ⟨⟨last, hlast, hfound⟩, hhome, hspelled⟩ :=
        ih (hl.stands.extendedMember hD ht hnext) hm
      have hback : m.home.origin = none → l.home.origin = none := fun hnone =>
        (Located.stays_extendedMember hnext).origin (hhome hnone)
      refine ⟨⟨last, by rw [List.getLast?_cons_cons, hlast], hfound⟩, hback, fun hread => ?_⟩
      exact List.forall_mem_cons.mpr ⟨hl.spelled hD ht (hread.imp_right hback), hspelled hread⟩

/-- A link that this document keeps is followed. -/
theorem Located.Stands.ofLink {link : Link} (h : Link.SafeIn D t link) :
    ((Home.here t).follow link).Stands D t :=
  (Home.at_here t).follow ⟨fun _ => h, fun _ ho => (by cases ho)⟩

theorem Located.Found.ofLink {link : Link} {name : String} (h : Link.Names D t link name) :
    ((Home.here t).follow link).Found D t name :=
  ⟨(Home.at_here t).enter link.origin,
    Home.reads_enter (h := .here t) ⟨fun _ => h, fun _ ho => (by cases ho)⟩⟩

end Walk

/-! ## Queries on an index

What is asked of the index that a query starts in, and of all that its links lead into, holds of the
index in which the query ends. -/

namespace Index

variable {holds : Index → Prop} {i : Index} {m : Located}

/-- The document whose symbol a walk has led to is as demanded, and has that symbol. -/
theorem symbol_of_stands (h : holds i) (hm : m.Stands (.all holds) i.table) :
    holds (m.handle i).index ∧ ∃ x, (m.handle i).symbol? = some x := by
  have hlink := hm.link
  unfold Located.handle
  cases horigin : m.home.origin with
  | none => exact ⟨h, _, Array.getElem?_eq_getElem (hlink.1 horigin)⟩
  | some o =>
    obtain ⟨ho, hlt⟩ := hlink.2 o horigin trivial
    exact ⟨ho, _, Array.getElem?_eq_getElem hlt⟩

/-- The handle of a symbol that was found leads to it, in an index that is as demanded. -/
theorem symbol_of_found (h : holds i) {name : String} (hm : m.Found (.all holds) i.table name) :
    holds (m.handle i).index ∧ ∃ x, (m.handle i).symbol? = some x ∧ x.name = name := by
  unfold Located.handle
  cases horigin : m.home.origin with
  | none => exact ⟨h, hm.names.1 horigin⟩
  | some o => exact hm.names.2 o horigin trivial

theorem stands_of_stepInto (met : (Demand.all holds).Met) (h : holds i) {names : List String} :
    ∀ {l m : Located}, l.Stands (.all holds) i.table → l.stepInto names = some m →
      m.Stands (.all holds) i.table := by
  induction names with
  | nil =>
    intro l m hl hm
    cases hm
    exact hl
  | cons name rest ih =>
    intro l m hl hm
    unfold Located.stepInto at hm
    split at hm
    · rename_i next hnext
      split at hm
      · exact ih (hl.ownMember met (met trivial i h).table hnext).stands hm
      · cases hm
    · cases hm

/-- What a path is resolved to is there, and has the name that ends the path. -/
theorem symbol_of_resolve (met : (Demand.all holds).Met) (h : holds i) {path : String}
    {offset : Nat} {handle : Handle} (hfound : (i.resolve path offset).first? = some handle) :
    holds handle.index ∧
      ∃ x, handle.symbol? = some x ∧ (splitPath path).getLast? = some x.name := by
  have htable := (met trivial i h).table
  unfold Index.resolve at hfound
  split at hfound
  · cases hfound
  · rename_i root rest hpath
    rw [hpath]
    split at hfound
    · cases hfound
    · rename_i id hid
      dsimp only at hfound
      have hroot := Located.found_here (D := .all holds) (htable.names_of_lookup hid)
      split at hfound
      · rename_i hrest
        cases hfound
        obtain ⟨x, hx, hname⟩ := (symbol_of_found h hroot).2
        rw [List.getLast?_eq_none_iff.mp hrest]
        exact ⟨h, x, hx, congrArg some hname.symm⟩
      · rename_i last hrest
        split at hfound
        · cases hfound
        · split at hfound
          · cases hfound
          · rename_i owner howner
            obtain ⟨m, hm, rfl⟩ := Option.map_eq_some_iff.mp hfound
            have howner := stands_of_stepInto met h hroot.stands howner
            obtain ⟨hholds, x, hx, hname⟩ :=
              symbol_of_found h (howner.extendedMember met htable hm)
            refine ⟨hholds, x, hx, ?_⟩
            rw [List.getLast?_cons, hrest, hname]
            rfl

namespace Safe

theorem symbol_of_lookup (h : i.Safe) {scope : ScopeId} {name : String} {offset : Nat}
    {id : SymbolId} (hid : i.table.lookup scope name offset = some id) :
    ∃ x, i.symbol? id = some x ∧ x.name = name :=
  h.safeWith.table.names_of_lookup hid

theorem symbol_of_stands (h : i.Safe) (hm : m.Stands (.all Index.Safe) i.table) :
    (m.handle i).index.Safe ∧ ∃ x, (m.handle i).symbol? = some x :=
  Index.symbol_of_stands h hm

theorem symbol_of_found (h : i.Safe) {name : String}
    (hm : m.Found (.all Index.Safe) i.table name) :
    (m.handle i).index.Safe ∧ ∃ x, (m.handle i).symbol? = some x ∧ x.name = name :=
  Index.symbol_of_found h hm

theorem symbol_of_resolve (h : i.Safe) {path : String} {offset : Nat} {handle : Handle}
    (hfound : (i.resolve path offset).first? = some handle) :
    handle.index.Safe ∧
      ∃ x, handle.symbol? = some x ∧ (splitPath path).getLast? = some x.name :=
  Index.symbol_of_resolve Demand.met_safe h hfound

end Safe

end Index

end LuaScope

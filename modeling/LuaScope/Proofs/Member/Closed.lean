import LuaScope.Proofs.Member.Declared

/-!
# LuaScope.Proofs.Member.Closed

Sets of symbols that no lookup leads out of. A lookup goes from a symbol to its alias, to a member of
its type, or to the prototype of its type; a set with all of these has all that lookups find, along
any path.
-/

namespace LuaScope

variable {σ : Type}

/-- All that a lookup in this type goes on to at once is in the set. -/
structure Home.Opens (G : Located → Prop) (h : Home) (ty : Ty) : Prop where
  members : ∀ home t, h.tableOf ty = some (home, t) → ∀ entry ∈ t.members, G (home.locate entry.2)
  prototype : ∀ home t, h.tableOf ty = some (home, t) → ∀ proto, t.prototype = some proto →
    G (home.follow proto.link)

/-- No lookup leads out of the set. -/
structure Located.Closed (G : Located → Prop) : Prop where
  «alias» : ∀ l link, G l → l.aliasLink? = some link → G (l.home.follow link)
  opens : ∀ l, G l → l.home.Opens G l.ty

variable {G : Located → Prop}

namespace Located.Closed

theorem aliasWithin (hclosed : Closed G) (fuel : Nat) :
    ∀ {l : Located}, G l → G (l.aliasWithin fuel) := by
  induction fuel with
  | zero => exact fun hl => hl
  | succ fuel ih =>
    intro l hl
    unfold Located.aliasWithin
    split
    · rename_i link hlink
      exact ih (hclosed.alias l link hl hlink)
    · exact hl

theorem resolveAlias (hclosed : Closed G) {l : Located} (hl : G l) : G l.resolveAlias :=
  hclosed.aliasWithin maxAliasHops hl

theorem container (hclosed : Closed G) {l : Located} (hl : G l) :
    l.container.1.Opens G l.container.2 :=
  hclosed.opens _ (hclosed.resolveAlias hl)

end Located.Closed

theorem Home.Opens.ownMember {h : Home} {ty : Ty} {name : String} {m : Located}
    (hopens : h.Opens G ty) (hown : h.ownMember ty name = some m) : G m := by
  rw [Home.ownMember_eq] at hown
  obtain ⟨⟨home, table⟩, htable, hown⟩ := Option.bind_eq_some_iff.mp hown
  obtain ⟨id, hid, rfl⟩ := Option.map_eq_some_iff.mp hown
  exact hopens.members home table htable (name, id) (SymbolTable.Safe.mem_of_lookup hid)

/-- By induction on the fuel: the base of a table, too, is found by such a search. -/
theorem Home.Opens.searchMember (hclosed : Located.Closed G) (fuel : Nat) :
    ∀ {h : Home} {ty : Ty} {name : String} {vs vs' : Visited} {m : Located}, h.Opens G ty →
      Home.searchMember fuel h ty name vs = some (m, vs') → G m := by
  induction fuel with
  | zero => exact fun _ hfound => nomatch hfound
  | succ fuel ih =>
    intro h ty name vs vs' m hopens hfound
    rcases Home.searchMember_eq_some_iff.mp hfound with
      ⟨hown, -⟩ | ⟨-, ⟨home, table⟩, proto, b, us, htable, hproto, hbase, -, hrest⟩
    · exact hopens.ownMember hown
    · have hfollow := hopens.prototype home table htable proto hproto
      have hb : G b := by
        cases proto with
        | base link =>
          cases hbase
          exact hclosed.resolveAlias hfollow
        | metatable link =>
          obtain ⟨⟨index, ws⟩, hindex, heq⟩ := Option.map_eq_some_iff.mp hbase
          cases heq
          exact hclosed.resolveAlias (ih (hclosed.container (hclosed.resolveAlias hfollow)) hindex)
      exact ih (hclosed.container hb) hrest

namespace Located.Closed

theorem extendedMember (hclosed : Closed G) {l m : Located} {name : String} (hl : G l)
    (hfound : l.extendedMember name = some m) : G m := by
  obtain ⟨⟨found, vs⟩, hsearch, rfl⟩ := Option.map_eq_some_iff.mp hfound
  exact (hclosed.container hl).searchMember hclosed _ hsearch

theorem of_mem_walkFrom (hclosed : Closed G) {link : Link} (names : List Ident) :
    ∀ at? : Option Located, (∀ l, at? = some l → G l) →
      some link ∈ Binder.walkFrom at? names → ∃ m, G m ∧ m.toLink = link := by
  induction names with
  | nil => exact fun _ _ hlink => nomatch hlink
  | cons segment rest ih =>
    intro at? hat hlink
    have hnext : ∀ l, at?.bind (·.extendedMember segment.name) = some l → G l := fun l hl => by
      obtain ⟨before, hbefore, hmember⟩ := Option.bind_eq_some_iff.mp hl
      exact hclosed.extendedMember (hat before hbefore) hmember
    rcases List.mem_cons.mp hlink with heq | hlink
    · obtain ⟨m, hm, rfl⟩ := Option.map_eq_some_iff.mp heq.symm
      exact ⟨m, hnext m hm, rfl⟩
    · exact ih _ hnext hlink

/-- A path that starts in the set stays in it, segment by segment. -/
theorem of_mem_walkPath (hclosed : Closed G) {b : Binder σ} {path : List Ident} {link : Link}
    (hroot : ∀ (name : Ident) (id : SymbolId),
      b.table.lookup b.scope name.name name.span.start = some id → G (b.home.locate id))
    (hlink : some link ∈ b.walkPath path) : ∃ m, G m ∧ m.toLink = link := by
  cases path with
  | nil => cases hlink
  | cons first rest =>
    have hfirst : ∀ l, (b.table.lookup b.scope first.name first.span.start).map b.home.locate =
        some l → G l := fun l hl => by
      obtain ⟨id, hid, rfl⟩ := Option.map_eq_some_iff.mp hl
      exact hroot first id hid
    rcases List.mem_cons.mp hlink with heq | hlink
    · obtain ⟨m, hm, rfl⟩ := Option.map_eq_some_iff.mp heq.symm
      exact ⟨m, hfirst m hm, rfl⟩
    · exact hclosed.of_mem_walkFrom rest _ hfirst hlink

end Located.Closed

end LuaScope

import LuaScope.Proofs.Linking.Build
import LuaScope.Proofs.Member.Declared

/-!
# LuaScope.Proofs.Linking.Resolved

Two ways to follow a dotted path. A reference inherits at every segment, a query only at the last
one, and between root and end it goes through tables only. Where both arrive they arrive at the same
symbol; where only the reference does, a segment in between is inherited or is not a table.

* `Binder.reached?_eq_reach`, `Binder.resolveLate_target` — references are resolved as
  `SymbolTableOver.reach` says, while the text is walked and afterwards.
* `Located.walk_of_stepInto`        — the steps of a query are steps of a reference.
* `Index.Safe.resolve_agrees_reach` — where the two agree, and what it takes for them to differ.
-/

namespace LuaScope

/-! ## Paths that inherit at every segment -/

/-- What the segments behind a symbol lead to, if each of them may be inherited. -/
def Located.walk (at? : Option Located) (names : List String) : Option Located :=
  names.foldl (fun at? name => at?.bind (·.extendedMember name)) at?

/-- What the segments of a path lead to from a place in a scope, if each may be inherited. -/
def SymbolTableOver.reach (t : SymbolTable) (scope : ScopeId) (offset : Nat) :
    List String → Option Located
  | [] => none
  | root :: rest => Located.walk ((t.lookup scope root offset).map (Home.here t).locate) rest

theorem Located.walk_cons (l : Located) (name : String) (rest : List String) :
    walk (some l) (name :: rest) = walk (l.extendedMember name) rest := rfl

theorem Located.walk_append (at? : Option Located) (front behind : List String) :
    walk at? (front ++ behind) = walk (walk at? front) behind :=
  List.foldl_append

namespace Binder

variable {σ : Type} {b : Binder σ}

/-- A path in the text. -/
theorem reached?_eq_reach (b : Binder σ) (first : Ident) (rest : List Ident) :
    b.reached? (first :: rest) =
      b.table.reach b.scope first.span.start ((first :: rest).map (·.name)) := by
  rw [reached?, stepThrough, List.map_cons, SymbolTableOver.reach, Located.walk, List.foldl_map]
  rfl

/-- A reference that was left open. -/
theorem resolveLate_target {r : Reference} (hopen : r.target = none) :
    (b.resolveLate r).target =
      (b.table.reach r.scope r.anchor (splitPath r.text)).map Located.toLink := by
  unfold resolveLate
  rw [hopen, Option.isSome_none, if_neg Bool.false_ne_true]
  cases splitPath r.text with
  | nil => exact hopen
  | cons root rest => rfl

end Binder

/-! ## Steps of a query -/

namespace Located

theorem extendedMember_of_own {l m : Located} {name : String} (hown : l.ownMember name = some m) :
    l.extendedMember name = some m := by
  unfold extendedMember Home.extendedMember
  rw [Home.searchMember_own hown]
  rfl

/-- Only tables and modules have members. -/
theorem walk_of_not_isContainer {l : Located} (hcontainer : l.container.2.isContainer = false)
    {names : List String} (hne : names ≠ []) : walk (some l) names = none := by
  obtain ⟨name, rest, rfl⟩ := List.exists_cons_of_ne_nil hne
  have htable : l.container.1.tableOf l.container.2 = none := by
    cases hty : l.container.2 <;> simp_all [TyOver.isContainer, Home.tableOf]
  have hnone : l.extendedMember name = none := by
    unfold extendedMember Home.extendedMember
    rw [Home.searchMember_succ, Home.ownMember_eq, htable]
    rfl
  rw [walk_cons, hnone]
  exact walk_none rest

theorem walk_of_stepInto {names : List String} :
    ∀ {l m : Located}, l.stepInto names = some m → walk (some l) names = some m := by
  induction names with
  | nil => exact fun hstep => hstep
  | cons name rest ih =>
    intro l m hstep
    unfold stepInto at hstep
    split at hstep
    · rename_i next hown
      split at hstep
      · rw [walk_cons, extendedMember_of_own hown]
        exact ih hstep
      · cases hstep
    · cases hstep

/-- A query that stops on the way has come to a segment that is no member of its container's own, or
one that is not a table. -/
theorem exists_of_stepInto_none {names : List String} :
    ∀ {l : Located}, l.stepInto names = none → ∃ front name behind container,
      names = front ++ name :: behind ∧ walk (some l) front = some container ∧
        ∀ next, container.ownMember name = some next → next.container.2.isTable = false := by
  induction names with
  | nil => exact nofun
  | cons name rest ih =>
    intro l hstep
    unfold stepInto at hstep
    split at hstep
    · rename_i next hown
      split at hstep
      · obtain ⟨front, segment, behind, container, rfl, hwalk, hstops⟩ := ih hstep
        refine ⟨name :: front, segment, behind, container, rfl, ?_, hstops⟩
        rw [walk_cons, extendedMember_of_own hown]
        exact hwalk
      · rename_i htable
        refine ⟨[], name, rest, l, rfl, rfl, fun other hother => ?_⟩
        obtain rfl := Option.some.inj (hown.symm.trans hother)
        simpa using htable
    · rename_i hnone
      exact ⟨[], name, rest, l, rfl, rfl, fun next hown => by rw [hnone] at hown; cases hown⟩

end Located

/-! ## Where they agree -/

namespace Index

variable {i : Index} {path root last : String} {middle : List String} {offset : Nat}

/-- What a reference with this path would lead to, if it stood at the offset. -/
def reach (i : Index) (path : String) (offset : Nat) : Option Located :=
  i.table.reach (i.scopeAt offset) offset (splitPath path)

/-- The symbol that the first segment of a path leads to. -/
def rootOf (i : Index) (root : String) (offset : Nat) : Option Located :=
  (i.table.lookup (i.scopeAt offset) root offset).map (Home.here i.table).locate

/-- A segment between root and end that the walk comes to is no member of its container's own, or it
is not a table. -/
def Departs (i : Index) (path : String) (offset : Nat) : Prop :=
  ∃ front name behind container, front ≠ [] ∧ behind ≠ [] ∧
    splitPath path = front ++ name :: behind ∧
    i.table.reach (i.scopeAt offset) offset front = some container ∧
    ∀ next, container.ownMember name = some next → next.container.2.isTable = false

theorem resolve_single (hpath : splitPath path = [root]) :
    i.resolve path offset = .found ((i.rootOf root offset).map (·.handle i)) := by
  unfold resolve rootOf
  simp only [hpath]
  cases i.table.lookup (i.scopeAt offset) root offset <;> rfl

theorem resolve_concat (hpath : splitPath path = root :: (middle ++ [last])) :
    i.resolve path offset =
      match i.rootOf root offset with
      | none => .found none
      | some l =>
        if l.container.2.isContainer then
          .found (((l.stepInto middle).bind (·.extendedMember last)).map (·.handle i))
        else .notNavigable := by
  unfold resolve rootOf
  simp only [hpath, List.getLast?_concat, List.dropLast_concat]
  cases i.table.lookup (i.scopeAt offset) root offset with
  | none => rfl
  | some id =>
    simp only [Option.map_some]
    cases ((Home.here i.table).locate id).container.2.isContainer with
    | false => rfl
    | true => cases ((Home.here i.table).locate id).stepInto middle <;> rfl

theorem reach_concat (hpath : splitPath path = root :: (middle ++ [last])) :
    i.reach path offset =
      (Located.walk (i.rootOf root offset) middle).bind (·.extendedMember last) := by
  rw [reach, hpath]
  exact Located.walk_append _ middle [last]

/-- The segments of a path that a query distinguishes. -/
theorem splitPath_cases (path : String) :
    splitPath path = [] ∨ (∃ root, splitPath path = [root]) ∨
      ∃ root middle last, splitPath path = root :: (middle ++ [last]) := by
  cases hpath : splitPath path with
  | nil => exact .inl rfl
  | cons root rest =>
    cases hrest : rest.getLast? with
    | none => exact .inr (.inl ⟨root, by rw [List.getLast?_eq_none_iff.mp hrest]⟩)
    | some last =>
      obtain ⟨middle, rfl⟩ := List.getLast?_eq_some_iff.mp hrest
      exact .inr (.inr ⟨root, middle, last, rfl⟩)

theorem reach_of_resolve {handle : Handle}
    (hfound : (i.resolve path offset).first? = some handle) :
    ∃ l, i.reach path offset = some l ∧ l.handle i = handle := by
  rcases splitPath_cases path with hpath | ⟨root, hpath⟩ | ⟨root, middle, last, hpath⟩
  · rw [resolve, hpath] at hfound
    cases hfound
  · rw [resolve_single hpath] at hfound
    rw [reach, hpath]
    exact Option.map_eq_some_iff.mp hfound
  · rw [resolve_concat hpath] at hfound
    rw [reach_concat hpath]
    cases hroot : i.rootOf root offset with
    | none => rw [hroot] at hfound; cases hfound
    | some l =>
      rw [hroot] at hfound
      dsimp only at hfound
      split at hfound
      · obtain ⟨m, hm, hhandle⟩ := Option.map_eq_some_iff.mp hfound
        obtain ⟨owner, howner, hm⟩ := Option.bind_eq_some_iff.mp hm
        rw [Located.walk_of_stepInto howner]
        exact ⟨m, hm, hhandle⟩
      · cases hfound

/-- What only the walk of a reference comes to is behind a segment at which a query stops. -/
theorem departs_of_reach {l : Located} (hreach : i.reach path offset = some l)
    (hnone : (i.resolve path offset).first? = none) :
    i.resolve path offset = .found none ∧ i.Departs path offset := by
  rcases splitPath_cases path with hpath | ⟨root, hpath⟩ | ⟨root, middle, last, hpath⟩
  · rw [reach, hpath] at hreach
    cases hreach
  · rw [reach, hpath] at hreach
    rw [resolve_single hpath, show i.rootOf root offset = some l from hreach] at hnone
    cases hnone
  · rw [reach_concat hpath] at hreach
    rw [resolve_concat hpath] at hnone ⊢
    cases hroot : i.rootOf root offset with
    | none =>
      rw [hroot, show Located.walk none middle = none from Located.walk_none middle] at hreach
      cases hreach
    | some start =>
      rw [hroot] at hreach hnone
      have hcontainer : start.container.2.isContainer = true := by
        cases hcontainer : start.container.2.isContainer with
        | true => rfl
        | false =>
          have hwalk := Located.walk_append (some start) middle [last]
          rw [Located.walk_of_not_isContainer hcontainer (by simp)] at hwalk
          cases hwalk.trans hreach
      simp only [hcontainer, if_true] at hnone ⊢
      have hstep : start.stepInto middle = none := by
        cases hstep : start.stepInto middle with
        | none => rfl
        | some owner =>
          rw [Located.walk_of_stepInto hstep] at hreach
          rw [hstep, hreach] at hnone
          cases hnone
      obtain ⟨front, name, behind, container, rfl, hwalk, hstops⟩ :=
        Located.exists_of_stepInto_none hstep
      refine ⟨by rw [hstep]; rfl, root :: front, name, behind ++ [last], container, by simp,
        by simp, by simpa using hpath, ?_, hstops⟩
      rw [← hwalk, ← hroot]
      rfl

/-- A symbol that a path is resolved to is the one that a reference with this path leads to, and it
has the name that ends the path. Where only the reference arrives, the query finds nothing, and it
is a segment between root and end that stops it: one that is inherited, or that is not a table. -/
theorem Safe.resolve_agrees_reach (h : i.Safe) (path : String) (offset : Nat) :
    (∀ handle, (i.resolve path offset).first? = some handle →
      (∃ l, i.reach path offset = some l ∧ l.handle i = handle) ∧
        ∃ x, handle.symbol? = some x ∧ (splitPath path).getLast? = some x.name) ∧
    ∀ l, i.reach path offset = some l → (i.resolve path offset).first? = none →
      i.resolve path offset = .found none ∧ i.Departs path offset :=
  ⟨fun _ hfound => ⟨reach_of_resolve hfound, (h.symbol_of_resolve hfound).2⟩,
    fun _ => departs_of_reach⟩

/-- The table `d` inherits `k` from `b`. -/
def heir : Index :=
  .buildAlone ⟨"file:///a.lua"⟩ 1
    "local b = {k = {n = 1}} local d = setmetatable({}, {__index = b})" {}

/-- A query finds what `d` inherits, but goes no further through it. -/
theorem resolve_agrees_reach_of_inherited :
    heir.Safe ∧ (∃ l, heir.reach "d.k" 65 = some l ∧ l.id = 1) ∧
      (∃ l, heir.reach "d.k.n" 65 = some l ∧ l.id = 0) ∧
      heir.resolve "d.k.n" 65 = .found none ∧ heir.Departs "d.k.n" 65 := by
  have hsafe : heir.Safe :=
    (build_faithful Demand.met_safe (W := fun _ => True)
      (fun _ _ _ => ⟨trivial, fun _ h => by cases h⟩) _ _ _ _ trivial).safe.safe
  have hinherited : ((heir.resolve "d.k" 65).first?.map Handle.id) = some 1 := by decide +kernel
  have hreach : (heir.reach "d.k.n" 65).map Located.id = some 0 := by decide +kernel
  have hnone : ((heir.resolve "d.k.n" 65).first?.map Handle.id) = none := by decide +kernel
  obtain ⟨handle, hfound, hid⟩ := Option.map_eq_some_iff.mp hinherited
  obtain ⟨n, hn, hnid⟩ := Option.map_eq_some_iff.mp hreach
  obtain ⟨⟨l, hl, hhandle⟩, -⟩ := (Safe.resolve_agrees_reach hsafe "d.k" 65).1 handle hfound
  obtain ⟨hempty, hdeparts⟩ := (Safe.resolve_agrees_reach hsafe "d.k.n" 65).2 n hn
    (Option.map_eq_none_iff.mp hnone)
  exact ⟨hsafe, ⟨l, hl, (congrArg Handle.id hhandle).trans hid⟩, ⟨n, hn, hnid⟩, hempty, hdeparts⟩

end Index

end LuaScope

import LuaScope.Index.Basic

/-!
# LuaScope.Index.Member

Members of tables and modules. A located symbol is a symbol number with the table it belongs to,
so that a lookup can go on in another document. `extendedMember` looks a name up along prototypes,
`members` lists all that such a lookup can find.
-/

namespace LuaScope

def maxAliasHops : Nat := 16

def maxPrototypeDepth : Nat := 32

/-- The table in which a symbol number is read. -/
structure Home where
  table : SymbolTable
  /-- The index that owns the table; `none` for the document being queried or built. -/
  origin : Option Index
  /-- How often the walk that led here entered another document. Such steps lead only into
  documents finished earlier, so within one walk equal counts mean the same table. -/
  hops : Nat

structure Located where
  home : Home
  id : SymbolId

namespace Home

def here (table : SymbolTable) : Home := ⟨table, none, 0⟩

def foreign (origin : Index) (hops : Nat) : Home := ⟨origin.table, some origin, hops⟩

def locate (h : Home) (id : SymbolId) : Located := ⟨h, id⟩

/-- The table of `origin`, or this one where there is none. -/
def enter (h : Home) : Option Index → Home
  | some origin => .foreign origin (h.hops + 1)
  | none => h

/-- Where a link that is kept in this table leads. -/
def follow (h : Home) (link : Link) : Located := (h.enter link.origin).locate link.id

/-- The table type behind a value, with the symbol table its members live in. -/
def tableOf (h : Home) : Ty → Option (Home × Table)
  | .table t => some (h.enter t.origin, t)
  | .module _ origin =>
    match origin.exportedTable with
    | some (t, owner) => some ((h.enter (some owner)).enter t.origin, t)
    | none => none
  | _ => none

/-- A member of the value itself. -/
def ownMember (h : Home) (ty : Ty) (name : String) : Option Located :=
  match h.tableOf ty with
  | some (home, t) => (t.members.get? name).map home.locate
  | none => none

end Home

namespace Located

def symbol? (l : Located) : Option Symbol := l.home.table.symbol? l.id

def isLocal (l : Located) : Bool := l.home.origin.isNone

def aliasWithin : Nat → Located → Located
  | 0, l => l
  | fuel + 1, l =>
    match l.symbol?.bind (·.«alias») with
    | some link => aliasWithin fuel (l.home.follow link)
    | none => l

/-- The symbol that holds the value, behind its aliases. -/
def resolveAlias (l : Located) : Located := aliasWithin maxAliasHops l

/-- The link to this symbol, as seen from the document being queried. -/
def toLink (l : Located) : Link := ⟨l.home.origin, l.id⟩

/-- The index this symbol belongs to, given the one being queried. -/
def handle (l : Located) (queried : Index) : Handle := ⟨l.home.origin.getD queried, l.id⟩

def ty (l : Located) : Ty :=
  match l.symbol? with
  | some s => s.ty
  | none => .unknown

/-- Type of the value, fit to be kept in the document being queried. -/
def valueType (l : Located) : Ty :=
  let target := l.resolveAlias
  match target.home.origin with
  | some origin => target.ty.rebased origin
  | none => target.ty

/-- The type that holds the members, with the table it is read in. -/
def container (l : Located) : Home × Ty :=
  let target := l.resolveAlias
  (target.home, target.ty)

/-- What tells symbols of one walk apart. -/
def key (l : Located) : Nat × SymbolId := (l.home.hops, l.id)

def ownMember (l : Located) (name : String) : Option Located :=
  l.container.1.ownMember l.container.2 name

end Located

/-! ## Prototypes -/

abbrev Visited := List (Nat × SymbolId)

namespace Home

/--
Look a member up along prototypes, with the tables visited on the way. Of a metatable only the
table its `__index` leads to counts as visited, since `Class.__index = Class` is common.
-/
def searchMember : Nat → Home → Ty → String → Visited → Option (Located × Visited)
  | 0, _, _, _, _ => none
  | fuel + 1, h, ty, name, visited =>
    match h.ownMember ty name with
    | some found => some (found, visited)
    | none =>
      match h.tableOf ty with
      | none => none
      | some (home, t) =>
        let base? : Option (Located × Visited) :=
          match t.prototype with
          | none => none
          | some (.base link) => some ((home.follow link).resolveAlias, visited)
          | some (.metatable link) =>
            let (mtHome, mtTy) := (home.follow link).resolveAlias.container
            match searchMember fuel mtHome mtTy "__index" visited with
            | some (index, visited) => some (index.resolveAlias, visited)
            | none => none
        match base? with
        | none => none
        | some (base, visited) =>
          if visited.contains base.key then none
          else searchMember fuel base.container.1 base.container.2 name (base.key :: visited)

def extendedMember (h : Home) (ty : Ty) (name : String) : Option Located :=
  (searchMember (maxPrototypeDepth + 1) h ty name []).map Prod.fst

/-- Add the members whose names are not listed yet. -/
def addMembers (home : Home) (listed : List (String × Located)) (ms : Members) :
    List (String × Located) :=
  ms.foldl
    (fun acc (name, id) =>
      if acc.any (fun entry => entry.1 == name) then acc else acc ++ [(name, home.locate id)])
    listed

def collectMembers (extended : Bool) :
    Nat → Home → Ty → List (String × Located) → Visited → List (String × Located)
  | 0, _, _, listed, _ => listed
  | fuel + 1, h, ty, listed, visited =>
    match h.tableOf ty with
    | none => listed
    | some (home, t) =>
      let listed := home.addMembers listed t.members
      if extended then
        let base? : Option Located :=
          match t.prototype with
          | none => none
          | some (.base link) => some (home.follow link).resolveAlias
          | some (.metatable link) =>
            let (mtHome, mtTy) := (home.follow link).resolveAlias.container
            (mtHome.extendedMember mtTy "__index").map Located.resolveAlias
        match base? with
        | none => listed
        | some base =>
          if visited.contains base.key then listed
          else
            collectMembers extended fuel base.container.1 base.container.2 listed
              (base.key :: visited)
      else listed

/-- Named members, own ones first; a name that an own member hides is listed once. -/
def members (h : Home) (ty : Ty) (extended : Bool) : List (String × Located) :=
  collectMembers extended (maxPrototypeDepth + 1) h ty [] []

end Home

namespace Located

def extendedMember (l : Located) (name : String) : Option Located :=
  l.container.1.extendedMember l.container.2 name

def members (l : Located) (extended : Bool) : List (String × Located) :=
  l.container.1.members l.container.2 extended

end Located

end LuaScope

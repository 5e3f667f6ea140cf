import LuaScope.Index.Member
import LuaScope.Syntax.Token

/-!
# LuaScope.Proofs.Linking.Safe

When the numbers of symbols that an index holds mean something. A number is read in one table: that
of the index, or that of the document a link or a table comes from. `SafeIn` says of types, symbols
and scopes that every number in them names a symbol of the table it is read in, and that members
are listed under their names. All of it stands when a table grows.

What is asked of other documents is a `Demand`. With the strict one, an `Index.Safe` is safe in
depth; without one, only numbers of the table itself are looked at.
-/

namespace LuaScope

/-- What has to hold of the documents that links lead into, if anything has. -/
structure Demand where
  strict : Prop
  holds : Index → Prop

/-- Nothing is asked of other documents. -/
def Demand.none : Demand := ⟨False, fun _ => False⟩

def Demand.all (holds : Index → Prop) : Demand := ⟨True, holds⟩

/-- `K` holds of the table in which a number with this origin is read. -/
def Demand.Reads (D : Demand) (t : SymbolTable) (K : SymbolTable → Prop) (origin : Option Index) :
    Prop :=
  (origin = .none → K t) ∧ ∀ o, origin = some o → D.strict → D.holds o ∧ K o.table

/-- The number is that of a symbol of this name. -/
def SymbolTableOver.Names (t : SymbolTable) (id : SymbolId) (name : String) : Prop :=
  ∃ x, t.symbol? id = some x ∧ x.name = name

/-- The table got more symbols or scopes; those it had kept their names. -/
structure SymbolTableOver.Extends (t t' : SymbolTable) : Prop where
  names : ∀ {id name}, t.Names id name → t'.Names id name
  scopes : t.scopes.size ≤ t'.scopes.size

/-! ## Safety of what a table holds -/

def PrototypeOver.link {ρ : Type} : PrototypeOver ρ → LinkOver ρ
  | .base link | .metatable link => link

def Link.SafeIn (D : Demand) (t : SymbolTable) (link : Link) : Prop :=
  D.Reads t (fun home => link.id < home.symbols.size) link.origin

/-- The link leads to a symbol of this name. -/
def Link.Names (D : Demand) (t : SymbolTable) (link : Link) (name : String) : Prop :=
  D.Reads t (fun home => home.Names link.id name) link.origin

def Members.NamedIn (t : SymbolTable) (ms : Members) : Prop :=
  ∀ entry ∈ ms, t.Names entry.2 entry.1

structure Table.Holds (D : Demand) (table : Table) (home : SymbolTable) : Prop where
  members : table.members.NamedIn home
  prototype : ∀ proto, table.prototype = some proto → Link.SafeIn D home proto.link

def Table.SafeIn (D : Demand) (t : SymbolTable) (table : Table) : Prop :=
  D.Reads t (Table.Holds D table) table.origin

def Ty.SafeIn (D : Demand) (t : SymbolTable) : Ty → Prop
  | .table table => Table.SafeIn D t table
  | .function _ returns _ => Ty.SafeIn D t returns
  | .module _ origin => D.strict → D.holds origin ∧ origin.exportsTable = true
  | _ => True

/-- All of the name is written with characters of names. -/
def Spelled (name : String) : Prop := ∀ c ∈ name.toList, isNameChar c = true

structure Symbol.SafeIn (D : Demand) (t : SymbolTable) (x : Symbol) : Prop where
  name : Spelled x.name
  ty : Ty.SafeIn D t x.ty
  «alias» : ∀ link, x.alias = some link → Link.SafeIn D t link
  container : ∀ id, x.container = some id → id < t.symbols.size
  scope : x.scope < t.scopes.size

structure Scope.SafeIn (t : SymbolTable) (scope : Scope) : Prop where
  parent : ∀ id, scope.parent = some id → id < t.scopes.size
  children : ∀ id ∈ scope.children, id < t.scopes.size
  symbols : ∀ id ∈ scope.symbols, id < t.symbols.size
  byName : ∀ entry ∈ scope.byName, ∀ id ∈ entry.2, t.Names id entry.1

structure SymbolTable.Safe (D : Demand) (t : SymbolTable) : Prop where
  symbols : ∀ {id x}, t.symbol? id = some x → Symbol.SafeIn D t x
  scopes : ∀ {id scope}, t.scope? id = some scope → Scope.SafeIn t scope
  root : SymbolTableOver.rootId < t.scopes.size

structure Reference.SafeIn (D : Demand) (t : SymbolTable) (r : Reference) : Prop where
  target : ∀ link, r.target = some link → Link.SafeIn D t link
  scope : r.scope < t.scopes.size

structure Index.SafeWith (D : Demand) (i : Index) : Prop where
  table : SymbolTable.Safe D i.table
  references : ∀ r ∈ i.references, Reference.SafeIn D i.table r
  exports : Ty.SafeIn D i.table i.exports

/-- The index is safe, and so is every index that its links lead into: all of them belong to some
set of indices that lead into no others. -/
def Index.Safe (i : Index) : Prop :=
  ∃ S : Index → Prop, S i ∧ ∀ j, S j → j.SafeWith (.all S)

/-! ## Weaker demands -/

namespace Demand

/-- `D` asks for all that `D'` asks for. -/
structure Covers (D D' : Demand) : Prop where
  strict : D'.strict → D.strict
  holds : ∀ o, D.holds o → D'.holds o

variable {D D' : Demand} {t t' : SymbolTable} {K K' : SymbolTable → Prop} {origin : Option Index}

theorem Reads.mono (h : D.Reads t K origin) (hcovers : D.Covers D') (ht : K t → K' t')
    (hK : ∀ home, K home → K' home) : D'.Reads t' K' origin :=
  ⟨fun hnone => ht (h.1 hnone), fun o ho hstrict =>
    (h.2 o ho (hcovers.strict hstrict)).imp (hcovers.holds o) (hK _)⟩

theorem Covers.refl (D : Demand) : D.Covers D := ⟨id, fun _ => id⟩

end Demand

section Covers

variable {D D' : Demand} {t : SymbolTable}

theorem Link.SafeIn.weaken {link : Link} (h : Link.SafeIn D t link) (hcovers : D.Covers D') :
    Link.SafeIn D' t link :=
  Demand.Reads.mono h hcovers id fun _ => id

theorem Link.Names.weaken {link : Link} {name : String} (h : Link.Names D t link name)
    (hcovers : D.Covers D') : Link.Names D' t link name :=
  Demand.Reads.mono h hcovers id fun _ => id

theorem Table.Holds.weaken {table : Table} (h : Table.Holds D table t) (hcovers : D.Covers D') :
    Table.Holds D' table t :=
  ⟨h.members, fun proto hproto => (h.prototype proto hproto).weaken hcovers⟩

theorem Ty.SafeIn.weaken {ty : Ty} (h : Ty.SafeIn D t ty) (hcovers : D.Covers D') :
    Ty.SafeIn D' t ty := by
  induction ty with
  | table _ => exact Demand.Reads.mono h hcovers (·.weaken hcovers) fun _ h => h.weaken hcovers
  | function _ _ _ ih => exact ih h
  | module _ origin =>
    exact fun hstrict => (h (hcovers.strict hstrict)).imp (hcovers.holds origin) id
  | unknown | nil | boolean | number | string => trivial

theorem Index.SafeWith.weaken {i : Index} (h : i.SafeWith D) (hcovers : D.Covers D') :
    i.SafeWith D' where
  table :=
    { symbols := fun hx =>
        let hx := h.table.symbols hx
        ⟨hx.name, hx.ty.weaken hcovers, fun link hlink => (hx.alias link hlink).weaken hcovers,
          hx.container, hx.scope⟩
      scopes := h.table.scopes
      root := h.table.root }
  references r hr :=
    ⟨fun link hlink => ((h.references r hr).target link hlink).weaken hcovers,
      (h.references r hr).scope⟩
  exports := h.exports.weaken hcovers

end Covers

/-- The links of a safe index lead into safe ones. -/
theorem Index.Safe.safeWith {i : Index} (h : i.Safe) : i.SafeWith (.all Index.Safe) := by
  obtain ⟨S, hi, hclosed⟩ := h
  exact (hclosed i hi).weaken ⟨id, fun o ho => ⟨S, ho, hclosed⟩⟩

theorem Index.SafeWith.safe {i : Index} (h : i.SafeWith (.all Index.Safe)) : i.Safe :=
  ⟨fun j => j.SafeWith (.all Index.Safe), h, fun _ hj => hj.weaken ⟨id, fun _ ho => ho.safeWith⟩⟩

/-! ## Growing tables -/

namespace SymbolTableOver

theorem Names.lt {t : SymbolTable} {id : SymbolId} {name : String} (h : t.Names id name) :
    id < t.symbols.size := by
  obtain ⟨x, hx, -⟩ := h
  exact (Array.getElem?_eq_some_iff.mp hx).1

theorem names_of_lt {t : SymbolTable} {id : SymbolId} (h : id < t.symbols.size) :
    ∃ name, t.Names id name :=
  ⟨_, _, Array.getElem?_eq_getElem h, rfl⟩

namespace Extends

theorem refl (t : SymbolTable) : t.Extends t := ⟨id, Nat.le_refl _⟩

theorem trans {t t' t'' : SymbolTable} (h : t.Extends t') (h' : t'.Extends t'') : t.Extends t'' :=
  ⟨h'.names ∘ h.names, Nat.le_trans h.scopes h'.scopes⟩

theorem lt {t t' : SymbolTable} (h : t.Extends t') {id : SymbolId} (hid : id < t.symbols.size) :
    id < t'.symbols.size := by
  obtain ⟨name, hname⟩ := names_of_lt hid
  exact (h.names hname).lt

end Extends

end SymbolTableOver

section Extends

variable {D : Demand} {t t' : SymbolTable}

theorem Link.SafeIn.mono {link : Link} (h : Link.SafeIn D t link) (hextends : t.Extends t') :
    Link.SafeIn D t' link :=
  Demand.Reads.mono h (.refl D) hextends.lt fun _ => id

theorem Link.Names.mono {link : Link} {name : String} (h : Link.Names D t link name)
    (hextends : t.Extends t') : Link.Names D t' link name :=
  Demand.Reads.mono h (.refl D) hextends.names fun _ => id

theorem Link.Names.safeIn {link : Link} {name : String} (h : Link.Names D t link name) :
    Link.SafeIn D t link :=
  Demand.Reads.mono h (.refl D) (·.lt) fun _ h => h.lt

theorem Members.NamedIn.mono {ms : Members} (h : ms.NamedIn t) (hextends : t.Extends t') :
    ms.NamedIn t' :=
  fun entry hentry => hextends.names (h entry hentry)

theorem Table.Holds.mono {table : Table} (h : Table.Holds D table t) (hextends : t.Extends t') :
    Table.Holds D table t' :=
  ⟨h.members.mono hextends, fun proto hproto => (h.prototype proto hproto).mono hextends⟩

theorem Ty.SafeIn.mono {ty : Ty} (h : Ty.SafeIn D t ty) (hextends : t.Extends t') :
    Ty.SafeIn D t' ty := by
  induction ty with
  | table _ => exact Demand.Reads.mono h (.refl D) (·.mono hextends) fun _ => id
  | function _ _ _ ih => exact ih h
  | module _ _ => exact h
  | unknown | nil | boolean | number | string => trivial

theorem Symbol.SafeIn.mono {x : Symbol} (h : Symbol.SafeIn D t x) (hextends : t.Extends t') :
    Symbol.SafeIn D t' x where
  name := h.name
  ty := h.ty.mono hextends
  «alias» link hlink := (h.alias link hlink).mono hextends
  container id hid := hextends.lt (h.container id hid)
  scope := Nat.lt_of_lt_of_le h.scope hextends.scopes

theorem Scope.SafeIn.mono {scope : Scope} (h : Scope.SafeIn t scope) (hextends : t.Extends t') :
    Scope.SafeIn t' scope where
  parent id hid := Nat.lt_of_lt_of_le (h.parent id hid) hextends.scopes
  children id hid := Nat.lt_of_lt_of_le (h.children id hid) hextends.scopes
  symbols id hid := hextends.lt (h.symbols id hid)
  byName entry hentry id hid := hextends.names (h.byName entry hentry id hid)

end Extends

end LuaScope

import LuaScope.Proofs.Function.Visit
import LuaScope.Proofs.Member.Closed
import LuaScope.Proofs.Member.Rebased
import LuaScope.Proofs.Scoping.Links

/-!
# LuaScope.Proofs.Function.Signature

Which function node a function type describes. A declaration writes the parameters and the method
flag before the body is walked, and the return type afterwards, to whatever function type its symbol
has by then.

* `Binder.Signed`            — every function type that a state holds is one of some signatures.
* `Walk.expr_signed`, `Walk.statement_signed` and the others — a walk keeps this, if the functions
  it enters have such signatures.
* `Index.signature_of_build` — so a function type is that of one node, unless its return type is of
  a function whose symbol had lost its signature before the body was done.
-/

namespace LuaScope

variable {σ : Type}

/-- What function types may say, and which other documents types may lead into. -/
structure Signatures where
  module : Index → Prop
  holds : List String → Ty → Bool → Prop

section

variable (S : Signatures)

def Link.Signed (link : Link) : Prop := ∀ o, link.origin = some o → S.module o

structure Table.Signed (t : Table) : Prop where
  origin : ∀ o, t.origin = some o → S.module o
  prototype : ∀ proto, t.prototype = some proto → Link.Signed S proto.link

def Ty.Signed : Ty → Prop
  | .table t => Table.Signed S t
  | .function params returns isMethod => S.holds params returns isMethod ∧ Ty.Signed returns
  | .module _ o => S.module o
  | _ => True

structure Symbol.Signed (x : Symbol) : Prop where
  ty : Ty.Signed S x.ty
  «alias» : ∀ link, x.alias = some link → Link.Signed S link

structure Inferred.Signed (value : Inferred) : Prop where
  ty : Ty.Signed S value.ty
  «alias» : ∀ link, value.alias = some link → Link.Signed S link

def SymbolTable.Signed (t : SymbolTable) : Prop := ∀ id x, t.symbol? id = some x → Symbol.Signed S x

structure Index.Signed (i : Index) : Prop where
  table : SymbolTable.Signed S i.table
  exports : Ty.Signed S i.exports

end

/-- Signatures that the modules of a loader have, and the states in which it has no others. -/
structure Library (loader : Loader σ) extends Signatures where
  world : σ → Prop
  signed : ∀ o, module o → o.Signed toSignatures
  /-- A type that is kept in another document has its members anchored. -/
  rebased : ∀ o params returns isMethod, holds params returns isMethod →
    holds params (returns.rebased o) isMethod
  loads : ∀ name w, world w → world (loader name w).2 ∧
    ∀ o, (loader name w).1 = some o → module o

namespace FunctionVisit

variable (s : Setting σ) (v : FunctionVisit σ)

/-- When the body is done, the declared symbol still has the signature of the function, if it is a
function at all. -/
def Intact : Prop := ∀ id, v.symbol = some id → ∀ params returns isMethod,
  (v.after s).tyOf id = .function params returns isMethod →
    params = v.params ∧ isMethod = v.isMethod

end FunctionVisit

/-- The signatures of a walk: those of modules, and others that are found on the way. -/
structure Signing (s : Setting σ) where
  library : Library s.loader
  holds : List String → Ty → Bool → Prop
  foreign : ∀ params returns isMethod, library.holds params returns isMethod →
    holds params returns isMethod

namespace Signing

variable {s : Setting σ} (c : Signing s)

def signatures : Signatures := ⟨c.library.module, c.holds⟩

/-- What has to hold for a function that is entered: of its declaration, of the function behind its
body, and of the type that takes its return type instead. -/
structure Covers (v : FunctionVisit σ) : Prop where
  declared : c.holds v.params .unknown v.isMethod
  whole : c.holds v.params (v.returned s) v.isMethod
  torn : ¬v.Intact s → ∀ params returns isMethod, c.holds params returns isMethod →
    c.holds params (v.returned s) isMethod

end Signing

structure Binder.Signed {s : Setting σ} (c : Signing s) (b : Binder σ) : Prop where
  table : SymbolTable.Signed c.signatures b.table
  returns : ∀ value, some value ∈ b.returns → Inferred.Signed c.signatures value
  world : c.library.world b.world

/-! ## Values -/

section

variable {S : Signatures}

theorem Ty.Signed.mono {ty : Ty} (h : Ty.Signed S ty) (S' : Signatures)
    (hmodule : ∀ o, S.module o → S'.module o)
    (hholds : ∀ params returns isMethod, S.holds params returns isMethod →
      S'.holds params returns isMethod) : Ty.Signed S' ty := by
  induction ty with
  | table t =>
    exact ⟨fun o ho => hmodule o (h.origin o ho),
      fun proto hproto o ho => hmodule o (h.prototype proto hproto o ho)⟩
  | function params returns isMethod ih => exact ⟨hholds _ _ _ h.1, ih h.2⟩
  | module name o => exact hmodule o h
  | unknown | nil | boolean | number | string => trivial

theorem Index.Signed.mono {i : Index} (h : i.Signed S) (S' : Signatures)
    (hmodule : ∀ o, S.module o → S'.module o)
    (hholds : ∀ params returns isMethod, S.holds params returns isMethod →
      S'.holds params returns isMethod) : i.Signed S' where
  table id x hx := ⟨(h.table id x hx).ty.mono S' hmodule hholds,
    fun link hlink o ho => hmodule o ((h.table id x hx).alias link hlink o ho)⟩
  exports := h.exports.mono S' hmodule hholds

theorem Ty.Signed.rebased {o : Index} (ho : S.module o)
    (hrebased : ∀ params returns isMethod, S.holds params returns isMethod →
      S.holds params (returns.rebased o) isMethod) {ty : Ty} (h : Ty.Signed S ty) :
    Ty.Signed S (ty.rebased o) := by
  induction ty with
  | table t =>
    rw [TyOver.rebased]
    split
    · exact h
    · refine ⟨fun o' ho' => ?_, h.prototype⟩
      cases ho'
      exact ho
  | function params returns isMethod ih => exact ⟨hrebased _ _ _ h.1, ih h.2⟩
  | module name o' => exact h
  | unknown | nil | boolean | number | string => trivial

theorem Inferred.signed_ty {ty : Ty} (h : Ty.Signed S ty) : Inferred.Signed S { ty := ty } :=
  ⟨h, nofun⟩

theorem Inferred.signed_unknown : Inferred.Signed S {} := signed_ty trivial

theorem Index.Signed.exportedTable (hclosed : ∀ o, S.module o → o.Signed S) {i owner : Index}
    {t : Table} : i.exportedTable = some (t, owner) → S.module i →
      S.module owner ∧ Table.Signed S t := by
  induction i using Index.exportedTable.induct with
  | case1 =>
    intro h hi
    cases h
    exact ⟨hi, (hclosed _ hi).exports⟩
  | case2 _ _ _ _ _ _ _ _ _ ih =>
    intro h hi
    rw [Index.exportedTable] at h
    exact ih h (hclosed _ hi).exports
  | case3 i hno hno' =>
    intro h
    unfold Index.exportedTable at h
    split at h
    · exact (hno _ _ _ _ _ _ _ _ rfl).elim
    · exact (hno' _ _ _ _ _ _ _ _ _ rfl).elim
    · cases h

end

/-! ## Lookups -/

namespace Signing

variable {s : Setting σ} {c : Signing s} {b : Binder σ}

theorem mono (c : Signing s) {ty : Ty} (h : Ty.Signed c.library.toSignatures ty) :
    Ty.Signed c.signatures ty :=
  Ty.Signed.mono h c.signatures (fun _ => id) c.foreign

/-- The table of the document itself, or that of one of the modules. -/
structure Leads (c : Signing s) (t : SymbolTable) (h : Home) : Prop where
  home : h.At t
  module : ∀ o, h.origin = some o → c.library.module o

namespace Leads

variable {t : SymbolTable} {h home : Home} {table : Table}

theorem here (c : Signing s) (t : SymbolTable) : c.Leads t (.here t) := ⟨Home.at_here t, nofun⟩

theorem enter (hh : c.Leads t h) {origin : Option Index}
    (horigin : ∀ o, origin = some o → c.library.module o) : c.Leads t (h.enter origin) := by
  refine ⟨hh.home.enter origin, fun o ho => ?_⟩
  cases origin with
  | none => exact hh.module o ho
  | some o' =>
    cases ho
    exact horigin o rfl

theorem follow (hh : c.Leads t h) {link : Link} (hlink : Link.Signed c.signatures link) :
    c.Leads t (h.follow link).home := hh.enter hlink

theorem tableOf (hh : c.Leads t h) {ty : Ty} (hty : Ty.Signed c.signatures ty)
    (htable : h.tableOf ty = some (home, table)) :
    c.Leads t home ∧ ∀ proto, table.prototype = some proto → Link.Signed c.signatures proto.link := by
  unfold Home.tableOf at htable
  split at htable
  · cases htable
    exact ⟨hh.enter hty.origin, hty.prototype⟩
  · rename_i name inner
    split at htable
    · rename_i owner hexports
      cases htable
      obtain ⟨howner, hsigned⟩ := Index.Signed.exportedTable c.library.signed hexports hty
      refine ⟨(hh.enter fun o ho => ?_).enter hsigned.origin, hsigned.prototype⟩
      cases ho
      exact howner
    · cases htable
  · cases htable

/-- Symbols of modules have signatures of the library. -/
theorem symbol (hb : b.Signed c) {l : Located} (hl : c.Leads b.table l.home) {x : Symbol}
    (hx : l.symbol? = some x) :
    Symbol.Signed c.signatures x ∧
      ∀ o, l.home.origin = some o → Ty.Signed c.library.toSignatures x.ty := by
  have hat : l.home.table = _ := hl.home
  rw [Located.symbol?, hat] at hx
  cases horigin : l.home.origin with
  | none =>
    rw [horigin] at hx
    exact ⟨hb.table _ x hx, fun _ ho => by cases ho⟩
  | some o =>
    rw [horigin] at hx
    have hsigned := (c.library.signed o (hl.module o horigin)).table _ x hx
    exact ⟨⟨c.mono hsigned.ty, hsigned.alias⟩, fun _ _ => hsigned.ty⟩

theorem ty (hb : b.Signed c) {l : Located} (hl : c.Leads b.table l.home) :
    Ty.Signed c.signatures l.ty ∧
      ∀ o, l.home.origin = some o → Ty.Signed c.library.toSignatures l.ty := by
  unfold Located.ty
  split
  · rename_i x hx
    obtain ⟨hsigned, hforeign⟩ := symbol hb hl hx
    exact ⟨hsigned.ty, hforeign⟩
  · exact ⟨trivial, fun _ _ => trivial⟩

/-- Lookups lead into the document itself, or into one of the modules. -/
theorem closed (hb : b.Signed c) : Located.Closed fun l => c.Leads b.table l.home where
  «alias» l link hl hlink := by
    obtain ⟨x, hx, halias⟩ := Option.bind_eq_some_iff.mp hlink
    exact hl.follow ((symbol hb hl hx).1.alias link halias)
  opens l hl :=
    ⟨fun _ _ htable _ _ => (hl.tableOf (ty hb hl).1 htable).1,
      fun _ _ htable proto hproto =>
        let ⟨hhome, hlink⟩ := hl.tableOf (ty hb hl).1 htable
        hhome.follow (hlink proto hproto)⟩

theorem valueType (hb : b.Signed c) {l : Located} (hl : c.Leads b.table l.home) :
    Ty.Signed c.signatures l.valueType := by
  have htarget := (closed hb).resolveAlias hl
  obtain ⟨hty, hforeign⟩ := ty hb htarget
  unfold Located.valueType
  dsimp only
  split
  · rename_i o ho
    exact c.mono ((hforeign o ho).rebased (htarget.module o ho) (c.library.rebased o))
  · exact hty

end Leads

end Signing

namespace Binder.Signed

variable {s : Setting σ} {c : Signing s} {b : Binder σ}

theorem of_mem_walkPath (hb : b.Signed c) {path : List Ident} {link : Link}
    (hlink : some link ∈ b.walkPath path) : Link.Signed c.signatures link := by
  obtain ⟨m, hm, rfl⟩ := (Signing.Leads.closed hb).of_mem_walkPath
    (fun _ _ _ => Signing.Leads.here c b.table) hlink
  exact hm.module

theorem valueType (hb : b.Signed c) {link : Link} (hlink : Link.Signed c.signatures link) :
    Ty.Signed c.signatures (b.home.follow link).valueType :=
  Signing.Leads.valueType hb ((Signing.Leads.here c b.table).follow hlink)

/-! ## Steps -/

theorem modify (hb : b.Signed c) {id : SymbolId} {f : Symbol → Symbol}
    (hf : ∀ x, b.table.symbol? id = some x → Symbol.Signed c.signatures x →
      Symbol.Signed c.signatures (f x)) :
    (b.modifySymbol id f).Signed c where
  table id' x hx := by
    rw [modifySymbol, SymbolTableOver.symbol?_modifySymbol] at hx
    split at hx
    · rename_i hid
      obtain ⟨y, hy, rfl⟩ := Option.map_eq_some_iff.mp hx
      exact hf y (hid ▸ hy) (hb.table id' y hy)
    · exact hb.table id' x hx
  returns := hb.returns
  world := hb.world

theorem adopt (hb : b.Signed c) (owner : SymbolId) : (b.adoptMembers owner).Signed c := by
  have hfold (members : Members) : ∀ b : Binder σ, b.Signed c →
      (members.foldl (fun b member => b.modifySymbol member.2 (ownedBy owner)) b).Signed c := by
    induction members with
    | nil => exact fun b hb => hb
    | cons member members ih =>
      refine fun b hb => ih _ (hb.modify fun x _ hx => ?_)
      unfold ownedBy
      split
      · exact ⟨hx.ty, hx.alias⟩
      · exact hx
  unfold adoptMembers
  split
  · split
    · exact hb
    · exact hfold _ b hb
  · exact hb

theorem push {b' : Binder σ} (hb : b.Signed c) {x : Symbol} (hx : Symbol.Signed c.signatures x)
    (hsymbols : b'.table.symbols = b.table.symbols.push x) (hreturns : b'.returns = b.returns)
    (hworld : b'.world = b.world) : b'.Signed c where
  table id y hy := by
    rw [SymbolTableOver.symbol?, hsymbols, Array.getElem?_push] at hy
    split at hy
    · cases hy
      exact hx
    · exact hb.table id y hy
  returns := hreturns ▸ hb.returns
  world := hworld ▸ hb.world

theorem declare (hb : b.Signed c) {x : Symbol} (hx : Symbol.Signed c.signatures x) :
    (b.declare x).Signed c := hb.push hx rfl rfl rfl

theorem addMember (hb : b.Signed c) {x : Symbol} (hx : Symbol.Signed c.signatures x) :
    (b.addMember x).Signed c := hb.push hx rfl rfl rfl

theorem bind (hb : b.Signed c) {x : Symbol} (hx : Symbol.Signed c.signatures x) :
    (b.bind x).Signed c := (hb.declare hx).adopt x.id

theorem withReferences (hb : b.Signed c) (references : Array Reference) :
    Binder.Signed c { b with references := references } := ⟨hb.table, hb.returns, hb.world⟩

theorem recordAll (hb : b.Signed c) (first : Ident) (segments : List Ident)
    (links : List (Option Link)) : (Binder.recordAll s first segments links b).Signed c := by
  obtain ⟨references, heq⟩ := recordAll_eq s first segments links b
  exact heq ▸ hb.withReferences references

theorem newSymbol (b : Binder σ) (name : Ident) (kind : SymbolKind) (statement : Span)
    {value : Inferred} (hvalue : Inferred.Signed c.signatures value) (isLocal : Bool)
    (doc : Option String) :
    Symbol.Signed c.signatures (Binder.newSymbol s b name kind statement value isLocal doc) :=
  ⟨hvalue.ty, hvalue.alias⟩

theorem inferPath (hb : b.Signed c) (path : List Ident) :
    (b.inferPath s path).2.Signed c ∧ Inferred.Signed c.signatures (b.inferPath s path).1 := by
  cases path with
  | nil => exact ⟨hb, Inferred.signed_unknown⟩
  | cons first rest =>
    have hrecorded := hb.recordAll first (first :: rest) (b.walkPath (first :: rest))
    obtain ⟨references, heq⟩ :=
      recordAll_eq s first (first :: rest) (b.walkPath (first :: rest)) b
    simp only [Binder.inferPath]
    split
    · rename_i link hlast
      have hlink := hb.of_mem_walkPath (List.mem_of_getLast? hlast)
      refine ⟨hrecorded, ?_, fun link' hlink' => ?_⟩
      · rw [heq]
        exact hb.valueType hlink
      · cases hlink'
        exact hlink
    · exact ⟨hrecorded, Inferred.signed_unknown⟩

theorem refine (hb : b.Signed c) (id : SymbolId) {value : Inferred}
    (hvalue : Inferred.Signed c.signatures value) : (b.refine id value).Signed c := by
  unfold Binder.refine
  split
  · exact hb
  · refine (hb.modify fun x _ hx => ⟨hvalue.ty, fun link hlink => ?_⟩).adopt id
    unfold refined at hlink
    dsimp only at hlink
    split at hlink
    · exact hvalue.alias link hlink
    · exact hx.alias link hlink

theorem asTable (hb : b.Signed c) (id : SymbolId) : (b.modifySymbol id Binder.asTable).Signed c := by
  refine hb.modify fun x _ hx => ?_
  unfold Binder.asTable
  split
  · exact ⟨⟨nofun, nofun⟩, hx.alias⟩
  · exact hx

theorem mapTable (hb : b.Signed c) (id : SymbolId) {f : Table → Table}
    (hf : ∀ t, Table.Signed c.signatures t → Table.Signed c.signatures (f t)) :
    (b.modifySymbol id (Binder.mapTable f)).Signed c := by
  refine hb.modify fun x _ hx => ?_
  unfold Binder.mapTable
  split
  · rename_i t hty
    have hsigned := hx.ty
    rw [hty] at hsigned
    exact ⟨hf t hsigned, hx.alias⟩
  · exact hx

theorem insertMember (hb : b.Signed c) {container : Link} {x : Symbol}
    (hx : Symbol.Signed c.signatures x) {id : SymbolId} {b' : Binder σ}
    (h : b.insertMember container x = some (id, b')) : b'.Signed c := by
  unfold Binder.insertMember at h
  split at h
  · cases h
  · rename_i target _
    cases h
    have hadded : ((b.modifySymbol target Binder.asTable).addMember
        { x with container := some target }).Signed c :=
      (hb.asTable target).addMember ⟨hx.ty, hx.alias⟩
    exact hadded.mapTable target fun t ht => ⟨ht.origin, ht.prototype⟩

theorem setPrototype (hb : b.Signed c) {link : Link} {proto : Prototype}
    (hproto : Link.Signed c.signatures proto.link) {b' : Binder σ}
    (h : b.setPrototype link proto = some b') : b'.Signed c := by
  unfold Binder.setPrototype at h
  dsimp only at h
  split at h
  · cases h
  · split at h
    · split at h
      · cases h
      · cases h
        refine (hb.asTable _).mapTable _ fun t ht => ⟨ht.origin, fun proto' hproto' => ?_⟩
        cases hproto'
        exact hproto
    · cases h

theorem defineMember (hb : b.Signed c) (path : List Ident) (kind : SymbolKind) (statement : Span)
    {value : Inferred} (hvalue : Inferred.Signed c.signatures value) (doc : Option String) :
    (b.defineMember s path kind statement value doc).2.Signed c ∧
      ∀ link, (b.defineMember s path kind statement value doc).1.container = some link →
        Link.Signed c.signatures link := by
  unfold Binder.defineMember
  split
  · rename_i first last _ _
    have hcontainer : ∀ link, (b.walkPath path).dropLast.getLast?.join = some link →
        Link.Signed c.signatures link := fun link hlink =>
      hb.of_mem_walkPath
        (List.dropLast_subset _ (List.mem_of_getLast? (Option.join_eq_some_iff.mp hlink)))
    have hrecorded := hb.recordAll first path (b.walkPath path).dropLast
    dsimp only
    generalize (b.walkPath path).dropLast.getLast?.join = container at hcontainer ⊢
    generalize Binder.recordAll s first path (b.walkPath path).dropLast b = b₁ at hrecorded ⊢
    have hlast (target : Option Link) : (b₁.record s first last target).Signed c :=
      hrecorded.withReferences _
    split
    · rename_i existing _
      split
      · exact ⟨(hlast _).refine existing.id hvalue, hcontainer⟩
      · exact ⟨hlast _, hcontainer⟩
    · cases container with
      | none => exact ⟨hlast none, nofun⟩
      | some link =>
        dsimp only
        split
        · rename_i id b₂ hinsert
          exact ⟨(hrecorded.insertMember (newSymbol b₁ last kind statement hvalue false doc)
            hinsert).adopt id, hcontainer⟩
        · exact ⟨hlast none, hcontainer⟩
  · exact ⟨hb, nofun⟩

theorem assignName (hb : b.Signed c) (name : Ident) (statement : Span) {value : Inferred}
    (hvalue : Inferred.Signed c.signatures value) (doc : Option String) :
    (b.assignName s name statement value doc).Signed c := by
  unfold Binder.assignName
  split
  · exact (hb.withReferences _).refine _ hvalue
  · split
    · exact hb.bind (newSymbol b name _ statement hvalue false doc)
    · exact hb.withReferences _

theorem declareLocals (statement : Span) (doc : Option String) : ∀ (names : List Ident)
    {values : List Inferred} {b : Binder σ}, b.Signed c →
    (∀ value ∈ values, Inferred.Signed c.signatures value) →
    (b.declareLocals s statement doc names values).Signed c
  | [], _, _, hb, _ => hb
  | name :: names, values, b, hb, hvalues => by
    have hhead : Inferred.Signed c.signatures (values.headD {}) := by
      cases values with
      | nil => exact Inferred.signed_unknown
      | cons value _ => exact hvalues value List.mem_cons_self
    exact declareLocals statement doc names (hb.bind (newSymbol b name _ statement hhead true doc))
      fun value hvalue => hvalues value (List.mem_of_mem_tail hvalue)

theorem declareCounter (hb : b.Signed c) (statement : Span) (ty : Ty)
    (hty : Ty.Signed c.signatures ty) (name : Ident) :
    (b.declareCounter s statement ty name).Signed c :=
  hb.declare (newSymbol b name .variable statement (Inferred.signed_ty hty) true none)

theorem declareCounters (statement : Span) : ∀ (names : List Ident) {b : Binder σ}, b.Signed c →
    (names.foldl (fun b name => b.declareCounter s statement .unknown name) b).Signed c
  | [], _, hb => hb
  | name :: names, _, hb =>
    declareCounters statement names (hb.declareCounter statement .unknown trivial name)

theorem declareParameters (parameters : Span) : ∀ (entries : List Parameter) {b : Binder σ},
    b.Signed c → (b.declareParameters s parameters entries).Signed c
  | [], _, hb => hb
  | .vararg :: rest, _, hb => declareParameters parameters rest hb
  | .name name :: rest, b, hb => declareParameters parameters rest
      (hb.declare (newSymbol b name .parameter parameters Inferred.signed_unknown true none))

theorem declareSelf (hb : b.Signed c) (parameters : Span) {container : Option Link}
    (hcontainer : ∀ link, container = some link → Link.Signed c.signatures link) :
    (b.declareSelf s parameters container).Signed c := by
  refine hb.declare ⟨?_, hcontainer⟩
  cases container with
  | none => trivial
  | some link => exact hb.valueType (hcontainer link rfl)

theorem enterFunction (hb : b.Signed c) (parameters : Parameters) (stop : Nat) (isMethod : Bool)
    {container : Option Link}
    (hcontainer : ∀ link, container = some link → Link.Signed c.signatures link) :
    (b.enterFunction s parameters stop isMethod container).Signed c := by
  have hscope : (b.enterScope .function ⟨parameters.span.start, stop⟩).Signed c :=
    ⟨hb.table, hb.returns, hb.world⟩
  have hframe (b : Binder σ) (hb : b.Signed c) : b.pushFrame.Signed c :=
    ⟨hb.table, fun value hvalue => by
      rcases List.mem_cons.mp hvalue with hnone | hvalue
      · cases hnone
      · exact hb.returns value hvalue, hb.world⟩
  unfold Binder.enterFunction
  refine hframe _ (declareParameters _ _ ?_)
  split
  · exact hscope.declareSelf parameters.span hcontainer
  · exact hscope

theorem leaveFunction (hb : b.Signed c) (outer : ScopeId) :
    (b.leaveFunction outer).2.Signed c ∧ Ty.Signed c.signatures (b.leaveFunction outer).1 := by
  unfold Binder.leaveFunction popFrame
  split
  · exact ⟨⟨hb.table, hb.returns, hb.world⟩, trivial⟩
  · rename_i frame rest hreturns
    refine ⟨⟨hb.table, fun value hvalue => ?_, hb.world⟩, ?_⟩
    · exact hb.returns value (hreturns ▸ List.mem_cons_of_mem frame hvalue)
    · cases frame with
      | none => trivial
      | some value => exact (hb.returns value (hreturns ▸ List.mem_cons_self)).ty

theorem noteReturn (hb : b.Signed c) {value : Inferred}
    (hvalue : Inferred.Signed c.signatures value) : (b.noteReturn value).Signed c := by
  unfold Binder.noteReturn
  split
  · exact hb
  · rename_i frame rest hreturns
    have hnoted : Binder.Signed c { b with returns := some value :: rest } := by
      refine ⟨hb.table, fun value' hvalue' => ?_, hb.world⟩
      rcases List.mem_cons.mp hvalue' with heq | hvalue'
      · cases heq
        exact hvalue
      · exact hb.returns value' (hreturns ▸ List.mem_cons_of_mem frame hvalue')
    cases frame with
    | none => exact hnoted
    | some earlier =>
      dsimp only
      split
      · exact hb
      · exact hnoted

theorem require (hb : b.Signed c) (name : String) :
    (b.require s name).2.Signed c ∧ Inferred.Signed c.signatures (b.require s name).1 := by
  obtain ⟨hworld, hmodule⟩ := c.library.loads name b.world hb.world
  have hloaded : Binder.Signed c { b with world := (s.loader name b.world).2 } :=
    ⟨hb.table, hb.returns, hworld⟩
  unfold Binder.require
  dsimp only
  split
  · rename_i index hindex
    split
    · exact ⟨hloaded, Inferred.signed_ty (hmodule index hindex)⟩
    · exact ⟨hloaded, Inferred.signed_unknown⟩
  · exact ⟨hloaded, Inferred.signed_unknown⟩

theorem attachPrototype (hb : b.Signed c) {target : Inferred}
    (htarget : Inferred.Signed c.signatures target) {prototype : Option Prototype}
    (hprototype : ∀ proto, prototype = some proto → Link.Signed c.signatures proto.link) :
    (b.attachPrototype target prototype).2.Signed c ∧
      Inferred.Signed c.signatures (b.attachPrototype target prototype).1 := by
  unfold Binder.attachPrototype
  split
  · exact ⟨hb, htarget⟩
  · rename_i proto
    have hproto := hprototype proto rfl
    split
    · rename_i link b' hset
      obtain ⟨link', halias, hset⟩ := Option.bind_eq_some_iff.mp hset
      obtain ⟨b'', hset, heq⟩ := Option.map_eq_some_iff.mp hset
      cases heq
      have hb' := hb.setPrototype hproto hset
      have hlink := htarget.alias link halias
      refine ⟨hb', hb'.valueType hlink, fun link' hlink' => ?_⟩
      cases hlink'
      exact hlink
    · -- No symbol takes the prototype, so the value that is answered with has it.
      have hwith (t : Table) (ht : Table.Signed c.signatures t) :
          Inferred.Signed c.signatures { ty := .table { t with prototype := some proto } } := by
        refine Inferred.signed_ty ⟨ht.origin, fun proto' hproto' => ?_⟩
        cases hproto'
        exact hproto
      split
      · rename_i t hty
        have ht := htarget.ty
        rw [hty] at ht
        split
        · exact ⟨hb, Inferred.signed_ty htarget.ty⟩
        · exact ⟨hb, hwith t ht⟩
      · exact ⟨hb, hwith {} ⟨nofun, nofun⟩⟩
      · exact ⟨hb, hwith {} ⟨nofun, nofun⟩⟩
      · exact ⟨hb, Inferred.signed_ty htarget.ty⟩

theorem exports (hb : b.Signed c) : Ty.Signed c.signatures b.exports := by
  have hlast : ∀ value, b.returns.getLast?.join = some value → Inferred.Signed c.signatures value :=
    fun value hvalue =>
      hb.returns value (List.mem_of_getLast? (Option.join_eq_some_iff.mp hvalue))
  unfold Binder.exports
  split
  · rename_i ty link hvalue
    exact hb.valueType ((hlast _ hvalue).alias link rfl)
  · rename_i value _ hvalue
    exact (hlast value hvalue).ty
  · trivial

theorem declareFunction (hb : b.Signed c) (reach : FunctionReach) (name : FunctionName)
    (statement : Span) {params : List String} (hdeclared : c.holds params .unknown name.method.isSome)
    (doc : Option String) :
    (b.declareFunction s reach name statement params doc).2.Signed c ∧
      ∀ link, (b.declareFunction s reach name statement params doc).1.container = some link →
        Link.Signed c.signatures link := by
  have hvalue : Inferred.Signed c.signatures
      { ty := .function params .unknown name.method.isSome } :=
    Inferred.signed_ty ⟨hdeclared, trivial⟩
  unfold Binder.declareFunction
  dsimp only
  split
  · exact hb.defineMember _ _ statement hvalue doc
  · split
    · exact ⟨hb.declare (newSymbol b name.head .function statement hvalue true doc), nofun⟩
    · split
      · exact ⟨(hb.withReferences _).modify fun x _ hx => ⟨hvalue.ty, hx.alias⟩, nofun⟩
      · exact ⟨hb.declare (newSymbol b name.head .function statement hvalue false doc), nofun⟩

/-- The return type goes to a function type that is still that of the function, or to another. -/
theorem finishFunction {v : FunctionVisit σ} (hcovers : c.Covers v) (hb : (v.after s).Signed c)
    (hreturned : Ty.Signed c.signatures (v.returned s)) :
    ((v.after s).finishFunction v.symbol (v.returned s)).Signed c := by
  cases hsymbol : v.symbol with
  | none => exact hb
  | some id =>
    refine hb.modify fun x hx hsigned => ?_
    unfold withReturns
    split
    · rename_i params returns isMethod hty
      have hholds := hsigned.ty
      rw [hty] at hholds
      refine ⟨⟨?_, hreturned⟩, hsigned.alias⟩
      by_cases hintact : v.Intact s
      · obtain ⟨rfl, rfl⟩ := hintact id hsymbol params returns isMethod
          (hty ▸ tyOf_of_symbol? hx)
        exact hcovers.whole
      · exact hcovers.torn hintact params returns isMethod hholds.1
    · exact hsigned

end Binder.Signed

/-! ## The tree -/

namespace Signing

variable {s : Setting σ}

def CoversAll (c : Signing s) (visits : List (FunctionVisit σ)) : Prop := ∀ v ∈ visits, c.Covers v

variable {c : Signing s} {visits visits' : List (FunctionVisit σ)}

theorem CoversAll.left (h : c.CoversAll (visits ++ visits')) : c.CoversAll visits :=
  fun v hv => h v (List.mem_append_left _ hv)

theorem CoversAll.right (h : c.CoversAll (visits ++ visits')) : c.CoversAll visits' :=
  fun v hv => h v (List.mem_append_right _ hv)

end Signing

namespace Walk

variable {s : Setting σ} {c : Signing s}

theorem name_signed (ident : Ident) (depth : Nat) {b : Binder σ} (hb : b.Signed c) :
    (inferName s ident depth b).2.Signed c ∧
      Inferred.Signed c.signatures (inferName s ident depth b).1 := by
  unfold inferName
  split
  · exact ⟨hb, Inferred.signed_unknown⟩
  · exact hb.inferPath [ident]

theorem enterScope_signed {b : Binder σ} (hb : b.Signed c) (kind : ScopeKind) (span : Span) :
    (b.enterScope kind span).Signed c := ⟨hb.table, hb.returns, hb.world⟩

theorem backTo_signed {b : Binder σ} (hb : b.Signed c) (scope : ScopeId) :
    (b.backTo scope).Signed c := ⟨hb.table, hb.returns, hb.world⟩

theorem callResult_signed {S : Signatures} {callee : Inferred} (h : Inferred.Signed S callee) :
    Inferred.Signed S (Binder.callResult callee) := by
  unfold Binder.callResult
  split
  · rename_i params returns isMethod hty
    have hty' := h.ty
    rw [hty] at hty'
    exact Inferred.signed_ty hty'.2
  · exact Inferred.signed_unknown

theorem binary_signed {S : Signatures} (op : BinaryOp) {left right : Inferred}
    (hleft : Inferred.Signed S left) (hright : Inferred.Signed S right) :
    Inferred.Signed S (op.inferred left right) := by
  cases op
  case or =>
    unfold BinaryOp.inferred
    dsimp only
    split
    · exact hright
    · exact hleft
  case and => exact hright
  all_goals exact Inferred.signed_ty trivial

theorem unary_signed (S : Signatures) (op : UnaryOp) : Inferred.Signed S op.inferred := by
  cases op <;> exact Inferred.signed_ty trivial

mutual

theorem expr_signed (e : Expr) (depth : Nat) {b : Binder σ} (hb : b.Signed c)
    (hv : c.CoversAll (exprVisits s e depth b)) :
    (inferExpr s e depth b).2.Signed c ∧
      Inferred.Signed c.signatures (inferExpr s e depth b).1 := by
  by_cases hdeep : maxDepth < depth
  · rw [inferExpr_of_deep hdeep]
    exact ⟨hb, Inferred.signed_unknown⟩
  match e, hv with
  | .nil, _ | .boolean, _ | .number, _ | .literal _, _ =>
    simp only [inferExpr, if_neg hdeep]
    exact ⟨hb, Inferred.signed_ty trivial⟩
  | .vararg, _ | .global, _ => exact ⟨hb, Inferred.signed_unknown⟩
  | .name ident, _ => exact name_signed ident depth hb
  | .field base key, hv =>
    simp only [exprVisits, if_neg hdeep] at hv
    simp only [inferExpr, if_neg hdeep]
    cases hpath : base.path? with
    | some path => exact hb.inferPath (path ++ [key])
    | none =>
      rw [hpath] at hv
      have hbase := (expr_signed base (depth + 1) hb hv).1
      exact ⟨(name_signed key (depth + 1) hbase).1, Inferred.signed_unknown⟩
  | .subscript base key, hv =>
    simp only [exprVisits, if_neg hdeep] at hv
    simp only [inferExpr, if_neg hdeep]
    have hbase := (expr_signed base (depth + 1) hb hv.left).1
    exact ⟨(expr_signed key (depth + 1) hbase hv.right).1, Inferred.signed_unknown⟩
  | .paren inner, hv =>
    simp only [exprVisits, if_neg hdeep] at hv
    simp only [inferExpr, if_neg hdeep]
    exact expr_signed inner (depth + 1) hb hv
  | .table fields, hv =>
    simp only [exprVisits, if_neg hdeep] at hv
    simp only [inferExpr, if_neg hdeep]
    exact ⟨fields_signed fields depth [] hb hv, Inferred.signed_ty ⟨nofun, nofun⟩⟩
  | .function (.mk parameters block stop), hv =>
    simp only [exprVisits, if_neg hdeep] at hv
    simp only [inferExpr, if_neg hdeep]
    obtain ⟨hcovers, hafter, hreturned⟩ :=
      body_signed (.mk parameters block stop) false none none depth hb nofun hv
    exact ⟨hafter, Inferred.signed_ty ⟨hcovers.whole, hreturned⟩⟩
  | .call callee none arguments, hv =>
    simp only [exprVisits, if_neg hdeep] at hv
    split at hv
    · rename_i hliteral
      simp only [inferExpr, if_neg hdeep, hliteral]
      exact hb.require _
    · simp only [inferExpr, if_neg hdeep]
      exact setmetatable_signed arguments depth hb hv
    · rename_i hsetmetatable _ hrequire
      rw [inferExpr_call hrequire hsetmetatable hdeep]
      obtain ⟨hcallee, hvalue⟩ := expr_signed _ (depth + 1) hb hv.left
      exact ⟨(list_signed arguments depth hcallee hv.right).1, callResult_signed hvalue⟩
    · rename_i hmethod
      cases hmethod
  | .call callee (some name) arguments, hv =>
    simp only [exprVisits, if_neg hdeep] at hv
    simp only [inferExpr, if_neg hdeep]
    have harguments (b : Binder σ) (hb : b.Signed c)
        (hv : c.CoversAll (listVisits s arguments depth b)) := (list_signed arguments depth hb hv).1
    by_cases hdeep' : maxDepth < depth + 1
    · simp only [if_pos hdeep'] at hv ⊢
      exact ⟨harguments b hb hv, Inferred.signed_unknown⟩
    · simp only [if_neg hdeep'] at hv ⊢
      cases hpath : callee.path? with
      | some path =>
        rw [hpath] at hv
        obtain ⟨hcallee, hvalue⟩ := hb.inferPath (path ++ [name])
        exact ⟨harguments _ hcallee hv, callResult_signed hvalue⟩
      | none =>
        rw [hpath] at hv
        have hcallee := (expr_signed callee (depth + 2) hb hv.left).1
        have hname := (name_signed name (depth + 2) hcallee).1
        exact ⟨harguments _ hname hv.right, Inferred.signed_unknown⟩
  | .binary op _ left right, hv =>
    simp only [exprVisits, if_neg hdeep] at hv
    simp only [inferExpr, if_neg hdeep]
    obtain ⟨hleft, hleftValue⟩ := expr_signed left (depth + 1) hb hv.left
    obtain ⟨hright, hrightValue⟩ := expr_signed right (depth + 1) hleft hv.right
    refine ⟨hright, ?_⟩
    change Inferred.Signed c.signatures (ite _ _ _)
    split
    · exact binary_signed op hleftValue hrightValue
    · exact Inferred.signed_unknown
  | .unary op _ operand, hv =>
    simp only [exprVisits, if_neg hdeep] at hv
    simp only [inferExpr, if_neg hdeep]
    exact ⟨(expr_signed operand (depth + 1) hb hv).1, unary_signed _ op⟩

theorem list_signed : ∀ (es : List Expr) (depth : Nat) {b : Binder σ}, b.Signed c →
    c.CoversAll (listVisits s es depth b) →
    (inferList s es depth b).2.Signed c ∧
      ∀ value ∈ (inferList s es depth b).1, Inferred.Signed c.signatures value
  | [], _, _, hb, _ => ⟨hb, nofun⟩
  | e :: rest, depth, b, hb, hv => by
    have hcons (hv : c.CoversAll (exprVisits s e (depth + 1) b ++
        listVisits s rest depth (inferExpr s e (depth + 1) b).2)) :
        (inferList s rest depth (inferExpr s e (depth + 1) b).2).2.Signed c ∧
          ∀ value ∈ (inferExpr s e (depth + 1) b).1 ::
            (inferList s rest depth (inferExpr s e (depth + 1) b).2).1,
            Inferred.Signed c.signatures value := by
      obtain ⟨he, hvalue⟩ := expr_signed e (depth + 1) hb hv.left
      obtain ⟨hrest, hvalues⟩ := list_signed rest depth he hv.right
      exact ⟨hrest, List.forall_mem_cons.mpr ⟨hvalue, hvalues⟩⟩
    cases e <;> first | exact list_signed rest depth hb hv | exact hcons hv

theorem fields_signed : ∀ (fields : List Field) (depth : Nat) (members : Members) {b : Binder σ},
    b.Signed c → c.CoversAll (fieldVisits s fields depth b) →
    (inferFields s fields depth members b).2.Signed c
  | [], _, _, _, hb, _ => hb
  | .positional value :: rest, depth, members, b, hb, hv
  | .unnamed value :: rest, depth, members, b, hb, hv =>
    fields_signed rest depth members (expr_signed value (depth + 1) hb hv.left).1 hv.right
  | .computed key value :: rest, depth, members, b, hb, hv => by
    have hkey := (expr_signed key (depth + 1) hb hv.left).1
    have hvalue := (expr_signed value (depth + 1) hkey hv.right.left).1
    exact fields_signed rest depth members hvalue hv.right.right
  | .named comments span key value :: rest, depth, members, b, hb, hv => by
    obtain ⟨hvalue, hty⟩ := expr_signed value (depth + 1) hb hv.left
    refine fields_signed rest depth _ ?_ hv.right
    exact (hvalue.addMember (Binder.Signed.newSymbol _ key _ span hty false _)).adopt _

theorem setmetatable_signed : ∀ (arguments : List Expr) (depth : Nat) {b : Binder σ}, b.Signed c →
    c.CoversAll (setmetatableVisits s arguments depth b) →
    (inferSetmetatable s arguments depth b).2.Signed c ∧
      Inferred.Signed c.signatures (inferSetmetatable s arguments depth b).1
  | [], _, _, hb, _ => ⟨hb, Inferred.signed_unknown⟩
  | target :: rest, depth, b, hb, hv => by
    have hcons (hv : c.CoversAll (exprVisits s target (depth + 1) b ++
        metatableVisits s rest depth (inferExpr s target (depth + 1) b).2)) := by
      obtain ⟨htarget, hvalue⟩ := expr_signed target (depth + 1) hb hv.left
      obtain ⟨hrest, hprototype⟩ := metatable_signed rest depth htarget hv.right
      exact hrest.attachPrototype hvalue hprototype
    cases target <;> first | exact setmetatable_signed rest depth hb hv | exact hcons hv

theorem metatable_signed : ∀ (arguments : List Expr) (depth : Nat) {b : Binder σ}, b.Signed c →
    c.CoversAll (metatableVisits s arguments depth b) →
    (inferMetatable s arguments depth b).2.Signed c ∧
      ∀ proto, (inferMetatable s arguments depth b).1 = some proto →
        Link.Signed c.signatures proto.link
  | [], _, _, hb, _ => ⟨hb, nofun⟩
  | metatable :: rest, depth, b, hb, hv => by
    have hcons (hv : c.CoversAll (exprVisits s metatable (depth + 1) b ++
        listVisits s rest depth (inferExpr s metatable (depth + 1) b).2)) :
        (inferList s rest depth (inferExpr s metatable (depth + 1) b).2).2.Signed c ∧
          ∀ proto, (inferExpr s metatable (depth + 1) b).1.alias.map PrototypeOver.metatable =
            some proto → Link.Signed c.signatures proto.link := by
      obtain ⟨hmetatable, hvalue⟩ := expr_signed metatable (depth + 1) hb hv.left
      refine ⟨(list_signed rest depth hmetatable hv.right).1, fun proto hproto => ?_⟩
      obtain ⟨link, hlink, rfl⟩ := Option.map_eq_some_iff.mp hproto
      exact hvalue.alias link hlink
    cases metatable with
    | global => exact metatable_signed rest depth hb hv
    | table fields =>
      have hfields := fields_signed fields (depth + 1) [] hb hv.left
      refine ⟨(list_signed rest depth hfields hv.right).1, fun proto hproto => ?_⟩
      obtain ⟨id, -, rfl⟩ := Option.map_eq_some_iff.mp hproto
      exact nofun
    | _ => exact hcons hv

/-- Behind the body, the return type can be kept. -/
theorem body_signed : ∀ (body : FunctionBody) (isMethod : Bool) (container : Option Link)
    (symbol : Option SymbolId) (depth : Nat) {b : Binder σ}, b.Signed c →
    (∀ link, container = some link → Link.Signed c.signatures link) →
    c.CoversAll (bodyVisits s body isMethod container symbol depth b) →
    let v : FunctionVisit σ := ⟨body, isMethod, container, symbol, depth, b⟩
    c.Covers v ∧ (v.after s).Signed c ∧ Ty.Signed c.signatures (v.returned s)
  | .mk parameters block stop, isMethod, container, symbol, depth, b, hb, hcontainer, hv => by
    have hbody := block_signed block (depth + 1)
      (hb.enterFunction parameters stop isMethod hcontainer) fun v hmem => hv v (.tail _ hmem)
    have hleave := hbody.leaveFunction b.scope
    refine ⟨hv _ (.head _), ?_⟩
    dsimp only [FunctionVisit.after, FunctionVisit.returned, FunctionVisit.run]
    rw [inFunction_eq]
    exact hleave

theorem block_signed : ∀ (block : Option Block) (depth : Nat) {b : Binder σ}, b.Signed c →
    c.CoversAll (blockVisits s block depth b) → (visitBlock s block depth b).2.Signed c
  | none, _, _, hb, _ => hb
  | some (.mk _ statements), depth, b, hb, hv => by
    by_cases hdeep : maxDepth < depth
    · simp only [visitBlock, if_pos hdeep]
      exact hb
    · simp only [blockVisits, if_neg hdeep] at hv
      simp only [visitBlock, if_neg hdeep]
      exact statements_signed statements (depth + 1) hb hv

theorem scoped_signed (kind : ScopeKind) : ∀ (block : Option Block) (depth : Nat) {b : Binder σ},
    b.Signed c → c.CoversAll (scopedVisits s kind block depth b) →
    (visitScoped s kind block depth b).2.Signed c
  | none, _, _, hb, _ => hb
  | some (.mk span statements), depth, b, hb, hv => by
    have hscope := enterScope_signed hb kind span
    by_cases hdeep : maxDepth < depth + 1
    · simp only [visitScoped, if_pos hdeep]
      exact backTo_signed hscope b.scope
    · simp only [scopedVisits, if_neg hdeep] at hv
      simp only [visitScoped, if_neg hdeep]
      exact backTo_signed (statements_signed statements (depth + 2) hscope hv) b.scope

theorem statements_signed : ∀ (statements : List Statement) (depth : Nat) {b : Binder σ},
    b.Signed c → c.CoversAll (statementVisits s statements depth b) →
    (visitStatements s statements depth b).2.Signed c
  | [], _, _, hb, _ => hb
  | .mk comments span node :: rest, depth, b, hb, hv => by
    by_cases hfits : depth ≤ maxDepth
    · simp only [statementVisits, if_pos hfits] at hv
      simp only [visitStatements, if_pos hfits]
      exact statements_signed rest depth (statement_signed node span _ depth hb hv.left) hv.right
    · simp only [statementVisits, if_neg hfits] at hv
      simp only [visitStatements, if_neg hfits]
      exact statements_signed rest depth hb hv

theorem statement_signed : ∀ (node : StatementNode) (span : Span) (doc : Option String)
    (depth : Nat) {b : Binder σ}, b.Signed c → c.CoversAll (nodeVisits s node span doc depth b) →
    (visitStatement s node span doc depth b).2.Signed c
  | .empty, _, _, _, _, hb, _ | .label, _, _, _, _, hb, _ | .goto, _, _, _, _, hb, _
  | .break, _, _, _, _, hb, _ | .implicitGlobals none, _, _, _, _, hb, _
  | .return none, _, _, _, _, hb, _ => hb
  | .declare _ _ names none, span, doc, _, _, hb, _ =>
    Binder.Signed.declareLocals span doc _ hb nofun
  | .declare _ _ names (some values), span, doc, depth, _, hb, hv => by
    obtain ⟨hlist, hvalues⟩ := list_signed values depth hb hv
    exact Binder.Signed.declareLocals span doc _ hlist hvalues
  | .implicitGlobals (some (name, _)), _, _, depth, _, hb, _ => (name_signed name (depth + 2) hb).1
  | .assign targets values, span, doc, depth, _, hb, hv => by
    obtain ⟨hlist, hvalues⟩ := list_signed values depth hb hv.left
    exact targets_signed targets span doc depth hlist hvalues hv.right
  | .function reach name (.mk parameters block stop), span, doc, depth, b, hb, hv => by
    have hhead := hv _ (.head _)
    obtain ⟨hdeclared, hcontainer⟩ :=
      hb.declareFunction reach name span hhead.declared doc
    obtain ⟨hcovers, hafter, hreturned⟩ :=
      body_signed (.mk parameters block stop) name.method.isSome _ _ depth hdeclared hcontainer hv
    exact Binder.Signed.finishFunction hcovers hafter hreturned
  | .do none, _, _, _, _, hb, _ => hb
  | .do (some block), span, _, depth, b, hb, hv =>
    backTo_signed (block_signed (some block) (depth + 1) (enterScope_signed hb .block span) hv)
      b.scope
  | .while condition body, _, _, depth, b, hb, hv =>
    scoped_signed .loop body depth (expr_signed condition (depth + 1) hb hv.left).1 hv.right
  | .repeat body condition, span, _, depth, b, hb, hv => by
    have hbody := block_signed body (depth + 1) (enterScope_signed hb .loop span) hv.left
    exact backTo_signed (expr_signed condition (depth + 1) hbody hv.right).1 b.scope
  | .if condition body rest none, _, _, depth, b, hb, hv => by
    have hcondition := (expr_signed condition (depth + 1) hb hv.left).1
    have hbody := scoped_signed .block body depth hcondition hv.right.left
    exact elseIfs_signed rest depth hbody hv.right.right
  | .if condition body rest (some block), _, _, depth, b, hb, hv => by
    have hcondition := (expr_signed condition (depth + 1) hb hv.left).1
    have hbody := scoped_signed .block body depth hcondition hv.right.left
    have hrest := elseIfs_signed rest depth hbody hv.right.right.left
    exact scoped_signed .block block depth hrest hv.right.right.right
  | .numericFor counter start limit none body, span, _, depth, b, hb, hv => by
    have hstart := (expr_signed start (depth + 1) hb hv.left).1
    have hlimit := (expr_signed limit (depth + 1) hstart hv.right.left).1
    have hcounter := (enterScope_signed hlimit .loop span).declareCounter span .number
      trivial counter
    exact backTo_signed (block_signed body (depth + 1) hcounter hv.right.right) _
  | .numericFor counter start limit (some step) body, span, _, depth, b, hb, hv => by
    have hstart := (expr_signed start (depth + 1) hb hv.left).1
    have hlimit := (expr_signed limit (depth + 1) hstart hv.right.left).1
    have hstep := (expr_signed step (depth + 1) hlimit hv.right.right.left).1
    have hcounter := (enterScope_signed hstep .loop span).declareCounter span .number
      trivial counter
    exact backTo_signed (block_signed body (depth + 1) hcounter hv.right.right.right) _
  | .genericFor names values body, span, _, depth, b, hb, hv => by
    have hvalues := (list_signed values depth hb hv.left).1
    have hcounters := Binder.Signed.declareCounters span names (enterScope_signed hvalues .loop span)
    exact backTo_signed (block_signed body (depth + 1) hcounters hv.right) _
  | .return (some values), _, _, depth, b, hb, hv => by
    obtain ⟨hlist, hvalues⟩ := list_signed values depth hb hv
    change ((match (inferList s values depth b).1 with
      | first :: _ => modify (·.noteReturn first)
      | [] => pure () : Walk σ Unit) (inferList s values depth b).2).2.Signed c
    cases hfound : (inferList s values depth b).1 with
    | nil => exact hlist
    | cons first _ => exact hlist.noteReturn (hvalues first (hfound ▸ List.mem_cons_self))
  | .call call, _, _, depth, b, hb, hv => (expr_signed call (depth + 1) hb hv).1

theorem elseIfs_signed : ∀ (rest : List ElseIf) (depth : Nat) {b : Binder σ}, b.Signed c →
    c.CoversAll (elseIfVisits s rest depth b) → (visitElseIfs s rest depth b).2.Signed c
  | [], _, _, hb, _ => hb
  | .mk condition body :: rest, depth, b, hb, hv => by
    have hcondition := (expr_signed condition (depth + 1) hb hv.left).1
    have hbody := scoped_signed .block body depth hcondition hv.right.left
    exact elseIfs_signed rest depth hbody hv.right.right

theorem targets_signed : ∀ (targets : List Expr) {values : List Inferred} (span : Span)
    (doc : Option String) (depth : Nat) {b : Binder σ}, b.Signed c →
    (∀ value ∈ values, Inferred.Signed c.signatures value) →
    c.CoversAll (targetVisits s targets values span doc depth b) →
    (assignTargets s targets values span doc depth b).2.Signed c
  | [], _, _, _, _, _, hb, _, _ => hb
  | target :: rest, values, span, doc, depth, b, hb, hvalues, hv => by
    have htail : ∀ value ∈ values.tail, Inferred.Signed c.signatures value := fun value hvalue =>
      hvalues value (List.mem_of_mem_tail hvalue)
    have hhead : Inferred.Signed c.signatures (values.headD {}) := by
      cases values with
      | nil => exact Inferred.signed_unknown
      | cons value _ => exact hvalues value List.mem_cons_self
    have hother (hv : c.CoversAll (exprVisits s target (depth + 1) b ++
        targetVisits s rest values.tail span doc depth (inferExpr s target (depth + 1) b).2)) :=
      targets_signed rest span doc depth (expr_signed target (depth + 1) hb hv.left).1 htail hv.right
    cases target with
    | global => exact targets_signed rest span doc depth hb hvalues hv
    | name ident =>
      exact targets_signed rest span doc depth (hb.assignName ident span hhead doc) htail hv
    | field base key =>
      cases hpath : base.path? with
      | some path =>
        simp only [targetVisits, hpath] at hv
        simp only [assignTargets, hpath]
        have hdefined := hb.defineMember (path ++ [key]) (.ofTy (values.headD {}).ty .field) span
          hhead doc
        exact targets_signed rest span doc depth hdefined.1 htail hv
      | none =>
        simp only [targetVisits, hpath] at hv
        simp only [assignTargets, hpath]
        exact targets_signed rest span doc depth (expr_signed base (depth + 1) hb hv.left).1 htail
          hv.right
    | _ => exact hother hv

end

end Walk

/-! ## The finished index -/

/-- Signatures that come up in a walk which enters these functions: those of modules, that of a
function with and without its return type, and one that takes the return type of a function whose
symbol has it by then. -/
inductive Library.Found {s : Setting σ} (library : Library s.loader)
    (visits : List (FunctionVisit σ)) : List String → Ty → Bool → Prop where
  | foreign {params returns isMethod} : library.holds params returns isMethod →
      Found library visits params returns isMethod
  | declared {v} : v ∈ visits → Found library visits v.params .unknown v.isMethod
  | whole {v} : v ∈ visits → Found library visits v.params (v.returned s) v.isMethod
  | torn {v params returns isMethod} : v ∈ visits → ¬v.Intact s →
      Found library visits params returns isMethod →
      Found library visits params (v.returned s) isMethod

namespace Library.Found

variable {s : Setting σ} {library : Library s.loader} {visits : List (FunctionVisit σ)}
  {params : List String} {returns : Ty} {isMethod : Bool}

/-- The parameters and the flag are those of one function, whatever it returns. -/
theorem head (h : library.Found visits params returns isMethod) :
    (∃ returns', library.holds params returns' isMethod) ∨
      ∃ v ∈ visits, params = v.params ∧ isMethod = v.isMethod := by
  induction h with
  | foreign h => exact .inl ⟨_, h⟩
  | declared hv | whole hv => exact .inr ⟨_, hv, rfl, rfl⟩
  | torn _ _ _ ih => exact ih

/-- The return type is that of the function with these parameters, if no function has lost its
signature. -/
theorem known (h : library.Found visits params returns isMethod)
    (hknown : returns.isUnknown = false) :
    library.holds params returns isMethod ∨
      (∃ v ∈ visits, params = v.params ∧ returns = v.returned s ∧ isMethod = v.isMethod) ∨
      ((∃ v ∈ visits, ¬v.Intact s ∧ returns = v.returned s) ∧
        ((∃ returns', library.holds params returns' isMethod) ∨
          ∃ w ∈ visits, params = w.params ∧ isMethod = w.isMethod)) := by
  cases h with
  | foreign h => exact .inl h
  | declared => cases hknown
  | whole hv => exact .inr (.inl ⟨_, hv, rfl, rfl, rfl⟩)
  | torn hv htorn h => exact .inr (.inr ⟨⟨_, hv, htorn, rfl⟩, h.head⟩)

end Library.Found

def Library.signing {s : Setting σ} (library : Library s.loader) (visits : List (FunctionVisit σ)) :
    Signing s := ⟨library, library.Found visits, fun _ _ _ => .foreign⟩

theorem Library.covers_signing {s : Setting σ} (library : Library s.loader)
    (visits : List (FunctionVisit σ)) : (library.signing visits).CoversAll visits :=
  fun _ hv => ⟨.declared hv, .whole hv, fun htorn _ _ _ h => .torn hv htorn h⟩

/-- What a build holds is signed by what its walk has found. -/
theorem Index.build_signed {loader : Loader σ} (library : Library loader) {text : String}
    {chunk : Chunk} (htext : Chunk.ofChars? text.toList = some chunk) {world : σ}
    (hworld : library.world world) (document : DocumentId) (revision : Revision)
    (options : ParserOptions) :
    let s : Setting σ := ⟨.ofString text, document, options.allowDefined, loader⟩
    (Index.build document revision text options loader world).1.Signed
      (Library.signing (s := s) library (chunk.visits s world)).signatures := by
  intro s
  obtain ⟨htable, -, hexports⟩ := Index.build_walked htext document revision options loader world
  have hstart : (Binder.start s.source world).Signed
      (Library.signing (s := s) library (chunk.visits s world)) :=
    ⟨nofun, fun _ hvalue => (nomatch List.mem_singleton.mp hvalue), hworld⟩
  have hwalked := Walk.statements_signed chunk.statements 1 hstart
    (Library.covers_signing (s := s) library _)
  constructor
  · rw [htable]
    exact hwalked.table
  · rw [hexports]
    exact hwalked.exports

/--
A symbol that is a function with a known return type has the parameters, the flag and the return
type of one function: a function of a module, or one of the chunk. Otherwise the return type is that
of a function whose declared symbol had the signature of another one when the body was done.
-/
theorem Index.signature_of_build {loader : Loader σ} (library : Library loader) {text : String}
    {chunk : Chunk} (htext : Chunk.ofChars? text.toList = some chunk) {world : σ}
    (hworld : library.world world) (document : DocumentId) (revision : Revision)
    (options : ParserOptions) :
    let s : Setting σ := ⟨.ofString text, document, options.allowDefined, loader⟩
    let visits : List (FunctionVisit σ) := chunk.visits s world
    (visits.map FunctionVisit.body).Sublist chunk.functions ∧
      ∀ id x params returns isMethod,
        (Index.build document revision text options loader world).1.symbol? id = some x →
        x.ty = .function params returns isMethod → returns.isUnknown = false →
        library.holds params returns isMethod ∨
        (∃ v ∈ visits, params = v.params ∧ returns = v.returned s ∧ isMethod = v.isMethod) ∨
        ((∃ v ∈ visits, ¬v.Intact s ∧ returns = v.returned s) ∧
          ((∃ returns', library.holds params returns' isMethod) ∨
            ∃ w ∈ visits, params = w.params ∧ isMethod = w.isMethod)) := by
  intro s visits
  refine ⟨(chunk.visits_enter s world).sublist, fun id x params returns isMethod hx hty hknown => ?_⟩
  have hsigned := (Index.build_signed library htext hworld document revision options).table id x hx
  have hholds := hsigned.ty
  rw [hty] at hholds
  exact Library.Found.known hholds.1 hknown

/-- The same signatures, and what they become where their values are kept in another document. -/
def Signatures.anchored (S : Signatures) : Signatures where
  module := S.module
  holds params returns isMethod :=
    ∃ kept, S.holds params kept isMethod ∧ (returns = kept ∨ ∃ o, returns = kept.rebased o)

/-- Modules that have some signatures, and lead into no others, make a library. -/
def Library.ofModules (loader : Loader σ) (S : Signatures) (signed : ∀ o, S.module o → o.Signed S)
    (answers : ∀ name w o, (loader name w).1 = some o → S.module o) : Library loader where
  toSignatures := S.anchored
  world _ := True
  signed o ho := (signed o ho).mono S.anchored (fun _ => id) fun _ kept _ h => ⟨kept, h, .inl rfl⟩
  rebased o params returns isMethod := by
    rintro ⟨kept, hkept, rfl | ⟨o', rfl⟩⟩
    · exact ⟨returns, hkept, .inr ⟨o, rfl⟩⟩
    · exact ⟨kept, hkept, .inr ⟨o', TyOver.rebased_rebased o' o kept⟩⟩
  loads name w _ := ⟨trivial, answers name w⟩

def Library.none : Library Loader.none := .ofModules _ ⟨fun _ => False, fun _ _ _ => False⟩ nofun nofun

/-- Numbers, strings and functions over them are told apart by computation; indexes are not. -/
def TyOver.agrees {ρ : Type} : TyOver ρ → TyOver ρ → Bool
  | .number, .number | .string, .string => true
  | .function params returns isMethod, .function params' returns' isMethod' =>
    params == params' && returns.agrees returns' && isMethod == isMethod'
  | _, _ => false

theorem TyOver.eq_of_agrees {ρ : Type} : ∀ {ty ty' : TyOver ρ}, ty.agrees ty' = true → ty = ty' := by
  intro ty ty' h
  fun_induction TyOver.agrees ty ty' with
  | case1 | case2 => rfl
  | case3 params returns isMethod params' returns' isMethod' ih =>
    simp only [Bool.and_eq_true, beq_iff_eq] at h
    obtain ⟨⟨hparams, hreturns⟩, hmethod⟩ := h
    rw [hparams, ih hreturns, hmethod]
  | case4 => cases h

/-- A module with one function. -/
def Index.giver : Index := .buildAlone ⟨"m"⟩ 1 "local function f(a) return 1 end return {f = f}" {}

theorem Index.giver_signed : ∃ P, Index.giver.Signed ⟨fun _ => False, P⟩ := by
  have hparsed : (Chunk.ofChars? "local function f(a) return 1 end return {f = f}".toList).isSome =
      true := by decide +kernel
  obtain ⟨chunk, htext⟩ := Option.isSome_iff_exists.mp hparsed
  have hworld : Library.none.world () := trivial
  exact ⟨_, Index.build_signed Library.none htext hworld ⟨"m"⟩ 1 {}⟩

/-- A function of a module, and what a document knows of it that requires the module. -/
theorem Index.signature_of_required :
    let loader : Loader Unit := fun _ w => (some Index.giver, w)
    let text := "local m = require('m') local g = m.f function h(x) return 's' end"
    let s : Setting Unit := ⟨.ofString text, ⟨"a"⟩, false, loader⟩
    ∃ (library : Library loader) (chunk : Chunk), Chunk.ofChars? text.toList = some chunk ∧
      library.world () ∧
      ∃ x, (Index.build ⟨"a"⟩ 1 text {} loader ()).1.symbol? 1 = some x ∧
        x.ty = .function ["a"] .number false ∧ TyOver.isUnknown (.number : Ty) = false ∧
        (library.holds ["a"] .number false ∨
          (∃ v ∈ chunk.visits s (), ["a"] = v.params ∧ .number = v.returned s ∧ false = v.isMethod) ∨
          ((∃ v ∈ chunk.visits s (), ¬v.Intact s ∧ .number = v.returned s) ∧
            ((∃ returns', library.holds ["a"] returns' false) ∨
              ∃ w ∈ chunk.visits s (), ["a"] = w.params ∧ false = w.isMethod))) := by
  intro loader text s
  have hparsed : (Chunk.ofChars? text.toList).isSome = true := by decide +kernel
  have hfound : (((Index.build ⟨"a"⟩ 1 text {} loader ()).1.symbol? 1).any fun x =>
      x.ty.agrees (.function ["a"] .number false)) = true := by decide +kernel
  obtain ⟨chunk, htext⟩ := Option.isSome_iff_exists.mp hparsed
  obtain ⟨P, hsigned⟩ := Index.giver_signed
  let S : Signatures := ⟨(· = Index.giver), P⟩
  have hmodules : ∀ o, S.module o → o.Signed S := by
    intro o ho
    have ho : o = Index.giver := ho
    rw [ho]
    exact hsigned.mono S (fun _ h => h.elim) fun _ _ _ h => h
  have hanswers : ∀ name w o, (loader name w).1 = some o → S.module o := fun _ _ _ ho =>
    (Option.some.inj ho).symm
  let library : Library loader := .ofModules loader S hmodules hanswers
  have hworld : library.world () := trivial
  obtain ⟨x, hx, hagrees⟩ := Option.any_eq_true _ _ |>.mp hfound
  have hty := TyOver.eq_of_agrees hagrees
  exact ⟨library, chunk, htext, hworld, x, hx, hty, rfl,
    (Index.signature_of_build library htext hworld ⟨"a"⟩ 1 {}).2 1 x _ _ _ hx hty rfl⟩

/-- The parameters are those of the first declaration, the return type is that of the second. -/
theorem Index.signature_torn_of_redeclaration :
    ¬ ∀ (text : String) (chunk : Chunk), Chunk.ofChars? text.toList = some chunk →
      let s : Setting Unit := ⟨.ofString text, ⟨"a"⟩, false, Loader.none⟩
      ∀ id x params returns isMethod,
        (Index.buildAlone ⟨"a"⟩ 1 text {}).symbol? id = some x →
        x.ty = .function params returns isMethod → returns.isUnknown = false →
        ∃ v ∈ chunk.visits s (), params = v.params ∧ returns = v.returned s ∧ isMethod = v.isMethod := by
  intro hall
  let text := "local M = {} function M.f(a) return 1 end function M.f(b, c) return \"s\" end"
  let s : Setting Unit := ⟨.ofString text, ⟨"a"⟩, false, Loader.none⟩
  have hparsed : (Chunk.ofChars? text.toList).isSome = true := by decide +kernel
  have htorn : (((Index.buildAlone ⟨"a"⟩ 1 text {}).symbol? 1).any fun x =>
      x.ty.agrees (.function ["a"] .string false)) = true := by decide +kernel
  have hone : ∀ chunk ∈ Chunk.ofChars? text.toList, ∀ v ∈ chunk.visits s (),
      ["a"] = v.params → (v.returned s).describe = "number" := by decide +kernel
  obtain ⟨chunk, htext⟩ := Option.isSome_iff_exists.mp hparsed
  obtain ⟨x, hx, hagrees⟩ := Option.any_eq_true _ _ |>.mp htorn
  have hty := TyOver.eq_of_agrees hagrees
  obtain ⟨v, hv, hparams, hreturned, -⟩ := hall text chunk htext 1 x _ _ _ hx hty rfl
  have hdescribe := hone chunk htext v hv hparams
  rw [← hreturned] at hdescribe
  exact absurd hdescribe (by decide)

end LuaScope

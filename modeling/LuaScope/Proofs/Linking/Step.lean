import LuaScope.Proofs.Linking.Follow
import LuaScope.Proofs.Linking.Table
import LuaScope.Proofs.Binding.Spot

/-!
# LuaScope.Proofs.Linking.Step

Every step of the walk keeps its state sound: the table is safe, the values that functions return so
far are, and each reference and each symbol stands for a path that is written in the text. What a
reference leads to has the name that ends its path.
-/

namespace LuaScope

variable {σ : Type}

/-- What a walk relies on. -/
structure Regime (σ : Type) where
  setting : Setting σ
  demand : Demand
  /-- The paths that the text holds. -/
  written : List Ident → Prop
  /-- The states that the loader can be in. -/
  world : σ → Prop
  met : demand.Met
  front : ∀ {front behind}, written (front ++ behind) → front ≠ [] → written front
  spelled : ∀ {path}, written path → ∀ segment ∈ path, Spelled segment.name
  loads : ∀ name {w}, world w → world (setting.loader name w).2 ∧
    ∀ o, (setting.loader name w).1 = some o → demand.strict → demand.holds o

/-- The name ends a path that is written. -/
def Regime.Ends (c : Regime σ) (last : Ident) : Prop :=
  ∃ path, c.written path ∧ path.getLast? = some last

theorem Regime.Ends.spelled {c : Regime σ} {last : Ident} (h : c.Ends last) :
    Spelled last.name := by
  obtain ⟨path, hwritten, hlast⟩ := h
  exact c.spelled hwritten last (List.mem_of_getLast? hlast)

/-- The value can be kept in the table. -/
structure Inferred.SafeIn (D : Demand) (t : SymbolTable) (value : Inferred) : Prop where
  ty : Ty.SafeIn D t value.ty
  «alias» : ∀ link, value.alias = some link → Link.SafeIn D t link

/-- The reference stands for the end of this path, and leads to a symbol of that name. -/
structure Reference.Records (c : Regime σ) (t : SymbolTable) (r : Reference) (path : List Ident)
    (first last : Ident) : Prop where
  written : c.written path
  head : path.head? = some first
  getLast : path.getLast? = some last
  span : r.span = last.span
  range : r.range = c.setting.range last.span
  text : r.text = c.setting.pathText first last
  anchor : r.anchor = first.span.start
  target : ∀ link, r.target = some link → Link.Names c.demand t link last.name

/-- The symbol has a name that is written, or it is the implied `self` and covers no text. -/
def Symbol.Declared (c : Regime σ) (x : Symbol) : Prop :=
  (x.name = "self" ∧ x.span.isEmpty = true) ∨
    ∃ last, c.Ends last ∧ x.name = last.name ∧ x.span = last.span ∧
      x.range = c.setting.range last.span

structure Binder.Sound (c : Regime σ) (b : Binder σ) : Prop where
  table : SymbolTable.Safe c.demand b.table
  scope : b.scope < b.table.scopes.size
  world : c.world b.world
  declared : ∀ {id x}, b.table.symbol? id = some x → Symbol.Declared c x
  references : ∀ r ∈ b.references, r.scope < b.table.scopes.size ∧
    ∃ path first last, Reference.Records c b.table r path first last
  returns : ∀ value, some value ∈ b.returns → Inferred.SafeIn c.demand b.table value

/-- The step has kept the state sound, and let its table grow. -/
structure Binder.Grows (c : Regime σ) (b b' : Binder σ) : Prop where
  sound : b'.Sound c
  table : b.table.Extends b'.table

variable {c : Regime σ}

theorem Inferred.SafeIn.mono {D : Demand} {t t' : SymbolTable} {value : Inferred}
    (h : value.SafeIn D t) (hextends : t.Extends t') : value.SafeIn D t' :=
  ⟨h.ty.mono hextends, fun link hlink => (h.alias link hlink).mono hextends⟩

theorem Inferred.safeIn_unknown (D : Demand) (t : SymbolTable) : Inferred.SafeIn D t {} :=
  ⟨trivial, fun _ h => (by cases h)⟩

/-- A value without members that is no path. -/
theorem Inferred.safeIn_ty {D : Demand} {t : SymbolTable} {ty : Ty} (h : Ty.SafeIn D t ty) :
    Inferred.SafeIn D t { ty := ty } := ⟨h, fun _ h => (by cases h)⟩

theorem Reference.Records.mono {t t' : SymbolTable} {r : Reference} {path : List Ident}
    {first last : Ident} (h : r.Records c t path first last) (hextends : t.Extends t') :
    r.Records c t' path first last :=
  { h with target := fun link hlink => (h.target link hlink).mono hextends }

theorem Symbol.Declared.keeps {f : Symbol → Symbol} (hf : SymbolOver.Keeps f) {x : Symbol}
    (h : x.Declared c) : Symbol.Declared c (f x) := by
  unfold Symbol.Declared
  rw [hf.span, hf.name, hf.range]
  exact h

namespace Binder

variable {b b' b'' : Binder σ}

namespace Grows

theorem refl (h : b.Sound c) : Grows c b b := ⟨h, .refl _⟩

theorem trans (h : Grows c b b') (h' : Grows c b' b'') : Grows c b b'' :=
  ⟨h'.sound, h.table.trans h'.table⟩

end Grows

namespace Sound

/-- The table is changed into one that is safe as well. -/
theorem withTable (h : b.Sound c) {t : SymbolTable} (ht : SymbolTable.Safe c.demand t)
    (hextends : b.table.Extends t)
    (hdeclared : ∀ {id x}, t.symbol? id = some x → Symbol.Declared c x) :
    Grows c b { b with table := t } where
  sound :=
    { table := ht
      scope := Nat.lt_of_lt_of_le h.scope hextends.scopes
      world := h.world
      declared := hdeclared
      references := fun r hr => by
        obtain ⟨hscope, path, first, last, hrecords⟩ := h.references r hr
        exact ⟨Nat.lt_of_lt_of_le hscope hextends.scopes, path, first, last, hrecords.mono hextends⟩
      returns := fun value hvalue => (h.returns value hvalue).mono hextends }
  table := hextends

theorem modifySymbol (h : b.Sound c) (id : SymbolId) {f : Symbol → Symbol} (hf : SymbolOver.Keeps f)
    (hsafe : ∀ x, b.table.symbol? id = some x → Symbol.SafeIn c.demand b.table (f x)) :
    Grows c b (b.modifySymbol id f) := by
  refine h.withTable (h.table.modifySymbol hf hsafe) (SymbolTableOver.extends_modifySymbol hf id)
    fun {id' x} hx => ?_
  rw [SymbolTableOver.symbol?_modifySymbol] at hx
  split at hx
  · obtain ⟨y, hy, rfl⟩ := Option.map_eq_some_iff.mp hx
    exact (h.declared hy).keeps hf
  · exact h.declared hx

theorem declared_of_push (h : b.Sound c) {t : SymbolTable} {x : Symbol} (hx : x.Declared c)
    (ht : t.symbols = b.table.symbols.push x) {id : SymbolId} {y : Symbol}
    (hy : t.symbol? id = some y) : Symbol.Declared c y := by
  rw [SymbolTableOver.symbol?, ht, Array.getElem?_push] at hy
  split at hy
  · cases hy
    exact hx
  · exact h.declared hy

theorem addMember (h : b.Sound c) {x : Symbol} (hx : Symbol.SafeIn c.demand b.table x)
    (hdeclared : x.Declared c) : Grows c b (b.addMember x) :=
  h.withTable (h.table.addMember hx).1 (h.table.addMember hx).2 (h.declared_of_push hdeclared rfl)

theorem declare (h : b.Sound c) {x : Symbol} (hx : Symbol.SafeIn c.demand b.table x)
    (hid : x.id = b.table.nextSymbolId) (hdeclared : x.Declared c) : Grows c b (b.declare x) :=
  h.withTable (h.table.declare hx hid).1 (h.table.declare hx hid).2
    (h.declared_of_push hdeclared rfl)

theorem enterScope (h : b.Sound c) (kind : ScopeKind) (span : Span) :
    Grows c b (b.enterScope kind span) := by
  obtain ⟨hsafe, hextends, hnext⟩ := h.table.addScope h.scope kind span
  have hgrows := h.withTable hsafe hextends h.declared
  exact ⟨{ hgrows.sound with scope := hnext }, hextends⟩

theorem backTo (h : b.Sound c) {scope : ScopeId} (hscope : scope < b.table.scopes.size) :
    Grows c b (b.backTo scope) := ⟨{ h with scope := hscope }, .refl _⟩

theorem pushFrame (h : b.Sound c) : Grows c b b.pushFrame := by
  refine ⟨{ h with returns := fun value hvalue => ?_ }, .refl _⟩
  rcases List.mem_cons.mp hvalue with hvalue | hvalue
  · cases hvalue
  · exact h.returns value hvalue

theorem popFrame (h : b.Sound c) :
    Grows c b b.popFrame.2 ∧ Ty.SafeIn c.demand b.popFrame.2.table b.popFrame.1 := by
  unfold Binder.popFrame
  split
  · exact ⟨.refl h, trivial⟩
  · rename_i frame rest hreturns
    have hvalues : ∀ value, some value ∈ frame :: rest → Inferred.SafeIn c.demand b.table value :=
      hreturns ▸ h.returns
    refine ⟨⟨{ h with returns := fun value hvalue => ?_ }, .refl _⟩, ?_⟩
    · exact hvalues value (List.mem_cons_of_mem _ hvalue)
    · cases frame with
      | none => trivial
      | some value => exact (hvalues value List.mem_cons_self).ty

theorem noteReturn (h : b.Sound c) {value : Inferred} (hvalue : value.SafeIn c.demand b.table) :
    Grows c b (b.noteReturn value) := by
  unfold Binder.noteReturn
  split
  · exact .refl h
  · rename_i frame rest hreturns
    dsimp only
    have hnoted : Grows c b { b with returns := some value :: rest } := by
      refine ⟨{ h with returns := fun value' hmem => ?_ }, .refl _⟩
      rcases List.mem_cons.mp hmem with heq | hmem
      · cases heq
        exact hvalue
      · exact h.returns value' (hreturns ▸ List.mem_cons_of_mem _ hmem)
    cases frame with
    | none => exact hnoted
    | some earlier =>
      dsimp only
      split
      · exact .refl h
      · exact hnoted

/-! ## References -/

theorem record (h : b.Sound c) {path : List Ident} {first last : Ident} {target : Option Link}
    (hwritten : c.written path) (hfirst : path.head? = some first)
    (hlast : path.getLast? = some last)
    (htarget : ∀ link, target = some link → Link.Names c.demand b.table link last.name) :
    Grows c b (b.record c.setting first last target) := by
  refine ⟨{ h with references := fun r hr => ?_ }, .refl _⟩
  rcases Array.mem_push.mp hr with hr | rfl
  · exact h.references r hr
  · exact ⟨h.scope, path, first, last, hwritten, hfirst, hlast, rfl, rfl, rfl, rfl, htarget⟩

/-- Each of these segments is the name of what the link beside it leads to. -/
def Named (D : Demand) (t : SymbolTable) (segments : List Ident) (links : List (Option Link)) :
    Prop :=
  ∀ (k : Nat) (segment : Ident) (link : Link), segments[k]? = some segment →
    links[k]? = some (some link) → Link.Names D t link segment.name

namespace Named

variable {D : Demand} {t : SymbolTable} {segment : Ident} {segments : List Ident}
  {link? : Option Link} {link : Link} {links : List (Option Link)}

theorem cons (hlink : ∀ link, link? = some link → Link.Names D t link segment.name)
    (h : Named D t segments links) : Named D t (segment :: segments) (link? :: links) := by
  intro k segment' link hsegment hlink'
  cases k with
  | zero =>
    cases hsegment
    exact hlink link (Option.some.inj hlink')
  | succ k => exact h k segment' link hsegment hlink'

theorem head (h : Named D t (segment :: segments) (link? :: links)) :
    ∀ link, link? = some link → Link.Names D t link segment.name :=
  fun link hlink => h 0 segment link rfl (congrArg some hlink)

theorem tail (h : Named D t (segment :: segments) (link? :: links)) : Named D t segments links :=
  fun k => h (k + 1)

theorem dropLast (h : Named D t segments links) : Named D t segments links.dropLast := by
  intro k segment link hsegment hlink
  rw [List.getElem?_dropLast] at hlink
  split at hlink
  · exact h k segment link hsegment hlink
  · cases hlink

theorem getLast (h : Named D t segments links) (hlength : links.length = segments.length)
    (hlast : segments.getLast? = some segment) (hlink : links.getLast? = some (some link)) :
    Link.Names D t link segment.name := by
  rw [List.getLast?_eq_getElem?] at hlast hlink
  rw [hlength] at hlink
  exact h _ _ _ hlast hlink

theorem safeIn (h : Named D t segments links) (hlength : links.length = segments.length)
    (hlink : some link ∈ links) : Link.SafeIn D t link := by
  obtain ⟨k, hk⟩ := List.mem_iff_getElem?.mp hlink
  have hlt := (List.getElem?_eq_some_iff.mp hk).1
  exact (h _ _ _ (List.getElem?_eq_getElem (hlength ▸ hlt)) hk).safeIn

end Named

theorem recordAll {first : Ident} :
    ∀ {front segments : List Ident} {links : List (Option Link)} {b : Binder σ}, b.Sound c →
      c.written (front ++ segments) → (front ++ segments).head? = some first →
      Named c.demand b.table segments links →
      Grows c b (Binder.recordAll c.setting first segments links b)
  | _, [], _, b, hb, _, _, _ => .refl hb
  | _, _ :: _, [], b, hb, _, _, _ => .refl hb
  | front, segment :: segments, link? :: links, b, hb, hwritten, hfirst, hnamed => by
    rw [List.append_cons] at hwritten hfirst
    have hfront : c.written (front ++ [segment]) := c.front hwritten (by simp)
    have hhead : (front ++ [segment]).head? = some first := by
      rw [← hfirst]
      cases front <;> rfl
    have hrecord := hb.record hfront hhead List.getLast?_concat hnamed.head
    exact hrecord.trans (recordAll hrecord.sound hwritten hfirst hnamed.tail)

/-- The segments of a whole path are recorded. -/
theorem recordPath {first : Ident} (h : b.Sound c) {path : List Ident}
    {links : List (Option Link)} (hwritten : c.written path) (hfirst : path.head? = some first)
    (hnamed : Named c.demand b.table path links) :
    Grows c b (Binder.recordAll c.setting first path links b) :=
  recordAll h (List.nil_append path ▸ hwritten) (List.nil_append path ▸ hfirst) hnamed

theorem named_walkFrom {D : Demand} {t : SymbolTable} (hD : D.Met) (ht : SymbolTable.Safe D t) :
    ∀ {at? : Option Located} {segments : List Ident}, (∀ l, at? = some l → l.Stands D t) →
      Named D t segments (walkFrom at? segments)
  | _, [], _ => fun _ _ _ hsegment _ => (by cases hsegment)
  | at?, segment :: segments, hat => by
    have hnext : ∀ m, at?.bind (·.extendedMember segment.name) = some m →
        m.Found D t segment.name := by
      intro m hm
      obtain ⟨l, hl, hm⟩ := Option.bind_eq_some_iff.mp hm
      exact (hat l hl).extendedMember hD ht hm
    refine .cons (fun link hlink => ?_) (named_walkFrom hD ht fun l hl => (hnext l hl).stands)
    obtain ⟨m, hm, rfl⟩ := Option.map_eq_some_iff.mp hlink
    exact (hnext m hm).names

/-- A path leads to symbols of the names that are its segments. -/
theorem named_walkPath (h : b.Sound c) (path : List Ident) :
    Named c.demand b.table path (b.walkPath path) := by
  cases path with
  | nil => exact fun _ _ _ hsegment _ => (by cases hsegment)
  | cons first rest =>
    have hroot : ∀ l, (b.table.lookup b.scope first.name first.span.start).map b.home.locate =
        some l → l.Found c.demand b.table first.name := by
      intro l hl
      obtain ⟨id, hid, rfl⟩ := Option.map_eq_some_iff.mp hl
      exact Located.found_here (h.table.names_of_lookup hid)
    refine .cons (fun link hlink => ?_)
      (named_walkFrom c.met h.table fun l hl => (hroot l hl).stands)
    obtain ⟨l, hl, rfl⟩ := Option.map_eq_some_iff.mp hlink
    exact (hroot l hl).names

/-- The value behind a link, as it may be kept in this document. -/
theorem safeIn_valueType (h : b.Sound c) {link : Link}
    (hlink : Link.SafeIn c.demand b.table link) :
    Ty.SafeIn c.demand b.table (b.home.follow link).valueType :=
  (Located.Stands.ofLink hlink).valueType c.met h.table

/-- The value of a path. -/
theorem inferPath (h : b.Sound c) {path : List Ident}
    (hwritten : c.written path) :
    Grows c b (b.inferPath c.setting path).2 ∧
      Inferred.SafeIn c.demand (b.inferPath c.setting path).2.table
        (b.inferPath c.setting path).1 := by
  cases path with
  | nil => exact ⟨.refl h, Inferred.safeIn_unknown _ _⟩
  | cons first rest =>
    have hnamed := h.named_walkPath (first :: rest)
    have hrecord := recordPath h hwritten rfl hnamed
    simp only [Binder.inferPath]
    split
    · rename_i link hlink
      have hsafe : Link.SafeIn c.demand _ link :=
        (hnamed.safeIn (b.length_walkPath _) (List.mem_of_getLast? hlink)).mono hrecord.table
      refine ⟨hrecord, hrecord.sound.safeIn_valueType hsafe, fun link' hlink' => ?_⟩
      cases hlink'
      exact hsafe
    · exact ⟨hrecord, Inferred.safeIn_unknown _ _⟩

/-! ## Types of symbols -/

theorem adoptMembers (h : b.Sound c) {owner : SymbolId} (howner : owner < b.table.symbols.size) :
    Grows c b (b.adoptMembers owner) := by
  have hfold : ∀ (members : Members) {b : Binder σ}, b.Sound c → owner < b.table.symbols.size →
      Grows c b (members.foldl (fun b member => b.modifySymbol member.2 (ownedBy owner)) b) := by
    intro members
    induction members with
    | nil => exact fun hb _ => .refl hb
    | cons member members ih =>
      intro b hb howner
      have hstep := hb.modifySymbol member.2 (keeps_ownedBy owner) fun x hx => by
        have hsafe := hb.table.symbols hx
        unfold ownedBy
        split
        · exact { hsafe with container := fun id hid => by cases hid; exact howner }
        · exact hsafe
      exact hstep.trans (ih hstep.sound (hstep.table.lt howner))
  unfold Binder.adoptMembers
  split
  · split
    · exact .refl h
    · exact hfold _ h howner
  · exact .refl h

theorem refine (h : b.Sound c) {id : SymbolId} {value : Inferred} (hid : id < b.table.symbols.size)
    (hvalue : value.SafeIn c.demand b.table) : Grows c b (b.refine id value) := by
  unfold Binder.refine
  split
  · exact .refl h
  · have hstep := h.modifySymbol id (keeps_refined value) fun x hx => by
      have hsafe := h.table.symbols hx
      refine { hsafe with ty := hvalue.ty, «alias» := fun link hlink => ?_ }
      unfold refined at hlink
      dsimp only at hlink
      split at hlink
      · exact hvalue.alias link hlink
      · exact hsafe.alias link hlink
    exact hstep.trans (hstep.sound.adoptMembers (hstep.table.lt hid))

theorem finishFunction (h : b.Sound c) (id? : Option SymbolId) {returns : Ty}
    (hreturns : Ty.SafeIn c.demand b.table returns) : Grows c b (b.finishFunction id? returns) := by
  cases id? with
  | none => exact .refl h
  | some id =>
    refine h.modifySymbol id (keeps_withReturns returns) fun x hx => ?_
    have hsafe := h.table.symbols hx
    unfold withReturns
    split
    · exact { hsafe with ty := hreturns }
    · exact hsafe

/-! ## Declarations -/

theorem safeIn_newSymbol (h : b.Sound c) {name : Ident} (hname : c.Ends name) {value : Inferred}
    (hvalue : value.SafeIn c.demand b.table) (kind : SymbolKind) (statement : Span)
    (isLocal : Bool) (doc : Option String) :
    Symbol.SafeIn c.demand b.table
      (newSymbol c.setting b name kind statement value isLocal doc) where
  name := hname.spelled
  ty := hvalue.ty
  «alias» := hvalue.alias
  container _ hid := by cases hid
  scope := h.scope

theorem declared_newSymbol {name : Ident} (hname : c.Ends name) (b : Binder σ) (kind : SymbolKind)
    (statement : Span) (value : Inferred) (isLocal : Bool) (doc : Option String) :
    Symbol.Declared c (newSymbol c.setting b name kind statement value isLocal doc) :=
  .inr ⟨name, hname, rfl, rfl, rfl⟩

theorem declareNew (h : b.Sound c) {name : Ident} (hname : c.Ends name) {value : Inferred}
    (hvalue : value.SafeIn c.demand b.table) (kind : SymbolKind) (statement : Span)
    (isLocal : Bool) (doc : Option String) :
    Grows c b (b.declare (newSymbol c.setting b name kind statement value isLocal doc)) :=
  h.declare (h.safeIn_newSymbol hname hvalue kind statement isLocal doc) rfl
    (declared_newSymbol hname b kind statement value isLocal doc)

theorem bindNew (h : b.Sound c) {name : Ident} (hname : c.Ends name) {value : Inferred}
    (hvalue : value.SafeIn c.demand b.table) (kind : SymbolKind) (statement : Span)
    (isLocal : Bool) (doc : Option String) :
    Grows c b (b.bind (newSymbol c.setting b name kind statement value isLocal doc)) := by
  have hdeclare := h.declareNew hname hvalue kind statement isLocal doc
  refine hdeclare.trans (hdeclare.sound.adoptMembers ?_)
  simp [newSymbol, Binder.declare, SymbolTableOver.declare, SymbolTableOver.nextSymbolId]

theorem declareLocals (statement : Span) (doc : Option String) :
    ∀ {names : List Ident} {values : List Inferred} {b : Binder σ}, b.Sound c →
      (∀ name ∈ names, c.Ends name) → (∀ value ∈ values, value.SafeIn c.demand b.table) →
      Grows c b (Binder.declareLocals c.setting statement doc names values b)
  | [], _, b, hb, _, _ => .refl hb
  | name :: names, values, b, hb, hnames, hvalues => by
    have hvalue : (values.headD {}).SafeIn c.demand b.table := by
      cases values with
      | nil => exact Inferred.safeIn_unknown _ _
      | cons value _ => exact hvalues value List.mem_cons_self
    have hbind := hb.bindNew (hnames name List.mem_cons_self) hvalue
      (.ofTy (values.headD {}).ty .variable) statement true doc
    exact hbind.trans (declareLocals statement doc hbind.sound
      (fun name hname => hnames name (List.mem_cons_of_mem _ hname))
      fun value hvalue => (hvalues value (List.mem_of_mem_tail hvalue)).mono hbind.table)

theorem declareCounter (h : b.Sound c) {name : Ident} (hname : c.Ends name) (statement : Span)
    {ty : Ty} (hty : Ty.SafeIn c.demand b.table ty) :
    Grows c b (b.declareCounter c.setting statement ty name) :=
  h.declareNew hname (Inferred.safeIn_ty hty) .variable statement true none

theorem declareCounters (statement : Span) {ty : Ty} (hty : ∀ t, Ty.SafeIn c.demand t ty) :
    ∀ {names : List Ident} {b : Binder σ}, b.Sound c → (∀ name ∈ names, c.Ends name) →
      Grows c b (names.foldl (fun b name => b.declareCounter c.setting statement ty name) b)
  | [], _, hb, _ => .refl hb
  | name :: names, _, hb, hnames => by
    have hstep := hb.declareCounter (hnames name List.mem_cons_self) statement (hty _)
    exact hstep.trans (declareCounters statement hty hstep.sound
      fun name hname => hnames name (List.mem_cons_of_mem _ hname))

theorem declareParameters (parameters : Span) :
    ∀ {entries : List Parameter} {b : Binder σ}, b.Sound c →
      (∀ name, .name name ∈ entries → c.Ends name) →
      Grows c b (Binder.declareParameters c.setting parameters entries b)
  | [], _, hb, _ => .refl hb
  | .vararg :: rest, _, hb, hnames => by
    have hrest := declareParameters parameters hb fun name hname =>
      hnames name (List.mem_cons_of_mem _ hname)
    exact hrest
  | .name name :: rest, _, hb, hnames => by
    have hstep := hb.declareNew (hnames name List.mem_cons_self) (Inferred.safeIn_unknown _ _)
      .parameter parameters true none
    have hrest := declareParameters parameters hstep.sound fun name hname =>
      hnames name (List.mem_cons_of_mem _ hname)
    exact hstep.trans hrest

theorem spelled_self : Spelled "self" :=
  List.all_eq_true.mp (by decide : "self".toList.all isNameChar = true)

theorem declareSelf (h : b.Sound c) (parameters : Span) {container : Option Link}
    (hcontainer : ∀ link, container = some link → Link.SafeIn c.demand b.table link) :
    Grows c b (b.declareSelf c.setting parameters container) := by
  refine h.declare ⟨spelled_self, ?_, hcontainer, fun _ hid => (by cases hid), h.scope⟩ rfl
    (.inl ⟨rfl, ?_⟩)
  · cases container with
    | none => trivial
    | some link => exact h.safeIn_valueType (hcontainer link rfl)
  · simp [Span.isEmpty]

/-! ## Members -/

theorem mem_insert {ms : Members} {name : String} {id : SymbolId} {entry : String × SymbolId}
    (hentry : entry ∈ ms.insert name id) : entry = (name, id) ∨ entry ∈ ms := by
  induction ms with
  | nil => exact .inl (List.mem_singleton.mp hentry)
  | cons first rest ih =>
    obtain ⟨n, i⟩ := first
    unfold Members.insert at hentry
    split at hentry
    · rename_i hn
      subst hn
      exact (List.mem_cons.mp hentry).imp_right (List.mem_cons_of_mem _)
    · rcases List.mem_cons.mp hentry with rfl | hentry
      · exact .inr List.mem_cons_self
      · exact (ih hentry).imp_right (List.mem_cons_of_mem _)

theorem namedIn_insert {t : SymbolTable} {ms : Members} (h : ms.NamedIn t) {name : String}
    {id : SymbolId} (hnames : t.Names id name) : (ms.insert name id).NamedIn t := by
  intro entry hentry
  rcases mem_insert hentry with rfl | hentry
  · exact hnames
  · exact h entry hentry

/-- If the symbol has a table, it is one of this document. -/
def OwnTable (t : SymbolTable) (id : SymbolId) : Prop :=
  ∀ x table, t.symbol? id = some x → x.ty = .table table → table.origin = none

theorem asTable_own {x : Symbol} (hx : ∀ table, x.ty = .table table → table.origin = none) :
    ∀ table, (asTable x).ty = .table table → table.origin = none := by
  intro table htable
  unfold asTable at htable
  split at htable
  · cases htable
    rfl
  · exact hx table htable

theorem safeIn_asTable {D : Demand} {t : SymbolTable} {x : Symbol} (hx : Symbol.SafeIn D t x) :
    Symbol.SafeIn D t (asTable x) := by
  unfold asTable
  split
  · refine { hx with ty := ⟨fun _ => ⟨fun _ h => (by cases h), fun _ h => (by cases h)⟩, ?_⟩ }
    exact fun _ ho => (by cases ho)
  · exact hx

/-- A table of this document is changed into one that holds safe numbers. -/
theorem mapTable (h : b.Sound c) {id : SymbolId} (hown : OwnTable b.table id) {f : Table → Table}
    (hf : ∀ table, Table.Holds c.demand table b.table →
      (f table).origin = table.origin ∧ Table.Holds c.demand (f table) b.table) :
    Grows c b (b.modifySymbol id (Binder.mapTable f)) := by
  refine h.modifySymbol id (keeps_mapTable f) fun x hx => ?_
  have hsafe := h.table.symbols hx
  unfold Binder.mapTable
  split
  · rename_i table hty
    have hnone := hown x table hx hty
    have hholds : Table.Holds c.demand table b.table := by
      have := hsafe.ty
      rw [hty] at this
      exact this.1 hnone
    obtain ⟨horigin, hholds'⟩ := hf table hholds
    refine { hsafe with ty := ⟨fun _ => hholds', fun o ho => ?_⟩ }
    rw [horigin, hnone] at ho
    cases ho
  · exact hsafe

theorem asTable (h : b.Sound c) (id : SymbolId) : Grows c b (b.modifySymbol id Binder.asTable) :=
  h.modifySymbol id keeps_asTable fun _ hx => safeIn_asTable (h.table.symbols hx)

theorem ownTable_asTable {id : SymbolId} (hown : OwnTable b.table id) :
    OwnTable (b.modifySymbol id Binder.asTable).table id := by
  intro x table hx htable
  have hx : (b.table.modifySymbol id Binder.asTable).symbol? id = some x := hx
  rw [SymbolTableOver.symbol?_modifySymbol, if_pos rfl] at hx
  obtain ⟨y, hy, rfl⟩ := Option.map_eq_some_iff.mp hx
  exact asTable_own (fun table => hown y table hy) table htable

theorem ownTable_of_tyOf {id : SymbolId}
    (h : ∀ table, b.tyOf id = .table table → table.isForeign = false) : OwnTable b.table id := by
  intro x table hx htable
  have hforeign := h table (by rw [tyOf_of_symbol? hx, htable])
  simpa [TableOver.isForeign] using hforeign

/-- The symbol that may take new members is of this document, and so is its table. -/
theorem ownTable?_spec (h : b.Sound c) {link : Link}
    (hlink : Link.SafeIn c.demand b.table link) {target : SymbolId}
    (htarget : b.ownTable? link = some target) :
    target < b.table.symbols.size ∧ OwnTable b.table target := by
  have hstands := (Located.Stands.ofLink hlink).resolveAlias c.met h.table
  obtain ⟨hnone, rfl, hholds⟩ := ownTable?_eq_some htarget
  refine ⟨hstands.link.1 hnone, fun x table hx htable => ?_⟩
  rw [tyOf_of_symbol? hx, htable] at hholds
  rcases hholds with ⟨_, heq, hown⟩ | hvacant
  · cases heq
    exact hown
  · cases hvacant

theorem names_addMember {t : SymbolTable} {x : Symbol} (hid : x.id = t.nextSymbolId) :
    (t.addMember x).Names x.id x.name := by
  refine ⟨x, ?_, rfl⟩
  rw [hid]
  simp [SymbolTableOver.symbol?, SymbolTableOver.addMember, SymbolTableOver.nextSymbolId]

/-- A member is added to a symbol whose table is of this document. -/
theorem addNamed (h : b.Sound c) {owner : SymbolId} (hlt : owner < b.table.symbols.size)
    (hown : OwnTable b.table owner) {x : Symbol} (hx : Symbol.SafeIn c.demand b.table x)
    (hid : x.id = b.table.nextSymbolId) (hdeclared : x.Declared c) :
    Grows c b ((b.addMember x).modifySymbol owner
        (Binder.mapTable fun t => { t with members := t.members.insert x.name x.id })) ∧
      x.id < ((b.addMember x).modifySymbol owner (Binder.mapTable fun t =>
        { t with members := t.members.insert x.name x.id })).table.symbols.size := by
  have hmember := h.addMember hx hdeclared
  have hnames : (b.addMember x).table.Names x.id x.name := names_addMember hid
  have hown' : OwnTable (b.addMember x).table owner := by
    intro y table hy hty
    have hy : (b.table.symbols.push x)[owner]? = some y := hy
    rw [Array.getElem?_push, if_neg (Nat.ne_of_lt hlt)] at hy
    exact hown y table hy hty
  have hinsert := hmember.sound.mapTable hown'
    (f := fun t => { t with members := t.members.insert x.name x.id })
    fun table hholds => ⟨rfl, namedIn_insert hholds.members hnames, hholds.prototype⟩
  exact ⟨hmember.trans hinsert, (hinsert.table.names hnames).lt⟩

theorem insertMember (h : b.Sound c) {container : Link} {x : Symbol}
    (hcontainer : Link.SafeIn c.demand b.table container) (hx : Symbol.SafeIn c.demand b.table x)
    (hid : x.id = b.table.nextSymbolId) (hdeclared : x.Declared c) {id : SymbolId}
    {b' : Binder σ} (hinsert : b.insertMember container x = some (id, b')) :
    Grows c b b' ∧ id < b'.table.symbols.size := by
  unfold Binder.insertMember at hinsert
  split at hinsert
  · cases hinsert
  · rename_i target htarget
    obtain ⟨hlt, hown⟩ := h.ownTable?_spec hcontainer htarget
    cases hinsert
    have htable := h.asTable target
    have hlt' := htable.table.lt hlt
    have hx' : Symbol.SafeIn c.demand _ { x with container := some target } :=
      { hx.mono htable.table with container := fun id hid => by cases hid; exact hlt' }
    have hid' : x.id = (b.modifySymbol target Binder.asTable).table.nextSymbolId := by
      simpa [Binder.modifySymbol, SymbolTableOver.modifySymbol, SymbolTableOver.nextSymbolId]
        using hid
    obtain ⟨hadd, hsize⟩ :=
      htable.sound.addNamed hlt' (ownTable_asTable hown) hx' hid' hdeclared
    exact ⟨htable.trans hadd, hsize⟩

/-- A field of a table that is written down is a member of this document. -/
theorem addField (h : b.Sound c) {key : Ident} (hkey : c.Ends key) {value : Inferred}
    (hvalue : value.SafeIn c.demand b.table) {x : Symbol} (kind : SymbolKind) (field : Span)
    (doc : Option String) (hx : x = newSymbol c.setting b key kind field value false doc) :
    Grows c b ((b.addMember x).adoptMembers x.id) ∧
      ((b.addMember x).adoptMembers x.id).table.Names x.id key.name := by
  subst hx
  have hmember := h.addMember (h.safeIn_newSymbol hkey hvalue kind field false doc)
    (declared_newSymbol hkey b kind field value false doc)
  have hnames := names_addMember (t := b.table)
    (x := newSymbol c.setting b key kind field value false doc) rfl
  have hadopt := hmember.sound.adoptMembers hnames.lt
  exact ⟨hmember.trans hadopt, hadopt.table.names hnames⟩

theorem setPrototype (h : b.Sound c) {link : Link} {proto : Prototype}
    (hproto : Link.SafeIn c.demand b.table proto.link) {b' : Binder σ}
    (hset : b.setPrototype link proto = some b') : Grows c b b' := by
  unfold Binder.setPrototype at hset
  dsimp only at hset
  split at hset
  · cases hset
  · generalize (b.home.follow link).resolveAlias.id = id at hset
    have htable := h.asTable id
    split at hset
    · rename_i table hty
      split at hset
      · cases hset
      · rename_i hforeign
        cases hset
        have hown : OwnTable (b.modifySymbol id Binder.asTable).table id := by
          refine ownTable_of_tyOf fun table' hty' => ?_
          rw [hty] at hty'
          cases hty'
          simpa using hforeign
        refine htable.trans
          (htable.sound.mapTable hown fun table hholds => ⟨rfl, hholds.members, ?_⟩)
        intro proto' hproto'
        cases hproto'
        exact hproto.mono htable.table
    · cases hset

/-! ## Definitions -/

/-- What a definition has reached is there. -/
structure Reached (c : Regime σ) (t : SymbolTable) (defined : Defined) : Prop where
  symbol : ∀ id, defined.symbol = some id → id < t.symbols.size
  container : ∀ link, defined.container = some link → Link.SafeIn c.demand t link

theorem Reached.nothing (c : Regime σ) (t : SymbolTable) : Reached c t {} :=
  ⟨fun _ h => (by cases h), fun _ h => (by cases h)⟩

/-- What a path leads to in front of its last name. -/
theorem safeIn_container (h : b.Sound c) (path : List Ident) (link : Link)
    (hlink : (b.walkPath path).dropLast.getLast?.join = some link) :
    Link.SafeIn c.demand b.table link := by
  have hmem := List.mem_of_getLast? (Option.join_eq_some_iff.mp hlink)
  exact (h.named_walkPath path).safeIn (b.length_walkPath path) (List.dropLast_subset _ hmem)

theorem names_existing (h : b.Sound c) {path : List Ident} {last : Ident}
    (hlast : path.getLast? = some last) (link : Link)
    (hlink : (b.walkPath path).getLast?.join = some link) :
    Link.Names c.demand b.table link last.name :=
  (h.named_walkPath path).getLast (b.length_walkPath path) hlast (Option.join_eq_some_iff.mp hlink)

theorem defineMember (h : b.Sound c) {path : List Ident} (hwritten : c.written path)
    (kind : SymbolKind) (statement : Span) {value : Inferred}
    (hvalue : value.SafeIn c.demand b.table) (doc : Option String) :
    Grows c b (b.defineMember c.setting path kind statement value doc).2 ∧
      Reached c (b.defineMember c.setting path kind statement value doc).2.table
        (b.defineMember c.setting path kind statement value doc).1 := by
  unfold Binder.defineMember
  split
  · rename_i first last hfirst hlast
    have hrecord := recordPath h hwritten hfirst (h.named_walkPath path).dropLast
    have hcontainer := h.safeIn_container path
    have hexisting := h.names_existing hlast
    dsimp only
    generalize (b.walkPath path).dropLast.getLast?.join = container at hcontainer ⊢
    generalize (b.walkPath path).getLast?.join = existing at hexisting ⊢
    generalize Binder.recordAll c.setting first path (b.walkPath path).dropLast b = b₁ at hrecord ⊢
    have hrecordLast : ∀ target, (∀ link, target = some link →
        Link.Names c.demand b.table link last.name) →
        Grows c b (b₁.record c.setting first last target) := fun target htarget =>
      hrecord.trans (hrecord.sound.record hwritten hfirst hlast
        fun link hlink => (htarget link hlink).mono hrecord.table)
    have hreached : ∀ {b' : Binder σ}, Grows c b b' →
        Reached c b'.table { container := container } :=
      fun hgrows => ⟨fun _ hid => (by cases hid),
        fun link hlink => (hcontainer link hlink).mono hgrows.table⟩
    cases existing with
    | some existing =>
      have hlast := hrecordLast (some existing) fun link hlink => by
        cases hlink
        exact hexisting existing rfl
      dsimp only
      split
      · rename_i hlocal
        have hid : existing.id < b.table.symbols.size :=
          ((hexisting existing rfl).1 (Option.isNone_iff_eq_none.mp hlocal)).lt
        have hrefine := hlast.trans (hlast.sound.refine (hlast.table.lt hid)
          (hvalue.mono hlast.table))
        refine ⟨hrefine, fun id hid' => ?_, (hreached hrefine).container⟩
        cases hid'
        exact hrefine.table.lt hid
      · exact ⟨hlast, hreached hlast⟩
    | none =>
      have hnone := hrecordLast none fun _ hlink => (by cases hlink)
      cases container with
      | none => exact ⟨hnone, .nothing c _⟩
      | some link =>
        dsimp only
        split
        · rename_i id b₂ hinsert
          have hvalue' := hvalue.mono hrecord.table
          have hends : c.Ends last := ⟨path, hwritten, hlast⟩
          obtain ⟨hgrows, hid⟩ := hrecord.sound.insertMember
            ((hcontainer link rfl).mono hrecord.table)
            (hrecord.sound.safeIn_newSymbol hends hvalue' kind statement false doc) rfl
            (declared_newSymbol hends _ kind statement value false doc) hinsert
          have hadopt := (hrecord.trans hgrows).trans (hgrows.sound.adoptMembers hid)
          refine ⟨hadopt, fun id' hid' => ?_, (hreached hadopt).container⟩
          cases hid'
          exact (hgrows.sound.adoptMembers hid).table.lt hid
        · exact ⟨hnone, hreached hnone⟩
  · exact ⟨.refl h, .nothing c _⟩

theorem recordName (h : b.Sound c) {name : Ident} (hname : c.written [name]) {id : SymbolId}
    (hid : b.table.lookup b.scope name.name name.span.start = some id) :
    Grows c b (b.record c.setting name name (some (.here id))) ∧ id < b.table.symbols.size := by
  have hnames := h.table.names_of_lookup hid
  refine ⟨h.record hname rfl rfl fun link hlink => ?_, hnames.lt⟩
  cases hlink
  exact ⟨fun _ => hnames, fun _ ho => (by cases ho)⟩

theorem ends_of_written {name : Ident} (hname : c.written [name]) : c.Ends name :=
  ⟨[name], hname, rfl⟩

theorem assignName (h : b.Sound c) {name : Ident} (hname : c.written [name]) (statement : Span)
    {value : Inferred} (hvalue : value.SafeIn c.demand b.table) (doc : Option String) :
    Grows c b (b.assignName c.setting name statement value doc) := by
  unfold Binder.assignName
  split
  · rename_i id hid
    obtain ⟨hrecord, hlt⟩ := h.recordName hname hid
    exact hrecord.trans (hrecord.sound.refine (hrecord.table.lt hlt) (hvalue.mono hrecord.table))
  · split
    · exact h.bindNew (ends_of_written hname) hvalue _ statement false doc
    · exact h.record hname rfl rfl fun _ hlink => (by cases hlink)

theorem declareFunction (h : b.Sound c) (reach : FunctionReach)
    {name : FunctionName} (hname : c.written name.path) (statement : Span) (params : List String)
    (doc : Option String) :
    Grows c b (b.declareFunction c.setting reach name statement params doc).2 ∧
      Reached c (b.declareFunction c.setting reach name statement params doc).2.table
        (b.declareFunction c.setting reach name statement params doc).1 := by
  have hpath : c.written ([name.head] ++ name.path.tail) := hname
  have hhead : c.written [name.head] := c.front hpath (by simp)
  have hvalue : Inferred.SafeIn c.demand b.table
      { ty := .function params .unknown name.method.isSome } := Inferred.safeIn_ty trivial
  have hdeclare : ∀ isLocal,
      Grows c b (b.declare (newSymbol c.setting b name.head .function statement
        { ty := .function params .unknown name.method.isSome } isLocal doc)) ∧
      Reached c (b.declare (newSymbol c.setting b name.head .function statement
        { ty := .function params .unknown name.method.isSome } isLocal doc)).table
        { symbol := some b.table.nextSymbolId } := by
    intro isLocal
    refine ⟨h.declareNew (ends_of_written hhead) hvalue .function statement isLocal doc,
      fun id hid => ?_, fun _ hlink => (by cases hlink)⟩
    cases hid
    simp [Binder.declare, SymbolTableOver.declare, SymbolTableOver.nextSymbolId]
  unfold Binder.declareFunction
  dsimp only
  split
  · exact h.defineMember hname _ statement hvalue doc
  · split
    · exact hdeclare true
    · split
      · rename_i id hid
        obtain ⟨hrecord, hlt⟩ := h.recordName hhead hid
        have hmodify := hrecord.sound.modifySymbol id
          (f := fun symbol => { symbol with ty := .function params .unknown name.method.isSome })
          (by constructor <;> intro x <;> rfl)
          fun x hx => { hrecord.sound.table.symbols hx with ty := trivial }
        refine ⟨hrecord.trans hmodify, fun id' hid' => ?_, fun _ hlink => (by cases hlink)⟩
        cases hid'
        exact (hrecord.trans hmodify).table.lt hlt
      · exact hdeclare false

/-! ## Calls -/

theorem require (h : b.Sound c) (name : String) :
    Grows c b (b.require c.setting name).2 ∧
      Inferred.SafeIn c.demand (b.require c.setting name).2.table
        (b.require c.setting name).1 := by
  obtain ⟨hworld, hloads⟩ := c.loads name h.world
  have hgrows : Grows c b { b with world := (c.setting.loader name b.world).2 } :=
    ⟨{ h with world := hworld }, .refl _⟩
  unfold Binder.require
  dsimp only
  split
  · rename_i index hindex
    split
    · rename_i hexports
      exact ⟨hgrows, Inferred.safeIn_ty fun hstrict => ⟨hloads index hindex hstrict, hexports⟩⟩
    · exact ⟨hgrows, Inferred.safeIn_unknown _ _⟩
  · exact ⟨hgrows, Inferred.safeIn_unknown _ _⟩

theorem attachPrototype (h : b.Sound c) {target : Inferred}
    (htarget : target.SafeIn c.demand b.table) {prototype : Option Prototype}
    (hprototype : ∀ proto, prototype = some proto → Link.SafeIn c.demand b.table proto.link) :
    Grows c b (b.attachPrototype target prototype).2 ∧
      Inferred.SafeIn c.demand (b.attachPrototype target prototype).2.table
        (b.attachPrototype target prototype).1 := by
  unfold Binder.attachPrototype
  split
  · exact ⟨.refl h, htarget⟩
  · rename_i proto
    have hproto := hprototype proto rfl
    split
    · rename_i link b' hset
      obtain ⟨link', halias, hset⟩ := Option.bind_eq_some_iff.mp hset
      obtain ⟨b'', hset, heq⟩ := Option.map_eq_some_iff.mp hset
      cases heq
      have hgrows := h.setPrototype hproto hset
      have hlink := (htarget.alias link halias).mono hgrows.table
      refine ⟨hgrows, hgrows.sound.safeIn_valueType hlink, fun link' hlink' => ?_⟩
      cases hlink'
      exact hlink
    · -- No symbol takes the prototype, so the value that is answered with has it.
      have hfresh : Ty.SafeIn c.demand b.table (.table { prototype := some proto }) := by
        refine ⟨fun _ => ⟨fun _ hentry => (by cases hentry), fun proto' hproto' => ?_⟩,
          fun _ ho => (by cases ho)⟩
        cases hproto'
        exact hproto
      split
      · rename_i table hty
        split
        · exact ⟨.refl h, Inferred.safeIn_ty htarget.ty⟩
        · rename_i hforeign
          have hnone : table.origin = none := by simpa [TableOver.isForeign] using hforeign
          have hholds : Table.Holds c.demand table b.table := by
            have hsafe := htarget.ty
            rw [hty] at hsafe
            exact hsafe.1 hnone
          refine ⟨.refl h, Inferred.safeIn_ty ⟨fun _ => ⟨hholds.members, fun proto' hproto' => ?_⟩,
            fun o ho => ?_⟩⟩
          · cases hproto'
            exact hproto
          · have ho : table.origin = some o := ho
            rw [hnone] at ho
            cases ho
      · exact ⟨.refl h, Inferred.safeIn_ty hfresh⟩
      · exact ⟨.refl h, Inferred.safeIn_ty hfresh⟩
      · exact ⟨.refl h, Inferred.safeIn_ty htarget.ty⟩

end Sound

theorem safeIn_callResult {D : Demand} {t : SymbolTable} {callee : Inferred}
    (h : callee.SafeIn D t) : (callResult callee).SafeIn D t := by
  unfold callResult
  split
  · rename_i params returns isMethod hty
    have hsafe := h.ty
    rw [hty] at hsafe
    exact Inferred.safeIn_ty hsafe
  · exact Inferred.safeIn_unknown D t

/-! ## The end of the walk -/

namespace Sound

theorem exports (h : b.Sound c) : Ty.SafeIn c.demand b.table b.exports := by
  have hvalue : ∀ value, b.returns.getLast?.join = some value → value.SafeIn c.demand b.table :=
    fun value hvalue => h.returns value (List.mem_of_getLast? (Option.join_eq_some_iff.mp hvalue))
  unfold Binder.exports
  split
  · rename_i ty link hlast
    exact h.safeIn_valueType ((hvalue _ hlast).alias link rfl)
  · rename_i value _ hlast
    exact (hvalue value hlast).ty
  · trivial

/-- What a late look at a text finds has the name that ends the text; all names in it are those of
symbols. -/
theorem names_resolveLate (h : b.Sound c) {r : Reference} (hr : r.target = none) {link : Link}
    (hlink : (b.resolveLate r).target = some link) :
    (∃ last, (splitPath r.text).getLast? = some last ∧ Link.Names c.demand b.table link last) ∧
      (c.demand.strict ∨ link.origin = none → ∀ segment ∈ splitPath r.text, Spelled segment) := by
  unfold Binder.resolveLate at hlink
  rw [if_neg (by simp [hr])] at hlink
  split at hlink
  · rw [hr] at hlink
    cases hlink
  · rename_i root rest hpath
    rw [hpath]
    obtain ⟨m, hm, rfl⟩ := Option.map_eq_some_iff.mp hlink
    cases hroot : b.table.lookup r.scope root r.anchor with
    | none =>
      rw [hroot, Option.map_none, Located.walk_none] at hm
      cases hm
    | some id =>
      rw [hroot] at hm
      have hfound := Located.found_here (D := c.demand) (h.table.names_of_lookup hroot)
      obtain ⟨⟨last, hlast, hnames⟩, -, hspelled⟩ := hfound.walk c.met h.table hm
      exact ⟨⟨last, hlast, hnames.names⟩, hspelled⟩

end Sound

end Binder

end LuaScope

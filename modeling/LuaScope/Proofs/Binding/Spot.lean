import LuaScope.Proofs.Binding.Walk
import LuaScope.Proofs.Scoping.Place

/-!
# LuaScope.Proofs.Binding.Spot

A walk uses each site of its tree at most once: a symbol is made there, or a reference is recorded
there, never both and neither of them twice.

* `Binder.Fills`         — what a step adds to the spots of a state.
* `Walk.expr_fills`, `Walk.statements_fills` and the others — a walk fills sites of its tree alone.
-/

namespace LuaScope

variable {σ : Type}

/-! ## Spots -/

/-- A place of a name: its bytes, and the position at which its range starts. -/
structure Spot where
  span : Span
  start : Position
deriving DecidableEq

def Source.spot (source : Source) (span : Span) : Spot := ⟨span, source.lines.position span.start⟩

def SymbolOver.spot {ρ : Type} (x : SymbolOver ρ) : Spot := ⟨x.span, x.range.start⟩

def ReferenceOver.spot {ρ : Type} (r : ReferenceOver ρ) : Spot := ⟨r.span, r.range.start⟩

def Site.spot (source : Source) : Site → Spot
  | .name ident => source.spot ident.span
  | .receiver start => source.spot ⟨start, start⟩

namespace Binder

/-- Where the symbols and the references of a state stand. -/
def spots (b : Binder σ) : List Spot :=
  b.table.symbols.toList.map SymbolOver.spot ++ b.references.toList.map ReferenceOver.spot

/-- The spots that are new in `b'` are those of these sites, each site's at most once. -/
def Fills (s : Setting σ) (sites : List Site) (b b' : Binder σ) : Prop :=
  ∀ m, b'.spots.count m ≤ b.spots.count m + (sites.map (Site.spot s.source)).count m

namespace Fills

variable {s : Setting σ} {a c : List Site} {b b' b'' : Binder σ}

theorem of_eq (h : b'.spots = b.spots) : Fills s a b b' := by
  intro m
  rw [h]
  exact Nat.le_add_right _ _

theorem trans (h : Fills s a b b') (h' : Fills s c b' b'') : Fills s (a ++ c) b b'' := by
  intro m
  have hfirst := h m
  have hsecond := h' m
  rw [List.map_append, List.count_append]
  omega

theorem andSame (h : Fills s a b b') (h' : b''.spots = b'.spots) : Fills s a b b'' := by
  intro m
  rw [h']
  exact h m

theorem ofSame (h : b'.spots = b.spots) (h' : Fills s a b' b'') : Fills s a b b'' := by
  intro m
  rw [← h]
  exact h' m

/-- The spots are those of other sites as well. -/
theorem mono (h : Fills s a b b')
    (hsites : ∀ m, (a.map (Site.spot s.source)).count m ≤ (c.map (Site.spot s.source)).count m) :
    Fills s c b b' := fun m => Nat.le_trans (h m) (Nat.add_le_add_left (hsites m) _)

end Fills

/-! ## Steps that leave the spots alone -/

theorem spots_modifySymbol (b : Binder σ) (id : SymbolId) {f : Symbol → Symbol}
    (hf : SymbolOver.Keeps f) : (b.modifySymbol id f).spots = b.spots := by
  have hspot : ∀ x : Symbol, (f x).spot = x.spot := by
    intro x
    simp only [SymbolOver.spot, hf.span, hf.range]
  have hsymbols : (b.modifySymbol id f).table.symbols.toList.map SymbolOver.spot =
      b.table.symbols.toList.map SymbolOver.spot := by
    refine List.ext_getElem? fun i => ?_
    simp only [modifySymbol, SymbolTableOver.modifySymbol, List.getElem?_map, Array.toList_modify,
      List.getElem?_modify]
    cases b.table.symbols.toList[i]? with
    | none => rfl
    | some x =>
      simp only [Option.map_some]
      split
      · exact congrArg some (hspot x)
      · rfl
  exact congrArg (· ++ _) hsymbols

theorem spotsLaws (s : Setting σ) : TypeLaws s (fun b b' : Binder σ => b'.spots = b.spots) where
  refl _ := rfl
  trans _ _ _ h h' := h'.trans h
  modify id _ b hf := b.spots_modifySymbol id hf
  load _ _ := rfl

theorem spots_noteReturn (b : Binder σ) (value : Inferred) :
    (b.noteReturn value).spots = b.spots := by
  unfold noteReturn
  split
  · rfl
  · dsimp only
    split <;> split <;> rfl

theorem spots_popFrame (b : Binder σ) : b.popFrame.2.spots = b.spots := by
  unfold popFrame
  split <;> rfl

/-! ## Steps that fill a site -/

section

variable (s : Setting σ) (b : Binder σ)

theorem fills_record (first last : Ident) (target : Option Link) :
    Fills s [.name last] b (b.record s first last target) := by
  intro m
  have hspots : (b.record s first last target).spots = b.spots ++ [s.source.spot last.span] := by
    simp [spots, record, ReferenceOver.spot, Source.spot, Setting.range, Source.range,
      LineTable.range]
  rw [hspots, List.count_append]
  exact Nat.le_refl _

/-- A new symbol stands at this site. -/
theorem fills_push {x : Symbol} {site : Site} (hsite : x.spot = site.spot s.source)
    {table : SymbolTable} (htable : table.symbols = b.table.symbols.push x) :
    Fills s [site] b { b with table := table } := by
  intro m
  simp only [spots, htable, Array.toList_push, List.map_append, List.map_cons, List.map_nil, hsite,
    List.count_append]
  omega

theorem fills_declare {x : Symbol} {site : Site} (hsite : x.spot = site.spot s.source) :
    Fills s [site] b (b.declare x) := b.fills_push s hsite rfl

theorem fills_addMember {x : Symbol} {site : Site} (hsite : x.spot = site.spot s.source) :
    Fills s [site] b (b.addMember x) := b.fills_push s hsite rfl

theorem fills_bind {x : Symbol} {site : Site} (hsite : x.spot = site.spot s.source) :
    Fills s [site] b (b.bind x) :=
  (b.fills_declare s hsite).andSame ((spotsLaws s).adopt _ _)

theorem spot_newSymbol (name : Ident) (kind : SymbolKind) (statement : Span) (value : Inferred)
    (isLocal : Bool) (doc : Option String) :
    (newSymbol s b name kind statement value isLocal doc).spot =
      Site.spot s.source (.name name) := rfl

end

variable (s : Setting σ)

theorem fills_recordAll (first : Ident) :
    ∀ (segments : List Ident) (links : List (Option Link)) (b : Binder σ),
      Fills s ((segments.take links.length).map .name) b (b.recordAll s first segments links)
  | [], _, _ => .of_eq rfl
  | _ :: _, [], _ => .of_eq rfl
  | segment :: segments, link :: links, b =>
    (b.fills_record s first segment link).trans (fills_recordAll first segments links _)

theorem length_walkPath (b : Binder σ) (path : List Ident) :
    (b.walkPath path).length = path.length := by
  have hfrom : ∀ (path : List Ident) (at? : Option Located),
      (walkFrom at? path).length = path.length := by
    intro path
    induction path with
    | nil => exact fun _ => rfl
    | cons _ _ ih => exact fun _ => congrArg (· + 1) (ih _)
  cases path with
  | nil => rfl
  | cons _ rest => exact congrArg (· + 1) (hfrom rest _)

theorem fills_path (path : List Ident) (b : Binder σ) :
    Fills s (path.map .name) b (b.inferPath s path).2 := by
  cases path with
  | nil => exact .of_eq rfl
  | cons first rest =>
    have hrecord := fills_recordAll s first (first :: rest) (b.walkPath (first :: rest)) b
    rw [length_walkPath, List.take_length] at hrecord
    simp only [inferPath]
    split <;> exact hrecord

theorem fills_insertMember {container : Link} {x : Symbol} {b b' : Binder σ} {id : SymbolId}
    {site : Site} (hsite : x.spot = site.spot s.source)
    (h : b.insertMember container x = some (id, b')) : Fills s [site] b b' := by
  unfold insertMember at h
  split at h
  · cases h
  · rename_i target _
    cases h
    refine .ofSame (b.spots_modifySymbol target keeps_asTable) ?_
    exact (fills_addMember s _ (x := { x with container := some target }) hsite).andSame
      (spots_modifySymbol _ target (keeps_mapTable _))

/-- The segments in front are recorded, and the last one is either recorded or made. -/
theorem fills_defineMember (path : List Ident) (kind : SymbolKind) (statement : Span)
    (value : Inferred) (doc : Option String) (b : Binder σ) :
    Fills s (path.map .name) b (b.defineMember s path kind statement value doc).2 := by
  unfold defineMember
  split
  · rename_i first last _ hlast
    have hpath : path.map Site.name = path.dropLast.map .name ++ [.name last] := by
      obtain ⟨front, rfl⟩ := List.getLast?_eq_some_iff.mp hlast
      rw [List.dropLast_concat, List.map_append, List.map_singleton]
    have hfront := fills_recordAll s first path (b.walkPath path).dropLast b
    rw [List.length_dropLast, length_walkPath, ← List.dropLast_eq_take] at hfront
    rw [hpath]
    simp only
    generalize recordAll s first path (b.walkPath path).dropLast b = b₁ at hfront ⊢
    have hrecord := fun target => hfront.trans (b₁.fills_record s first last target)
    split
    · split
      · exact (hrecord _).andSame ((spotsLaws s).refine _ value _)
      · exact hrecord _
    · split
      · exact hrecord none
      · split
        · rename_i hinsert
          exact (hfront.trans (fills_insertMember s rfl hinsert)).andSame ((spotsLaws s).adopt _ _)
        · exact hrecord none
  · exact .of_eq rfl

theorem fills_assignName (name : Ident) (statement : Span) (value : Inferred)
    (doc : Option String) (b : Binder σ) :
    Fills s [.name name] b (b.assignName s name statement value doc) := by
  unfold assignName
  split
  · exact (b.fills_record s name name _).andSame ((spotsLaws s).refine _ value _)
  · split
    · exact b.fills_bind s (b.spot_newSymbol s name _ _ _ _ _)
    · exact b.fills_record s name name none

theorem fills_declareLocals (statement : Span) (doc : Option String) :
    ∀ (names : List Ident) (values : List Inferred) (b : Binder σ),
      Fills s (names.map .name) b (b.declareLocals s statement doc names values)
  | [], _, _ => .of_eq rfl
  | name :: names, values, b =>
    (b.fills_bind s (b.spot_newSymbol s name _ _ _ _ _)).trans
      (fills_declareLocals statement doc names values.tail _)

theorem fills_declareCounters (statement : Span) (ty : Ty) :
    ∀ (names : List Ident) (b : Binder σ),
      Fills s (names.map .name) b
        (names.foldl (fun b name => b.declareCounter s statement ty name) b)
  | [], _ => .of_eq rfl
  | name :: names, b =>
    (b.fills_declare s (b.spot_newSymbol s name _ _ _ _ _)).trans
      (fills_declareCounters statement ty names _)

theorem fills_declareParameters (parameters : Span) :
    ∀ (entries : List Parameter) (b : Binder σ),
      Fills s (entries.flatMap Parameter.sites) b (b.declareParameters s parameters entries)
  | [], _ => .of_eq rfl
  | .vararg :: rest, b => fills_declareParameters parameters rest b
  | .name name :: rest, b =>
    (b.fills_declare s (b.spot_newSymbol s name _ _ _ _ _)).trans
      (fills_declareParameters parameters rest _)

theorem fills_declareSelf (parameters : Span) (container : Option Link) (b : Binder σ) :
    Fills s [.receiver parameters.start] b (b.declareSelf s parameters container) :=
  b.fills_declare s rfl

theorem fills_declareFunction (reach : FunctionReach) (name : FunctionName) (statement : Span)
    (params : List String) (doc : Option String) (b : Binder σ) :
    Fills s (name.path.map .name) b (b.declareFunction s reach name statement params doc).2 := by
  have hhead : ∀ m, (([.name name.head] : List Site).map (Site.spot s.source)).count m ≤
      ((name.path.map Site.name).map (Site.spot s.source)).count m := fun m =>
    List.Sublist.count_le m (.cons_cons _ (List.nil_sublist _))
  unfold declareFunction
  simp only
  split
  · exact fills_defineMember s name.path _ statement _ doc b
  · refine Fills.mono ?_ hhead
    split
    · exact b.fills_declare s (b.spot_newSymbol s name.head _ _ _ _ _)
    · split
      · exact (b.fills_record s name.head name.head _).andSame
          (spots_modifySymbol _ _ (by constructor <;> intro x <;> rfl))
      · exact b.fills_declare s (b.spot_newSymbol s name.head _ _ _ _ _)

end Binder

/-! ## Walks -/

namespace Walk

/-- Run on any state, the walk fills sites among these. -/
def Fills {α : Type} (s : Setting σ) (sites : List Site) (w : Walk σ α) : Prop :=
  ∀ b, Binder.Fills s sites b (w b).2

namespace Fills

variable {α β : Type} {s : Setting σ} {a c d : List Site}

theorem pure (x : α) : Fills s a (Pure.pure x : Walk σ α) := fun _ => .of_eq rfl

theorem same {w : Walk σ α} (h : ∀ b, (w b).2.spots = b.spots) : Fills s a w :=
  fun b => .of_eq (h b)

theorem bind {w : Walk σ α} {k : α → Walk σ β} (hw : Fills s a w) (hk : ∀ x, Fills s c (k x)) :
    Fills s (a ++ c) (w >>= k) := fun b => (hw b).trans (hk (w b).1 (w b).2)

theorem mono {w : Walk σ α} (h : Fills s a w)
    (hsites : ∀ m, (a.map (Site.spot s.source)).count m ≤ (c.map (Site.spot s.source)).count m) :
    Fills s c w := fun b => (h b).mono hsites

/-- What a walk answers does not matter. -/
theorem andPure {w : Walk σ α} (h : Fills s a w) (f : α → β) :
    Fills s a (w >>= fun x => Pure.pure (f x)) := h

theorem andSame {w : Walk σ α} {k : α → Walk σ β} (h : Fills s a w)
    (hk : ∀ x b, (k x b).2.spots = b.spots) : Fills s a (w >>= k) :=
  fun b => (h b).andSame (hk (w b).1 (w b).2)

/-- No site in front is filled. -/
theorem behind {w : Walk σ α} (h : Fills s c w) : Fills s (a ++ c) w := by
  refine h.mono fun m => ?_
  rw [List.map_append, List.count_append]
  omega

/-- No site behind is filled. -/
theorem front {w : Walk σ α} (h : Fills s a w) : Fills s (a ++ c) w := by
  refine h.mono fun m => ?_
  rw [List.map_append, List.count_append]
  omega

/-- The first walk is over what stands between. -/
theorem bindBetween {w : Walk σ α} {k : α → Walk σ β} (hw : Fills s a w)
    (hk : ∀ x, Fills s (c ++ d) (k x)) : Fills s (c ++ (a ++ d)) (w >>= k) := by
  refine (hw.bind hk).mono fun m => ?_
  simp only [List.map_append, List.count_append]
  omega

/-- The first walk is over what stands behind. -/
theorem bindBack {w : Walk σ α} {k : α → Walk σ β} (hw : Fills s a w)
    (hk : ∀ x, Fills s c (k x)) : Fills s (c ++ a) (w >>= k) := by
  refine (hw.bind hk).mono fun m => ?_
  simp only [List.map_append, List.count_append]
  omega

end Fills

variable {s : Setting σ} {a : List Site}

theorem name_fills (ident : Ident) (depth : Nat) :
    Fills s [.name ident] (inferName s ident depth) := by
  unfold inferName
  split
  · exact .pure _
  · exact Binder.fills_path s [ident]

theorem path_fills {e : Expr} {path : List Ident} (h : e.path? = some path) :
    Fills s e.sites (inferPath s path) := by
  rw [(Expr.uses_of_path? [] h).2]
  exact Binder.fills_path s path

theorem within_fills {inside : Walk σ Unit} (h : Fills s a inside) (kind : ScopeKind)
    (span : Span) : Fills s a (within kind span inside) :=
  fun b => h (b.enterScope kind span)

theorem function_fills {body : Walk σ Unit} (parameters : Parameters) (hbody : Fills s a body)
    (stop : Nat) (isMethod : Bool) (container : Option Link) :
    Fills s (parameters.sites ++ a) (inFunction s parameters stop isMethod container body) := by
  have hself : Fills s [.receiver parameters.span.start] (do
      if isMethod then modify (Binder.declareSelf s parameters.span container) : Walk σ Unit) := by
    cases isMethod with
    | true => exact Binder.fills_declareSelf s parameters.span container
    | false => exact .pure _
  have hentries : Fills s (parameters.entries.flatMap Parameter.sites)
      (modify (Binder.declareParameters s parameters.span parameters.entries) : Walk σ Unit) :=
    Binder.fills_declareParameters s parameters.span parameters.entries
  have hframe : Fills s a (do modify (·.pushFrame); body; modify (·.popFrame.2) : Walk σ Unit) :=
    fun b => (hbody b.pushFrame).andSame (Binder.spots_popFrame _)
  have hinside := within_fills ((hself.bind fun _ => hentries).bind fun _ => hframe) .function
    ⟨parameters.span.start, stop⟩
  intro b
  cases isMethod <;> exact hinside b

/-- The names of a loop are made in front of its block. -/
theorem loop_fills {body : Walk σ Unit} (names : List Ident) (hbody : Fills s a body) (ty : Ty)
    (span : Span) : Fills s (names.map .name ++ a) (within .loop span (do
      modify (fun b => names.foldl (fun b name => b.declareCounter s span ty name) b)
      body)) := by
  have hnames : Fills s (names.map .name)
      (modify fun b => names.foldl (fun b name => b.declareCounter s span ty name) b) :=
    Binder.fills_declareCounters s span ty names
  exact within_fills (hnames.bind fun _ => hbody) .loop span

theorem define_fills {base : Expr} {key : Ident} {path : List Ident} (h : base.path? = some path)
    (kind : SymbolKind) (statement : Span) (value : Inferred) (doc : Option String) :
    Fills s (Expr.field base key).sites
      (modify fun b => (b.defineMember s (path ++ [key]) kind statement value doc).2) := by
  rw [(Expr.uses_of_path? [] (Expr.path?_field h)).2]
  exact Binder.fills_defineMember s (path ++ [key]) kind statement value doc

mutual

theorem expr_fills : ∀ (e : Expr) (depth : Nat), Fills s e.sites (inferExpr s e depth)
  | .nil, depth | .boolean, depth | .number, depth | .literal _, depth => by
    simp only [inferExpr]
    split <;> exact .pure _
  | .vararg, _ | .global, _ => .pure _
  | .name ident, depth => name_fills ident depth
  | .field base key, depth => by
    simp only [inferExpr]
    split
    · exact .pure _
    · split
      · rename_i path hpath
        exact path_fills (Expr.path?_field hpath)
      · exact .bind (expr_fills base _) fun _ => (name_fills key _).andPure _
  | .subscript base key, depth => by
    simp only [inferExpr]
    split
    · exact .pure _
    · exact .bind (expr_fills base _) fun _ => (expr_fills key _).andPure _
  | .paren inner, depth => by
    simp only [inferExpr]
    split
    · exact .pure _
    · exact expr_fills inner _
  | .table fields, depth => by
    simp only [inferExpr]
    split
    · exact .pure _
    · exact (fields_fills fields depth []).andPure _
  | .function (.mk parameters block stop), depth => by
    simp only [inferExpr]
    split
    · exact .pure _
    · exact (function_fills parameters (block_fills block _) stop false none).andPure _
  | .call callee none arguments, depth => by
    simp only [inferExpr]
    split
    · exact .pure _
    · split
      · exact .same ((Binder.spotsLaws s).require _)
      · exact (setmetatable_fills arguments depth).behind
      · exact .bind (expr_fills _ _) fun _ => (list_fills arguments depth).andPure _
      · rename_i heq
        cases heq
  | .call callee (some name) arguments, depth => by
    have harguments : ∀ value : Inferred, Fills s (Expr.sitesOf arguments) (do
        let _ ← inferList s arguments depth
        pure (Binder.callResult value)) := fun value => (list_fills arguments depth).andPure _
    -- The method is a member of the callee.
    have hsites : (Expr.call callee (some name) arguments).sites =
        (Expr.field callee name).sites ++ Expr.sitesOf arguments := by
      simp only [Expr.sites, Option.toList, List.map_cons, List.map_nil, List.append_assoc]
    rw [hsites]
    simp only [inferExpr]
    split
    · exact .pure _
    · split
      · exact (harguments {}).behind
      · split
        · rename_i path hpath
          exact .bind (path_fills (Expr.path?_field hpath)) harguments
        · have hpair : Fills s (Expr.field callee name).sites (do
              let _ ← inferExpr s callee (depth + 2)
              inferName s name (depth + 2)) :=
            .bind (expr_fills callee _) fun _ => name_fills name _
          have hcall := hpair.bind fun _ => harguments {}
          exact hcall
  | .binary op _ left right, depth => by
    simp only [inferExpr]
    split
    · exact .pure _
    · exact .bind (expr_fills left _) fun _ => (expr_fills right _).andPure _
  | .unary op _ operand, depth => by
    simp only [inferExpr]
    split
    · exact .pure _
    · exact (expr_fills operand _).andPure _

theorem list_fills : ∀ (es : List Expr) (depth : Nat),
    Fills s (Expr.sitesOf es) (inferList s es depth)
  | [], _ => .pure _
  | e :: rest, depth => by
    have hrest : Fills s (Expr.sitesOf (e :: rest)) (inferList s rest depth) :=
      (list_fills rest depth).behind
    have hcons : Fills s (Expr.sitesOf (e :: rest)) (do
        let value ← inferExpr s e (depth + 1)
        return value :: (← inferList s rest depth)) :=
      .bind (expr_fills e _) fun _ => (list_fills rest depth).andPure _
    cases e <;> first | exact hrest | exact hcons

theorem fields_fills : ∀ (fields : List Field) (depth : Nat) (members : Members),
    Fills s (Field.sitesOf fields) (inferFields s fields depth members)
  | [], _, _ => .pure _
  | .positional value :: rest, depth, members | .unnamed value :: rest, depth, members => by
    simp only [inferFields]
    exact .bind (expr_fills value _) fun _ => fields_fills rest depth members
  | .computed key value :: rest, depth, members => by
    simp only [inferFields]
    refine .bind (expr_fills key _) fun _ => ?_
    exact .bind (expr_fills value _) fun _ => fields_fills rest depth members
  | .named comments span key value :: rest, depth, members => by
    simp only [inferFields]
    refine .bindBetween (c := [.name key]) (expr_fills value _) fun found b => ?_
    let x := Binder.newSymbol s b key (.ofTy found.ty .field) span found false
      (Comment.doc? s.source.lines span.start comments)
    have hmember : Binder.Fills s [.name key] b ((b.addMember x).adoptMembers x.id) :=
      (b.fills_addMember s (b.spot_newSymbol s key _ _ _ _ _)).andSame
        ((Binder.spotsLaws s).adopt x.id _)
    exact hmember.trans (fields_fills rest depth (members.insert key.name x.id) _)

theorem setmetatable_fills : ∀ (arguments : List Expr) (depth : Nat),
    Fills s (Expr.sitesOf arguments) (inferSetmetatable s arguments depth)
  | [], _ => .pure _
  | target :: rest, depth => by
    have hrest : Fills s (Expr.sitesOf (target :: rest)) (inferSetmetatable s rest depth) :=
      (setmetatable_fills rest depth).behind
    have hcons : Fills s (Expr.sitesOf (target :: rest)) (do
        let target ← inferExpr s target (depth + 1)
        let prototype ← inferMetatable s rest depth
        fun b => b.attachPrototype target prototype) :=
      .bind (expr_fills target _) fun found =>
        (metatable_fills rest depth).andSame ((Binder.spotsLaws s).attachPrototype found)
    cases target <;> first | exact hrest | exact hcons

theorem metatable_fills : ∀ (arguments : List Expr) (depth : Nat),
    Fills s (Expr.sitesOf arguments) (inferMetatable s arguments depth)
  | [], _ => .pure _
  | metatable :: rest, depth => by
    have hrest : Fills s (Expr.sitesOf (metatable :: rest)) (inferMetatable s rest depth) :=
      (metatable_fills rest depth).behind
    have hcons : Fills s (Expr.sitesOf (metatable :: rest)) (do
        let value ← inferExpr s metatable (depth + 1)
        let _ ← inferList s rest depth
        pure (value.alias.map PrototypeOver.metatable)) :=
      .bind (expr_fills metatable _) fun _ => (list_fills rest depth).andPure _
    cases metatable with
    | global => exact hrest
    | table fields =>
      exact .bind (fields_fills fields _ _) fun _ => (list_fills rest depth).andPure _
    | _ => exact hcons

theorem block_fills : ∀ (block : Option Block) (depth : Nat),
    Fills s (Block.sites? block) (visitBlock s block depth)
  | none, _ => .pure _
  | some (.mk _ statements), depth => by
    simp only [visitBlock]
    split
    · exact .pure _
    · exact statements_fills statements _

theorem scoped_fills (kind : ScopeKind) : ∀ (block : Option Block) (depth : Nat),
    Fills s (Block.sites? block) (visitScoped s kind block depth)
  | none, _ => .pure _
  | some (.mk span statements), depth => by
    simp only [visitScoped]
    refine within_fills ?_ kind span
    split
    · exact .pure _
    · exact statements_fills statements _

theorem statements_fills : ∀ (statements : List Statement) (depth : Nat),
    Fills s (Statement.sitesOf statements) (visitStatements s statements depth)
  | [], _ => .pure _
  | .mk comments span node :: rest, depth => by
    simp only [visitStatements]
    split
    · exact .bind (statement_fills node span _ depth) fun _ => statements_fills rest depth
    · exact (statements_fills rest depth).behind

theorem statement_fills : ∀ (node : StatementNode) (span : Span) (doc : Option String)
    (depth : Nat), Fills s node.sites (visitStatement s node span doc depth)
  | .empty, _, _, _ | .label, _, _, _ | .goto, _, _, _ | .break, _, _, _ => .pure _
  | .declare _ _ names values, span, doc, depth => by
    have hnames : ∀ found, Fills s (names.map (.name ·.ident))
        (modify (Binder.declareLocals s span doc (names.map AttributedName.ident) found)) := by
      intro found b
      have hfills := Binder.fills_declareLocals s span doc (names.map AttributedName.ident) found b
      rwa [List.map_map] at hfills
    cases values with
    | none => exact hnames []
    | some values => exact .bindBack (list_fills values depth) hnames
  | .implicitGlobals none, _, _, _ => .pure _
  | .implicitGlobals (some (name, _)), _, _, depth => (name_fills name (depth + 2)).andPure _
  | .assign targets values, span, doc, depth =>
    .bindBack (list_fills values depth) fun found => targets_fills targets found span doc depth
  | .function reach name (.mk parameters block stop), span, doc, depth => by
    simp only [visitStatement]
    have hname : Fills s (name.path.map .name) (fun b => b.declareFunction s reach name span
        parameters.names doc : Walk σ Binder.Defined) :=
      Binder.fills_declareFunction s reach name span parameters.names doc
    refine hname.bind fun defined => ?_
    exact .andSame (function_fills parameters (block_fills block _) stop _ defined.container)
      fun returns => (Binder.spotsLaws s).finishFunction defined.symbol returns
  | .do body, span, _, depth => by
    simp only [visitStatement]
    split
    · exact within_fills (block_fills body _) .block span
    · exact .pure _
  | .while condition body, _, _, depth =>
    .bind (expr_fills condition _) fun _ => scoped_fills .loop body depth
  | .repeat body condition, span, _, depth =>
    within_fills (.bind (block_fills body _) fun _ => (expr_fills condition _).andPure _)
      .loop span
  | .if condition body rest none, _, _, depth => by
    refine .bind (expr_fills condition _) fun _ => ?_
    refine .bind (scoped_fills .block body depth) fun _ => ?_
    exact (elseIfs_fills rest depth).andPure _
  | .if condition body rest (some block), _, _, depth => by
    refine .bind (expr_fills condition _) fun _ => ?_
    refine .bind (scoped_fills .block body depth) fun _ => ?_
    exact .bind (elseIfs_fills rest depth) fun _ => scoped_fills .block block depth
  | .numericFor counter start limit step body, span, _, depth => by
    have hloop := loop_fills (s := s) [counter] (block_fills body (depth + 1)) .number span
    cases step with
    | none =>
      exact .bindBetween (c := [.name counter]) (expr_fills start _) fun _ =>
        .bindBetween (c := [.name counter]) (expr_fills limit _) fun _ => hloop
    | some step =>
      exact .bindBetween (c := [.name counter]) (expr_fills start _) fun _ =>
        .bindBetween (c := [.name counter]) (expr_fills limit _) fun _ =>
          .bindBetween (c := [.name counter]) (expr_fills step _) fun _ => hloop
  | .genericFor names values body, span, _, depth => by
    have hloop := loop_fills (s := s) names (block_fills body (depth + 1)) .unknown span
    exact .bindBetween (list_fills values depth) fun _ => hloop
  | .return none, _, _, _ => .pure _
  | .return (some values), _, _, depth => by
    refine .andSame (list_fills values depth) fun found b => ?_
    cases found with
    | nil => rfl
    | cons first _ => exact Binder.spots_noteReturn b first
  | .call call, _, _, depth => (expr_fills call _).andPure _

theorem elseIfs_fills : ∀ (rest : List ElseIf) (depth : Nat),
    Fills s (ElseIf.sitesOf rest) (visitElseIfs s rest depth)
  | [], _ => .pure _
  | .mk condition body :: rest, depth => by
    simp only [visitElseIfs]
    refine .bind (expr_fills condition _) fun _ => ?_
    exact .bind (scoped_fills .block body depth) fun _ => elseIfs_fills rest depth

theorem targets_fills : ∀ (targets : List Expr) (values : List Inferred) (span : Span)
    (doc : Option String) (depth : Nat),
    Fills s (Expr.sitesOf targets) (assignTargets s targets values span doc depth)
  | [], _, _, _, _ => .pure _
  | target :: rest, values, span, doc, depth => by
    have hrest := fun values => targets_fills rest values span doc depth
    cases target with
    | global => exact hrest values
    | name ident =>
      have hassign : Fills s [.name ident]
          (modify (Binder.assignName s ident span (values.headD {}) doc)) :=
        Binder.fills_assignName s ident span _ doc
      exact hassign.bind fun _ => hrest values.tail
    | field base key =>
      simp only [assignTargets]
      split
      · rename_i path hpath
        exact (define_fills hpath _ span _ doc).bind fun _ => hrest values.tail
      · exact ((expr_fills base (depth + 1)).front (c := [.name key])).bind fun _ =>
          hrest values.tail
    | _ => exact (expr_fills _ (depth + 1)).bind fun _ => hrest values.tail

end

end Walk

end LuaScope

import LuaScope.Proofs.Binding.Coupled
import LuaScope.Proofs.Linking.Build
import LuaScope.Proofs.Scoping.Continued

/-!
# LuaScope.Proofs.Scoping.Appended

Statements that are added at the end of a text change nothing above them.

* `Chunk.walked_continues` — the walk over the longer text goes on behind the state that the walk
  over the shorter one ends in, up to what is read off the text (`Chunk.walked_alike`).
* `Index.append_keeps`     — so symbols, scopes and references stay, and a reference to a single
  name that leads somewhere leads there still.
-/

namespace LuaScope

variable {σ : Type}

/-! ## Walks over more statements -/

theorem Statement.sitesOf_append (front behind : List Statement) :
    Statement.sitesOf (front ++ behind) =
      Statement.sitesOf front ++ Statement.sitesOf behind := by
  induction front with
  | nil => rfl
  | cons statement front ih =>
    obtain ⟨comments, span, node⟩ := statement
    simp only [List.cons_append, Statement.sitesOf, ih, List.append_assoc]

theorem Walk.visitStatements_append (s : Setting σ) (front behind : List Statement) (depth : Nat)
    (b : Binder σ) : (Walk.visitStatements s (front ++ behind) depth b).2 =
      (Walk.visitStatements s behind depth (Walk.visitStatements s front depth b).2).2 := by
  induction front generalizing b with
  | nil =>
    simp only [Walk.visitStatements]
    rfl
  | cons statement front ih =>
    obtain ⟨comments, span, node⟩ := statement
    simp only [List.cons_append, Walk.visitStatements]
    by_cases hdepth : depth ≤ maxDepth
    · simp only [if_pos hdepth]
      exact ih _
    · simp only [if_neg hdepth]
      exact ih _

/-- What is new stands at the sites that were filled. -/
theorem Binder.Fills.start_mem {s : Setting σ} {sites : List Site} {b b' : Binder σ}
    (h : Binder.Fills s sites b b') (hextends : b.Extends b') :
    (∀ e ∈ b'.table.entries.drop b.table.nextSymbolId, e.span.start ∈ sites.map Site.start) ∧
      ∀ r ∈ b'.references.toList.drop b.references.size,
        r.span.start ∈ sites.map Site.start := by
  obtain ⟨cores, hcores⟩ := hextends.cores
  obtain ⟨references, hreferences⟩ := hextends.references
  have hspots : ∀ b : Binder σ, b.spots = b.table.cores.map SymbolOver.spot ++
      b.references.toList.map ReferenceOver.spot := by
    intro b
    rw [Binder.spots, SymbolTableOver.cores, List.map_map]
    rfl
  have hsite : ∀ m, 0 < (cores.map SymbolOver.spot).count m +
      (references.map ReferenceOver.spot).count m → m.span.start ∈ sites.map Site.start := by
    intro m hpos
    have hcount := h m
    rw [hspots, hspots, ← hcores, ← hreferences] at hcount
    simp only [List.map_append, List.count_append] at hcount
    have hmem : m ∈ sites.map (Site.spot s.source) := List.count_pos_iff.mp (by omega)
    obtain ⟨site, hsite, rfl⟩ := List.mem_map.mp hmem
    refine List.mem_map.mpr ⟨site, hsite, ?_⟩
    cases site <;> rfl
  constructor
  · intro e he
    rw [SymbolTableOver.entries_eq_cores, ← hcores, List.map_append,
      List.drop_left' (by rw [List.length_map, SymbolTableOver.length_cores])] at he
    obtain ⟨x, hx, rfl⟩ := List.mem_map.mp he
    exact hsite x.spot (Nat.add_pos_left (List.count_pos_iff.mpr (List.mem_map_of_mem hx)) _)
  · intro r hr
    rw [← hreferences, List.drop_left' Array.length_toList] at hr
    exact hsite r.spot (Nat.add_pos_right _ (List.count_pos_iff.mpr (List.mem_map_of_mem hr)))

namespace Chunk

variable {chunk chunk' : Chunk} {behind : List Statement}

theorem sites_append (h : chunk'.statements = chunk.statements ++ behind) :
    chunk'.sites = chunk.sites ++ Statement.sitesOf behind := by
  unfold sites
  rw [h, Statement.sitesOf_append]

theorem walked_append (h : chunk'.statements = chunk.statements ++ behind) (s : Setting σ)
    (world : σ) : chunk'.walked s world =
      (Walk.visitStatements s behind 1 (chunk.walked s world)).2 := by
  unfold walked
  rw [h, Walk.visitStatements_append]

/-- Only what is read off the text depends on the text. -/
theorem walked_alike (chunk : Chunk) (s : Setting σ) (source : Source) (world : σ) :
    (chunk.walked s world).Alike (chunk.walked (s.over source) world) :=
  (Walk.statements_couples s source chunk.statements 1 _ _ (.start s.source source world)).2

theorem walked_ordered (chunk : Chunk) (s : Setting σ) (world : σ) :
    (chunk.walked s world).Ordered :=
  (Walk.statements_moves (Binder.orderedLaws s) chunk.statements 1 _).2.2 (.start s.source world)

/-- Symbols and references stand at sites. -/
theorem walked_start_mem (chunk : Chunk) (s : Setting σ) (world : σ) :
    (∀ e ∈ (chunk.walked s world).table.entries, e.span.start ∈ chunk.sites.map Site.start) ∧
      ∀ r ∈ (chunk.walked s world).references, r.span.start ∈ chunk.sites.map Site.start := by
  have hextends : (Binder.start s.source world).Extends (chunk.walked s world) :=
    (Walk.statements_moves (Binder.continuesLaws s) chunk.statements 1 _).1
  have hfills := Walk.statements_fills (s := s) chunk.statements 1 (.start s.source world)
  obtain ⟨hentries, hreferences⟩ := hfills.start_mem hextends
  exact ⟨hentries, fun r hr => hreferences r (Array.mem_toList_iff.mpr hr)⟩

/-- What the further statements declare stands behind all sites of those in front. -/
theorem walked_newBehind {cs : List Char} (hwhole : Chunk.ofChars? cs = some chunk')
    (h : chunk'.statements = chunk.statements ++ behind) (s : Setting σ) (world : σ) {p : Nat}
    (hp : p ∈ chunk.sites.map Site.start) :
    (chunk.walked s world).NewBehind (chunk'.walked s world) p := by
  have hwalk := walked_append h s world
  have hextends := (Walk.statements_moves (Binder.continuesLaws s) behind 1
    (chunk.walked s world)).1
  have hfills := Walk.statements_fills (s := s) behind 1 (chunk.walked s world)
  obtain ⟨hentries, -⟩ := hfills.start_mem hextends
  have hascending := Chunk.sites_ascending hwhole
  rw [sites_append h] at hascending
  intro e he
  rw [hwalk] at he
  obtain ⟨site, hsite, rfl⟩ := List.mem_map.mp hp
  obtain ⟨site', hsite', heq⟩ := List.mem_map.mp (hentries e he)
  rw [← heq]
  exact (List.pairwise_append.mp hascending).2.2 site hsite site' hsite'

theorem walked_continues {cs : List Char} (hwhole : Chunk.ofChars? cs = some chunk')
    (h : chunk'.statements = chunk.statements ++ behind) (s : Setting σ) (world : σ) :
    (chunk.walked s world).Continues (chunk'.walked s world) := by
  have hroot : (chunk.walked s world).scope = SymbolTableOver.rootId :=
    (Walk.statements_moves (Binder.orderedLaws s) chunk.statements 1 (.start s.source world)).1
  have hlater : Binder.Later (chunk.walked s world) (chunk'.walked s world) := fun e he =>
    walked_newBehind hwhole h s world ((chunk.walked_start_mem s world).1 e he)
  rw [walked_append h] at hlater ⊢
  exact (Walk.statements_moves (Binder.continuesLaws s) behind 1 _).2 _
    (chunk.walked_ordered s world) hlater (.refl hroot)

end Chunk

/-! ## The texts of references -/

/-- The reference stands for a path, which this part of the text spells. -/
structure Reference.StandsFor (r : Reference) (front word rest : List Char) (path : List Ident) :
    Prop where
  spelled : PathText word path
  anchor : r.anchor = byteLength front
  stop : r.span.stop = byteLength front + byteLength word
  text : r.text = String.ofList (word.filter fun c => !isBlank c)
  head : path.head?.map (·.span.start) = some r.anchor
  last : path.getLast?.map (·.span) = some r.span
  names : ∀ segment ∈ path, ∀ c ∈ segment.name.toList, isNameChar c = true

namespace Reference.StandsFor

variable {r r' : Reference} {front front' word word' rest rest' : List Char}
  {path path' : List Ident}

/-- Text behind the reference does not matter. -/
theorem text_eq (h : r.StandsFor front word rest path) (h' : r'.StandsFor front' word' rest' path')
    {behind : List Char} (hchars : front ++ (word ++ rest) ++ behind = front' ++ (word' ++ rest'))
    (hanchor : r'.anchor = r.anchor) (hstop : r'.span.stop = r.span.stop) : r'.text = r.text := by
  have hfront : byteLength front' = byteLength front := by
    rw [← h'.anchor, ← h.anchor, hanchor]
  have hword : byteLength front' + byteLength word' = byteLength front + byteLength word := by
    rw [← h'.stop, ← h.stop, hstop]
  have hsplit : front' ++ (word' ++ rest') = front ++ (word ++ (rest ++ behind)) := by
    simpa using hchars.symm
  have hslice := slice_append front' word' rest'
  rw [hsplit, hword, hfront, slice_append] at hslice
  rw [h.text, h'.text, hslice]

/-- Without a mark in the text the path is a single name. -/
theorem single (h : r.StandsFor front word rest path)
    (hsingle : ∀ c ∈ r.text.toList, c ≠ '.' ∧ c ≠ ':') :
    r.anchor = r.span.start ∧ (splitPath r.text = [] ∨ ∃ name, splitPath r.text = [name]) := by
  obtain ⟨last, hlast, hspan⟩ := Option.map_eq_some_iff.mp h.last
  obtain ⟨before, rfl⟩ := List.getLast?_eq_some_iff.mp hlast
  have hbefore : before = [] := by
    by_contra hne
    obtain ⟨c, hc, hmark⟩ := h.spelled.mark_mem hne
    have hkept : c ∈ r.text.toList := by
      rw [h.text, String.toList_ofList, List.mem_filter]
      exact ⟨hc, by rcases hmark with rfl | rfl <;> decide⟩
    rcases hmark with rfl | rfl
    · exact (hsingle _ hkept).1 rfl
    · exact (hsingle _ hkept).2 rfl
  subst hbefore
  have hanchor : last.span.start = r.anchor := Option.some.inj h.head
  have htext : r.text = withoutBlanks last.name := by
    rw [h.text, h.spelled.eq_name]
    rfl
  refine ⟨by rw [← hanchor, hspan], ?_⟩
  rw [htext, splitPath_withoutBlanks (h.names last (List.mem_singleton.mpr rfl))]
  split
  · exact .inl rfl
  · exact .inr ⟨_, rfl⟩

end Reference.StandsFor

/-- A reference to a single name without a target leads where a lookup leads by then. -/
theorem Binder.resolveLate_single (b : Binder σ) {r : Reference} {name : String}
    (hnone : r.target = none) (hpath : splitPath r.text = [name]) :
    (b.resolveLate r).target = (b.table.lookup r.scope name r.anchor).map .here := by
  unfold resolveLate
  rw [if_neg (by simp [hnone]), hpath]
  simp only [List.foldl_nil, Option.map_map]
  rfl

namespace Chunk

variable {chunk : Chunk} {text : String}

theorem walked_standsFor (htext : Chunk.ofChars? text.toList = some chunk) {s : Setting σ}
    (hsource : s.source = .ofString text) {world : σ} {r : Reference}
    (hr : r ∈ (chunk.walked s world).references) :
    ∃ front word rest path, text.toList = front ++ (word ++ rest) ∧
      r.StandsFor front word rest path := by
  have hchars : s.source.chars = text.toList := by
    rw [hsource]
    rfl
  obtain ⟨ls, hls, hlexemes⟩ := Chunk.ofChars?_eq_some_iff.mp htext
  rw [← hchars] at hls
  have hloads : ∀ name {w : σ}, True → True ∧
      ∀ o, (s.loader name w).1 = some o → Demand.none.strict → Demand.none.holds o :=
    fun _ _ _ => ⟨trivial, fun _ _ h => h.elim⟩
  let c : Regime σ := Regime.ofText s Demand.met_none hloads hls
  have hcovers : c.Covers chunk.passages := fun path hpath =>
    Chunk.passages_written hlexemes _ hpath
  have hsound : (chunk.walked s world).Sound c :=
    (Walk.statements_sound (c := c) chunk.statements 1 hcovers _
      (Binder.Sound.start c s.source trivial) (.refl _)).1.sound
  obtain ⟨-, path, first, last, hrecords⟩ := hsound.references r hr
  have hwritten : Written ls (.path path) := hrecords.written
  obtain ⟨front, word, rest, first', last', hsplit, hspelled, hfirst, hlast, hstart, hstop⟩ :=
    hwritten.stretch hls
  obtain rfl := Option.some.inj (hrecords.head.symm.trans hfirst)
  obtain rfl := Option.some.inj (hrecords.getLast.symm.trans hlast)
  refine ⟨front, word, rest, path, hchars ▸ hsplit, hspelled, ?_, ?_, ?_, ?_, ?_, ?_⟩
  · rw [hrecords.anchor, hstart]
  · rw [hrecords.span, hstop]
  · have hslice := slice_append front word rest
    rw [← hsplit, ← hstop, ← hstart] at hslice
    rw [hrecords.text]
    exact congrArg (fun cs => String.ofList (cs.filter fun c => !isBlank c)) hslice
  · rw [hrecords.head, hrecords.anchor]
    rfl
  · rw [hrecords.getLast, hrecords.span]
    rfl
  · exact fun segment hsegment => (hwritten.slice hls segment hsegment).2.1

end Chunk

/-! ## References to a single name -/

namespace Binder

variable {b b₀ b' : Binder σ} {q q₀ : Reference}

/-- States alike lead a reference to the same target. -/
theorem Alike.resolveLate_target (h : b.Alike b₀) (hq : q₀.bare = q.bare) (htext : q₀.text = q.text)
    (hpath : splitPath q.text = [] ∨ ∃ name, splitPath q.text = [name]) :
    (b.resolveLate q).target = (b₀.resolveLate q₀).target := by
  obtain ⟨-, hscope, hanchor, htarget⟩ := ReferenceOver.of_bare_eq hq
  cases hnone : q.target with
  | some link =>
    have hsome := htarget.trans hnone
    rw [resolveLate_of_target (by simp [hnone]), resolveLate_of_target (by simp [hsome]), htarget]
  | none =>
    have hnone₀ := htarget.trans hnone
    obtain hpath | ⟨name, hpath⟩ := hpath
    · have hpath₀ : splitPath q₀.text = [] := htext ▸ hpath
      unfold resolveLate
      rw [hpath, hpath₀]
      simp [htarget]
    · rw [b.resolveLate_single hnone hpath, b₀.resolveLate_single hnone₀ (htext ▸ hpath),
        h.lookup, hscope, hanchor]

/-- A target in front of all that is new stays. -/
theorem Continues.resolveLate_target (h : Continues b₀ b') (hb₀ : b₀.Ordered)
    (hq : q ∈ b₀.references) (hnew : b₀.NewBehind b' q.anchor)
    (hpath : splitPath q.text = [] ∨ ∃ name, splitPath q.text = [name])
    (hsome : (b₀.resolveLate q).target.isSome = true) :
    (b'.resolveLate q).target = (b₀.resolveLate q).target := by
  cases hnone : q.target with
  | some link =>
    rw [resolveLate_of_target (by simp [hnone]), resolveLate_of_target (by simp [hnone])]
  | none =>
    obtain hpath | ⟨name, hpath⟩ := hpath
    · simp only [resolveLate, hnone, hpath]
    · rw [b₀.resolveLate_single hnone hpath] at hsome ⊢
      rw [Option.isSome_map] at hsome
      obtain ⟨id, hid⟩ := Option.isSome_iff_exists.mp hsome
      rw [b'.resolveLate_single hnone hpath, hid,
        h.lookup hb₀ hnew (hb₀.references q hq) hid]

end Binder

namespace Chunk

variable {chunk chunk' : Chunk} {behind : List Statement} {text more : String}

/-- Each reference of the front is in the whole, and leads where it led. -/
theorem walked_reference (hfront : Chunk.ofChars? text.toList = some chunk)
    (hwhole : Chunk.ofChars? (text ++ more).toList = some chunk')
    (h : chunk'.statements = chunk.statements ++ behind) {s s' : Setting σ}
    (hsource : s.source = .ofString text) (hover : s' = s.over (.ofString (text ++ more)))
    (world : σ) {k : Nat} {q : Reference} (hq : (chunk.walked s world).references[k]? = some q) :
    ∃ q', (chunk'.walked s' world).references[k]? = some q' ∧ q'.bare = q.bare ∧
      q'.text = q.text ∧ ((∀ c ∈ q.text.toList, c ≠ '.' ∧ c ≠ ':') →
        ((chunk.walked s world).resolveLate q).target.isSome = true →
        ((chunk'.walked s' world).resolveLate q').target =
          ((chunk.walked s world).resolveLate q).target) := by
  have hsource' : s'.source = .ofString (text ++ more) := by rw [hover]; rfl
  have halike : (chunk.walked s world).Alike (chunk.walked s' world) :=
    hover ▸ chunk.walked_alike s _ world
  have hcontinues := walked_continues hwhole h s' world
  obtain ⟨q', hq₀, hbare⟩ := halike.reference? hq
  have hq' := hcontinues.toExtends.reference? hq₀
  obtain ⟨hspan, -, hanchor, -⟩ := ReferenceOver.of_bare_eq hbare
  obtain ⟨front, word, rest, path, hchars, hstands⟩ :=
    walked_standsFor hfront hsource (Array.mem_of_getElem? hq)
  obtain ⟨front', word', rest', path', hchars', hstands'⟩ :=
    walked_standsFor hwhole hsource' (Array.mem_of_getElem? hq')
  have hsplit : front ++ (word ++ rest) ++ more.toList = front' ++ (word' ++ rest') := by
    rw [← hchars, ← hchars', String.toList_append]
  have htext := hstands.text_eq hstands' hsplit hanchor (congrArg Span.stop hspan)
  refine ⟨q', hq', hbare, htext, fun hsingle hsome => ?_⟩
  obtain ⟨hstart, hpath⟩ := hstands.single hsingle
  have hmem := Array.mem_of_getElem? hq₀
  have hplace : q'.anchor ∈ chunk.sites.map Site.start := by
    rw [hanchor, hstart, ← hspan]
    exact (chunk.walked_start_mem s' world).2 q' hmem
  rw [halike.resolveLate_target hbare htext hpath] at hsome ⊢
  exact hcontinues.resolveLate_target (chunk.walked_ordered s' world) hmem
    (walked_newBehind hwhole h s' world hplace) (htext ▸ hpath) hsome

end Chunk

/-! ## Longer texts -/

/--
All that the first index knows is in the second one, under the same numbers: symbols with their
names, places and scopes, scopes with those around them, references, and the targets of references
to a single name. What a symbol is a member of, and what is behind the first name of a path, may
become known later.
-/
structure Index.Keeps (i i' : Index) : Prop where
  symbols : ∀ {id x}, i.symbol? id = some x → ∃ x', i'.symbol? id = some x' ∧ x'.id = x.id ∧
    x'.name = x.name ∧ x'.scope = x.scope ∧ x'.span = x.span ∧ x'.isLocal = x.isLocal
  scopes : ∀ {id s}, i.table.scope? id = some s → ∃ s', i'.table.scope? id = some s' ∧
    s'.id = s.id ∧ s'.kind = s.kind ∧ s'.parent = s.parent
  references : ∀ {k : Nat} {r}, i.references[k]? = some r → ∃ r', i'.references[k]? = some r' ∧
    r'.text = r.text ∧ r'.span = r.span ∧ r'.scope = r.scope ∧ r'.anchor = r.anchor ∧
    ((∀ c ∈ r.text.toList, c ≠ '.' ∧ c ≠ ':') → r.target.isSome = true → r'.target = r.target)

/-- What stands behind `print(x) x = 1`, in statements that begin so. -/
def afterAssignment? : List Statement → Option (List Statement)
  | .mk [] ⟨0, 8⟩ (.call (.call (.name ⟨"print", ⟨0, 5⟩⟩) none [.name ⟨"x", ⟨6, 7⟩⟩])) ::
      .mk [] ⟨9, 14⟩ (.assign [.name ⟨"x", ⟨9, 10⟩⟩] [.number]) :: more => some more
  | _ => none

theorem eq_append_of_afterAssignment? {front whole more : List Statement}
    (h : afterAssignment? front = some []) (h' : afterAssignment? whole = some more) :
    whole = front ++ more := by
  unfold afterAssignment? at h h'
  split at h
  · split at h'
    · cases h
      cases h'
      rfl
    · cases h'
  · cases h

/--
Code below never changes what names above mean: where a text is followed by more statements, the
index of the whole keeps all that the index of the front alone knows.
-/
theorem Index.append_keeps {front behind : String} {chunk chunk' : Chunk} {more : List Statement}
    (hfront : Chunk.ofChars? front.toList = some chunk)
    (hwhole : Chunk.ofChars? (front ++ behind).toList = some chunk')
    (hmore : chunk'.statements = chunk.statements ++ more) (document : DocumentId)
    (revision revision' : Revision) (options : ParserOptions) (loader : Loader σ) (world : σ) :
    (Index.build document revision front options loader world).1.Keeps
      (Index.build document revision' (front ++ behind) options loader world).1 := by
  let s : Setting σ := ⟨.ofString front, document, options.allowDefined, loader⟩
  let s' : Setting σ := ⟨.ofString (front ++ behind), document, options.allowDefined, loader⟩
  have halike : (chunk.walked s world).Alike (chunk.walked s' world) :=
    chunk.walked_alike s (.ofString (front ++ behind)) world
  have hcontinues : (chunk.walked s' world).Continues (chunk'.walked s' world) :=
    Chunk.walked_continues hwhole hmore s' world
  obtain ⟨htable, hreferences, -⟩ :=
    Index.build_walked hfront document revision options loader world
  obtain ⟨htable', hreferences', -⟩ :=
    Index.build_walked hwhole document revision' options loader world
  constructor
  case symbols =>
    intro id x hx
    rw [Index.symbol?, htable] at hx
    rw [Index.symbol?, htable']
    obtain ⟨x₀, hx₀, hbare⟩ := halike.symbol? hx
    obtain ⟨x', hx', hcore⟩ := hcontinues.toExtends.symbol? hx₀
    have hsame : x'.core.bare = x.core.bare :=
      (congrArg SymbolOver.bare hcore).trans (congrArg SymbolOver.core hbare)
    refine ⟨x', hx', ?_⟩
    simp only [SymbolOver.core, SymbolOver.bare, SymbolOver.mk.injEq] at hsame
    tauto
  case scopes =>
    intro id sc hsc
    rw [htable] at hsc
    rw [htable']
    obtain ⟨sc₀, hsc₀, hbare⟩ := halike.scope? hsc
    obtain ⟨sc', hsc', hkept⟩ := hcontinues.scopes hsc₀
    obtain ⟨hid, hkind, hparent⟩ := Scope.of_bare_eq hbare
    exact ⟨sc', hsc', hkept.id.trans hid, hkept.kind.trans hkind, hkept.parent.trans hparent⟩
  case references =>
    intro k r hr
    rw [hreferences, Array.getElem?_map] at hr
    rw [hreferences', Array.getElem?_map]
    obtain ⟨q, hq, rfl⟩ := Option.map_eq_some_iff.mp hr
    obtain ⟨q', hq', hbare, htext, htarget⟩ :=
      Chunk.walked_reference hfront hwhole hmore (rfl : s.source = _) (rfl : s' = _) world hq
    obtain ⟨hspan, hscope, hanchor, -⟩ := ReferenceOver.of_bare_eq hbare
    obtain ⟨target, hlate⟩ := (chunk.walked s world).resolveLate_eq q
    obtain ⟨target', hlate'⟩ := (chunk'.walked s' world).resolveLate_eq q'
    refine ⟨(chunk'.walked s' world).resolveLate q', congrArg (Option.map _) hq', ?_⟩
    rw [hlate, hlate'] at htarget ⊢
    exact ⟨htext, hspan, hscope, hanchor, htarget⟩

/-- The global is used above its assignment, and a local of its name follows below. -/
theorem Index.append_keeps_of_shadow :
    let front := "print(x) x = 1 "
    let behind := "local x = 2"
    let i := (Index.build ⟨"a"⟩ 0 front {} Loader.none ()).1
    ∃ chunk chunk' more, Chunk.ofChars? front.toList = some chunk ∧
      Chunk.ofChars? (front ++ behind).toList = some chunk' ∧
      chunk'.statements = chunk.statements ++ more ∧
      i.Keeps (Index.build ⟨"a"⟩ 1 (front ++ behind) {} Loader.none ()).1 ∧
      ∃ r ∈ i.references.toList, r.text = "x" ∧
        ∃ link ∈ r.target, link.isLocal = true ∧ link.id = 0 := by
  intro front behind i
  have hlate : ∃ r ∈ i.references.toList, r.text = "x" ∧
      ∃ link ∈ r.target, link.isLocal = true ∧ link.id = 0 := by decide +kernel
  have hparsed : (Chunk.ofChars? front.toList).isSome = true ∧
      (Chunk.ofChars? (front ++ behind).toList).isSome = true := by decide +kernel
  have hfront : ∀ chunk ∈ Chunk.ofChars? front.toList,
      (afterAssignment? chunk.statements).map List.length = some 0 := by decide +kernel
  have hwhole : ∀ chunk ∈ Chunk.ofChars? (front ++ behind).toList,
      (afterAssignment? chunk.statements).isSome = true := by decide +kernel
  obtain ⟨chunk, hchunk⟩ := Option.isSome_iff_exists.mp hparsed.1
  obtain ⟨chunk', hchunk'⟩ := Option.isSome_iff_exists.mp hparsed.2
  obtain ⟨nothing, hnothing, hlength⟩ := Option.map_eq_some_iff.mp (hfront chunk hchunk)
  rw [List.length_eq_zero_iff.mp hlength] at hnothing
  obtain ⟨more, hmore⟩ := Option.isSome_iff_exists.mp (hwhole chunk' hchunk')
  have hstatements := eq_append_of_afterAssignment? hnothing hmore
  exact ⟨chunk, chunk', more, hchunk, hchunk', hstatements,
    append_keeps hchunk hchunk' hstatements ⟨"a"⟩ 0 1 {} Loader.none (), hlate⟩

end LuaScope

import LuaScope.Proofs.Member.Closed
import Mathlib.Data.Set.Insert

/-!
# LuaScope.Proofs.Owner.Table

Who owns the symbols of a table. The owner of a symbol is its container; a member gets one when the
table that lists it is given to a symbol. Up to then it is known to the value alone that holds the
table, and that is why no owner is ever put below what it owns. Only a function may hand out a table
again and again: members that it returned without an owner are left out (`K` below), they count as
symbols without an owner for good.

* `TyOver.own`, `TyOver.listed`, `TyOver.mentioned` — the symbols of the document in a type.
* `SymbolTableOver.Island`  — a set that nothing leads out of, whose types list only owned members.
* `SymbolTableOver.Owner`   — one symbol owns the other.
* `SymbolTableOver.Spares`  — a change that touches nothing outside of a set.
-/

namespace LuaScope

/-! ## The symbols in a type -/

/-- The symbol, if it is one of this document. -/
def LinkOver.here? {ρ : Type} (link : LinkOver ρ) : Option SymbolId :=
  if link.isLocal then some link.id else none

namespace TyOver

variable {ρ : Type}

/-- Members of the value itself, if they are of this document. -/
def own : TyOver ρ → List SymbolId
  | .table t => if t.isForeign then [] else t.members.map Prod.snd
  | _ => []

/-- Members of the value, or of what calls of it answer. -/
def listed : TyOver ρ → List SymbolId
  | .function _ returns _ => returns.listed
  | ty => ty.own

/-- Symbols that a lookup in the value, or in what calls of it answer, may go on to. -/
def mentioned : TyOver ρ → List SymbolId
  | .table t =>
    if t.isForeign then []
    else t.members.map Prod.snd ++ (t.prototype.bind (·.link.here?)).toList
  | .function _ returns _ => returns.mentioned
  | _ => []

theorem own_subset_mentioned (ty : TyOver ρ) : ty.own ⊆ ty.mentioned := by
  cases ty with
  | table t =>
    simp only [own, mentioned]
    split
    · exact List.Subset.refl _
    · exact List.subset_append_left _ _
  | _ => exact List.nil_subset _

theorem listed_subset_mentioned (ty : TyOver ρ) : ty.listed ⊆ ty.mentioned := by
  induction ty with
  | function _ _ _ ih => exact ih
  | table t => exact own_subset_mentioned (.table t)
  | _ => exact List.nil_subset _

theorem own_subset_listed (ty : TyOver ρ) : ty.own ⊆ ty.listed := by
  cases ty with
  | table t => exact List.Subset.refl _
  | _ => exact List.nil_subset _

theorem mentioned_members (members : Members) :
    (TyOver.table { members := members } : TyOver ρ).mentioned = members.map Prod.snd := by
  simp [mentioned, TableOver.isForeign]

/-- A value that is kept in another document has no symbols of that one. -/
theorem mentioned_rebased (o : ρ) (ty : TyOver ρ) : (ty.rebased o).mentioned = [] := by
  induction ty with
  | function _ _ _ ih => exact ih
  | table t => cases horigin : t.origin <;> simp [rebased, mentioned, TableOver.isForeign, horigin]
  | _ => rfl

end TyOver

/-! ## Owners -/

/-- All that the symbol leads to is in `A`. -/
structure SymbolOver.Within (K A : Set SymbolId) (id : SymbolId) (x : Symbol) : Prop where
  ty : ∀ m ∈ x.ty.mentioned, m ∈ A
  «alias» : ∀ link, x.alias = some link → ∀ m ∈ link.here?, m ∈ A
  container : id ∉ K → ∀ o, x.container = some o → o ∈ A

theorem SymbolOver.Within.mono {K A B : Set SymbolId} {id : SymbolId} {x : Symbol}
    (h : SymbolOver.Within K A id x) (hsub : A ⊆ B) : SymbolOver.Within K B id x where
  ty m hm := hsub (h.ty m hm)
  «alias» link hlink m hm := hsub (h.alias link hlink m hm)
  container hK o ho := hsub (h.container hK o ho)

namespace SymbolTableOver

/-- The member has an owner, or needs none. -/
def Settled (K : Set SymbolId) (t : SymbolTable) (m : SymbolId) : Prop :=
  m ∈ K ∨ ∃ x, t.symbol? m = some x ∧ x.container ≠ none

/-- `o` is the container of `m`. -/
def Owns (t : SymbolTable) (o m : SymbolId) : Prop :=
  ∃ x, t.symbol? m = some x ∧ x.container = some o

/-- `o` owns `m`, which counts as a symbol with an owner. -/
def Owner (K : Set SymbolId) (t : SymbolTable) (o m : SymbolId) : Prop := m ∉ K ∧ t.Owns o m

def Encloses (K : Set SymbolId) (t : SymbolTable) (A : Set SymbolId) : Prop :=
  ∀ id ∈ A, ∃ x, t.symbol? id = some x ∧ SymbolOver.Within K A id x

/-- Nothing leads out of the set, and its types list only members that are settled. -/
structure Island (K : Set SymbolId) (t : SymbolTable) (A : Set SymbolId) : Prop where
  encloses : t.Encloses K A
  settles : ∀ id ∈ A, ∀ x, t.symbol? id = some x → ∀ m ∈ x.ty.listed, t.Settled K m

/-- What is outside of `A` is as it was, and outside of `H` as well. -/
structure Spares (A : Set SymbolId) (t : SymbolTable) (H : Set SymbolId) (t' : SymbolTable) :
    Prop where
  grows : A ⊆ H
  size : t.symbols.size ≤ t'.symbols.size
  outside : ∀ id x, t.symbol? id = some x → id ∉ A → t'.symbol? id = some x ∧ id ∉ H
  owned : ∀ id x, t.symbol? id = some x → x.container ≠ none →
    ∃ x', t'.symbol? id = some x' ∧ x'.container ≠ none

variable {K A B H H' : Set SymbolId} {t t' t'' : SymbolTable} {id o m : SymbolId} {x : Symbol}

theorem lt_of_symbol? (hx : t.symbol? id = some x) : id < t.symbols.size :=
  (Array.getElem?_eq_some_iff.mp hx).1

theorem Encloses.lt (h : t.Encloses K A) (hid : id ∈ A) : id < t.symbols.size :=
  let ⟨_, hx, _⟩ := h id hid
  lt_of_symbol? hx

theorem Encloses.within (h : t.Encloses K A) (hid : id ∈ A) (hx : t.symbol? id = some x) :
    SymbolOver.Within K A id x := by
  obtain ⟨y, hy, hwithin⟩ := h id hid
  rw [hx] at hy
  cases hy
  exact hwithin

/-- The owner of a symbol of an island is on it. -/
theorem Encloses.owner (h : t.Encloses K A) (hm : m ∈ A) (howner : t.Owner K o m) : o ∈ A := by
  obtain ⟨hK, x, hx, hcontainer⟩ := howner
  exact (h.within hm hx).container hK o hcontainer

namespace Spares

theorem refl (A : Set SymbolId) (t : SymbolTable) : t.Spares A A t :=
  ⟨subset_rfl, Nat.le_refl _, fun _ _ hx hid => ⟨hx, hid⟩, fun _ x hx hx' => ⟨x, hx, hx'⟩⟩

theorem settled (h : t.Spares A H t') (hm : t.Settled K m) : t'.Settled K m := by
  rcases hm with hK | ⟨x, hx, hcontainer⟩
  · exact .inl hK
  · exact .inr (h.owned m x hx hcontainer)

/-- What the second change touches is what the first one led to, or new. -/
theorem trans (h : t.Spares A H t') (h' : t'.Spares B H' t'') (hsub : H ⊆ B)
    (hnew : ∀ id ∈ B, id ∈ H ∨ t.symbols.size ≤ id) : t.Spares A H' t'' where
  grows := (h.grows.trans hsub).trans h'.grows
  size := Nat.le_trans h.size h'.size
  outside id x hx hid := by
    obtain ⟨hx', hH⟩ := h.outside id x hx hid
    refine h'.outside id x hx' fun hB => ?_
    rcases hnew id hB with hH' | hge
    · exact hH hH'
    · exact Nat.not_lt.mpr hge (lt_of_symbol? hx)
  owned id x hx hcontainer := by
    obtain ⟨x', hx', hcontainer'⟩ := h.owned id x hx hcontainer
    exact h'.owned id x' hx' hcontainer'

/-- A set that is spared stays where it is. -/
theorem union (h : t.Spares A H t') (B : Set SymbolId) : t.Spares (A ∪ B) (H ∪ B) t' where
  grows := Set.union_subset_union_left B h.grows
  size := h.size
  outside id x hx hid := by
    obtain ⟨hx', hH⟩ := h.outside id x hx fun hA => hid (.inl hA)
    exact ⟨hx', fun hunion => hunion.elim hH fun hB => hid (.inr hB)⟩
  owned := h.owned

end Spares

namespace Island

theorem empty (K : Set SymbolId) (t : SymbolTable) : t.Island K ∅ := ⟨nofun, nofun⟩

theorem union (h : t.Island K A) (h' : t.Island K B) : t.Island K (A ∪ B) where
  encloses id hid := by
    rcases hid with hid | hid
    · obtain ⟨x, hx, hwithin⟩ := h.encloses id hid
      exact ⟨x, hx, hwithin.mono Set.subset_union_left⟩
    · obtain ⟨x, hx, hwithin⟩ := h'.encloses id hid
      exact ⟨x, hx, hwithin.mono Set.subset_union_right⟩
  settles id hid x hx := hid.elim (h.settles id · x hx) (h'.settles id · x hx)

/-- Symbols that are spared stand with what has become of the others. -/
theorem spared (h : t.Island K (A ∪ B)) (hspares : t.Spares A H t') (hH : t'.Island K H)
    (hB : ∀ id ∈ B, id ∉ A) : t'.Island K (H ∪ B) := by
  have hsame : ∀ id ∈ B, ∃ x, t.symbol? id = some x ∧ t'.symbol? id = some x := fun id hid => by
    obtain ⟨x, hx, -⟩ := h.encloses id (.inr hid)
    exact ⟨x, hx, (hspares.outside id x hx (hB id hid)).1⟩
  constructor
  · rintro id (hid | hid)
    · obtain ⟨x, hx, hwithin⟩ := hH.encloses id hid
      exact ⟨x, hx, hwithin.mono Set.subset_union_left⟩
    · obtain ⟨x, hx, hx'⟩ := hsame id hid
      exact ⟨x, hx', (h.encloses.within (.inr hid) hx).mono
        (Set.union_subset_union_left B hspares.grows)⟩
  · rintro id (hid | hid) x hx
    · exact hH.settles id hid x hx
    · obtain ⟨y, hy, hy'⟩ := hsame id hid
      rw [hx] at hy'
      cases hy'
      exact fun m hm => hspares.settled (h.settles id (.inr hid) x hy m hm)

end Island

/-! ## Changes -/

/-- No new owner outside of `S`, and none for members of `S`: then no chain gets longer for good. -/
theorem wellFounded_of_core {r r' : SymbolId → SymbolId → Prop} (hr : WellFounded r)
    {S : Set SymbolId} (hin : ∀ m ∈ S, ∀ o, r' o m → r o m ∧ o ∈ S)
    (hout : ∀ m o, r' o m → r o m ∨ o ∈ S) : WellFounded r' := by
  have hcore : ∀ m, m ∈ S → Acc r' m := by
    intro m
    induction hr.apply m with
    | intro m _ ih =>
      exact fun hm => ⟨_, fun o ho => let ⟨hold, hS⟩ := hin m hm o ho; ih o hold hS⟩
  refine ⟨fun m => ?_⟩
  induction hr.apply m with
  | intro m _ ih => exact ⟨_, fun o ho => (hout m o ho).elim (ih o) (hcore o)⟩

/-- The symbols have the same containers. -/
def SameOwners (t t' : SymbolTable) : Prop :=
  ∀ id, (t'.symbol? id).map (·.container) = (t.symbol? id).map (·.container)

namespace SameOwners

theorem symbol (h : t.SameOwners t') (hx : t'.symbol? id = some x) :
    ∃ y, t.symbol? id = some y ∧ y.container = x.container := by
  have hid := h id
  rw [hx] at hid
  obtain ⟨y, hy, hcontainer⟩ := Option.map_eq_some_iff.mp hid.symm
  exact ⟨y, hy, hcontainer⟩

theorem symm (h : t.SameOwners t') : t'.SameOwners t := fun id => (h id).symm

theorem owner (h : t.SameOwners t') (howner : t'.Owner K o m) : t.Owner K o m := by
  obtain ⟨hK, x, hx, hcontainer⟩ := howner
  obtain ⟨y, hy, heq⟩ := h.symbol hx
  exact ⟨hK, y, hy, heq.trans hcontainer⟩

theorem settled (h : t.SameOwners t') (hm : t.Settled K m) : t'.Settled K m := by
  rcases hm with hK | ⟨x, hx, hcontainer⟩
  · exact .inl hK
  · obtain ⟨y, hy, heq⟩ := h.symm.symbol hx
    exact .inr ⟨y, hy, heq ▸ hcontainer⟩

theorem wellFounded (h : t.SameOwners t') (hwf : WellFounded (t.Owner K)) :
    WellFounded (t'.Owner K) :=
  wellFounded_of_core (S := ∅) hwf nofun fun _ _ howner => .inl (h.owner howner)

end SameOwners

section Modify

variable {f : Symbol → Symbol}

theorem sameOwners_modifySymbol (hf : ∀ x, (f x).container = x.container) :
    t.SameOwners (t.modifySymbol id f) := by
  intro id'
  rw [symbol?_modifySymbol]
  split
  · rw [Option.map_map]
    exact congrArg (Option.map · _) (funext hf)
  · rfl

theorem spares_modifySymbol (hf : ∀ x, (f x).container = x.container) (hid : id ∈ A) :
    t.Spares A A (t.modifySymbol id f) where
  grows := subset_rfl
  size := by
    unfold modifySymbol
    rw [Array.size_modify]
  outside id' x hx hA := by
    have hne : id ≠ id' := fun heq => hA (heq ▸ hid)
    rw [symbol?_modifySymbol, if_neg hne]
    exact ⟨hx, hA⟩
  owned id' x hx hcontainer := by
    obtain ⟨y, hy, heq⟩ := (sameOwners_modifySymbol (t := t) hf).symm.symbol hx
    exact ⟨y, hy, heq ▸ hcontainer⟩

theorem Encloses.modify (h : t.Encloses K A) (hf : ∀ x, (f x).container = x.container)
    (hfit : ∀ x, t.symbol? id = some x → id ∈ A → (∀ m ∈ (f x).ty.mentioned, m ∈ A) ∧
      ∀ link, (f x).alias = some link → ∀ m ∈ link.here?, m ∈ A) :
    (t.modifySymbol id f).Encloses K A := by
  intro id' hid'
  obtain ⟨x, hx, hwithin⟩ := h id' hid'
  rw [symbol?_modifySymbol, hx]
  split
  · rename_i heq
    cases heq
    obtain ⟨hty, halias⟩ := hfit x hx hid'
    exact ⟨f x, rfl, hty, halias, fun hK o ho => hwithin.container hK o (hf x ▸ ho)⟩
  · exact ⟨x, rfl, hwithin⟩

/-- Of all types on the island only that of the symbol changes. -/
theorem Island.modify (h : t.Island K A) (hf : ∀ x, (f x).container = x.container)
    (hfit : ∀ x, t.symbol? id = some x → id ∈ A → (∀ m ∈ (f x).ty.mentioned, m ∈ A) ∧
      ∀ link, (f x).alias = some link → ∀ m ∈ link.here?, m ∈ A)
    (hlisted : ∀ x, t.symbol? id = some x → id ∈ A → ∀ m ∈ (f x).ty.listed, t.Settled K m) :
    (t.modifySymbol id f).Island K A where
  encloses := h.encloses.modify hf hfit
  settles id' hid' y hy m hm := by
    refine (sameOwners_modifySymbol hf).settled ?_
    rw [symbol?_modifySymbol] at hy
    split at hy
    · rename_i heq
      cases heq
      obtain ⟨x, hx, rfl⟩ := Option.map_eq_some_iff.mp hy
      exact hlisted x hx hid' m hm
    · exact h.settles id' hid' y hy m hm

end Modify

section Push

variable (hpush : t'.symbols = t.symbols.push x)

include hpush

theorem symbol?_push (id : SymbolId) :
    t'.symbol? id = if id = t.symbols.size then some x else t.symbol? id := by
  rw [symbol?, hpush, Array.getElem?_push]
  rfl

theorem symbol?_push_of_lt (hid : id < t.symbols.size) : t'.symbol? id = t.symbol? id := by
  rw [symbol?_push hpush, if_neg (Nat.ne_of_lt hid)]

theorem spares_push (A : Set SymbolId) : t.Spares A (insert t.symbols.size A) t' where
  grows := Set.subset_insert _ _
  size := by rw [hpush, Array.size_push]; omega
  outside id y hy hA := by
    have hlt := lt_of_symbol? hy
    rw [symbol?_push_of_lt hpush hlt]
    exact ⟨hy, fun h => h.elim (Nat.ne_of_lt hlt) hA⟩
  owned id y hy hcontainer :=
    ⟨y, (symbol?_push_of_lt hpush (lt_of_symbol? hy)).trans hy, hcontainer⟩

theorem Encloses.push (h : t.Encloses K A)
    (hwithin : SymbolOver.Within K (insert t.symbols.size A) t.symbols.size x) :
    t'.Encloses K (insert t.symbols.size A) := by
  rintro id (rfl | hid)
  · exact ⟨x, by rw [symbol?_push hpush, if_pos rfl], hwithin⟩
  · obtain ⟨y, hy, hwithin'⟩ := h id hid
    exact ⟨y, (symbol?_push_of_lt hpush (lt_of_symbol? hy)).trans hy,
      hwithin'.mono (Set.subset_insert _ _)⟩

theorem settles_push (h : t.Island K A) :
    ∀ id ∈ A, ∀ y, t'.symbol? id = some y → ∀ m ∈ y.ty.listed, t'.Settled K m := by
  intro id hid y hy m hm
  rw [symbol?_push_of_lt hpush (h.encloses.lt hid)] at hy
  exact (spares_push hpush A).settled (h.settles id hid y hy m hm)

/-- A new symbol owns nothing; its own owner is on an island of the old table. -/
theorem wellFounded_push (hwf : WellFounded (t.Owner K)) (hA : t.Encloses K A)
    (hcontainer : ∀ o, x.container = some o → o ∈ A) : WellFounded (t'.Owner K) := by
  refine wellFounded_of_core (S := A) hwf (fun m hm o howner => ?_) fun m o howner => ?_
  · obtain ⟨hK, y, hy, hy'⟩ := howner
    rw [symbol?_push_of_lt hpush (hA.lt hm)] at hy
    have hold : t.Owner K o m := ⟨hK, y, hy, hy'⟩
    exact ⟨hold, hA.owner hm hold⟩
  · obtain ⟨hK, y, hy, hy'⟩ := howner
    rw [symbol?_push hpush] at hy
    split at hy
    · cases hy
      exact .inr (hcontainer o hy')
    · exact .inl ⟨hK, y, hy, hy'⟩

end Push

/-! ## Adoption -/

/-- `o` became the owner of those of the members that had none. -/
structure Adopts (o : SymbolId) (members : List SymbolId) (t t' : SymbolTable) : Prop where
  symbol : ∀ id, t'.symbol? id =
    (t.symbol? id).map fun x => if id ∈ members then Binder.ownedBy o x else x
  size : t'.symbols.size = t.symbols.size

theorem container_ownedBy (o : SymbolId) (x : Symbol) :
    (Binder.ownedBy o x).container ≠ none ∧
      (x.container ≠ none → Binder.ownedBy o x = x) ∧
      (x.container = none → (Binder.ownedBy o x).container = some o) ∧
      (Binder.ownedBy o x).ty = x.ty ∧ (Binder.ownedBy o x).alias = x.alias := by
  unfold Binder.ownedBy
  cases hx : x.container with
  | none => simp
  | some _ => simp [hx]

namespace Adopts

variable {members : List SymbolId}

theorem before (h : Adopts o members t t') (hx : t'.symbol? id = some x) :
    ∃ y, t.symbol? id = some y ∧ x.ty = y.ty ∧ x.alias = y.alias ∧
      (x = y ∨ y.container = none ∧ id ∈ members ∧ x.container = some o) := by
  rw [h.symbol] at hx
  obtain ⟨y, hy, rfl⟩ := Option.map_eq_some_iff.mp hx
  refine ⟨y, hy, ?_⟩
  obtain ⟨-, hsame, hnew, hty, halias⟩ := container_ownedBy o y
  split
  · rename_i hmember
    refine ⟨hty, halias, ?_⟩
    by_cases hcontainer : y.container = none
    · exact .inr ⟨hcontainer, hmember, hnew hcontainer⟩
    · exact .inl (hsame hcontainer)
  · exact ⟨rfl, rfl, .inl rfl⟩

theorem after (h : Adopts o members t t') (hx : t.symbol? id = some x) :
    ∃ x', t'.symbol? id = some x' ∧ x'.ty = x.ty ∧ x'.alias = x.alias ∧
      (id ∈ members → x'.container ≠ none) ∧ (id ∉ members ∨ x.container ≠ none → x' = x) := by
  refine ⟨_, (h.symbol id).trans (congrArg _ hx), ?_⟩
  obtain ⟨howned, hsame, -, hty, halias⟩ := container_ownedBy o x
  dsimp only
  split
  · rename_i hmember
    exact ⟨hty, halias, fun _ => howned, fun h => hsame (h.resolve_left (not_not_intro hmember))⟩
  · rename_i hmember
    exact ⟨rfl, rfl, fun h => (hmember h).elim, fun _ => rfl⟩

theorem owned (h : Adopts o members t t') (hx : t.symbol? id = some x)
    (hcontainer : x.container ≠ none) : ∃ x', t'.symbol? id = some x' ∧ x'.container ≠ none := by
  obtain ⟨x', hx', -, -, -, hsame⟩ := h.after hx
  exact ⟨x', hx', hsame (.inr hcontainer) ▸ hcontainer⟩

theorem settled (h : Adopts o members t t') (hm : t.Settled K m) : t'.Settled K m := by
  rcases hm with hK | ⟨x, hx, hcontainer⟩
  · exact .inl hK
  · exact .inr (h.owned hx hcontainer)

theorem spares (h : Adopts o members t t') (hA : ∀ m ∈ members, m ∈ A) : t.Spares A A t' where
  grows := subset_rfl
  size := h.size.ge
  outside id x hx hid := by
    obtain ⟨x', hx', -, -, -, hsame⟩ := h.after hx
    exact ⟨hsame (.inl fun hmember => hid (hA id hmember)) ▸ hx', hid⟩
  owned _ _ hx hcontainer := h.owned hx hcontainer

/-- An owner that is on a core without unsettled members closes no circle. -/
theorem wellFounded (h : Adopts o members t t') (hwf : WellFounded (t.Owner K))
    {S : Set SymbolId} (ho : o ∈ S) (hclosed : ∀ m ∈ S, ∀ o', t.Owner K o' m → o' ∈ S)
    (hapart : ∀ m ∈ members, ¬t.Settled K m → m ∉ S) : WellFounded (t'.Owner K) := by
  have hcases : ∀ m o', t'.Owner K o' m →
      t.Owner K o' m ∨ o' = o ∧ m ∈ members ∧ ¬t.Settled K m := by
    rintro m o' ⟨hK, x, hx, hcontainer⟩
    obtain ⟨y, hy, -, -, rfl | ⟨hnone, hmember, hnew⟩⟩ := h.before hx
    · exact .inl ⟨hK, x, hy, hcontainer⟩
    · refine .inr ⟨Option.some.inj (hcontainer.symm.trans hnew), hmember, ?_⟩
      rintro (hK' | ⟨z, hz, hz'⟩)
      · exact hK hK'
      · rw [hy] at hz
        cases hz
        exact hz' hnone
  refine wellFounded_of_core (S := S) hwf (fun m hm o' howner => ?_) fun m o' howner => ?_
  · rcases hcases m o' howner with hold | ⟨-, hmember, hfree⟩
    · exact ⟨hold, hclosed m hm o' hold⟩
    · exact (hapart m hmember hfree hm).elim
  · rcases hcases m o' howner with hold | ⟨rfl, -, -⟩
    · exact .inl hold
    · exact .inr ho

/-- The types of an island list settled members once its last open table has an owner on it. -/
theorem island (h : Adopts o members t t') (hA : t.Encloses K A) (ho : o ∈ A)
    (hmembers : ∀ m ∈ members, m ∈ A)
    (hsettles : ∀ id ∈ A, ∀ x, t.symbol? id = some x →
      ∀ m ∈ x.ty.listed, t.Settled K m ∨ m ∈ members) : t'.Island K A where
  encloses id hid := by
    obtain ⟨x, hx, hwithin⟩ := hA id hid
    obtain ⟨x', hx', hty, halias, -⟩ := h.after hx
    obtain ⟨y, hy, -, -, hcontainer⟩ := h.before hx'
    rw [hx] at hy
    cases hy
    refine ⟨x', hx', hty ▸ hwithin.ty, halias ▸ hwithin.alias, fun hK o' ho' => ?_⟩
    rcases hcontainer with rfl | ⟨-, -, hnew⟩
    · exact hwithin.container hK o' ho'
    · rw [hnew] at ho'
      cases ho'
      exact ho
  settles id hid x' hx' m hm := by
    obtain ⟨x, hx, hty, -⟩ := h.before hx'
    rcases hsettles id hid x hx m (hty ▸ hm) with hsettled | hmember
    · exact h.settled hsettled
    · obtain ⟨y, hy, -⟩ := hA m (hmembers m hmember)
      obtain ⟨y', hy', -, -, howned, -⟩ := h.after hy
      exact .inr ⟨y', hy', howned hmember⟩

/-- An island without unsettled members does not notice. -/
theorem island_apart (h : Adopts o members t t') (hA : t.Island K A)
    (hapart : ∀ m ∈ members, ¬t.Settled K m → m ∉ A) : t'.Island K A where
  encloses id hid := by
    obtain ⟨x, hx, hwithin⟩ := hA.encloses id hid
    obtain ⟨x', hx', hty, halias, -⟩ := h.after hx
    obtain ⟨y, hy, -, -, hcontainer⟩ := h.before hx'
    rw [hx] at hy
    cases hy
    refine ⟨x', hx', hty ▸ hwithin.ty, halias ▸ hwithin.alias, fun hK o' ho' => ?_⟩
    rcases hcontainer with rfl | ⟨hnone, hmember, -⟩
    · exact hwithin.container hK o' ho'
    · refine (hapart id hmember ?_ hid).elim
      rintro (hK' | ⟨z, hz, hz'⟩)
      · exact hK hK'
      · rw [hx] at hz
        cases hz
        exact hz' hnone
  settles id hid x' hx' m hm := by
    obtain ⟨x, hx, hty, -⟩ := h.before hx'
    exact h.settled (hA.settles id hid x hx m (hty ▸ hm))

end Adopts

end SymbolTableOver

theorem Binder.ownedBy_ownedBy (o : SymbolId) (x : Symbol) :
    ownedBy o (ownedBy o x) = ownedBy o x :=
  (SymbolTableOver.container_ownedBy o (ownedBy o x)).2.1 (SymbolTableOver.container_ownedBy o x).1

theorem Binder.adopts_adoptMembers {σ : Type} (b : Binder σ) (o : SymbolId) :
    SymbolTableOver.Adopts o (b.tyOf o).own b.table (b.adoptMembers o).table := by
  have hfold : ∀ (members : Members) (b : Binder σ),
      SymbolTableOver.Adopts o (members.map Prod.snd) b.table
        (members.foldl (fun b member => b.modifySymbol member.2 (ownedBy o)) b).table := by
    intro members
    induction members with
    | nil => exact fun b => ⟨fun id => by simp, rfl⟩
    | cons member rest ih =>
      intro b
      obtain ⟨hsymbol, hsize⟩ := ih (b.modifySymbol member.2 (ownedBy o))
      refine ⟨fun id => ?_, hsize.trans Array.size_modify⟩
      rw [List.foldl_cons, hsymbol, modifySymbol, SymbolTableOver.symbol?_modifySymbol]
      simp only [List.map_cons, List.mem_cons]
      by_cases hid : member.2 = id
      · rw [if_pos hid, Option.map_map]
        refine congrArg (Option.map · _) (funext fun x => ?_)
        simp only [Function.comp_apply, ownedBy_ownedBy, ite_self, hid, true_or, if_true]
      · simp only [if_neg hid, Ne.symm hid, false_or]
  have hnone : SymbolTableOver.Adopts o [] b.table b.table := ⟨fun id => by simp, rfl⟩
  unfold adoptMembers
  cases b.tyOf o with
  | table t =>
    dsimp only [TyOver.own]
    split
    · exact hnone
    · exact hfold t.members b
  | _ => exact hnone

end LuaScope

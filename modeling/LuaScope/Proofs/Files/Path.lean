import LuaScope.Files.Tree
import LuaScope.Proofs.Text.Segments
import Mathlib.Data.List.Basic

/-!
# LuaScope.Proofs.Files.Path

The order of paths, and the texts of places.

* `Path.le_trans`, `Path.le_total`, `Path.le_antisymm` — paths are in order by their parts.
* `Place.parts_text` — the text of a place has the names of the place as its parts, so that texts
  and places stand for each other.
-/

namespace LuaScope

/-! ## The order of paths -/

namespace PathPart

variable {a b c : PathPart}

theorem le_total (a b : PathPart) : a.le b = true ∨ b.le a = true := by
  cases a <;> cases b <;> simp [le, rank, String.le_total]

theorem le_trans (hab : a.le b = true) (hbc : b.le c = true) : a.le c = true := by
  cases a <;> cases b <;> cases c <;> simp_all [le, rank]
  exact String.le_trans hab hbc

theorem le_antisymm (hab : a.le b = true) (hba : b.le a = true) : a = b := by
  cases a <;> cases b <;> simp_all [le, rank]
  exact String.le_antisymm hab hba

end PathPart

namespace Path

theorem partsLe_refl : ∀ as : List PathPart, partsLe as as = true
  | [] => rfl
  | a :: as => by rw [partsLe, if_pos rfl, partsLe_refl as]

theorem partsLe_total : ∀ as bs : List PathPart, partsLe as bs = true ∨ partsLe bs as = true
  | [], _ => .inl rfl
  | _ :: _, [] => .inr rfl
  | a :: as, b :: bs => by
    unfold partsLe
    by_cases hab : a = b
    · rw [if_pos hab, if_pos hab.symm]
      exact partsLe_total as bs
    · rw [if_neg hab, if_neg (Ne.symm hab)]
      exact a.le_total b

theorem partsLe_antisymm : ∀ {as bs : List PathPart}, partsLe as bs = true →
    partsLe bs as = true → as = bs
  | [], [], _, _ => rfl
  | [], _ :: _, _, h => by cases h
  | _ :: _, [], h, _ => by cases h
  | a :: as, b :: bs, hab, hba => by
    unfold partsLe at hab hba
    by_cases heq : a = b
    · rw [if_pos heq] at hab
      rw [if_pos heq.symm] at hba
      rw [heq, partsLe_antisymm hab hba]
    · rw [if_neg heq] at hab
      rw [if_neg (Ne.symm heq)] at hba
      exact absurd (PathPart.le_antisymm hab hba) heq

theorem partsLe_trans : ∀ {as bs cs : List PathPart}, partsLe as bs = true →
    partsLe bs cs = true → partsLe as cs = true
  | [], _, _, _, _ => rfl
  | _ :: _, [], _, h, _ => by cases h
  | _ :: _, _ :: _, [], _, h => by cases h
  | a :: as, b :: bs, c :: cs, hab, hbc => by
    unfold partsLe at hab hbc ⊢
    by_cases heq : a = b
    · subst heq
      rw [if_pos rfl] at hab
      by_cases hac : a = c
      · rw [if_pos hac] at hbc ⊢
        exact partsLe_trans hab hbc
      · rw [if_neg hac] at hbc ⊢
        exact hbc
    · rw [if_neg heq] at hab
      by_cases hbc' : b = c
      · subst hbc'
        rw [if_neg heq]
        exact hab
      · rw [if_neg hbc'] at hbc
        have hac : a ≠ c := fun h => heq (PathPart.le_antisymm hab (h ▸ hbc))
        rw [if_neg hac]
        exact PathPart.le_trans hab hbc

theorem le_total (a b : String) : (le a b || le b a) = true := by
  rw [Bool.or_eq_true]
  exact partsLe_total _ _

theorem le_trans (a b c : String) : le a b = true → le b c = true → le a c = true :=
  partsLe_trans

theorem le_antisymm {a b : String} (hab : le a b = true) (hba : le b a = true) :
    parts a = parts b :=
  partsLe_antisymm hab hba

theorem same_iff {a b : String} : same a b = true ↔ parts a = parts b := beq_iff_eq

theorem startsWith_iff {path base : String} :
    startsWith path base = true ↔ parts base <+: parts path := List.isPrefixOf_iff_prefix

end Path

/-! ## Names -/

/-- Can the name stand in a directory? -/
def IsName (name : String) : Prop :=
  name ≠ "" ∧ name ≠ "." ∧ name ≠ ".." ∧ '/' ∉ name.toList

instance (name : String) : Decidable (IsName name) := inferInstanceAs (Decidable (_ ∧ _))

namespace IsName

variable {name : String}

theorem splitWhere (h : IsName name) : LuaScope.splitWhere (· == '/') name.toList = [name.toList] :=
  splitWhere_eq_singleton fun _ hc => beq_eq_false_iff_ne.mpr fun heq => h.2.2.2 (heq ▸ hc)

theorem ofPiece? (h : IsName name) : PathPart.ofPiece? name.toList = some (.name name) := by
  obtain ⟨hempty, hdot, hup, _⟩ := h
  have htext : ∀ s : String, name ≠ s → (name.toList == s.toList) = false := fun s hs =>
    beq_eq_false_iff_ne.mpr fun heq => hs (String.toList_inj.mp heq)
  have hne : name.toList.isEmpty = false := by
    rw [List.isEmpty_eq_false_iff]
    exact fun heq => hempty (String.toList_inj.mp heq)
  have hone : (name.toList == ['.']) = false := htext "." hdot
  have htwo : (name.toList == ['.', '.']) = false := htext ".." hup
  simp only [PathPart.ofPiece?, hne, hone, htwo, Bool.or_self, Bool.false_eq_true, if_false,
    String.ofList_toList]

theorem not_absolute (h : IsName name) : Path.isAbsolute name = false := by
  unfold Path.isAbsolute
  refine beq_eq_false_iff_ne.mpr fun hhead => h.2.2.2 ?_
  exact List.mem_of_head? hhead

end IsName

/-! ## Texts of places -/

namespace Place

/-- Names all the way. -/
def Proper (p : Place) : Prop := ∀ n ∈ p, IsName n

instance (p : Place) : Decidable p.Proper := inferInstanceAs (Decidable (∀ n ∈ p, IsName n))

variable {p q : Place} {name : String}

theorem Proper.left (h : Proper (p ++ q)) : p.Proper := fun n hn => h n (List.mem_append_left _ hn)

theorem Proper.right (h : Proper (p ++ q)) : q.Proper :=
  fun n hn => h n (List.mem_append_right _ hn)

theorem Proper.last (h : Proper (p ++ [name])) : IsName name := h name (by simp)

theorem toList_text (p : Place) : p.text.toList = '/' :: ['/'].intercalate (p.map String.toList) := by
  rw [text, String.toList_append, String.toList_intercalate]
  rfl

theorem pieces_intercalate (h : p.Proper) (hne : p ≠ []) :
    splitWhere (· == '/') (['/'].intercalate (p.map String.toList)) = p.map String.toList := by
  refine splitWhere_intercalate (by decide) (by simpa using hne) fun piece hpiece c hc => ?_
  obtain ⟨name, hname, rfl⟩ := List.mem_map.mp hpiece
  exact beq_eq_false_iff_ne.mpr fun heq => (h name hname).2.2.2 (heq ▸ hc)

theorem pieces_text (h : p.Proper) (hne : p ≠ []) :
    Path.pieces p.text = [] :: p.map String.toList := by
  rw [Path.pieces, toList_text, splitWhere, pieces_intercalate h hne]
  cases p with
  | nil => exact absurd rfl hne
  | cons name rest => rfl

theorem pieces_text_nil : Path.pieces (text []) = [[], []] := by decide +kernel

theorem isAbsolute_text (p : Place) : Path.isAbsolute p.text = true := by
  rw [Path.isAbsolute, toList_text]
  rfl

/-- The text of a place is a path of its names. -/
theorem parts_text (h : p.Proper) : Path.parts p.text = .root :: p.map .name := by
  unfold Path.parts
  simp only [isAbsolute_text, if_true]
  cases p with
  | nil => rw [pieces_text_nil]; rfl
  | cons name rest =>
    have hnames : (List.map String.toList (name :: rest)).filterMap PathPart.ofPiece? =
        (name :: rest).map .name := by
      rw [List.filterMap_map, ← List.filterMap_eq_map]
      exact List.filterMap_congr fun n hn => (h n hn).ofPiece?
    rw [pieces_text h (by simp), List.filterMap_cons_none (by rfl), hnames]
    rfl

theorem names_injective : Function.Injective (List.map PathPart.name) :=
  List.map_injective_iff.mpr fun _ _ => PathPart.name.inj

theorem text_injective (hp : p.Proper) (hq : q.Proper)
    (h : Path.parts p.text = Path.parts q.text) : p = q := by
  rw [parts_text hp, parts_text hq, List.cons_inj_right] at h
  exact names_injective h

theorem startsWith_text (hp : p.Proper) (hq : q.Proper) :
    Path.startsWith p.text q.text = true ↔ q <+: p := by
  rw [Path.startsWith_iff, parts_text hp, parts_text hq, List.cons_prefix_cons]
  refine ⟨fun h => ?_, fun h => ⟨rfl, h.map _⟩⟩
  obtain ⟨rest, hrest⟩ := h.2
  obtain ⟨front, back, rfl, hfront, -⟩ := List.map_eq_append_iff.mp hrest.symm
  have heq : q = front :=
    names_injective hfront.symm
  exact ⟨back, by rw [heq]⟩

theorem getLast?_names (p : Place) (name : String) :
    (PathPart.root :: (p ++ [name]).map .name).getLast? = some (.name name) := by
  rw [List.map_append, List.map_singleton, ← List.cons_append, List.getLast?_concat]

theorem fileName?_text (h : Proper (p ++ [name])) :
    Path.fileName? (text (p ++ [name])) = some name := by
  have hlast := getLast?_names p name
  rw [Path.fileName?, parts_text h, hlast]

theorem ofParts_names (p : Place) : Path.ofParts (.root :: p.map .name) = p.text := by
  rw [Path.ofParts, List.map_map]
  congr 2
  exact List.map_id _

theorem parent?_text (h : Proper (p ++ [name])) :
    Path.parent? (text (p ++ [name])) = some p.text := by
  have hlast := getLast?_names p name
  have hdrop : (PathPart.root :: (p ++ [name]).map .name).dropLast = .root :: p.map .name := by
    rw [List.map_append, List.map_singleton, ← List.cons_append, List.dropLast_concat]
  rw [Path.parent?, Path.parentParts?, parts_text h, hlast, hdrop]
  exact congrArg some (ofParts_names p)

theorem toList_text_concat (hne : p ≠ []) (name : String) :
    (text (p ++ [name])).toList = p.text.toList ++ '/' :: name.toList := by
  rw [text, text, String.intercalate_append_of_ne_nil hne (by simp), String.intercalate_singleton]
  simp

/-- Only the text of the root ends in a slash. -/
theorem getLast?_text (h : p.Proper) : p.text.toList.getLast? = some '/' ↔ p = [] := by
  constructor
  · intro hlast
    cases hback : p.reverse with
    | nil => exact List.reverse_eq_nil_iff.mp hback
    | cons last front =>
      obtain rfl : p = front.reverse ++ [last] := by
        rw [← List.reverse_reverse p, hback, List.reverse_cons]
      have hname : IsName last := h.last
      obtain ⟨front', hend⟩ : ∃ front' : List Char,
          (text (front.reverse ++ [last])).toList = front' ++ last.toList := by
        by_cases hfront : front.reverse = []
        · exact ⟨['/'], by rw [hfront, toList_text]; simp⟩
        · exact ⟨(text front.reverse).toList ++ ['/'], by rw [toList_text_concat hfront]; simp⟩
      have hfull : last.toList ≠ [] := fun heq => hname.1 (String.toList_inj.mp heq)
      rw [hend, List.getLast?_append_of_ne_nil _ hfull] at hlast
      exact absurd (List.mem_of_getLast? hlast) hname.2.2.2
  · rintro rfl
    decide +kernel

theorem text_ne_empty (p : Place) : p.text ≠ "" := by
  intro heq
  have hlist := toList_text p
  rw [heq] at hlist
  cases hlist

theorem isEmpty_text (p : Place) : p.text.isEmpty = false :=
  Bool.eq_false_iff.mpr fun h => p.text_ne_empty (String.isEmpty_iff.mp h)

theorem join_text (h : Proper (p ++ [name])) : Path.join p.text name = text (p ++ [name]) := by
  rw [Path.join, h.last.not_absolute, p.isEmpty_text, beq_eq_decide]
  simp only [Bool.or_self, Bool.false_eq_true, if_false, decide_eq_true_eq, getLast?_text h.left]
  apply String.toList_inj.mp
  by_cases hroot : p = []
  · rw [if_pos hroot, hroot, String.toList_append, toList_text, toList_text]
    simp
  · rw [if_neg hroot, toList_text_concat hroot]
    simp

theorem namesOf_text (h : p.Proper) (hne : p ≠ []) : FileTree.namesOf p.text = "" :: p := by
  rw [FileTree.namesOf, pieces_text h hne, List.map_cons, List.map_map]
  congr 1
  exact (List.map_congr_left fun n _ => String.ofList_toList).trans (List.map_id _)

end Place

end LuaScope

import LuaScope.Files.Walk
import LuaScope.Proofs.Files.Resolve

/-!
# LuaScope.Proofs.Files.Walk

Where the paths that a walk finds lie.

* `FileWalker.walk_once`         — it finds no path twice.
* `FileWalker.parts_of_mem_walk` — what it finds lies below its root.
-/

namespace LuaScope

/-! ## Paths below a directory -/

namespace Path

variable {base name : String}

theorem parts_eq (path : String) : parts path =
    (if isAbsolute path then [PathPart.root]
      else if (pieces path).head? == some ['.'] then [.here] else []) ++
      (pieces path).filterMap PathPart.ofPiece? := rfl

theorem toList_join (hbase : base ≠ "") (hname : IsName name) :
    ∃ front : List Char, (join base name).toList = front ++ '/' :: name.toList ∧
      (base.toList = front ∨ base.toList = front ++ ['/']) := by
  have hempty : base.isEmpty = false := by
    rw [Bool.eq_false_iff, ne_eq, String.isEmpty_iff]
    exact hbase
  rw [join, hname.not_absolute, hempty, beq_eq_decide]
  simp only [Bool.or_self, Bool.false_eq_true, if_false, decide_eq_true_eq]
  split
  · rename_i hlast
    obtain ⟨front, hfront⟩ := List.getLast?_eq_some_iff.mp hlast
    exact ⟨front, by rw [String.toList_append, hfront]; simp, .inr hfront⟩
  · exact ⟨base.toList, by simp, .inl rfl⟩

theorem isAbsolute_join (hbase : base ≠ "") (hname : IsName name) :
    isAbsolute (join base name) = isAbsolute base := by
  obtain ⟨front, hjoin, hfront⟩ := toList_join hbase hname
  have hlist : base.toList ≠ [] := fun heq => hbase (String.toList_inj.mp heq)
  unfold isAbsolute
  rw [hjoin]
  rcases hfront with heq | heq
  · rw [heq, List.head?_append_of_ne_nil _ (heq ▸ hlist)]
  · rw [heq]
    cases front <;> rfl

/-- A name behind a path is a piece more, in the place of the empty one behind a last slash. -/
theorem pieces_join (hbase : base ≠ "") (hname : IsName name) :
    ∃ front : List (List Char), front ≠ [] ∧ pieces (join base name) = front ++ [name.toList] ∧
      (pieces base = front ∨ pieces base = front ++ [[]]) := by
  obtain ⟨front, hjoin, hfront⟩ := toList_join hbase hname
  refine ⟨splitWhere (· == '/') front, splitWhere_ne_nil _ _, ?_, ?_⟩
  · rw [pieces, hjoin, splitWhere_append (by rfl), hname.splitWhere]
  · rcases hfront with heq | heq
    · exact .inl (by rw [pieces, heq])
    · exact .inr (by rw [pieces, heq, splitWhere_append (by rfl)]; rfl)

/-- A name behind a path is a part more. -/
theorem parts_join (hbase : base ≠ "") (hname : IsName name) :
    parts (join base name) = parts base ++ [.name name] := by
  obtain ⟨front, hne, hpieces, hbasePieces⟩ := pieces_join hbase hname
  have hhead : (pieces (join base name)).head? = (pieces base).head? := by
    rw [hpieces, List.head?_append_of_ne_nil _ hne]
    rcases hbasePieces with heq | heq
    · rw [heq]
    · rw [heq, List.head?_append_of_ne_nil _ hne]
  have hnames : (pieces (join base name)).filterMap PathPart.ofPiece? =
      (pieces base).filterMap PathPart.ofPiece? ++ [.name name] := by
    rw [hpieces, List.filterMap_append, List.filterMap_cons_some hname.ofPiece?]
    rcases hbasePieces with heq | heq
    · rw [heq]
      rfl
    · rw [heq, List.filterMap_append]
      simp [PathPart.ofPiece?]
  rw [parts_eq, parts_eq base, isAbsolute_join hbase hname, hhead, hnames, List.append_assoc]

theorem join_ne_empty (hbase : base ≠ "") (hname : IsName name) : join base name ≠ "" := by
  intro heq
  obtain ⟨front, hjoin, -⟩ := toList_join hbase hname
  rw [heq] at hjoin
  cases front <;> cases hjoin

theorem getLast?_join (hbase : base ≠ "") (hname : IsName name) :
    (join base name).toList.getLast? ≠ some '/' := by
  obtain ⟨front, hjoin, -⟩ := toList_join hbase hname
  have hfull : name.toList ≠ [] := fun heq => hname.1 (String.toList_inj.mp heq)
  rw [hjoin, ← List.singleton_append, ← List.append_assoc, List.getLast?_append_of_ne_nil _ hfull]
  exact fun hlast => hname.2.2.2 (List.mem_of_getLast? hlast)

/-- Joining name by name. -/
theorem join_join {rest : String} (hbase : base ≠ "") (hname : IsName name)
    (hrest : isAbsolute rest = false) (hpath : isAbsolute (name ++ "/" ++ rest) = false) :
    join base (name ++ "/" ++ rest) = join (join base name) rest := by
  have hempty : ∀ {s : String}, s ≠ "" → s.isEmpty = false := fun hs =>
    Bool.eq_false_iff.mpr fun h => hs (String.isEmpty_iff.mp h)
  have hlast : ((join base name).toList.getLast? == some '/') = false :=
    beq_eq_false_iff_ne.mpr (getLast?_join hbase hname)
  rw [join, hpath, hempty hbase]
  rw [join.eq_def (join base name), hrest, hempty (join_ne_empty hbase hname), hlast, join,
    hname.not_absolute, hempty hbase]
  simp only [Bool.or_self, Bool.false_eq_true, if_false]
  split <;> simp only [String.append_assoc]

end Path

/-! ## No path twice -/

namespace WalkSetting

variable {s : WalkSetting} {fuel : Nat} {frame : WalkFrame} {path : String}

theorem isName_of_child (h : s.tree.Sound) {dir : Place} {name : String}
    (hname : name ∈ s.tree.children dir) : IsName name := by
  obtain ⟨e, he⟩ := (FileTree.mem_children h).mp hname
  exact (h.proper_of_entryAt he).last

/-- What one name in a directory gives. -/
def filesAt (s : WalkSetting) (fuel : Nat) (frame : WalkFrame) (name : String) : List String :=
  let path := Path.join frame.path name
  match s.entryOf frame path name with
  | none => []
  | some .file =>
    if s.skips frame.levels path name false then []
    else if Path.isLuaFile path then [path]
    else []
  | some (.directory place) =>
    if s.skips frame.levels path name true then []
    else
      s.filesBelow fuel
        { path := path, place := place, ancestors := frame.place :: frame.ancestors,
          levels := .of s.tree path :: frame.levels }

theorem filesBelow_succ (s : WalkSetting) (fuel : Nat) (frame : WalkFrame) :
    s.filesBelow (fuel + 1) frame = (s.tree.children frame.place).flatMap (s.filesAt fuel frame) := by
  rw [filesBelow]
  rfl

theorem of_mem_filesAt {name : String} (hmem : path ∈ s.filesAt fuel frame name) :
    path = Path.join frame.path name ∨
      ∃ below : WalkFrame, below.path = Path.join frame.path name ∧
        path ∈ s.filesBelow fuel below := by
  unfold filesAt at hmem
  simp only at hmem
  split at hmem
  · cases hmem
  · split_ifs at hmem
    · cases hmem
    · exact .inl (List.mem_singleton.mp hmem)
    · cases hmem
  · split_ifs at hmem
    · cases hmem
    · exact .inr ⟨_, rfl, hmem⟩

/-- A path that is found at a name has the name among its parts, at the depth of the directory. -/
theorem parts_of_mem (h : s.tree.Sound) (hpath : frame.path ≠ "") {name : String}
    (hname : IsName name) (hmem : path ∈ s.filesAt fuel frame name) :
    Path.parts frame.path ++ [.name name] <+: Path.parts path := by
  rw [← Path.parts_join hpath hname]
  induction fuel generalizing frame name with
  | zero =>
    obtain rfl | ⟨below, -, hbelow⟩ := of_mem_filesAt hmem
    · exact List.prefix_refl _
    · cases hbelow
  | succ fuel ih =>
    obtain rfl | ⟨below, hjoin, hbelow⟩ := of_mem_filesAt hmem
    · exact List.prefix_refl _
    · rw [filesBelow_succ] at hbelow
      obtain ⟨child, hchild, hbelow⟩ := List.mem_flatMap.mp hbelow
      have hfilled : below.path ≠ "" := hjoin ▸ Path.join_ne_empty hpath hname
      have hfound := ih hfilled (isName_of_child h hchild) hbelow
      rw [Path.parts_join hfilled (isName_of_child h hchild), hjoin] at hfound
      exact (List.prefix_append _ _).trans hfound

theorem parts_of_mem_filesBelow (h : s.tree.Sound) (hpath : frame.path ≠ "")
    (hmem : path ∈ s.filesBelow fuel frame) : Path.parts frame.path <+: Path.parts path := by
  cases fuel with
  | zero => cases hmem
  | succ fuel =>
    rw [filesBelow_succ] at hmem
    obtain ⟨name, hname, hmem⟩ := List.mem_flatMap.mp hmem
    exact (List.prefix_append _ _).trans (parts_of_mem h hpath (isName_of_child h hname) hmem)

theorem filesBelow_once (h : s.tree.Sound) (hpath : frame.path ≠ "") :
    ((s.filesBelow fuel frame).map Path.parts).Nodup := by
  induction fuel generalizing frame with
  | zero => exact List.nodup_nil
  | succ fuel ih =>
    rw [filesBelow_succ, List.map_flatMap, List.nodup_flatMap]
    constructor
    · intro name hname
      have hname := isName_of_child h hname
      unfold filesAt
      simp only
      split
      · exact List.nodup_nil
      · split_ifs
        · exact List.nodup_nil
        · exact List.nodup_singleton _
        · exact List.nodup_nil
      · split_ifs
        · exact List.nodup_nil
        · exact ih (Path.join_ne_empty hpath hname)
    · -- Different names make different parts.
      refine (FileTree.children_nodup h frame.place).pairwise_of_forall_ne ?_
      intro a ha b hb hne ps hpa hpb
      obtain ⟨x, hx, rfl⟩ := List.mem_map.mp hpa
      obtain ⟨y, hy, heq⟩ := List.mem_map.mp hpb
      have hxa := parts_of_mem h hpath (isName_of_child h ha) hx
      have hyb := parts_of_mem h hpath (isName_of_child h hb) hy
      rw [heq] at hyb
      obtain ⟨back, hback⟩ := hxa
      obtain ⟨back', hback'⟩ := hyb
      have hparts := hback.trans hback'.symm
      rw [List.append_assoc, List.append_assoc] at hparts
      have hnames := List.append_cancel_left hparts
      exact hne (PathPart.name.inj (List.cons.inj hnames).1)

end WalkSetting

namespace FileWalker

/-- A walk finds no path twice. -/
theorem walk_once (w : FileWalker) {t : FileTree} (h : t.Sound) (root : String) :
    ((w.walk t root).map Path.parts).Nodup := by
  unfold walk
  split
  · exact List.nodup_nil
  · rename_i place hplace
    have hroot : root ≠ "" := by
      rintro rfl
      cases hplace
    split
    · split_ifs
      · exact List.nodup_singleton _
      · exact List.nodup_nil
    · exact WalkSetting.filesBelow_once h hroot
    · exact List.nodup_nil

/-- What a walk finds lies below its root. -/
theorem parts_of_mem_walk {w : FileWalker} {t : FileTree} (h : t.Sound) {root path : String}
    (hmem : path ∈ w.walk t root) : Path.parts root <+: Path.parts path := by
  unfold walk at hmem
  split at hmem
  · cases hmem
  · rename_i place hplace
    have hroot : root ≠ "" := by
      rintro rfl
      cases hplace
    split at hmem
    · split_ifs at hmem
      · obtain rfl := List.mem_singleton.mp hmem
        exact List.prefix_refl _
      · cases hmem
    · have hbelow := fun hne => WalkSetting.parts_of_mem_filesBelow h hne hmem
      exact hbelow hroot
    · cases hmem

end FileWalker

end LuaScope

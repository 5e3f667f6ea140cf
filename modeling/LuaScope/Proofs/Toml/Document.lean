import LuaScope.Proofs.Toml.Value

/-!
# LuaScope.Proofs.Toml.Document

A document that is written is read back, table by table.

* `Toml.Printable`   — fields of plain values and of tables, no key twice.
* `Toml.asRead`      — what they are read as: the values of a table come before the tables in it.
* `TomlFields.Spine` — where the reader stands: at the last table of the last table, and so on.
* `TomlReader.Runs`  — some lines are read and others are left.
* `Toml.read_print`  — what was printed is read as the same fields.
-/

namespace LuaScope

namespace Toml

/-- Fields of plain values and of tables, no key twice. -/
inductive Printable : List (String × DataValue) → Prop where
  | nil : Printable []
  | plain {key : String} {v : DataValue} {rest : List (String × DataValue)} :
      TomlReader.IsPlain v → (∀ f ∈ rest, f.1 ≠ key) → Printable rest → Printable ((key, v) :: rest)
  | table {key : String} {inner rest : List (String × DataValue)} :
      Printable inner → (∀ f ∈ rest, f.1 ≠ key) → Printable rest →
      Printable ((key, .table inner) :: rest)

/-- The lines right below a header. -/
def plainNodes : List (String × DataValue) → TomlFields
  | [] => []
  | (_, .table _) :: rest => plainNodes rest
  | (key, v) :: rest => (key, .value (TomlReader.plainAsRead v)) :: plainNodes rest

/-- The tables below a header, each under a header of its own. -/
def tableNodes : List (String × DataValue) → TomlFields
  | [] => []
  | (key, .table inner) :: rest =>
    (key, .table .header (plainNodes inner ++ tableNodes inner)) :: tableNodes rest
  | _ :: rest => tableNodes rest

/-- What a document with these fields is read as. -/
def asRead (fields : List (String × DataValue)) : List (String × DataValue) :=
  TomlNode.fieldsToData (plainNodes fields ++ tableNodes fields)

end Toml

/-! ## Where the reader stands -/

namespace TomlFields

variable {f : TomlFields → Except String TomlFields} {fields before : TomlFields} {key : String}
  {n old : TomlNode}

theorem lookup_append_of_none (h : before.lookup key = none) (after : TomlFields) :
    (before ++ after).lookup key = after.lookup key := by
  induction before with
  | nil => rfl
  | cons first before ih =>
    obtain ⟨k, m⟩ := first
    rw [List.lookup_cons] at h
    rw [List.cons_append, List.lookup_cons]
    split at h
    · cases h
    · exact ih h

theorem set_append_of_none (h : before.lookup key = none) (after : TomlFields) :
    set key n (before ++ after) = before ++ set key n after := by
  induction before with
  | nil => rfl
  | cons first before ih =>
    obtain ⟨k, m⟩ := first
    rw [List.lookup_cons] at h
    split at h
    · cases h
    · rename_i hk
      have hne : k ≠ key := fun heq => beq_eq_false_iff_ne.mp hk heq.symm
      rw [List.cons_append, set, if_neg hne, ih h]
      rfl

theorem set_of_none (h : before.lookup key = none) : set key n before = before ++ [(key, n)] := by
  have hset := set_append_of_none (n := n) h []
  rwa [List.append_nil] at hset

theorem within_append (f : TomlFields → Except String TomlFields) (path path' : List String) :
    within f (path ++ path') = within (within f path') path := by
  induction path with
  | nil =>
    funext fields
    rfl
  | cons key path ih =>
    funext fields
    rw [List.cons_append]
    simp only [within, ih]

theorem within_last (h : before.lookup key = none) (origin : TomlOrigin) (inner : TomlFields) :
    within f [key] (before ++ [(key, .table origin inner)]) =
      (f inner).map fun inner => before ++ [(key, .table origin inner)] := by
  have hlookup : (before ++ [(key, TomlNode.table origin inner)]).lookup key =
      some (.table origin inner) := by
    rw [lookup_append_of_none h, List.lookup_cons, beq_self_eq_true]
  have hset : ∀ n, set key n (before ++ [(key, TomlNode.table origin inner)]) = before ++ [(key, n)] := by
    intro n
    rw [set_append_of_none h, set, if_pos rfl]
  simp only [within, hlookup, hset]

/-- The path of the last table of the last table, and so on, and what is around that table. -/
inductive Spine : List String → (TomlFields → TomlFields) → Prop where
  | root : Spine [] id
  | last {path : List String} {around : TomlFields → TomlFields} {before : TomlFields}
      {key : String} {origin : TomlOrigin} : Spine path around → before.lookup key = none →
      Spine (path ++ [key]) fun inner => around (before ++ [(key, .table origin inner)])

/-- A change within the table changes nothing around it. -/
theorem Spine.within {path : List String} {around : TomlFields → TomlFields}
    (h : Spine path around) (f : TomlFields → Except String TomlFields) (fields : TomlFields) :
    TomlFields.within f path (around fields) = (f fields).map around := by
  induction h generalizing f fields with
  | root =>
    show f fields = (f fields).map id
    cases f fields <;> rfl
  | last _ hbefore ih =>
    rw [within_append, ih, within_last hbefore]
    cases f fields <;> rfl

theorem Spine.openTable {path : List String} {around : TomlFields → TomlFields}
    (h : Spine path around) {fields : TomlFields} (hnew : fields.lookup key = none) :
    TomlFields.within (openTable path key) path (around fields) =
      .ok (around (fields ++ [(key, .table .header [])])) := by
  rw [h.within, TomlFields.openTable, hnew]
  simp only [set_of_none hnew]
  rfl

theorem Spine.putValue {path : List String} {around : TomlFields → TomlFields}
    (h : Spine path around) {fields : TomlFields} (hnew : fields.lookup key = none) (v : DataValue) :
    TomlFields.within (putValue v path [key]) path (around fields) =
      .ok (around (fields ++ [(key, .value v)])) := by
  rw [h.within, TomlFields.putValue, hnew]
  rfl

end TomlFields

/-! ## Reading lines -/

namespace TomlReader

open Toml

variable {d d' d'' : Draft} {cs cs' cs'' rest : List Char}

/-- The reader comes from one draft and text to another, however many lines it may read. -/
def Runs (d : Draft) (cs : List Char) (d' : Draft) (cs' : List Char) : Prop :=
  ∀ n, cs.length < n → ∃ m, cs'.length < m ∧ lines n d cs = lines m d' cs'

theorem Runs.refl (d : Draft) (cs : List Char) : Runs d cs d cs := fun n h => ⟨n, h, rfl⟩

theorem Runs.trans (h : Runs d cs d' cs') (h' : Runs d' cs' d'' cs'') : Runs d cs d'' cs'' := by
  intro n hn
  obtain ⟨m, hm, heq⟩ := h n hn
  obtain ⟨k, hk, heq'⟩ := h' m hm
  exact ⟨k, hk, heq.trans heq'⟩

/-- At the end of the text the draft is done. -/
theorem lines_nil (n : Nat) (d : Draft) : lines (n + 1) d [] = .ok (d, []) := rfl

theorem lines_blank (n : Nat) (d : Draft) (rest : List Char) :
    lines (n + 1) d ('\n' :: rest) = lines n d rest := rfl

theorem Runs.blank (d : Draft) (rest : List Char) : Runs d ('\n' :: rest) d rest := by
  intro n hn
  obtain ⟨m, rfl⟩ := Nat.exists_eq_add_of_lt hn
  refine ⟨('\n' :: rest).length + m, ?_, lines_blank _ d rest⟩
  rw [List.length_cons]
  omega

/-- Behind what stands on a line only its end is left. -/
theorem lineEnd_apply (rest : List Char) : blanks ('\n' :: rest) = .ok ((), '\n' :: rest) ∧
    comment ('\n' :: rest) = .ok ((), '\n' :: rest) ∧ newline ('\n' :: rest) = .ok (true, rest) :=
  ⟨rfl, rfl, rfl⟩

theorem lines_header {n : Nat} (h : header d ('[' :: cs) = .ok (d', '\n' :: rest)) :
    lines (n + 1) d ('[' :: cs) = lines n d' rest := by
  obtain ⟨hblanks, hcomment, hnewline⟩ := lineEnd_apply rest
  have hfront : blanks ('[' :: cs) = .ok ((), '[' :: cs) := rfl
  simp [lines, hfront, h, hblanks, hcomment, hnewline]

theorem lines_entry {n : Nat} (hgap : EndsGap cs) (hbracket : cs.head? ≠ some '[')
    (h : entry d cs = .ok (d', '\n' :: rest)) : lines (n + 1) d cs = lines n d' rest := by
  obtain ⟨hblanks, hcomment, hnewline⟩ := lineEnd_apply rest
  have hfront := hgap.blanks
  obtain ⟨c, tail, rfl, -, hmark, hline, hreturn⟩ := hgap
  have hc : c ≠ '[' := fun heq => hbracket (congrArg some heq)
  simp [lines, hfront, h, hblanks, hcomment, hnewline]

/-- No line that is written starts with a blank or a mark of another kind of line. -/
theorem keyText_start (key : String) (rest : List Char) : ∃ c tail, keyText key ++ rest = c :: tail ∧
    ∀ mark ∈ [' ', '\t', '#', '\n', '\r', '[', Char.ofNat 0xFEFF], c ≠ mark := by
  obtain ⟨c, tail, htext, hc⟩ := keyText_eq_cons key
  refine ⟨c, tail ++ rest, by rw [htext, List.cons_append], ?_⟩
  rintro mark hmark rfl
  rcases hc with rfl | rfl | hbare
  · revert hmark
    decide
  · revert hmark
    decide
  · have hmarks : [' ', '\t', '#', '\n', '\r', '[', Char.ofNat 0xFEFF].all
        (fun mark => !isBareKeyChar mark) = true := by
      decide
    have hother := List.all_eq_true.mp hmarks c hmark
    rw [hbare] at hother
    cases hother

theorem endsGap_keyText (key : String) (rest : List Char) :
    EndsGap (keyText key ++ rest) ∧ (keyText key ++ rest).head? ≠ some '[' := by
  obtain ⟨c, tail, htext, hmark⟩ := keyText_start key rest
  have hblank : isTomlBlank c = false := by
    rw [isTomlBlank, Bool.or_eq_false_iff, beq_eq_false_iff_ne, beq_eq_false_iff_ne]
    exact ⟨hmark _ (by decide), hmark _ (by decide)⟩
  rw [htext]
  exact ⟨⟨c, tail, rfl, hblank, hmark _ (by decide), hmark _ (by decide), hmark _ (by decide)⟩,
    fun heq => hmark '[' (by decide) (Option.some.inj heq)⟩

theorem header_apply {path : List String} {name : String} {fields : TomlFields} (rest : List Char)
    (h : TomlFields.within (TomlFields.openTable path name) path d.fields = .ok fields) :
    header d (Toml.header (path ++ [name]) ++ rest) =
      .ok (⟨fields, path ++ [name]⟩, '\n' :: rest) := by
  obtain ⟨first, more, hpath⟩ := List.exists_cons_of_ne_nil (List.append_ne_nil_of_right_ne_nil path
    (List.cons_ne_nil name []))
  have htext : Toml.header (path ++ [name]) ++ rest =
      '[' :: (keyText first ++ (dotted more ++ ']' :: '\n' :: rest)) := by
    rw [Toml.header, hpath, intercalate_keyText]
    simp
  obtain ⟨hgap, hbracket⟩ := endsGap_keyText first (dotted more ++ ']' :: '\n' :: rest)
  have hkey : key (keyText first ++ (dotted more ++ ']' :: '\n' :: rest)) =
      .ok (path ++ [name], ']' :: '\n' :: rest) := by
    rw [hpath]
    have hdot : ((']' :: '\n' :: rest).dropWhile isTomlBlank).head? ≠ some '.' := by
      simp [isTomlBlank]
    exact key_dotted first more (.cons (by decide) _) (List.cons_ne_nil _ _) hdot
  have hexpect : ∀ problem, expect [']'] problem (']' :: '\n' :: rest) = .ok ((), '\n' :: rest) :=
    fun _ => rfl
  rw [htext]
  unfold header
  simp [accept_of_head hbracket, hgap.blanks, hkey, hexpect, h, orFault]

theorem valueText_start {v : DataValue} (hv : IsPlain v) :
    ∃ c tail, valueText true v = c :: tail ∧ isTomlBlank c = false := by
  have hatom : IsAtom v → ∃ c tail, valueText true v = c :: tail ∧ isTomlBlank c = false := by
    intro hv
    obtain ⟨c, tail, htext, hblank, -⟩ := (value_atom hv true).1.endsGap []
    exact ⟨c, tail, by simpa using htext, hblank⟩
  cases v with
  | list items =>
    unfold valueText
    split <;> exact ⟨_, _, rfl, by decide⟩
  | boolean => exact hatom hv
  | unsigned => exact hatom hv
  | float => exact hatom hv
  | text => exact hatom hv
  | unit => exact hv.elim
  | signed => exact hv.elim
  | table => exact hv.elim

/-- An entry by its parts. -/
theorem entry_parts {cs body left : List Char} {name : String} {v : DataValue} {fields : TomlFields}
    (hkey : key cs = .ok ([name], '=' :: ' ' :: body))
    (hbody : blanks (' ' :: body) = .ok ((), body))
    (hvalue : value (body.length + 1) body = .ok (v, left))
    (h : TomlFields.within (TomlFields.putValue v d.place [name]) d.place d.fields = .ok fields) :
    entry d cs = .ok ({ d with fields := fields }, left) := by
  have hexpect : ∀ problem, expect ['='] problem ('=' :: ' ' :: body) = .ok ((), ' ' :: body) :=
    fun _ => rfl
  have hput : orFault cs (TomlFields.within (TomlFields.putValue v d.place [name]) d.place d.fields)
      left = .ok (fields, left) := by
    rw [h]
    rfl
  unfold entry
  rw [bind_of_ok (rest_apply cs), bind_of_ok hkey, bind_of_ok (hexpect _), bind_of_ok hbody,
    bind_of_ok (rest_apply body), bind_of_ok hvalue, bind_of_ok hput, pure_apply]

/-- A line of an entry as it is written. -/
def entryLine (name : String) (v : DataValue) : List Char :=
  keyText name ++ ' ' :: '=' :: ' ' :: valueText true v

theorem entry_apply {name : String} {v : DataValue} {fields : TomlFields} (rest : List Char)
    (hv : IsPlain v) (h : TomlFields.within (TomlFields.putValue (plainAsRead v) d.place [name]) d.place d.fields =
      .ok fields) :
    entry d (entryLine name v ++ '\n' :: rest) = .ok ({ d with fields := fields }, '\n' :: rest) := by
  obtain ⟨c, tail, htext, hblank⟩ := valueText_start hv
  have hvalue : ∀ fuel, value (fuel + 2) (valueText true v ++ '\n' :: rest) =
      .ok (plainAsRead v, '\n' :: rest) := fun _ => value_valueText hv ⟨'\n', rest, rfl, .inl rfl⟩
  have hline : entryLine name v ++ '\n' :: rest =
      keyText name ++ ' ' :: '=' :: ' ' :: (valueText true v ++ '\n' :: rest) := by
    simp [entryLine]
  rw [hline]
  rw [htext, List.cons_append] at hvalue ⊢
  generalize tail ++ '\n' :: rest = body at hvalue ⊢
  have hkey : key (keyText name ++ ' ' :: '=' :: ' ' :: c :: body) =
      .ok ([name], '=' :: ' ' :: c :: body) := by
    have hdot : ((' ' :: '=' :: ' ' :: c :: body).dropWhile isTomlBlank).head? ≠ some '.' := by
      simp [isTomlBlank]
    exact key_dotted name [] (.cons (by decide) _) (List.cons_ne_nil _ _) hdot
  have hbody : blanks (' ' :: c :: body) = .ok ((), c :: body) := by
    rw [blanks_apply, List.dropWhile_cons_of_pos (by decide),
      List.dropWhile_cons_of_neg (by rw [hblank]; decide)]
  exact entry_parts hkey hbody (hvalue body.length) h

open TomlFields

variable {path : List String} {around : TomlFields → TomlFields} {fields : List (String × DataValue)}
  {held : TomlFields}

theorem Runs.header (h : Spine path around) {name : String} (hnew : held.lookup name = none)
    (place : List String) (rest : List Char) :
    Runs ⟨around held, place⟩ (Toml.header (path ++ [name]) ++ rest)
      ⟨around (held ++ [(name, .table .header [])]), path ++ [name]⟩ rest := by
  intro n hn
  obtain ⟨m, rfl⟩ := Nat.exists_eq_add_of_lt hn
  have happly := header_apply (d := ⟨around held, place⟩) rest (h.openTable hnew)
  have htext : ∃ cs, Toml.header (path ++ [name]) ++ rest = '[' :: cs := ⟨_, rfl⟩
  obtain ⟨cs, htext⟩ := htext
  have hlength : rest.length < (Toml.header (path ++ [name]) ++ rest).length := by
    simp only [Toml.header, List.length_append, List.length_cons]
    omega
  refine ⟨(Toml.header (path ++ [name]) ++ rest).length + m, by omega, ?_⟩
  rw [htext] at happly ⊢
  exact lines_header happly

theorem Runs.entry (h : Spine path around) {name : String} {v : DataValue} (hv : IsPlain v)
    (hnew : held.lookup name = none) (rest : List Char) :
    Runs ⟨around held, path⟩ (entryLine name v ++ '\n' :: rest)
      ⟨around (held ++ [(name, .value (plainAsRead v))]), path⟩ rest := by
  intro n hn
  obtain ⟨m, rfl⟩ := Nat.exists_eq_add_of_lt hn
  have hstart : EndsGap (entryLine name v ++ '\n' :: rest) ∧
      (entryLine name v ++ '\n' :: rest).head? ≠ some '[' := by
    rw [entryLine, List.append_assoc]
    exact endsGap_keyText name _
  have happly := entry_apply (d := ⟨around held, path⟩) rest hv (h.putValue hnew _)
  refine ⟨_, ?_, lines_entry hstart.1 hstart.2 happly⟩
  simp only [List.length_append, List.length_cons]
  omega

theorem plainLines_cons {name : String} {v : DataValue} (hv : IsPlain v)
    (others : List (String × DataValue)) :
    Toml.plainLines ((name, v) :: others) = entryLine name v ++ '\n' :: Toml.plainLines others := by
  have hequals : " = ".toList = [' ', '=', ' '] := rfl
  cases v with
  | table => exact hv.elim
  | unit => exact hv.elim
  | signed => exact hv.elim
  | boolean | unsigned | float | text | list =>
    simp only [Toml.plainLines, entryLine, hequals, List.cons_append, List.nil_append,
      List.append_assoc]

theorem plainNodes_cons {name : String} {v : DataValue} (hv : IsPlain v)
    (others : List (String × DataValue)) :
    plainNodes ((name, v) :: others) = (name, .value (plainAsRead v)) :: plainNodes others := by
  cases v with
  | table => exact hv.elim
  | unit | boolean | unsigned | signed | float | text | list => rfl

theorem tableNodes_cons {name : String} {v : DataValue} (hv : IsPlain v)
    (others : List (String × DataValue)) : tableNodes ((name, v) :: others) = tableNodes others := by
  cases v with
  | table => exact hv.elim
  | unit | boolean | unsigned | signed | float | text | list => simp only [tableNodes]

theorem fieldBlocks_cons {name : String} {v : DataValue} (hv : IsPlain v) (path : List String)
    (others : List (String × DataValue)) :
    fieldBlocks path ((name, v) :: others) = fieldBlocks path others := by
  cases v with
  | table => exact hv.elim
  | unit | boolean | unsigned | signed | float | text | list => rfl

theorem asRead_of_plain (h : ∀ f ∈ fields, IsPlain f.2) :
    asRead fields = fields.map fun f => (f.1, plainAsRead f.2) := by
  have htables : tableNodes fields = [] := by
    induction fields with
    | nil => rw [tableNodes]
    | cons f others ih =>
      rw [tableNodes_cons (h f (.head _))]
      exact ih fun f hf => h f (.tail _ hf)
  rw [asRead, htables, List.append_nil]
  induction fields with
  | nil => rfl
  | cons f others ih =>
    have hothers : tableNodes others = [] := by rwa [tableNodes_cons (h f (.head _))] at htables
    rw [plainNodes_cons (h f (.head _)), TomlNode.fieldsToData, TomlNode.toData,
      ih (fun f hf => h f (.tail _ hf)) hothers, List.map_cons]

theorem printable_of_plain (h : ∀ f ∈ fields, IsPlain f.2) (hkeys : (fields.map Prod.fst).Nodup) :
    Printable fields := by
  induction fields with
  | nil => exact .nil
  | cons f others ih =>
    rw [List.map_cons, List.nodup_cons] at hkeys
    refine .plain (h f (.head _)) ?_ (ih (fun f hf => h f (.tail _ hf)) hkeys.2)
    exact fun f' hf' heq => hkeys.1 (List.mem_map.mpr ⟨f', hf', heq⟩)

theorem lookup_plainNodes_of_absent {name : String} (h : ∀ f ∈ fields, f.1 ≠ name) :
    (plainNodes fields).lookup name = none := by
  induction fields with
  | nil => rfl
  | cons f others ih =>
    obtain ⟨key, v⟩ := f
    have hkey : (name == key) = false := beq_eq_false_iff_ne.mpr (h (key, v) (.head _)).symm
    have hmore := ih fun f hf => h f (.tail _ hf)
    cases v with
    | table => exact hmore
    | unit | boolean | unsigned | signed | float | text | list =>
      rw [plainNodes, List.lookup_cons, hkey]
      · exact hmore
      · intro _ heq
        cases heq

theorem lookup_plainNodes (h : Printable fields) {name : String} {inner : List (String × DataValue)}
    (hmem : (name, .table inner) ∈ fields) : (plainNodes fields).lookup name = none := by
  induction h with
  | nil => cases hmem
  | @plain key v others hv hkey _ ih =>
    have hothers : (name, .table inner) ∈ others := by
      rcases List.mem_cons.mp hmem with heq | hothers
      · rw [← (Prod.mk.inj heq).2] at hv
        exact hv.elim
      · exact hothers
    rw [plainNodes_cons hv, List.lookup_cons, beq_eq_false_iff_ne.mpr (hkey _ hothers)]
    exact ih hothers
  | @table key within others _ hkey _ _ ih =>
    rcases List.mem_cons.mp hmem with heq | hothers
    · rw [(Prod.mk.inj heq).1, plainNodes]
      exact lookup_plainNodes_of_absent hkey
    · exact ih hothers

/-- The lines of a table are read into it. -/
theorem Runs.plainLines (h : Spine path around) (hfields : Printable fields)
    (hnew : ∀ f ∈ fields, held.lookup f.1 = none) (rest : List Char) :
    Runs ⟨around held, path⟩ (plainLines fields ++ rest)
      ⟨around (held ++ plainNodes fields), path⟩ rest := by
  induction hfields generalizing held with
  | nil =>
    rw [Toml.plainLines, plainNodes, List.append_nil]
    exact .refl _ _
  | @plain name v others hv hkey hothers ih =>
    have hname : held.lookup name = none := hnew (name, v) (.head _)
    have hheld : ∀ f ∈ others,
        (held ++ [(name, TomlNode.value (plainAsRead v))]).lookup f.1 = none := by
      intro f hf
      rw [lookup_append_of_none (hnew f (.tail _ hf)), List.lookup_cons,
        beq_eq_false_iff_ne.mpr (hkey f hf)]
      rfl
    have hmore := ih hheld
    rw [List.append_assoc] at hmore
    rw [plainLines_cons hv, plainNodes_cons hv, List.append_assoc]
    exact (Runs.entry h hv hname _).trans hmore
  | @table name inner others hinner hkey hothers _ ih =>
    exact ih fun f hf => hnew f (.tail _ hf)

/-- Blocks of lines, each behind a blank line. -/
def spaced (blocks : List (List Char)) : List Char := blocks.flatMap ('\n' :: ·)

/-- The blocks of the tables in a table are read as the tables in it. -/
theorem Runs.fieldBlocks (h : Spine path around) (hfields : Printable fields)
    (hnew : ∀ name inner, (name, .table inner) ∈ fields → held.lookup name = none)
    (place : List String) (rest : List Char) :
    ∃ place', Runs ⟨around held, place⟩ (spaced (fieldBlocks path fields) ++ rest)
      ⟨around (held ++ tableNodes fields), place'⟩ rest := by
  induction hfields generalizing path around held place rest with
  | nil =>
    rw [Toml.fieldBlocks, tableNodes, List.append_nil]
    exact ⟨place, .refl _ _⟩
  | @plain name v others hv hkey hothers ih =>
    rw [fieldBlocks_cons hv, tableNodes_cons hv]
    exact ih h (fun name inner hmem => hnew name inner (.tail _ hmem)) place rest
  | @table name inner others hinner hkey hothers ihInner ihOthers =>
    have hname : held.lookup name = none := hnew name inner (.head _)
    have hspine : Spine (path ++ [name]) fun inner =>
        around (held ++ [(name, .table .header inner)]) := h.last hname
    have hheld : ∀ key within, (key, .table within) ∈ others →
        (held ++ [(name, TomlNode.table .header (plainNodes inner ++ tableNodes inner))]).lookup key =
          none := by
      intro key within hmem
      rw [lookup_append_of_none (hnew key within (.tail _ hmem)), List.lookup_cons,
        beq_eq_false_iff_ne.mpr (hkey _ hmem)]
      rfl
    have htext : spaced (Toml.fieldBlocks path ((name, .table inner) :: others)) ++ rest =
        '\n' :: (Toml.header (path ++ [name]) ++ (Toml.plainLines inner ++
          (spaced (Toml.fieldBlocks (path ++ [name]) inner) ++
            (spaced (Toml.fieldBlocks path others) ++ rest)))) := by
      simp [spaced, Toml.fieldBlocks, Toml.blocks]
    obtain ⟨place', hinnerBlocks⟩ := ihInner hspine (fun _ _ => lookup_plainNodes hinner)
      (path ++ [name]) (spaced (Toml.fieldBlocks path others) ++ rest)
    obtain ⟨place'', hothersBlocks⟩ := ihOthers h hheld place' rest
    rw [List.append_assoc] at hothersBlocks
    refine ⟨place'', ?_⟩
    rw [htext, tableNodes]
    exact (Runs.blank _ _).trans <| (Runs.header h hname _ _).trans <|
      (Runs.plainLines hspine hinner (fun _ _ => rfl) _).trans <| hinnerBlocks.trans hothersBlocks

end TomlReader

/-! ## The whole document -/

namespace Toml

open TomlReader

variable {fields : List (String × DataValue)}

theorem intercalate_newline (block : List Char) (blocks : List (List Char)) :
    ['\n'].intercalate (block :: blocks) = block ++ spaced blocks := by
  induction blocks generalizing block with
  | nil => simp [List.intercalate, spaced]
  | cons next blocks ih =>
    rw [List.intercalate_cons_of_ne_nil (List.cons_ne_nil _ _), ih]
    simp [spaced]

theorem head?_fieldBlocks (path : List String) (fields : List (String × DataValue)) :
    ∀ block ∈ (fieldBlocks path fields).head?, block.head? = some '[' := by
  induction fields with
  | nil =>
    rintro block ⟨⟩
  | cons f others ih =>
    obtain ⟨name, v⟩ := f
    cases v with
    | table inner =>
      rintro block ⟨⟩
      rfl
    | unit | boolean | unsigned | signed | float | text | list => exact ih

/-- A document without lines in front of its first header has no blank line there. -/
theorem toList_of_print {text : String} (h : print fields = .ok text) :
    text.toList = plainLines fields ++ spaced (fieldBlocks [] fields) ∨
      text.toList.head? = some '[' ∧
        '\n' :: text.toList = plainLines fields ++ spaced (fieldBlocks [] fields) := by
  unfold print at h
  split at h
  · cases h
  · cases h
    rw [String.toList_ofList]
    cases hroot : plainLines fields with
    | cons c cs => exact .inl (intercalate_newline _ _)
    | nil =>
      have hhead := head?_fieldBlocks [] fields
      cases hblocks : fieldBlocks [] fields with
      | nil => exact .inl rfl
      | cons block blocks =>
        rw [hblocks] at hhead
        have hblock := hhead block rfl
        have htext : ['\n'].intercalate ([] ++ block :: blocks) = block ++ spaced blocks :=
          intercalate_newline block blocks
        refine .inr ⟨?_, ?_⟩
        · rw [List.isEmpty_nil, if_pos rfl, htext, List.head?_append, hblock]
          rfl
        · rw [List.isEmpty_nil, if_pos rfl, htext]
          rfl

/-- No document starts with the mark of an encoding. -/
theorem head?_plainLines (h : Printable fields) (blocks : List (List Char)) :
    (plainLines fields ++ spaced blocks).head? ≠ some (Char.ofNat 0xFEFF) := by
  induction h with
  | nil =>
    cases blocks with
    | nil => exact fun heq => nomatch heq
    | cons => exact fun heq => absurd (Option.some.inj heq) (by decide)
  | @plain name v others hv _ _ _ =>
    obtain ⟨c, tail, htext, hmark⟩ := keyText_start name
      (' ' :: '=' :: ' ' :: valueText true v ++ ('\n' :: plainLines others ++ spaced blocks))
    have hline : plainLines ((name, v) :: others) ++ spaced blocks = c :: tail := by
      rw [← htext, plainLines_cons hv, entryLine]
      simp
    rw [hline]
    exact fun heq => hmark _ (by decide) (Option.some.inj heq)
  | table _ _ _ _ ih => exact ih

/-- What was printed is read as the same fields. -/
theorem read_print (h : Printable fields) {text : String} (hprint : print fields = .ok text) :
    read text = .ok (asRead fields) := by
  have hlines : Runs {} (plainLines fields ++ spaced (fieldBlocks [] fields))
      ⟨plainNodes fields, []⟩ (spaced (fieldBlocks [] fields)) :=
    Runs.plainLines .root h (fun _ _ => rfl) _
  obtain ⟨place, hblocks⟩ : ∃ place, Runs ⟨plainNodes fields, []⟩
      (spaced (fieldBlocks [] fields) ++ []) ⟨plainNodes fields ++ tableNodes fields, place⟩ [] :=
    Runs.fieldBlocks .root h (fun _ _ => lookup_plainNodes h) [] []
  rw [List.append_nil] at hblocks
  have hruns := hlines.trans hblocks
  have hread : text.toList.head? ≠ some (Char.ofNat 0xFEFF) ∧
      lines (text.toList.length + 1) {} text.toList =
        .ok (⟨plainNodes fields ++ tableNodes fields, place⟩, []) := by
    rcases toList_of_print hprint with htext | ⟨hhead, htext⟩
    · rw [htext]
      refine ⟨head?_plainLines h _, ?_⟩
      obtain ⟨m, hm, hend⟩ := hruns _ (Nat.lt_succ_self _)
      obtain ⟨k, rfl⟩ := Nat.exists_eq_add_of_lt hm
      exact hend.trans (lines_nil _ _)
    · refine ⟨by rw [hhead]; decide, ?_⟩
      rw [← htext] at hruns
      obtain ⟨m, hm, hend⟩ := hruns (text.toList.length + 1 + 1) (Nat.lt_succ_self _)
      obtain ⟨k, rfl⟩ := Nat.exists_eq_add_of_lt hm
      exact hend.trans (lines_nil _ _)
  have hdocument : document text.toList =
      .ok (⟨plainNodes fields ++ tableNodes fields, place⟩, []) := by
    unfold document
    rw [bind_of_ok (accept_of_head hread.1), bind_of_ok (rest_apply _)]
    exact hread.2
  unfold read
  rw [hdocument]
  rfl

end Toml

end LuaScope

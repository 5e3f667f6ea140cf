import LuaScope.Settings.Sources

/-!
# LuaScope.Proofs.Settings.Payload

What an editor sends may hold entries with nothing in them, and may be wrapped.

* `DataValue.Loses`        — an entry that holds nothing is taken out, at any depth outside lists.
* `ofPayload_of_loses`     — the outcome stays the same, unless that entry is the wrapper itself.
* `ofPayload_wrap`         — settings that are not wrapped yet can be wrapped.
-/

namespace LuaScope

namespace DataValue

/-! ## Entries that hold nothing -/

/-- The second value is the first one without the entry at the end of the path, which held nothing.
The keys lead from table to table, and no table has two entries for a key of the path. -/
inductive Loses : List String → DataValue → DataValue → Prop
  | entry {key : String} {front back : List (String × DataValue)}
    (honly : (front ++ back).lookup key = none) :
    Loses [key] (.table (front ++ (key, .unit) :: back)) (.table (front ++ back))
  | within {key : String} {path : List String} {v v' : DataValue}
    {front back : List (String × DataValue)} (honly : (front ++ back).lookup key = none)
    (h : Loses path v v') :
    Loses (key :: path) (.table (front ++ (key, v) :: back)) (.table (front ++ (key, v') :: back))

variable {path : List String} {v v' : DataValue} {fields front back : List (String × DataValue)}
  {key : String}

theorem dropUnitFields_append (front back : List (String × DataValue)) :
    dropUnitFields (front ++ back) = dropUnitFields front ++ dropUnitFields back := by
  induction front with
  | nil => rfl
  | cons entry front ih =>
    obtain ⟨key, v⟩ := entry
    simp only [List.cons_append, dropUnitFields, ih]
    split <;> rfl

theorem Loses.isTable (h : Loses path v v') :
    (∃ fields, v = .table fields) ∧ ∃ fields, v' = .table fields := by
  cases h <;> exact ⟨⟨_, rfl⟩, ⟨_, rfl⟩⟩

/-- An entry that holds nothing is dropped in any case. By induction on the path. -/
theorem Loses.dropUnits (h : Loses path v v') : v'.dropUnits = v.dropUnits := by
  induction h with
  | entry =>
    simp only [DataValue.dropUnits, dropUnitFields_append, dropUnitFields, isUnit, if_true]
  | within _ h ih =>
    obtain ⟨⟨fields, rfl⟩, ⟨fields', rfl⟩⟩ := h.isTable
    simp only [DataValue.dropUnits, dropUnitFields_append, dropUnitFields, isUnit,
      Bool.false_eq_true, if_false] at ih ⊢
    rw [ih]

theorem Loses.dropUnitFields {fields' : List (String × DataValue)}
    (h : Loses path (.table fields) (.table fields')) :
    DataValue.dropUnitFields fields' = DataValue.dropUnitFields fields :=
  DataValue.table.inj h.dropUnits

theorem lookup_append_cons_self (honly : (front ++ back).lookup key = none) (v : DataValue) :
    (front ++ (key, v) :: back).lookup key = some v := by
  rw [List.lookup_append, Option.or_eq_none_iff] at honly
  rw [List.lookup_append, honly.1, List.lookup_cons_self, Option.none_or]

theorem lookup_append_cons_of_ne {other : String} (hne : other ≠ key) (v : DataValue) :
    (front ++ (key, v) :: back).lookup other = (front ++ back).lookup other := by
  have hkey : (other == key) = false := beq_eq_false_iff_ne.mpr hne
  rw [List.lookup_append, List.lookup_append, List.lookup_cons, hkey]

end DataValue

/-! ## Payloads -/

namespace Settings

open DataValue

variable {path : List String} {payload payload' : DataValue}
  {fields fields' : List (String × DataValue)}

/-- Settings from the fields of a payload. -/
def ofPayloadFields (fields : List (String × DataValue)) : Except SettingsError Settings :=
  match ofFields (dropUnitFields fields) with
  | .ok s => .ok s
  | .error problem => .error (.invalid problem .editor)

theorem ofPayloadFields_ne_notAnObject (fields : List (String × DataValue)) :
    ofPayloadFields fields ≠ .error .notAnObject := by
  unfold ofPayloadFields
  split <;> nofun

/-- An object gives the settings in its wrapper, or its own if it has none. -/
theorem ofPayload_table (fields : List (String × DataValue)) :
    ofPayload (.table fields) =
      match fields.lookup wrapperKey with
      | none => ofPayloadFields fields
      | some (.table inner) => ofPayloadFields inner
      | some _ => .error .notAnObject := by
  simp only [ofPayload, payloadFields?]
  cases fields.lookup wrapperKey with
  | none => rfl
  | some v => cases v <;> rfl

theorem ofPayloadFields_of_loses (h : Loses path (.table fields) (.table fields')) :
    ofPayloadFields fields' = ofPayloadFields fields := by
  rw [ofPayloadFields, ofPayloadFields, h.dropUnitFields]

/-- Beside the wrapper, or where there is none, an entry may be there or not. -/
theorem ofPayload_of_loses_beside (h : Loses path (.table fields) (.table fields'))
    (hlookup : fields'.lookup wrapperKey = fields.lookup wrapperKey) :
    ofPayload (.table fields') = ofPayload (.table fields) := by
  rw [ofPayload_table, ofPayload_table, hlookup, ofPayloadFields_of_loses h]

/-- The wrapper can not hold nothing: without it the other fields are the settings. -/
theorem ofPayload_of_loses (h : Loses path payload payload') :
    ofPayload payload' = ofPayload payload ↔ path ≠ [wrapperKey] := by
  cases h with
  | @entry key front back honly =>
    by_cases hkey : wrapperKey = key
    · subst hkey
      have hbefore : ofPayload (.table (front ++ (wrapperKey, .unit) :: back)) =
          .error .notAnObject := by
        rw [ofPayload_table, lookup_append_cons_self honly]
      have hafter : ofPayload (.table (front ++ back)) = ofPayloadFields (front ++ back) := by
        rw [ofPayload_table, honly]
      rw [hbefore, hafter]
      exact iff_of_false (ofPayloadFields_ne_notAnObject _) fun hne => hne rfl
    · exact iff_of_true
        (ofPayload_of_loses_beside (.entry honly) (lookup_append_cons_of_ne hkey _).symm)
        fun heq => hkey (List.cons.inj heq).1.symm
  | @within key path v v' front back honly h =>
    have hpath : key :: path ≠ [wrapperKey] := by
      intro heq
      rw [(List.cons.inj heq).2] at h
      cases h
    refine iff_of_true ?_ hpath
    by_cases hkey : wrapperKey = key
    · subst hkey
      obtain ⟨⟨fields, rfl⟩, ⟨fields', rfl⟩⟩ := h.isTable
      rw [ofPayload_table, ofPayload_table, lookup_append_cons_self honly,
        lookup_append_cons_self honly]
      exact ofPayloadFields_of_loses h
    · refine ofPayload_of_loses_beside (.within honly h) ?_
      rw [lookup_append_cons_of_ne hkey, lookup_append_cons_of_ne hkey]

theorem ofPayload_wrap (h : fields.lookup wrapperKey = none) :
    ofPayload (.table [(wrapperKey, .table fields)]) = ofPayload (.table fields) := by
  rw [ofPayload_table, ofPayload_table, h, List.lookup_cons_self]

/--
Of a payload of any shape: taking out an entry that holds nothing, at any depth outside lists,
changes neither the settings nor the error, unless it is the wrapper itself; then an error becomes
what the other fields say. And an object that is not wrapped can be wrapped.
-/
theorem ofPayload_unmoved (payload : DataValue) :
    (∀ path payload', Loses path payload payload' →
      (ofPayload payload' = ofPayload payload ↔ path ≠ [wrapperKey])) ∧
    ∀ fields, payload = .table fields → fields.lookup wrapperKey = none →
      ofPayload (.table [(wrapperKey, payload)]) = ofPayload payload :=
  ⟨fun _ _ h => ofPayload_of_loses h, fun _ hpayload h => hpayload ▸ ofPayload_wrap h⟩

/-- An unset path inside a wrapped group, and the same settings without the wrapper. -/
theorem ofPayload_unmoved_by_unset_path :
    ofPayload (.table [("luasense", .table [("staticCheck", .table [("onTyping", .boolean false)])])]) =
      ofPayload (.table [("luasense", .table [("staticCheck",
        .table [("onTyping", .boolean false), ("execPath", .unit)])])]) ∧
    ofPayload (.table [("luasense", .table [("docGen", .table [("authorName", .unit)])])]) =
      ofPayload (.table [("docGen", .table [("authorName", .unit)])]) := by
  have hloses : Loses ["luasense", "staticCheck", "execPath"]
      (.table [("luasense", .table [("staticCheck",
        .table [("onTyping", .boolean false), ("execPath", .unit)])])])
      (.table [("luasense", .table [("staticCheck", .table [("onTyping", .boolean false)])])]) :=
    @Loses.within _ _ _ _ [] [] rfl (@Loses.within _ _ _ _ [] [] rfl
      (@Loses.entry _ [("onTyping", .boolean false)] [] rfl))
  exact ⟨((ofPayload_unmoved _).1 _ _ hloses).mpr (by decide),
    (ofPayload_unmoved (.table [("docGen", .table [("authorName", .unit)])])).2 _ rfl rfl⟩

/-- A wrapper that holds nothing is refused, where no payload at all gives the defaults. -/
theorem ofPayload_refuses_empty_wrapper :
    Loses ["luasense"] (.table [("luasense", .unit)]) (.table []) ∧
      ofPayload (.table [("luasense", .unit)]) = .error .notAnObject ∧
      ofPayload (.table []) = .ok {} ∧ ofPayload .unit = .ok {} := by
  have hnone : ofPayloadFields [] = .ok {} := by
    simp [ofPayloadFields, ofFields, dropUnitFields, GroupField.readGroup, sortFields,
      GroupField.putFields]
  exact ⟨@Loses.entry _ [] [] rfl, rfl, hnone, hnone⟩

end Settings

end LuaScope

import LuaScope.Proofs.Toml.Document
import LuaScope.Settings.Decode
import LuaScope.Settings.Sources
import Mathlib.Data.List.Sort
import Mathlib.Data.String.Basic

/-!
# LuaScope.Proofs.Settings.Decode

Settings that are written as fields and read back as a document is.

* `DataValue.sortFields_of_perm` — fields in the order of their keys, wherever each stood.
* `Settings.Fits`                — settings whose numbers have room in 32 bits.
* `Settings.printable_toFields`  — settings are fields that a document can hold.
* `Settings.ofFields_asRead`     — what a document says of settings are the settings.
-/

namespace LuaScope

open Toml

namespace DataValue

variable {α : Type} {fields sorted : List (String × α)}

theorem sortFields_of_perm (hperm : fields.Perm sorted) (hkeys : (sorted.map Prod.fst).Nodup)
    (hsorted : sorted.Pairwise fun a b => a.1 ≤ b.1) : sortFields fields = sorted := by
  have hperm' : (sortFields fields).Perm sorted := (List.mergeSort_perm fields _).trans hperm
  refine hperm'.eq_of_pairwise ?_ (List.pairwise_mergeSort ?_ ?_ fields)
    (hsorted.imp fun h => decide_eq_true h)
  · -- One key stands in one place.
    intro a b ha hb hab hba
    have hkey : a.1 = b.1 := le_antisymm (of_decide_eq_true hab) (of_decide_eq_true hba)
    exact List.inj_on_of_nodup_map hkeys (hperm'.subset ha) hb hkey
  · intro a b c hab hbc
    exact decide_eq_true (le_trans (of_decide_eq_true hab) (of_decide_eq_true hbc))
  · intro a b
    simpa using le_total a.1 b.1

theorem sortFields_eq_insertionSort (h : (fields.map Prod.fst).Nodup) :
    sortFields fields = fields.insertionSort fun a b => a.1 ≤ b.1 := by
  have hperm := List.perm_insertionSort (fun a b : String × α => a.1 ≤ b.1) fields
  have : Std.Total fun a b : String × α => a.1 ≤ b.1 := ⟨fun a b => le_total a.1 b.1⟩
  have : IsTrans (String × α) fun a b => a.1 ≤ b.1 := ⟨fun _ _ _ => le_trans⟩
  exact sortFields_of_perm hperm.symm ((hperm.map Prod.fst).nodup_iff.mpr h)
    (List.pairwise_insertionSort _ fields)

end DataValue

namespace Settings

open DataValue GroupField

/-! ## Values as they are read -/

@[simp] theorem under_ok {α : Type} (step : String) (a : α) : under step (.ok a) = .ok a := rfl

@[simp] theorem toText_text (expected s : String) : toText expected (.text s) = .ok s := rfl

@[simp] theorem toQuoteStyle_label (q : QuoteStyle) : toQuoteStyle (.text q.label) = .ok q := by
  cases q <;> rfl

theorem toNatural_signed {bound n : Nat} (h : n < bound) (name : String) :
    toNatural bound name (.signed n) = .ok n := by
  have hsigned : (0 : Int) ≤ n ∧ (n : Int) < bound := ⟨Int.natCast_nonneg n, Int.ofNat_lt.mpr h⟩
  rw [toNatural, if_pos hsigned, Int.toNat_natCast]

theorem readItems_text (expected : String) (i : Nat) (ts : List String) :
    readItems (toText expected) i (ts.map .text) = .ok ts := by
  induction ts generalizing i with
  | nil => rfl
  | cons s ts ih => rw [List.map_cons, readItems, toText_text, under_ok, ih]

@[simp] theorem toList_text (expected : String) (ts : List String) :
    toList (toText expected) (.list (ts.map .text)) = .ok ts := readItems_text expected 0 ts

@[simp] theorem toTexts_text (ts : List String) : toTexts (.list (ts.map .text)) = .ok ts :=
  toList_text "a string" ts

theorem readFields_text (expected : String) (fields : List (String × String)) :
    readFields (toText expected) (fields.map fun f => (f.1, .text f.2)) = .ok fields := by
  induction fields with
  | nil => rfl
  | cons f fields ih => rw [List.map_cons, readFields, toText_text, under_ok, ih]

/-! ## Groups as they are read -/

/-- Numbers that have room in 32 bits, and modules in the order of their names. -/
structure Fits (s : Settings) : Prop where
  jobs : s.staticCheck.jobs < Nat.pow 2 32
  lineWidth : s.formatting.lineWidth < Nat.pow 2 32
  indentCount : s.formatting.indentCount < Nat.pow 2 32
  logicalLineMax : s.metrics.logicalLineMax < Nat.pow 2 32
  physicalLineMax : s.metrics.physicalLineMax < Nat.pow 2 32
  cyclomaticMax : s.metrics.cyclomaticMax < Nat.pow 2 32
  modules : s.logging.modules.Pairwise fun a b => a.1 < b.1

theorem toSmall_signed {n : Nat} (h : n < Nat.pow 2 32) : toSmall (.signed n) = .ok n :=
  toNatural_signed h "u32"

attribute [local simp] putFields GroupField.of Except.map sortFields_eq_insertionSort
  List.orderedInsert

/- The values stand for themselves here: the groups do not depend on how a value was written. -/

theorem readGroup_checker {g : CheckerSettings} {path : Option DataValue}
    {enable onSave onTyping std ignore jobs size problems config kept : DataValue}
    (henable : toBoolean enable = .ok g.enable) (honSave : toBoolean onSave = .ok g.onSave)
    (honTyping : toBoolean onTyping = .ok g.onTyping)
    (hpath : path.elim (.ok none) toOptionalText = .ok g.execPath) (hstd : toTexts std = .ok g.std)
    (hignore : toTexts ignore = .ok g.ignore) (hjobs : toSmall jobs = .ok g.jobs)
    (hsize : toNatural (Nat.pow 2 64) "u64" size = .ok g.fileSizeLimit)
    (hproblems : toNatural (Nat.pow 2 64) "usize" problems = .ok g.maxProblems)
    (hconfig : toText "a string" config = .ok g.configFilePath)
    (hkept : toBoolean kept = .ok g.keepAfterClosed) :
    readGroup "StaticCheckConfig" checkerGroup {} (.table
      ([("enable", enable), ("onSave", onSave), ("onTyping", onTyping)] ++
        path.toList.map (fun path => ("execPath", path)) ++
        [("std", std), ("ignore", ignore), ("jobs", jobs), ("fileSizeLimit", size),
          ("maxProblems", problems), ("configFilePath", config), ("keepAfterClosed", kept)])) =
      .ok g := by
  simp only [Nat.pow_eq, Nat.reducePow] at hsize hproblems
  cases path with
  | none =>
    have hnone : g.execPath = none := (Except.ok.inj hpath).symm
    simp [readGroup, checkerGroup, henable, honSave, honTyping, hstd, hignore, hjobs, hsize, hproblems,
      hconfig, hkept, ← hnone]
  | some path =>
    replace hpath : toOptionalText path = .ok g.execPath := hpath
    simp [readGroup, checkerGroup, henable, honSave, honTyping, hpath, hstd, hignore, hjobs, hsize,
      hproblems, hconfig, hkept]

theorem readGroup_search {g : SearchSettings} {filters paths links : DataValue}
    (hfilters : toTexts filters = .ok g.filters)
    (hpaths : toList (toText "path string") paths = .ok g.externalPaths)
    (hlinks : toBoolean links = .ok g.followLinks) :
    readGroup "SearchConfig" searchGroup {} (.table
      [("filters", filters), ("externalPaths", paths), ("followLinks", links)]) = .ok g := by
  simp [readGroup, searchGroup, hfilters, hpaths, hlinks]

theorem readGroup_parserOptions {g : ParserSettings} {version allow : DataValue}
    (hversion : toText "a string" version = .ok g.languageVersion)
    (hallow : toBoolean allow = .ok g.allowDefined) :
    readGroup "ParserConfig" parserGroup {} (.table
      [("languageVersion", version), ("allowDefined", allow)]) = .ok g := by
  simp [readGroup, parserGroup, hversion, hallow]

theorem readGroup_display {g : DisplaySettings} {only : DataValue}
    (honly : toBoolean only = .ok g.showFunctionGlobalOnly) :
    readGroup "SymbolDisplayConfig" displayGroup {} (.table
      [("showFunctionGlobalOnly", only)]) = .ok g := by
  simp [readGroup, displayGroup, honly]

theorem readGroup_formatting {g : FormattingSettings} {width count style : DataValue}
    (hwidth : toSmall width = .ok g.lineWidth) (hcount : toSmall count = .ok g.indentCount)
    (hstyle : toQuoteStyle style = .ok g.quoteStyle) :
    readGroup "FormattingConfig" formattingGroup {} (.table
      [("lineWidth", width), ("indentCount", count), ("quoteStyle", style)]) = .ok g := by
  simp [readGroup, formattingGroup, hwidth, hcount, hstyle]

theorem readGroup_docs {g : DocSettings} {inLevel author : DataValue}
    (hlevel : toBoolean inLevel = .ok g.authorInFunctionLevel)
    (hauthor : toText "a string" author = .ok g.authorName) :
    readGroup "DocGenConfig" docsGroup {} (.table
      [("authorInFunctionLevel", inLevel), ("authorName", author)]) = .ok g := by
  simp [readGroup, docsGroup, hlevel, hauthor]

theorem readGroup_metrics {g : MetricsSettings} {enable logical physical cyclomatic least : DataValue}
    (henable : toBoolean enable = .ok g.enable) (hlogical : toSmall logical = .ok g.logicalLineMax)
    (hphysical : toSmall physical = .ok g.physicalLineMax)
    (hcyclomatic : toSmall cyclomatic = .ok g.cyclomaticMax)
    (hleast : toFloat least = .ok g.maintainabilityMin) :
    readGroup "MetricsConfig" metricsGroup {} (.table
      [("enable", enable), ("logicalLineMax", logical), ("physicalLineMax", physical),
        ("cyclomaticMax", cyclomatic), ("maintainabilityMin", least)]) = .ok g := by
  simp [readGroup, metricsGroup, henable, hlogical, hphysical, hcyclomatic, hleast]

theorem readGroup_logging {g : LoggingSettings} {level modules : DataValue}
    (hlevel : toText "a string" level = .ok g.level) (hmodules : toTextTable modules = .ok g.modules) :
    readGroup "LoggingConfig" loggingGroup {} (.table
      [("default", level), ("modules", modules)]) = .ok g := by
  simp [readGroup, loggingGroup, hlevel, hmodules]

theorem ofFields_groups {s : Settings}
    {checker search parser display formatting docs metrics logging : DataValue}
    (hchecker : readGroup "StaticCheckConfig" checkerGroup {} checker = .ok s.staticCheck)
    (hsearch : readGroup "SearchConfig" searchGroup {} search = .ok s.search)
    (hparser : readGroup "ParserConfig" parserGroup {} parser = .ok s.parser)
    (hdisplay : readGroup "SymbolDisplayConfig" displayGroup {} display = .ok s.display)
    (hformatting : readGroup "FormattingConfig" formattingGroup {} formatting = .ok s.formatting)
    (hdocs : readGroup "DocGenConfig" docsGroup {} docs = .ok s.docs)
    (hmetrics : readGroup "MetricsConfig" metricsGroup {} metrics = .ok s.metrics)
    (hlogging : readGroup "LoggingConfig" loggingGroup {} logging = .ok s.logging) :
    ofFields [("staticCheck", checker), ("search", search), ("parserOptions", parser),
      ("symbolDisplay", display), ("formatting", formatting), ("docGen", docs), ("metrics", metrics),
      ("logging", logging)] = .ok s := by
  rw [ofFields, readGroup]
  simp [groups, hchecker, hsearch, hparser, hdisplay, hformatting, hdocs, hmetrics, hlogging]

/-! ## Settings as they are read -/

/-- The modules of settings as a table of texts. -/
def moduleFields (modules : List (String × String)) : List (String × DataValue) :=
  modules.map fun (target, level) => (target, .text level)

theorem toTextTable_moduleFields {modules sorted : List (String × String)}
    (hperm : modules.Perm sorted) (hsorted : sorted.Pairwise fun a b => a.1 < b.1) :
    toTextTable (.table (moduleFields modules)) = .ok sorted := by
  have hkeys : (sorted.map Prod.fst).Nodup := List.pairwise_map.mpr (hsorted.imp ne_of_lt)
  have hfields : sortFields (moduleFields modules) = moduleFields sorted := by
    refine sortFields_of_perm (hperm.map _) ?_ ?_
    · rwa [moduleFields, List.map_map]
    · exact List.pairwise_map.mpr (hsorted.imp le_of_lt)
  rw [toTextTable, hfields]
  exact readFields_text "a string" sorted

theorem isPlain_moduleFields (modules : List (String × String)) :
    ∀ f ∈ moduleFields modules, TomlReader.IsPlain f.2 := by
  intro f hf
  obtain ⟨m, -, rfl⟩ := List.mem_map.mp hf
  trivial

theorem asRead_moduleFields (modules : List (String × String)) :
    Toml.asRead (moduleFields modules) = moduleFields modules := by
  rw [TomlReader.asRead_of_plain (isPlain_moduleFields modules), moduleFields, List.map_map]
  rfl

theorem asRead_toFields (s : Settings) : Toml.asRead s.toFields =
    [("staticCheck", .table (
        [("enable", .boolean s.staticCheck.enable), ("onSave", .boolean s.staticCheck.onSave),
          ("onTyping", .boolean s.staticCheck.onTyping)] ++
        (s.staticCheck.execPath.map .text).toList.map (fun path => ("execPath", path)) ++
        [("std", texts s.staticCheck.std), ("ignore", texts s.staticCheck.ignore),
          ("jobs", .signed s.staticCheck.jobs), ("fileSizeLimit", .signed s.staticCheck.fileSizeLimit),
          ("maxProblems", .signed s.staticCheck.maxProblems),
          ("configFilePath", .text s.staticCheck.configFilePath),
          ("keepAfterClosed", .boolean s.staticCheck.keepAfterClosed)])),
      ("search", .table [("filters", texts s.search.filters),
        ("externalPaths", texts s.search.externalPaths),
        ("followLinks", .boolean s.search.followLinks)]),
      ("parserOptions", .table [("languageVersion", .text s.parser.languageVersion),
        ("allowDefined", .boolean s.parser.allowDefined)]),
      ("symbolDisplay", .table
        [("showFunctionGlobalOnly", .boolean s.display.showFunctionGlobalOnly)]),
      ("formatting", .table [("lineWidth", .signed s.formatting.lineWidth),
        ("indentCount", .signed s.formatting.indentCount),
        ("quoteStyle", .text s.formatting.quoteStyle.label)]),
      ("docGen", .table [("authorInFunctionLevel", .boolean s.docs.authorInFunctionLevel),
        ("authorName", .text s.docs.authorName)]),
      ("metrics", .table [("enable", .boolean s.metrics.enable),
        ("logicalLineMax", .signed s.metrics.logicalLineMax),
        ("physicalLineMax", .signed s.metrics.physicalLineMax),
        ("cyclomaticMax", .signed s.metrics.cyclomaticMax),
        ("maintainabilityMin", .float s.metrics.maintainabilityMin)]),
      ("logging", .table [("default", .text s.logging.level),
        ("modules", .table (moduleFields s.logging.modules))])] := by
  have hmodules := asRead_moduleFields s.logging.modules
  simp only [Toml.asRead, moduleFields] at hmodules
  have hitems : TomlReader.atomAsRead ∘ DataValue.text = DataValue.text := rfl
  cases hpath : s.staticCheck.execPath <;>
    simp [toFields, checkerFields, hpath, Toml.asRead, plainNodes, tableNodes, TomlNode.fieldsToData,
      TomlNode.toData, TomlReader.plainAsRead, TomlReader.atomAsRead, texts, hitems, hmodules,
      moduleFields]

/-- Settings whose modules are listed in another order. -/
def listing (s : Settings) (modules : List (String × String)) : Settings :=
  { s with logging := { s.logging with modules := modules } }

/-- What a document says of settings are the settings, in whatever order it lists the modules. -/
theorem ofFields_asRead {s : Settings} (h : s.Fits)
    (hsize : s.staticCheck.fileSizeLimit < Nat.pow 2 63)
    (hproblems : s.staticCheck.maxProblems < Nat.pow 2 63) {modules : List (String × String)}
    (hperm : modules.Perm s.logging.modules) :
    ofFields (Toml.asRead (s.listing modules).toFields) = .ok s := by
  have hpath : (s.staticCheck.execPath.map .text).elim (.ok none) toOptionalText =
      .ok s.staticCheck.execPath := by
    cases s.staticCheck.execPath <;> rfl
  rw [asRead_toFields]
  refine ofFields_groups ?checker ?search ?parser ?display ?formatting ?docs ?metrics ?logging
  case checker =>
    have hwider : Nat.pow 2 63 ≤ Nat.pow 2 64 := by decide
    exact readGroup_checker rfl rfl rfl hpath (toTexts_text _) (toTexts_text _) (toSmall_signed h.jobs)
      (toNatural_signed (Nat.lt_of_lt_of_le hsize hwider) _)
      (toNatural_signed (Nat.lt_of_lt_of_le hproblems hwider) _) rfl rfl
  case search => exact readGroup_search (toTexts_text _) (toList_text _ _) rfl
  case parser => exact readGroup_parserOptions rfl rfl
  case display => exact readGroup_display rfl
  case formatting =>
    exact readGroup_formatting (toSmall_signed h.lineWidth) (toSmall_signed h.indentCount)
      (toQuoteStyle_label _)
  case docs => exact readGroup_docs rfl rfl
  case metrics =>
    exact readGroup_metrics rfl (toSmall_signed h.logicalLineMax) (toSmall_signed h.physicalLineMax)
      (toSmall_signed h.cyclomaticMax) rfl
  case logging => exact readGroup_logging rfl (toTextTable_moduleFields hperm h.modules)

theorem tooLarge?_of_mem {fields : List (String × DataValue)} {f : String × DataValue}
    (h : Toml.fieldTooLarge? fields = none) (hf : f ∈ fields) : Toml.tooLarge? f.2 = none := by
  induction fields with
  | nil => cases hf
  | cons g fields ih =>
    rw [Toml.fieldTooLarge?] at h
    cases hg : Toml.tooLarge? g.2 with
    | some n =>
      rw [hg] at h
      cases h
    | none =>
      rw [hg] at h
      rcases List.mem_cons.mp hf with rfl | hf
      · exact hg
      · exact ih h hf

theorem lt_of_tooLarge? {n : Nat} (h : Toml.tooLarge? (.unsigned n) = none) : n < Nat.pow 2 63 := by
  rw [Toml.tooLarge?] at h
  split at h
  · assumption
  · cases h

/-- In what was printed no number is too large. -/
theorem sizes_of_toToml {s : Settings} {text : String} (h : s.toToml = .ok text) :
    s.staticCheck.fileSizeLimit < Nat.pow 2 63 ∧ s.staticCheck.maxProblems < Nat.pow 2 63 := by
  have hnone : Toml.fieldTooLarge? s.toFields = none := by
    unfold toToml Toml.print at h
    split at h
    · cases h
    · assumption
  have hchecker : Toml.fieldTooLarge? (checkerFields s.staticCheck) = none := by
    have hgroup := tooLarge?_of_mem (f := ("staticCheck", .table (checkerFields s.staticCheck))) hnone
      (by simp [toFields])
    rwa [Toml.tooLarge?] at hgroup
  constructor
  · exact lt_of_tooLarge? (tooLarge?_of_mem (f := ("fileSizeLimit", .unsigned _)) hchecker
      (by simp [checkerFields]))
  · exact lt_of_tooLarge? (tooLarge?_of_mem (f := ("maxProblems", .unsigned _)) hchecker
      (by simp [checkerFields]))

theorem isPlain_texts (ts : List String) : TomlReader.IsPlain (texts ts) := by
  intro v hv
  obtain ⟨s, -, rfl⟩ := List.mem_map.mp hv
  trivial

theorem isPlain_boolean (b : Bool) : TomlReader.IsPlain (.boolean b) := trivial

theorem isPlain_text (t : String) : TomlReader.IsPlain (.text t) := trivial

theorem isPlain_float {x : Float} (h : TomlNumber.ReadsBack x) : TomlReader.IsPlain (.float x) := h

theorem isPlain_unsigned {n : Nat} (h : n < Nat.pow 2 63) : TomlReader.IsPlain (.unsigned n) := h

theorem isPlain_small {n : Nat} (h : n < Nat.pow 2 32) : TomlReader.IsPlain (.unsigned n) :=
  Nat.lt_trans h (Nat.pow_lt_pow_right (Nat.lt_succ_self 1) (by decide))

theorem printable_checkerFields {g : CheckerSettings} (hjobs : g.jobs < Nat.pow 2 32)
    (hsize : g.fileSizeLimit < Nat.pow 2 63) (hproblems : g.maxProblems < Nat.pow 2 63) :
    Toml.Printable (checkerFields g) := by
  obtain ⟨enable, onSave, onTyping, execPath, std, ignore, jobs, fileSizeLimit, maxProblems,
    configFilePath, keepAfterClosed⟩ := g
  have hnumbers := And.intro (isPlain_small hjobs)
    (And.intro (isPlain_unsigned hsize) (isPlain_unsigned hproblems))
  unfold checkerFields
  cases execPath with
  | none =>
    refine TomlReader.printable_of_plain ?_ (by simp)
    simp [isPlain_texts, isPlain_boolean, isPlain_text, hnumbers]
  | some path =>
    refine TomlReader.printable_of_plain ?_ (by simp)
    simp [isPlain_texts, isPlain_boolean, isPlain_text, hnumbers]

/-- Settings are fields that a document can hold. -/
theorem printable_toFields {s : Settings} (h : s.Fits)
    (hfloat : TomlNumber.ReadsBack s.metrics.maintainabilityMin)
    (hsize : s.staticCheck.fileSizeLimit < Nat.pow 2 63)
    (hproblems : s.staticCheck.maxProblems < Nat.pow 2 63) {modules : List (String × String)}
    (hperm : modules.Perm s.logging.modules) : Toml.Printable (s.listing modules).toFields := by
  have hkeys : ((moduleFields modules).map Prod.fst).Nodup := by
    have hnodup : (modules.map Prod.fst).Nodup :=
      (hperm.map Prod.fst).nodup_iff.mpr (List.pairwise_map.mpr (h.modules.imp ne_of_lt))
    rwa [moduleFields, List.map_map]
  have hmodules : Toml.Printable (moduleFields modules) :=
    TomlReader.printable_of_plain (isPlain_moduleFields modules) hkeys
  have hlogging : Toml.Printable [("default", .text s.logging.level),
      ("modules", .table (moduleFields modules))] :=
    .plain (isPlain_text _) (by simp) (.table hmodules (by simp) .nil)
  unfold toFields
  refine .table (printable_checkerFields h.jobs hsize hproblems) (by simp) <| .table ?search (by simp) <| .table ?parser (by simp) <|
    .table ?display (by simp) <| .table ?formatting (by simp) <| .table ?docs (by simp) <|
    .table ?metrics (by simp) <| .table hlogging (by simp) .nil
  all_goals refine TomlReader.printable_of_plain ?_ (by simp)
  case search => simp [listing, isPlain_texts, isPlain_boolean]
  case parser => simp [listing, isPlain_text, isPlain_boolean]
  case display => simp [listing, isPlain_boolean]
  case formatting =>
    simp [listing, isPlain_text, isPlain_small h.lineWidth, isPlain_small h.indentCount]
  case docs => simp [listing, isPlain_text, isPlain_boolean]
  case metrics =>
    simp [listing, isPlain_boolean, isPlain_small h.logicalLineMax, isPlain_small h.physicalLineMax,
      isPlain_small h.cyclomaticMax, isPlain_float hfloat]

end Settings

end LuaScope

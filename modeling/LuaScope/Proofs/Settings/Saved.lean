import LuaScope.Proofs.Files.Written
import LuaScope.Proofs.Settings.Decode
import LuaScope.Settings.Sources

/-!
# LuaScope.Proofs.Settings.Saved

Settings that are saved to a file and loaded from it again.

* `Environment.fields_eq_nil` — variables without the prefix set nothing.
* `Settings.readFile_writeFile` — the file that was written is the one that is found.
* `Settings.load_save`        — settings are loaded as they were saved.
-/

namespace LuaScope

/-- Variables without the prefix set nothing. -/
theorem Environment.fields_eq_nil {given : List (String × String)}
    (h : ∀ v ∈ given, withoutPrefix? v.1 = none) : fields given = [] := by
  have hsorted : ∀ v ∈ DataValue.sortFields given, pathOf? v.1 = none := by
    intro v hv
    rw [pathOf?, h v ((List.mergeSort_perm given _).subset hv)]
    rfl
  unfold fields
  generalize DataValue.sortFields given = sorted at hsorted ⊢
  induction sorted with
  | nil => rfl
  | cons v rest ih =>
    rw [List.foldl_cons]
    simp only [hsorted v (.head _)]
    exact ih fun w hw => hsorted w (.tail _ hw)

namespace Settings

variable {s : Settings} {t t' : FileTree} {path : String} {modules : List (String × String)}

theorem save_ok (h : s.save t path = .ok t') : ∃ t₁ text, t.Keeps t₁ ∧ s.toToml = .ok text ∧
    t₁.writeFile path text = .ok t' := by
  unfold save at h
  split at h
  · cases h
  · rename_i t₁ hparent
    split at h
    · cases h
    · rename_i text htext
      split at h
      · cases h
      · rename_i t₂ hwrite
        cases h
        exact ⟨t₁, text, .ensureParent hparent, htext, hwrite⟩

theorem candidates_eq (t : FileTree) (path : String) : ∃ above,
    t.currentAndAbove.map (fun dir => Path.join dir.text path) =
      Path.join t.current.text path :: above := by
  rw [FileTree.currentAndAbove, List.range_succ_eq_map, List.map_cons, List.map_cons, Nat.sub_zero,
    List.take_length]
  exact ⟨_, rfl⟩

/-- The file that was written is the one that is found. -/
theorem readFile_writeFile {t₁ : FileTree} {text : String} (hkeeps : t.Keeps t₁)
    (htree : Path.isAbsolute path = false → t.OpenTo t.current ∧ t.current.Proper)
    (hwrite : t₁.writeFile path text = .ok t') :
    ∃ found, findFile? t' path = some found ∧ t'.readText found = .ok text := by
  have hfind := FileTree.find?_writeFile hwrite
  have hread := FileTree.readText_writeFile hwrite
  have hfile : ∀ found, t'.resolve found = t'.resolve path →
      t'.isFile found = true ∧ t'.readText found = .ok text := by
    intro found hresolve
    rw [FileTree.isFile, FileTree.find?, FileTree.readText, hresolve]
    rw [FileTree.find?] at hfind
    rw [FileTree.readText] at hread
    exact ⟨by rw [hfind], hread⟩
  unfold findFile?
  split
  · obtain ⟨hisFile, hreadText⟩ := hfile path rfl
    exact ⟨path, List.find?_cons_of_pos hisFile, hreadText⟩
  · rename_i hrelative
    obtain ⟨hopen, hproper⟩ := htree (Bool.eq_false_iff.mpr hrelative)
    have hcurrent : t'.current = t.current :=
      (FileTree.current_writeFile hwrite).trans hkeeps.current
    have hjoin : t'.resolve (Path.join t'.current.text path) = t'.resolve path := by
      refine FileTree.resolveTo_join .found ?_ ?_ (Bool.eq_false_iff.mpr hrelative)
        (FileTree.ne_empty_of_writeFile hwrite)
      · rw [hcurrent]
        exact (hopen.of_keeps hkeeps).writeFile hwrite
      · rwa [hcurrent]
    obtain ⟨hisFile, hreadText⟩ := hfile _ hjoin
    obtain ⟨above, hcandidates⟩ := candidates_eq t' path
    exact ⟨_, by rw [hcandidates, List.find?_cons_of_pos hisFile], hreadText⟩

/-- Settings are loaded as they were saved, in whatever order the file lists their modules. -/
theorem load_save {environment : List (String × String)} (hfits : s.Fits)
    (hmodules : modules.Perm s.logging.modules)
    (hfloat : TomlNumber.ReadsBack s.metrics.maintainabilityMin)
    (henvironment : ∀ v ∈ environment, Environment.withoutPrefix? v.1 = none) (htree : t.Sound)
    (hcurrent : Path.isAbsolute path = true ∨ t.entryAt t.current = some .directory)
    (hsave : (s.listing modules).save t path = .ok t') : load t' path environment = .ok s := by
  obtain ⟨t₁, text, hkeeps, htext, hwrite⟩ := save_ok hsave
  have hopen : Path.isAbsolute path = false → t.OpenTo t.current ∧ t.current.Proper := by
    intro hrelative
    rcases hcurrent with habsolute | hdirectory
    · rw [hrelative] at habsolute
      cases habsolute
    · exact ⟨htree.openTo hdirectory, htree.proper_of_entryAt hdirectory⟩
  obtain ⟨found, hfound, hread⟩ := readFile_writeFile hkeeps hopen hwrite
  obtain ⟨hsize, hproblems⟩ := sizes_of_toToml htext
  have htoml := Toml.read_print (printable_toFields hfits hfloat hsize hproblems hmodules) htext
  have hfields : readFile t' found = .ok (Toml.asRead (s.listing modules).toFields) := by
    rw [readFile, hread]
    simp only [htoml]
  unfold load
  simp only [hfound, Option.elim_some, hfields, Environment.fields_eq_nil henvironment,
    DataValue.mergeFields, ofFields_asRead hfits hsize hproblems hmodules]

/-- Settings that differ from the defaults in every kind of value. -/
def tuned : Settings where
  staticCheck := { enable := false, execPath := some "/opt/\"luacheck\"", std := [], jobs := 4 }
  search := { filters := ["!src/**", "it's\n"], followLinks := true }
  formatting := { quoteStyle := .double }
  metrics := { maintainabilityMin := 72.5 }
  logging := { level := "info", modules := [("lua.scope", "trace"), ("scope", "debug")] }

/-- A home directory in which nothing stands yet. -/
def emptyHome : FileTree := { entries := [(["home"], .directory)], current := ["home"] }

theorem load_save_tuned : ∃ t,
    (tuned.listing [("scope", "debug"), ("lua.scope", "trace")]).save emptyHome
      ".luasense/settings.toml" = .ok t ∧
    load t ".luasense/settings.toml" [("HOME", "/home")] = .ok tuned := by
  have hfloat : TomlNumber.ReadsBack 72.5 := by
    unfold TomlNumber.ReadsBack
    decide +kernel
  have hfits : tuned.Fits := by
    constructor <;> decide +kernel
  have hsaved : ((tuned.listing [("scope", "debug"), ("lua.scope", "trace")]).save emptyHome
      ".luasense/settings.toml").isOk = true := by decide +kernel
  cases hsave : (tuned.listing [("scope", "debug"), ("lua.scope", "trace")]).save emptyHome
      ".luasense/settings.toml" with
  | error e =>
    rw [hsave] at hsaved
    cases hsaved
  | ok t =>
    exact ⟨t, rfl, load_save hfits (by decide) hfloat (by decide +kernel) (by decide +kernel)
      (.inr (by decide)) hsave⟩

end Settings

end LuaScope

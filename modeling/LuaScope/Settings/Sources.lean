import LuaScope.Files.Tree
import LuaScope.Settings.Decode
import LuaScope.Settings.Environment
import LuaScope.Toml.Document
import LuaScope.Toml.Printer

/-!
# LuaScope.Settings.Sources

Where settings come from and go to: what an editor sends, a file in a directory of its own under
the workspace, and the environment, which overrides the file.
-/

namespace LuaScope

inductive SettingsOrigin where
  | editor
  | file (shown : String)
  | environment
deriving Repr, DecidableEq

inductive SettingsError where
  | invalid (problem : SettingProblem) (origin : SettingsOrigin)
  | notAnObject
  | unsaved (path : String) (reason : String)
deriving Repr, DecidableEq

namespace SettingsOrigin

/-- A path of keys as it is written in this source. -/
def keyText (origin : SettingsOrigin) (path : List String) : String :=
  match origin with
  | .environment => ".".intercalate (path.map (fun key =>
      String.ofList (key.toList.map Char.toUpper)))
  | _ => ".".intercalate ("default" :: path)

def text : SettingsOrigin → String
  | .editor => ""
  | .file shown => " in " ++ shown ++ " TOML file"
  | .environment => " in `" ++ environmentPrefix ++ "` environment variable(s)"

end SettingsOrigin

namespace SettingsError

def detail (problem : SettingProblem) (origin : SettingsOrigin) : String :=
  let place := if problem.path.isEmpty then ""
    else " for key " ++ DataValue.quoted (origin.keyText problem.path)
  problem.misfit.message ++ place ++ origin.text

def message : SettingsError → String
  | .invalid problem origin => "Invalid configuration: " ++ detail problem origin
  | .notAnObject => "Editor settings payload must be a JSON object"
  | .unsaved path reason => "Failed to save settings to '" ++ path ++ "': " ++ reason

def chain : SettingsError → List String
  | .invalid problem origin => [message (.invalid problem origin), detail problem origin]
  | e => [e.message]

end SettingsError

namespace Settings

/-- Name of the object that settings may be wrapped in, and of their directory. -/
def wrapperKey : String := "luasense"

def directoryName : String := ".luasense"

def fileName : String := "settings.toml"

/-! ## From an editor -/

/-- The fields of a payload; settings may stand in it directly or inside the wrapper. -/
def payloadFields? (payload : DataValue) : Option (List (String × DataValue)) :=
  match payload with
  | .unit => some []
  | .table fields =>
    match fields.lookup wrapperKey with
    | none => some fields
    | some (.table inner) => some inner
    | some _ => none
  | _ => none

/-- Settings that an editor sends. Fields that hold nothing fall back to their defaults. -/
def ofPayload (payload : DataValue) : Except SettingsError Settings :=
  match payloadFields? payload with
  | none => .error .notAnObject
  | some fields =>
    match ofFields (DataValue.dropUnitFields fields) with
    | .ok s => .ok s
    | .error problem => .error (.invalid problem .editor)

/-! ## From files and the environment -/

/-- Text of the path to the settings file in a directory. -/
def fileIn (dir : String) : String := Path.join (Path.join dir directoryName) fileName

/-- The innermost directory, from the current one upwards, that holds a directory of settings. -/
def workspaceRoot? (t : FileTree) : Option String :=
  (t.currentAndAbove.map Place.text).find? (fun dir =>
    t.isDirectory (Path.join dir directoryName))

/-- A file by its path; one that is not absolute is searched in the current directory and in
those above it. -/
def findFile? (t : FileTree) (path : String) : Option String :=
  let candidates := if Path.isAbsolute path then [path]
    else t.currentAndAbove.map (fun dir => Path.join dir.text path)
  candidates.find? t.isFile

def readFile (t : FileTree) (path : String) :
    Except SettingProblem (List (String × DataValue)) :=
  match t.readText path with
  | .error e => .error { misfit := .unreadable e.message }
  | .ok text =>
    match Toml.read text with
    | .error problem => .error { misfit := .unreadable problem }
    | .ok fields => .ok fields

/-- The source of what stands at a path: the environment, if it sets anything there. -/
def originOf (given : List (String × DataValue)) (file : SettingsOrigin)
    (path : List String) : SettingsOrigin :=
  if ((DataValue.table given).at? path).isSome then .environment else file

/-- Settings of a file, overridden by environment variables. -/
def load (t : FileTree) (path : String) (environment : List (String × String)) :
    Except SettingsError Settings :=
  let found := findFile? t path
  let file := SettingsOrigin.file (Path.shortened (found.getD path) (Place.text t.current))
  match found.elim (.ok []) (readFile t) with
  | .error problem => .error (.invalid problem file)
  | .ok fields =>
    let given := Environment.fields environment
    match ofFields (DataValue.mergeFields fields given) with
    | .ok s => .ok s
    | .error problem => .error (.invalid problem (originOf given file problem.path))

def loadWorkspace (t : FileTree) (environment : List (String × String)) :
    Except SettingsError Settings :=
  load t (fileIn ((workspaceRoot? t).getD "")) environment

/-! ## To a file -/

def toToml (s : Settings) : Except TomlUnprintable String := Toml.print s.toFields

/-- Write all settings to a file, making the directories that lead to it. -/
def save (s : Settings) (t : FileTree) (path : String) : Except SettingsError FileTree :=
  match t.ensureParent path with
  | .error e => .error (.unsaved path e.message)
  | .ok t =>
    match s.toToml with
    | .error e => .error (.unsaved path e.message)
    | .ok text =>
      match t.writeFile path text with
      | .error e => .error (.unsaved path e.message)
      | .ok t => .ok t

end Settings

end LuaScope

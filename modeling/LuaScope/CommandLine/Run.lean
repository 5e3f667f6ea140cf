import LuaScope.CommandLine.Arguments
import LuaScope.CommandLine.Json
import LuaScope.Session.Basic

/-!
# LuaScope.CommandLine.Run

The commands of the program: what each prints, and the status it ends with.
-/

namespace LuaScope

structure CommandResult where
  status : Nat := 0
  stdout : String := ""
  stderr : String := ""
deriving Repr, DecidableEq

/-- Messages of a failure and of its causes, the outermost first. -/
abbrev Failure := List String

namespace Failure

/-- A message with its lines indented; a number stands in front of the first. -/
def indented (number : Option Nat) (message : String) : String :=
  let lines := (splitWhere (· == '\n') message.toList).map String.ofList
  match number with
  | some n => "    " ++ toString n ++ ": " ++ "\n       ".intercalate lines
  | none => "    " ++ "\n    ".intercalate lines

/-- The text of a failure; several causes are numbered. -/
def text (f : Failure) : String :=
  match f with
  | [] => ""
  | [outer] => "Error: " ++ outer ++ "\n"
  | [outer, cause] => "Error: " ++ outer ++ "\n\nCaused by:\n" ++ indented none cause ++ "\n"
  | outer :: causes =>
    "Error: " ++ outer ++ "\n\nCaused by:\n" ++
      "\n".intercalate ((causes.zipIdx).map (fun (cause, n) => indented (some n) cause)) ++ "\n"

def result (f : Failure) : CommandResult := { status := 1, stderr := f.text }

end Failure

structure Surroundings where
  world : World
  environment : List (String × String)

namespace Surroundings

def files (s : Surroundings) : FileTree := s.world.files

/-- The root that is asked for, or else the workspace around the current directory, or that
directory itself. -/
def root (s : Surroundings) (asked : Option String) : String :=
  match asked with
  | some root => root
  | none => (Settings.workspaceRoot? s.files).getD (Place.text s.files.current)

/-- All modules below the search roots. -/
def modules (s : Surroundings) (settings : Settings) (root : String) : Catalog :=
  ((Session.catalogFor {} settings (some root) s.files).rescan s.files).2

def openAlone (s : Surroundings) (settings : Settings) (file : String) : Except OpenError Index :=
  let d : Documents := { options := settings.parserOptions }
  (d.openFile ⟨none, s.files⟩ file).1

/-! ## Commands -/

def definition (s : Surroundings) (settings : Settings) (file : String) (line column : Nat)
    (root : Option String) : CommandResult :=
  match s.files.resolve file with
  | .error e => Failure.result ["cannot open " ++ file, e.message]
  | .ok place =>
    let path := place.text
    let source : ModuleSource := ⟨some (s.modules settings (s.root root)), s.files⟩
    let d : Documents := { options := settings.parserOptions }
    match d.openFile source path with
    | (.error e, _) => Failure.result e.chain
    | (.ok _, d) =>
      let locations := d.definitions (DocumentId.ofPath path) ⟨line - 1, column - 1⟩
      { stdout := (JsonValue.list (locations.map .ofLocation)).pretty ++ "\n"
        stderr := if locations.isEmpty then "No definition found\n" else "" }

def symbolLine (e : OutlineEntry) : String :=
  let container := match e.container with
    | some name => " in " ++ name
    | none => ""
  toString (e.selection.start.line + 1) ++ ":" ++ toString (e.selection.start.column + 1) ++
    "\t" ++ e.kind.label ++ "\t" ++ e.name ++ container ++ "\n"

def symbols (s : Surroundings) (settings : Settings) (file : String) (all : Bool) :
    CommandResult :=
  match s.openAlone settings file with
  | .error e => Failure.result e.chain
  | .ok index =>
    let entries := index.outline (!all && settings.display.showFunctionGlobalOnly)
    { stdout := String.join (entries.map symbolLine) }

def diagnosticLine (file : String) (d : Diagnostic) : String :=
  let code := match d.code with
    | some code => " " ++ code
    | none => ""
  file ++ ":" ++ toString (d.range.start.line + 1) ++ ":" ++
    toString (d.range.start.column + 1) ++ ": [" ++ d.source ++ code ++ "] " ++ d.message ++ "\n"

/-- What the checker finds in a file that could be read as Lua. -/
def checkerFindings (s : Surroundings) (settings : Settings) (file : String) (index : Index) :
    Except CheckError (List Diagnostic) :=
  if index.malformed then .ok []
  else settings.staticCheck.check s.world.tools checkTimeout file index.source.text

/-- Print every problem; the status tells whether an error is among them. -/
def check (s : Surroundings) (settings : Settings) (file : String) : CommandResult :=
  match s.openAlone settings file with
  | .error e => Failure.result e.chain
  | .ok index =>
    match s.checkerFindings settings file index with
    | .error e => Failure.result ("static check failed" :: e.chain)
    | .ok found =>
      let all := index.diagnostics ++ found
      { status := if all.any (fun d => d.severity == .error) then 1 else 0
        stdout := String.join (all.map (diagnosticLine file)) }

def listModules (s : Surroundings) (settings : Settings) (root : Option String) : CommandResult :=
  let c := s.modules settings (s.root root)
  let lines := c.names.flatMap (fun name =>
    (c.entries name).map (fun e => name ++ "\t" ++ e.path ++ "\n"))
  { stdout := String.join lines
    stderr := toString c.size ++ " module files under " ++ toString c.roots.length ++ " roots\n" }

def printSettings (settings : Settings) : CommandResult :=
  match settings.toToml with
  | .error e => Failure.result [e.message]
  | .ok text => { stdout := text ++ "\n" }

def versionText : String := "luasense 0.3.2\n"

def perform (s : Surroundings) (settings : Settings) : Command → CommandResult
  | .definition file line column root => s.definition settings file line column root
  | .symbols file all => s.symbols settings file all
  | .check file => s.check settings file
  | .modules root => s.listModules settings root
  | .config => printSettings settings
  | .version => { stdout := versionText }

/-- Settings from the file that is asked for. Without one they are those of the workspace, and if
these can not be read there is a warning and the defaults apply. -/
def settingsFor (s : Surroundings) (config : Option String) :
    Except SettingsError (Settings × String) :=
  match config with
  | some path => (Settings.load s.files path s.environment).map (·, "")
  | none =>
    match Settings.loadWorkspace s.files s.environment with
    | .ok settings => .ok (settings, "")
    | .error e => .ok ({}, "Warning: Failed to load config: " ++ e.message ++ "\n")

def run (s : Surroundings) (arguments : List String) : CommandResult :=
  match Invocation.ofArguments arguments with
  | .error e => { status := 2, stderr := e.message }
  | .ok ⟨_, .version⟩ => { stdout := versionText }
  | .ok invocation =>
    match s.settingsFor invocation.config with
    | .error e => Failure.result e.chain
    | .ok (settings, warning) =>
      let result := s.perform settings invocation.command
      { result with stderr := warning ++ result.stderr }

end Surroundings

end LuaScope

import LuaScope.Data.Value
import LuaScope.Syntax.Dialect

/-!
# LuaScope.Settings.Basic

The settings of a workspace in their groups, with the values they have when nobody sets them.
-/

namespace LuaScope

structure CheckerSettings where
  enable : Bool := true
  onSave : Bool := true
  onTyping : Bool := true
  execPath : Option String := none
  std : List String := ["lua51", "busted"]
  ignore : List String := []
  jobs : Nat := 1
  /-- Largest text that is checked, in units of 1024 bytes. -/
  fileSizeLimit : Nat := 100
  maxProblems : Nat := 250
  configFilePath : String := ""
  /-- Keep what was reported when a document is closed. -/
  keepAfterClosed : Bool := true
deriving Repr, DecidableEq, Inhabited

/-- The program to run; one found by its name unless a path is set. -/
def CheckerSettings.executable (s : CheckerSettings) : String :=
  match s.execPath with
  | none | some "" => "luacheck"
  | some path => path

structure SearchSettings where
  /-- Patterns of files to leave out; with a `!` in front, of the only ones to take. -/
  filters : List String := []
  /-- Search roots besides the workspace. -/
  externalPaths : List String := []
  followLinks : Bool := false
deriving Repr, DecidableEq, Inhabited

structure ParserSettings where
  languageVersion : String := "5.1"
  allowDefined : Bool := false
deriving Repr, DecidableEq, Inhabited

structure DisplaySettings where
  showFunctionGlobalOnly : Bool := true
deriving Repr, DecidableEq, Inhabited

inductive QuoteStyle where
  | single | double
deriving Repr, DecidableEq, Inhabited

def QuoteStyle.label : QuoteStyle → String
  | .single => "single"
  | .double => "double"

structure FormattingSettings where
  lineWidth : Nat := 120
  indentCount : Nat := 4
  quoteStyle : QuoteStyle := .single
deriving Repr, DecidableEq, Inhabited

structure DocSettings where
  authorInFunctionLevel : Bool := true
  authorName : String := ""
deriving Repr, DecidableEq, Inhabited

structure MetricsSettings where
  enable : Bool := true
  logicalLineMax : Nat := 50
  physicalLineMax : Nat := 80
  cyclomaticMax : Nat := 10
  maintainabilityMin : Float := 60
deriving Inhabited, BEq

structure LoggingSettings where
  level : String := "warn"
  /-- Levels of single modules, in the order of their names. -/
  modules : List (String × String) := []
deriving Repr, DecidableEq, Inhabited

structure Settings where
  staticCheck : CheckerSettings := {}
  search : SearchSettings := {}
  parser : ParserSettings := {}
  display : DisplaySettings := {}
  formatting : FormattingSettings := {}
  docs : DocSettings := {}
  metrics : MetricsSettings := {}
  logging : LoggingSettings := {}
deriving Inhabited, BEq

namespace Settings

def parserOptions (s : Settings) : ParserOptions :=
  .ofSettings s.parser.languageVersion s.parser.allowDefined

/-- Where modules are searched: the external paths, then the workspace. -/
def searchRoots (s : Settings) (workspaceRoot : Option String) : List String :=
  s.search.externalPaths ++ workspaceRoot.toList

end Settings

/-- The default level, then those of single modules. -/
def LoggingSettings.directives (s : LoggingSettings) : String :=
  ",".intercalate (s.level :: s.modules.map (fun (target, level) => target ++ "=" ++ level))

/-! ## Settings as a table -/

namespace Settings

def texts (ts : List String) : DataValue := .list (ts.map .text)

def checkerFields (s : CheckerSettings) : List (String × DataValue) :=
  [("enable", .boolean s.enable), ("onSave", .boolean s.onSave),
    ("onTyping", .boolean s.onTyping)] ++
  (s.execPath.toList.map (fun path => ("execPath", .text path))) ++
  [("std", texts s.std), ("ignore", texts s.ignore), ("jobs", .unsigned s.jobs),
    ("fileSizeLimit", .unsigned s.fileSizeLimit), ("maxProblems", .unsigned s.maxProblems),
    ("configFilePath", .text s.configFilePath), ("keepAfterClosed", .boolean s.keepAfterClosed)]

/-- Every group with every value in it; an unset path is left out. -/
def toFields (s : Settings) : List (String × DataValue) :=
  [("staticCheck", .table (checkerFields s.staticCheck)),
    ("search", .table [("filters", texts s.search.filters),
      ("externalPaths", texts s.search.externalPaths),
      ("followLinks", .boolean s.search.followLinks)]),
    ("parserOptions", .table [("languageVersion", .text s.parser.languageVersion),
      ("allowDefined", .boolean s.parser.allowDefined)]),
    ("symbolDisplay", .table
      [("showFunctionGlobalOnly", .boolean s.display.showFunctionGlobalOnly)]),
    ("formatting", .table [("lineWidth", .unsigned s.formatting.lineWidth),
      ("indentCount", .unsigned s.formatting.indentCount),
      ("quoteStyle", .text s.formatting.quoteStyle.label)]),
    ("docGen", .table [("authorInFunctionLevel", .boolean s.docs.authorInFunctionLevel),
      ("authorName", .text s.docs.authorName)]),
    ("metrics", .table [("enable", .boolean s.metrics.enable),
      ("logicalLineMax", .unsigned s.metrics.logicalLineMax),
      ("physicalLineMax", .unsigned s.metrics.physicalLineMax),
      ("cyclomaticMax", .unsigned s.metrics.cyclomaticMax),
      ("maintainabilityMin", .float s.metrics.maintainabilityMin)]),
    ("logging", .table [("default", .text s.logging.level),
      ("modules", .table (s.logging.modules.map (fun (target, level) => (target, .text level))))])]

end Settings

end LuaScope

import LuaScope.Checker.Run
import LuaScope.Editor.Completion
import LuaScope.Editor.Navigate
import LuaScope.Editor.Outline
import LuaScope.Editor.Rename
import LuaScope.Editor.Scaffold
import LuaScope.Files.Event
import LuaScope.Settings.Sources

/-!
# LuaScope.Session.Basic

All that one workspace needs while it is open in an editor: its settings, documents and modules,
and what was reported so far. Questions of the editor are answered from here.
-/

namespace LuaScope

/-- What a session tells the editor on its own accord. -/
inductive SessionEvent where
  | diagnostics (document : DocumentId) (revision : Revision) (found : List Diagnostic)
  | warning (message : String)
deriving Repr, DecidableEq

/-- What lies outside a session: the files and the programs that can be run. -/
structure World where
  files : FileTree
  tools : Tools

structure Session where
  settings : Settings
  workspaceRoot : Option String
  documents : Documents
  catalog : Catalog
  /-- Was the editor told that the checker fails? -/
  warned : Bool := false
  opened : List DocumentId := []
  /-- The last revision whose diagnostics were reported, for each document. -/
  reported : List (DocumentId × Revision) := []
deriving Inhabited

namespace Session

def catalogFor (c : Catalog) (settings : Settings) (workspaceRoot : Option String)
    (files : FileTree) : Catalog :=
  c.configure files (settings.searchRoots workspaceRoot) settings.search.filters
    settings.search.followLinks

/-- A session without documents; modules are known after a rescan. -/
def start (settings : Settings) (workspaceRoot : Option String) (files : FileTree) : Session :=
  { settings := settings
    workspaceRoot := workspaceRoot
    documents := { options := settings.parserOptions }
    catalog := catalogFor {} settings workspaceRoot files }

def source (s : Session) (files : FileTree) : ModuleSource := ⟨some s.catalog, files⟩

/-- Search all modules anew; answers the number of files. -/
def rescan (w : World) (s : Session) : Nat × Session :=
  let (count, c) := s.catalog.rescan w.files
  (count, { s with catalog := c })

def isOpen (s : Session) (document : DocumentId) : Bool := s.opened.contains document

def markOpen (s : Session) (document : DocumentId) : Session :=
  if s.isOpen document then s else { s with opened := document :: s.opened }

def markClosed (s : Session) (document : DocumentId) : Session :=
  { s with opened := s.opened.filter (· ≠ document) }

def lastReported (s : Session) (document : DocumentId) : Revision :=
  (s.reported.lookup document).getD 0

def setReported (s : Session) (document : DocumentId) (revision : Revision) : Session :=
  { s with
    reported := (document, revision) :: s.reported.filter (fun r => r.1 ≠ document) }

/-! ## Questions -/

def outline (s : Session) (document : DocumentId) : List OutlineEntry :=
  match s.documents.get document with
  | some index => index.outline s.settings.display.showFunctionGlobalOnly
  | none => []

def scaffold (s : Session) (document : DocumentId) (position : Position) : Option Scaffold :=
  (s.documents.get document).bind (fun index => index.scaffold position.line s.settings.docs)

end Session

end LuaScope

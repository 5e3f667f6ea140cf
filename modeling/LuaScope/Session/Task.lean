import LuaScope.Session.Basic

/-!
# LuaScope.Session.Task

What a session does on an event. Indexing, the checker and reports take their time, and other
events may come in between, so the work on an event is a task that goes in steps: each step is done
at once, and what is left is again a task. Results that the document has outrun are dropped.
-/

namespace LuaScope

/-- What is still to be done for an event. -/
inductive Task where
  /-- Index the text of an edit. -/
  | build (pending : PendingBuild)
  | commit (index : Index)
  /-- Wait for the checker, which runs with these settings on the text of the index. -/
  | check (index : Index) (settings : CheckerSettings)
  | report (index : Index) (found : List Diagnostic)
  | rescan
  /-- Forget these documents, then go on with the events. -/
  | watch (deleted : List DocumentId) (events : List FileEvent)

structure Step where
  session : Session
  events : List SessionEvent := []
  next : Option Task := none

/-- What made the diagnostics of a document due. -/
inductive Trigger where
  | typing | save
deriving Repr, DecidableEq

def CheckerSettings.runsOn (s : CheckerSettings) : Trigger → Bool
  | .typing => s.enable && s.onTyping
  | .save => s.enable && s.onSave

namespace Session

/-- Report diagnostics unless the document was edited since, or later ones went out already. -/
def report (s : Session) (index : Index) (found : List Diagnostic) : Step :=
  if s.documents.revision index.document ≠ index.revision then { session := s }
  else if index.revision < s.lastReported index.document then { session := s }
  else
    { session := s.setReported index.document index.revision
      events := [.diagnostics index.document index.revision found] }

/-- Report on an index, after the checker if it is wanted. -/
def diagnose (s : Session) (index : Index) (trigger : Trigger) : Step :=
  if s.settings.staticCheck.runsOn trigger && !index.malformed then
    { session := s, next := some (.check index s.settings.staticCheck) }
  else s.report index index.diagnostics

def commit (s : Session) (index : Index) : Step :=
  match s.documents.commit index with
  | (.applied index, d) => ({ s with documents := d }).diagnose index .typing
  | (.stale _ _, d) => { session := { s with documents := d } }

/-- The name under which the checker is told of a document. -/
def checkedName (document : DocumentId) : String := document.toPath?.getD document.uri

/-- Take the checker's result. The first time that it fails the editor is warned. -/
def checked (s : Session) (index : Index) (result : Except CheckError (List Diagnostic)) : Step :=
  match result with
  | .ok found => s.report index (index.diagnostics ++ found)
  | .error e =>
    if s.warned then s.report index index.diagnostics
    else
      { session := { s with warned := true }
        events := [.warning ("Static check failed: " ++ e.message)]
        next := some (.report index index.diagnostics) }

/-- The documents that a deleted file may be known as: by the path at hand, and by that with its
directory's own path. -/
def deletedDocuments (files : FileTree) (path : String) : List DocumentId :=
  let given := DocumentId.ofPath path
  match Catalog.deletedSpelling? files path with
  | none => [given]
  | some spelled =>
    let own := DocumentId.ofPath spelled
    if own = given then [given] else [given, own]

/-- Forget documents up to the first one that was indexed, whose diagnostics are cleared; the
documents behind it are left. -/
def forget (s : Session) : List DocumentId → Session × Option (SessionEvent × List DocumentId)
  | [] => (s, none)
  | document :: rest =>
    let s := s.markClosed document
    match s.documents.remove document with
    | (false, d) => ({ s with documents := d }).forget rest
    | (true, d) =>
      ({ s with documents := d }, some (.diagnostics document (d.revision document) [], rest))

/-- Go through events up to the first one that clears diagnostics. -/
def watch (w : World) (s : Session) : List FileEvent → Step
  | [] => { session := s }
  | e :: rest =>
    match e.change with
    | .changed => s.watch w rest
    | .created => ({ s with catalog := (s.catalog.addFile w.files e.path).2 }).watch w rest
    | .deleted =>
      let s := { s with catalog := (s.catalog.removeFile w.files e.path).2 }
      match s.forget (deletedDocuments w.files e.path) with
      | (s, none) => s.watch w rest
      | (s, some (event, left)) =>
        { session := s, events := [event], next := some (.watch left rest) }

def advance (w : World) (s : Session) : Task → Step
  | .build pending =>
    let (index, d) := s.documents.build (s.source w.files) pending
    { session := { s with documents := d }, next := some (.commit index) }
  | .commit index => s.commit index
  | .check index settings =>
    s.checked index
      (settings.check w.tools checkTimeout (checkedName index.document) index.source.text)
  | .report index found => s.report index found
  | .rescan => { session := (s.rescan w).2 }
  | .watch deleted events =>
    match s.forget deleted with
    | (s, none) => s.watch w events
    | (s, some (event, left)) =>
      { session := s, events := [event], next := some (.watch left events) }

/-! ## Events -/

def change (s : Session) (document : DocumentId) (text : String) : Step :=
  let (pending, d) := s.documents.beginEdit document text
  { session := { s with documents := d }, next := some (.build pending) }

def openDocument (s : Session) (document : DocumentId) (text : String) : Step :=
  (s.markOpen document).change document text

def save (s : Session) (document : DocumentId) : Step :=
  match s.documents.get document with
  | none => { session := s }
  | some index => s.diagnose index .save

/-- The index stays, as others may require the document; its diagnostics are cleared if the
settings say so. -/
def close (s : Session) (document : DocumentId) : Step :=
  let s := s.markClosed document
  if s.settings.staticCheck.keepAfterClosed then { session := s }
  else
    { session := s
      events := [.diagnostics document (s.documents.revision document) []] }

/-- Use other settings. What is indexed stays as it is; modules are searched anew. -/
def apply (w : World) (s : Session) (settings : Settings) : Step :=
  { session := { s with
      settings := settings
      documents := s.documents.reconfigure settings.parserOptions
      catalog := catalogFor s.catalog settings s.workspaceRoot w.files }
    next := some .rescan }

end Session

/-! ## Tasks without anything in between -/

/-- No more steps than this are left. -/
def Task.bound : Task → Nat
  | .build _ => 4
  | .commit _ => 3
  | .check _ _ => 2
  | .report _ _ => 1
  | .rescan => 1
  | .watch deleted events => deleted.length + 2 * events.length + 1

namespace Session

def runWithin (w : World) : Nat → Step → Step
  | 0, step => step
  | fuel + 1, step =>
    match step.next with
    | none => step
    | some task =>
      let further := runWithin w fuel (step.session.advance w task)
      { further with events := step.events ++ further.events }

/-- Do all that is left at once. -/
def run (w : World) (step : Step) : Step :=
  runWithin w (step.next.elim 0 Task.bound) step

end Session

end LuaScope

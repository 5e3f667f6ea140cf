import LuaScope.Binding.Build
import LuaScope.Index.Resolve
import LuaScope.Workspace.Catalog

/-!
# LuaScope.Workspace.Documents

The current index of every known document. An edit goes in three steps, so that the second one can
run at any time: it begins, which takes a new revision; an index is built; the index is committed,
unless a newer edit began in between. A file that a `require` asks for is loaded instead, which
never gets in the way of an edit.
-/

namespace LuaScope

/-- A text whose index is still to be built, with the options of the moment it was handed in. -/
structure PendingBuild where
  document : DocumentId
  revision : Revision
  text : String
  options : ParserOptions
deriving Repr, DecidableEq, Inhabited

/-- What is kept of one document. The slot of a removed document stays, so that its revisions go
on when it is opened again. -/
structure Slot where
  revision : Revision := 0
  /-- The last revision that was committed or removed; behind `revision` while an edit is built. -/
  settled : Revision := 0
  index : Option Index := none
deriving Inhabited

def Slot.isPending (s : Slot) : Bool := s.settled != s.revision

/-- How a commit ended. -/
inductive Commit where
  | applied (index : Index)
  /-- A newer edit began in between; nothing was replaced. -/
  | stale (built current : Revision)

structure Documents where
  slots : List (DocumentId × Slot) := []
  options : ParserOptions := {}
deriving Inhabited

namespace Documents

def slot? (d : Documents) (document : DocumentId) : Option Slot := d.slots.lookup document

def slot (d : Documents) (document : DocumentId) : Slot := (d.slot? document).getD {}

/-- Change the slot of a document; a new one goes to the end. -/
def setSlot (d : Documents) (document : DocumentId) (s : Slot) : Documents :=
  let rec put : List (DocumentId × Slot) → List (DocumentId × Slot)
    | [] => [(document, s)]
    | (id, old) :: rest => if id = document then (id, s) :: rest else (id, old) :: put rest
  { d with slots := put d.slots }

def get (d : Documents) (document : DocumentId) : Option Index := (d.slot? document).bind (·.index)

def revision (d : Documents) (document : DocumentId) : Revision := (d.slot document).revision

/-- Documents that have an index, in order. -/
def documents (d : Documents) : List DocumentId :=
  ((d.slots.filter (fun (_, s) => s.index.isSome)).map Prod.fst).mergeSort
    (fun a b => a.uri ≤ b.uri)

/-! ## Steps -/

/-- Begin an edit; every build of this document that is still under way is stale from here on. -/
def beginEdit (d : Documents) (document : DocumentId) (text : String) : PendingBuild × Documents :=
  let s := d.slot document
  let revision := s.revision + 1
  (⟨document, revision, text, d.options⟩, d.setSlot document { s with revision := revision })

/-- Publish an index if its revision is still the current one. -/
def commit (d : Documents) (index : Index) : Commit × Documents :=
  let s := d.slot index.document
  if s.revision = index.revision then
    (.applied index,
      d.setSlot index.document { s with settled := s.revision, index := some index })
  else (.stale index.revision s.revision, d.setSlot index.document s)

/-- Begin to load a file for a `require`. This takes no revision: the build carries the one it
would be published at. -/
def beginLoad (d : Documents) (document : DocumentId) (text : String) : PendingBuild :=
  ⟨document, d.revision document + 1, text, d.options⟩

/-- Publish a loaded index if the document has none, is idle and unchanged since. Otherwise the
published index is answered if there is one, and else the loaded one, which is then stored nowhere. -/
def publishLoaded (d : Documents) (index : Index) : Index × Documents :=
  let s := d.slot index.document
  match s.index with
  | some current => (current, d)
  | none =>
    if s.isPending || s.revision + 1 != index.revision then
      (index, d.setSlot index.document s)
    else
      (index, d.setSlot index.document
        { revision := index.revision, settled := index.revision, index := some index })

/-- Drop a document's index; its builds under way become stale. Was there an index? -/
def remove (d : Documents) (document : DocumentId) : Bool × Documents :=
  match d.slot? document with
  | none => (false, d)
  | some s =>
    let revision := s.revision + 1
    (s.index.isSome,
      d.setSlot document { revision := revision, settled := revision, index := none })

/-- Options for what begins after this. -/
def reconfigure (d : Documents) (options : ParserOptions) : Documents :=
  { d with options := options }

end Documents

/-! ## Loading -/

/-- Deepest chain of modules that are loaded for one build. -/
def maxRequireDepth : Nat := 16

/-- Where modules come from: the catalog, if there is one, and the files. -/
structure ModuleSource where
  catalog : Option Catalog
  files : FileTree
deriving Inhabited

namespace Documents

/-- Build what is pending with a given loader. -/
def buildWith {σ : Type} (p : PendingBuild) (loader : Loader σ) (world : σ) : Index × σ :=
  Index.build p.document p.revision p.text p.options loader world

/--
The loader of a workspace. It answers the published index of the module's file, or else reads and
builds the file; `stack` holds the documents that are being built, whose modules are unknown to
each other, and `fuel` says how many more files may be loaded inside each other.
-/
def load (m : ModuleSource) : Nat → List DocumentId → Loader Documents
  | fuel, stack => fun name d =>
    match m.catalog.bind (·.resolve name) with
    | none => (none, d)
    | some path =>
      let document := DocumentId.ofPath path
      if stack.contains document then (none, d)
      else
        match d.get document with
        | some index => (some index, d)
        | none =>
          match fuel with
          | 0 => (none, d)
          | fuel + 1 =>
            match m.files.readText path with
            | .error _ => (none, d)
            | .ok text =>
              let pending := d.beginLoad document text
              let (index, d) := buildWith pending (load m fuel (stack ++ [document])) d
              let (index, d) := d.publishLoaded index
              (some index, d)

/-- Build a pending edit; modules it requires are loaded on the way. -/
def build (d : Documents) (m : ModuleSource) (p : PendingBuild) : Index × Documents :=
  buildWith p (load m maxRequireDepth [p.document]) d

/-- Replace a document's text and build its index at once. -/
def update (d : Documents) (m : ModuleSource) (document : DocumentId) (text : String) :
    Revision × Documents :=
  let (pending, d) := d.beginEdit document text
  let (index, d) := d.build m pending
  let (_, d) := d.commit index
  (pending.revision, d)

end Documents

inductive OpenError where
  | unreadable (path : String) (cause : FileError)
  | superseded (document : DocumentId)
deriving Repr, DecidableEq

namespace OpenError

def message : OpenError → String
  | .unreadable path cause => "Failed to read file '" ++ path ++ "': " ++ cause.message
  | .superseded document => "Index for '" ++ document.uri ++ "' was superseded by a newer edit"

def chain (e : OpenError) : List String :=
  match e with
  | .unreadable _ cause => [e.message, cause.message]
  | e => [e.message]

end OpenError

namespace Documents

/-- Index a file under its own address. -/
def openFile (d : Documents) (m : ModuleSource) (path : String) :
    Except OpenError Index × Documents :=
  match m.files.readText path with
  | .error e => (.error (.unreadable path e), d)
  | .ok text =>
    let document := DocumentId.ofPath path
    let (pending, d) := d.beginEdit document text
    let (index, d) := d.build m pending
    match d.commit index with
    | (.applied index, d) => (.ok index, d)
    | (.stale _ _, d) =>
      match d.get document with
      | some index => (.ok index, d)
      | none => (.error (.superseded document), d)

/-- Resolve a path at a position, in whatever index is current. -/
def resolve (d : Documents) (path : String) (position : Position) (document : DocumentId) :
    Resolution :=
  match d.get document with
  | none => .found none
  | some index => index.resolve path (index.offset position)

end Documents

end LuaScope

import LuaScope.Document.Diagnostic
import LuaScope.Symbol.Table
import LuaScope.Text.Source

/-!
# LuaScope.Index.Basic

Everything known about one document at one revision. An index is built in one go and never changes
afterwards; what it takes from another document it holds as a link into that document's index, so
indices form a tree and no index can reach itself.
-/

namespace LuaScope

structure IndexOver (ρ : Type) where
  document : DocumentId
  revision : Revision
  source : Source
  table : SymbolTableOver ρ
  references : Array (ReferenceOver ρ)
  exports : TyOver ρ
  diagnostics : List Diagnostic
  /-- The text has no syntax tree; the table holds only the root scope. -/
  malformed : Bool

/-- The index of a document; its links lead into other indices. -/
structure Index where
  content : IndexOver Index

abbrev Link := LinkOver Index
abbrev Prototype := PrototypeOver Index
abbrev Table := TableOver Index
abbrev Ty := TyOver Index
abbrev Symbol := SymbolOver Index
abbrev Reference := ReferenceOver Index
abbrev SymbolTable := SymbolTableOver Index

namespace Index

def document (i : Index) : DocumentId := i.content.document

def revision (i : Index) : Revision := i.content.revision

def source (i : Index) : Source := i.content.source

def table (i : Index) : SymbolTable := i.content.table

def references (i : Index) : Array Reference := i.content.references

def exports (i : Index) : Ty := i.content.exports

def diagnostics (i : Index) : List Diagnostic := i.content.diagnostics

def malformed (i : Index) : Bool := i.content.malformed

def empty (document : DocumentId) (revision : Revision) (source : Source)
    (diagnostics : List Diagnostic) : Index :=
  ⟨{ document := document, revision := revision, source := source,
     table := .new source.size, references := #[], exports := .unknown,
     diagnostics := diagnostics, malformed := true }⟩

instance : Inhabited Index := ⟨empty ⟨""⟩ 0 (.ofString "") []⟩

def symbol? (i : Index) (id : SymbolId) : Option Symbol := i.table.symbol? id

def scopeAt (i : Index) (offset : Nat) : ScopeId := i.table.innermostScope offset

def offset (i : Index) (p : Position) : Nat := i.source.lines.offset p

def referenceAt (i : Index) (offset : Nat) : Option Reference :=
  i.references.find? (fun r => r.span.contains offset)

/-- References of this document that lead to one of its own symbols. -/
def referencesTo (i : Index) (id : SymbolId) : List Reference :=
  i.references.toList.filter (fun r => r.targetsLocal id)

/-- The exported table and the index that owns it, behind any number of re-exports. -/
def exportedTable : Index → Option (Table × Index)
  | i@⟨{ exports := .table t, .. }⟩ => some (t, i)
  | ⟨{ exports := .module _ inner, .. }⟩ => inner.exportedTable
  | _ => none

end Index

/-- Does the value have members that a `require` can reach? -/
def Ty.exportsTable : Ty → Bool
  | .table _ => true
  | .module _ origin => origin.exportedTable.isSome
  | _ => false

def Index.exportsTable (i : Index) : Bool := Ty.exportsTable i.exports

structure Handle where
  index : Index
  id : SymbolId

namespace Handle

def symbol? (h : Handle) : Option Symbol := h.index.symbol? h.id

def document (h : Handle) : DocumentId := h.index.document

end Handle

end LuaScope

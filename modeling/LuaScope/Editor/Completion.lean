import LuaScope.Editor.Describe
import LuaScope.Text.Cursor
import LuaScope.Workspace.Documents

/-!
# LuaScope.Editor.Completion

Names to complete. Behind a container's path its members are offered, own ones first; elsewhere
every name visible at the cursor. Documentation is attached later, on demand.
-/

namespace LuaScope

structure CompletionItem where
  label : String
  kind : SymbolKind
  detail : String
  documentation : Option String := none
  /-- Where to find the symbol again. -/
  document : DocumentId
  symbol : SymbolId
deriving Repr, DecidableEq

def CompletionItem.of (index : Index) (symbol : Symbol) : CompletionItem :=
  { label := symbol.name, kind := symbol.kind, detail := index.declarationLine symbol,
    document := index.document, symbol := symbol.id }

namespace Documents

/-- Members of what a path denotes at an offset that begin with `typed`. -/
def memberItems (index : Index) (path typed : List Char) (offset : Nat) : List CompletionItem :=
  let anchor := offset - (byteLength typed + byteLength path + 1)
  match (index.resolve (String.ofList path) anchor).first? with
  | none => []
  | some container =>
    let located := (Home.here container.index.table).locate container.id
    (located.members true).filterMap (fun (name, member) =>
      if typed.isPrefixOf name.toList then
        let handle := member.handle container.index
        handle.symbol?.map (CompletionItem.of handle.index)
      else none)

/-- Names visible at an offset that begin with `typed` and are longer, in their order. -/
def nameItems (index : Index) (typed : List Char) (offset : Nat) : List CompletionItem :=
  let symbols := (index.table.visible (index.scopeAt offset) offset).filterMap index.symbol?
  let items := symbols.filterMap (fun s =>
    let name := s.name.toList
    if typed.isPrefixOf name && name != typed then some (CompletionItem.of index s) else none)
  items.mergeSort (fun a b => a.label ≤ b.label)

def completions (d : Documents) (document : DocumentId) (position : Position) :
    List CompletionItem :=
  match d.get document with
  | none => []
  | some index =>
    let offset := index.offset position
    let lead := completionPrefix index.source.chars offset
    match lead.container with
    | some path => memberItems index path lead.typed offset
    | none => nameItems index lead.typed offset

/-- Attach the documentation of the symbol, if it still has the item's name. -/
def resolveCompletion (d : Documents) (item : CompletionItem) : CompletionItem :=
  let symbol := (d.get item.document).bind (fun index => index.symbol? item.symbol)
  { item with documentation := (symbol.filter (fun s => s.name == item.label)).bind (·.doc) }

end Documents

end LuaScope

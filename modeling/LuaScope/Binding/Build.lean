import LuaScope.Binding.Walk
import LuaScope.Syntax.Grammar

/-!
# LuaScope.Binding.Build

Building the index of a document from its text. This never fails: a text without a syntax tree has
an index that holds nothing but the root scope and one problem, `malformedDiagnostic`.
-/

namespace LuaScope

/-- Who reports problems of the syntax. -/
def syntaxSource : String := "luasense"

/-- The problem of a text that has no syntax tree, over the whole text, as it is reported where no
place of an error is known. It stands for the list of all problems that a parser finds which goes on
behind an error, each with a place and words of its own: how to go on is not part of the grammar, so
what is in that list is not modelled. It is never empty either. -/
def malformedDiagnostic (source : Source) : Diagnostic :=
  { range := source.range ⟨0, source.size⟩, severity := .error, source := syntaxSource,
    message := "syntax error" }

def Usage.diagnostic (source : Source) (v : LuaVersion) (u : Usage) : Diagnostic :=
  { range := source.range u.span, severity := .warning, source := syntaxSource,
    message := u.construct.message v }

namespace Binder

variable {σ : Type}

def ofChunk (s : Setting σ) (chunk : Chunk) (world : σ) : Binder σ :=
  let (_, b) := (Walk.visitStatements s chunk.statements 1).run (.start s.source world)
  b.resolvePending

end Binder

/-- Build the index of a text; the loader's state goes through the walk. -/
def Index.build {σ : Type} (document : DocumentId) (revision : Revision) (text : String)
    (options : ParserOptions) (loader : Loader σ) (world : σ) : Index × σ :=
  let source := Source.ofString text
  match Chunk.ofChars? source.chars with
  | none => (.empty document revision source [malformedDiagnostic source], world)
  | some chunk =>
    let setting : Setting σ :=
      { source := source, document := document, allowDefined := options.allowDefined,
        loader := loader }
    let b := Binder.ofChunk setting chunk world
    let diagnostics :=
      (chunk.unsupported options.version).map (Usage.diagnostic source options.version)
    (⟨{ document := document, revision := revision, source := source, table := b.table,
        references := b.references, exports := b.exports, diagnostics := diagnostics,
        malformed := false }⟩, b.world)

/-- The index of a document that is looked at on its own. -/
def Index.buildAlone (document : DocumentId) (revision : Revision) (text : String)
    (options : ParserOptions) : Index :=
  (Index.build document revision text options Loader.none ()).1

end LuaScope

import LuaScope.Syntax.Grammar
import LuaScope.Syntax.Dialect
import LuaScope.Symbol.Table
import LuaScope.Document.Diagnostic
import LuaScope.Index.Member
import LuaScope.Syntax.DocComment
import LuaScope.Binding.State
import LuaScope.Binding.Walk
import LuaScope.Binding.Build
import LuaScope.Index.Resolve
import LuaScope.Text.Cursor
import LuaScope.Editor.Outline
import LuaScope.Files.Tree
import LuaScope.Files.Glob
import LuaScope.Files.Walk
import LuaScope.Editor.Completion
import LuaScope.Editor.Navigate
import LuaScope.Editor.Rename
import LuaScope.Data.Value
import LuaScope.Settings.Decode
import LuaScope.Toml.Document
import LuaScope.Toml.Printer
import LuaScope.Settings.Environment
import LuaScope.Settings.Sources
import LuaScope.Editor.Scaffold
import LuaScope.Checker.Run
import LuaScope.Files.Event
import LuaScope.Session.Task
import LuaScope.CommandLine.Run
import LuaScope.Main
import LuaScope.Proofs.Binding.Build
import LuaScope.Proofs.Editor.Edited
import LuaScope.Proofs.Member.Listing
import LuaScope.Proofs.Editor.Edits
import LuaScope.Proofs.Editor.Reparsed
import LuaScope.Proofs.Workspace.Run
import LuaScope.Proofs.Workspace.Lifecycle
import LuaScope.Proofs.Workspace.Removal
import LuaScope.Proofs.Workspace.Identity
import LuaScope.Proofs.Syntax.Lexeme
import LuaScope.Proofs.Syntax.Site
import LuaScope.Proofs.Syntax.Order
import LuaScope.Proofs.Scoping.Lexical
import LuaScope.Proofs.Scoping.Table
import LuaScope.Proofs.Scoping.Place
import LuaScope.Proofs.Scoping.Visit
import LuaScope.Proofs.Scoping.Step
import LuaScope.Proofs.Scoping.Tree
import LuaScope.Proofs.Scoping.Links
import LuaScope.Proofs.Renaming.Text
import LuaScope.Proofs.Syntax.Passage
import LuaScope.Proofs.Binding.Answers
import LuaScope.Proofs.Scoping.Appended
import LuaScope.Proofs.Linking.Traced
import LuaScope.Proofs.Workspace.Loading
import LuaScope.Proofs.Workspace.Updates
import LuaScope.Proofs.Workspace.Requires
import LuaScope.Proofs.Workspace.Order
import LuaScope.Proofs.Workspace.History
import LuaScope.Proofs.Session.Run
import LuaScope.Proofs.Session.Reports
import LuaScope.Proofs.Editor.Definition
import LuaScope.Proofs.Session.Closing
import LuaScope.Proofs.Naming.Index
import LuaScope.Proofs.Member.Declared
import LuaScope.Proofs.Catalog.Deleted
import LuaScope.Proofs.Catalog.Maintained
import LuaScope.Proofs.Symbol.Visible
import LuaScope.Proofs.Settings.Saved
import LuaScope.Proofs.Member.Rebased
import LuaScope.Proofs.Linking.Resolved
import LuaScope.Proofs.Scoping.Innermost
import LuaScope.Proofs.Function.Returned
import LuaScope.Proofs.Member.Retyped
import LuaScope.Proofs.Function.Signature
import LuaScope.Proofs.Owner.Chain
import LuaScope.Proofs.Text.Positions
import LuaScope.Proofs.Catalog.Provided
import LuaScope.Proofs.Text.Scanner
import LuaScope.Proofs.Editor.Pointed
import LuaScope.Proofs.Checker.Report
import LuaScope.Proofs.Settings.Payload
import LuaScope.Proofs.Editor.Outline
import LuaScope.Proofs.Call.Context
import LuaScope.Proofs.Symbol.Coherent
import LuaScope.Proofs.Binding.Restored
import LuaScope.Proofs.Dialect.Flagged

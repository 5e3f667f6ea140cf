import LuaScope.Text.Position

/-!
# LuaScope.Document.Diagnostic

A problem reported against a range of a document, by the reader of its syntax or by the external
checker.
-/

namespace LuaScope

inductive Severity where
  | error | warning | information
deriving Repr, DecidableEq, Inhabited

def Severity.label : Severity → String
  | .error => "error"
  | .warning => "warning"
  | .information => "information"

structure Diagnostic where
  range : Range
  severity : Severity
  /-- The checker's code, such as `W211`. -/
  code : Option String := none
  source : String
  message : String
deriving Repr, DecidableEq, Inhabited

/-- Is this one of the problems that make a document malformed? -/
def Diagnostic.isSyntaxError (d : Diagnostic) : Bool :=
  d.severity == .error && d.source == "luasense"

end LuaScope

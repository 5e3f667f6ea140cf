import LuaScope.Document.Diagnostic
import LuaScope.Decimal.Basic
import LuaScope.Text.Blank
import LuaScope.Text.Digit

/-!
# LuaScope.Checker.Report

The checker's plain report: one problem a line, `file:line:column-end: (W211) message`, between
lines that mean nothing here. Lines and columns count from one in it and the end column belongs to
the range.
-/

namespace LuaScope

/-- A problem as a line of the report gives it. Numbers are digits still: only those of ASCII that
fit into 32 bits can be used. -/
structure ReportLine where
  line : List Char
  column : List Char
  endColumn : Option (List Char)
  isError : Bool
  code : List Char
  message : List Char
deriving Repr, DecidableEq

namespace ReportLine

def digits? (cs : List Char) : Option (List Char × List Char) :=
  let ds := cs.takeWhile isDecimalDigit
  if ds.isEmpty then none else some (ds, cs.drop ds.length)

/-- The code in parentheses and the message, behind the place. -/
def ofVerdict? (line column : List Char) (endColumn : Option (List Char)) :
    List Char → Option ReportLine
  | ':' :: ' ' :: '(' :: severity :: cs =>
    if severity = 'E' ∨ severity = 'W' then
      match digits? cs with
      | some (number, ')' :: ' ' :: message) =>
        some ⟨line, column, endColumn, severity == 'E', severity :: number, message⟩
      | _ => none
    else none
  | _ => none

/-- What follows the colon behind the file's name. -/
def ofPlace? (cs : List Char) : Option ReportLine :=
  match digits? cs with
  | some (line, ':' :: cs) =>
    match digits? cs with
    | some (column, '-' :: cs) =>
      match digits? cs with
      | some (last, cs) => ofVerdict? line column (some last) cs
      | none => none
    | some (column, cs) => ofVerdict? line column none cs
    | none => none
  | _ => none

/-- Read a line; the file's name ends at the first colon that a place and a verdict follow. -/
def ofChars? : List Char → Option ReportLine
  | [] => none
  | c :: cs =>
    if c = ':' then
      match ofPlace? cs with
      | some r => some r
      | none => ofChars? cs
    else ofChars? cs

def number? (ds : List Char) : Option Nat :=
  if ds.all Char.isDigit && Decimal.ofDigits ds < Nat.pow 2 32 then some (Decimal.ofDigits ds)
  else none

/-- The problem with its place counted from zero and an open end. -/
def toDiagnostic? (r : ReportLine) : Option Diagnostic :=
  match number? r.line, number? r.column with
  | some line, some column =>
    let last := (r.endColumn.bind number?).getD column
    some
      { range := ⟨⟨line - 1, column - 1⟩, ⟨line - 1, last⟩⟩
        severity := if r.isError then .error else .warning
        code := some (String.ofList r.code)
        source := "luacheck"
        message := String.ofList r.message }
  | _, _ => none

end ReportLine

/-- The problems of a report, the first `limit` of them. -/
def readReport (output : String) (limit : Nat) : List Diagnostic :=
  let lines := splitWhere (· == '\n') output.toList
  (lines.filterMap (fun line =>
    (ReportLine.ofChars? (trimRight isBlank line)).bind ReportLine.toDiagnostic?)).take limit

end LuaScope

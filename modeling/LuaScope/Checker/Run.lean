import LuaScope.Checker.Report
import LuaScope.Files.Tree
import LuaScope.Settings.Basic
import LuaScope.Text.Source

/-!
# LuaScope.Checker.Run

Running the external checker over a text. The text goes to the program's input; its report is read
unless it failed or took too long. A text that is too large, or any text while the checker is
turned off, has no problems and nothing runs.
-/

namespace LuaScope

structure ToolOutput where
  elapsed : Nat := 0
  status : Option Nat := some 0
  stdout : String := ""
  stderr : String := ""
deriving Repr, DecidableEq

inductive ToolOutcome where
  | notStarted (cause : FileError)
  /-- The exchange with the running program broke off. -/
  | brokenOff (cause : String)
  | finished (output : ToolOutput)
deriving Repr, DecidableEq

/-- What comes of running a program, with its arguments and the text that it reads. -/
abbrev Tools := String → List String → String → ToolOutcome

inductive CheckError where
  | notStarted (program : String) (cause : FileError)
  | timedOut (program : String) (timeout : Nat)
  | failed (program : String) (status : Option Nat) (stderr : String)
  | brokenOff (cause : String)
deriving Repr, DecidableEq

namespace CheckError

def statusText : Option Nat → String
  | some n => toString n
  | none => "-1"

def message : CheckError → String
  | .notStarted program cause => "Failed to start '" ++ program ++ "': " ++ cause.message
  | .timedOut program timeout =>
    "'" ++ program ++ "' did not finish within " ++ toString (timeout / 1000) ++ "s"
  | .failed program status stderr =>
    "'" ++ program ++ "' exited with status " ++ statusText status ++ ": " ++ stderr
  | .brokenOff cause => "I/O error talking to the checker: " ++ cause

def chain (e : CheckError) : List String :=
  match e with
  | .notStarted _ cause => [e.message, cause.message]
  | .brokenOff cause => [e.message, cause]
  | e => [e.message]

end CheckError

def checkTimeout : Nat := 10000

namespace CheckerSettings

/-- Is a text of this many bytes small enough? The limit itself stays within 64 bits. -/
def allowsSize (s : CheckerSettings) (size : Nat) : Bool :=
  size ≤ min (s.fileSizeLimit * 1024) (Nat.pow 2 64 - 1)

/-- Arguments for a text that is read from the input and reported as `filename`. -/
def arguments (s : CheckerSettings) (filename : String) : List String :=
  ["--formatter", "plain", "--codes", "--ranges", "--filename", filename] ++
  (if s.std.isEmpty then [] else ["--std", "+".intercalate s.std]) ++
  (if s.ignore.isEmpty then [] else "--ignore" :: s.ignore) ++
  (if 1 < s.jobs then ["-j", toString s.jobs] else []) ++
  (if s.configFilePath.isEmpty then [] else ["--config", s.configFilePath]) ++
  ["-"]

/-- The greatest status of a run that went well: it says whether there are problems. -/
def greatestGoodStatus : Nat := 2

/-- What the outcome of a run says about the text. -/
def judge (s : CheckerSettings) (timeout : Nat) : ToolOutcome → Except CheckError (List Diagnostic)
  | .notStarted cause => .error (.notStarted s.executable cause)
  | .brokenOff cause => .error (.brokenOff cause)
  | .finished output =>
    if timeout ≤ output.elapsed then .error (.timedOut s.executable timeout)
    else
      let failed := CheckError.failed s.executable output.status
        (String.ofList (trimBlanks output.stderr.toList))
      match output.status with
      | some n =>
        if n ≤ greatestGoodStatus then .ok (readReport output.stdout s.maxProblems)
        else .error failed
      | none => .error failed

def check (s : CheckerSettings) (tools : Tools) (timeout : Nat) (filename text : String) :
    Except CheckError (List Diagnostic) :=
  if !s.enable || !s.allowsSize text.utf8ByteSize then .ok []
  else s.judge timeout (tools s.executable (s.arguments filename) text)

end CheckerSettings

end LuaScope

import LuaScope.Files.Glob
import LuaScope.Files.Tree

/-!
# LuaScope.Files.Ignore

Lists of patterns that leave files out: those of ignore files, relative to the file's directory,
and search filters, relative to a search root. In either the last matching pattern decides.
-/

namespace LuaScope

inductive Verdict where
  | none
  | ignored
  | kept
deriving Repr, DecidableEq

namespace Verdict

/-- The first verdict, unless it says nothing. -/
def orElse (a b : Verdict) : Verdict :=
  match a with
  | .none => b
  | v => v

def first : List Verdict → Verdict
  | [] => .none
  | v :: rest => v.orElse (first rest)

end Verdict

structure IgnorePattern where
  glob : Glob
  /-- The line began with `!`. -/
  negated : Bool
  onlyDirectory : Bool

namespace IgnorePattern

/-- Blanks at the end are dropped unless a backslash holds the last one. -/
def trimLine (line : List Char) : List Char :=
  match line.reverse with
  | ' ' :: '\\' :: _ => line
  | _ => trimRight isBlank line

/-- Does the pattern bind to the directory of its list: has it a slash at the front or inside? -/
def anchored (absolute : Bool) (body : List Char) : List Char :=
  let body :=
    if absolute || body.contains '/' || body == ['*', '*'] then body
    else "**/".toList ++ body
  if "/**".toList.isSuffixOf body then body ++ "/*".toList else body

/-- The directory mark at the end of a pattern, with a backslash in front of it. -/
def splitDirectoryMark (body : List Char) : List Char × Bool :=
  match body.reverse with
  | '/' :: '\\' :: rest => (rest.reverse, true)
  | '/' :: rest => (rest.reverse, true)
  | _ => (body, false)

/-- Read a line; comments, blank lines and patterns that can not be read give nothing. -/
def ofLine? (lenient : Bool) (line : List Char) : Option IgnorePattern :=
  if line.head? == some '#' then none
  else
    let line := trimLine line
    if line.isEmpty then none
    else
      let (negated, absolute, body) : Bool × Bool × List Char :=
        match line with
        | '\\' :: '!' :: rest => (false, false, '!' :: rest)
        | '\\' :: '#' :: rest => (false, false, '#' :: rest)
        | '!' :: '/' :: rest => (true, true, rest)
        | '!' :: rest => (true, false, rest)
        | '/' :: rest => (false, true, rest)
        | _ => (false, false, line)
      let (body, onlyDirectory) := splitDirectoryMark body
      match Glob.read lenient (anchored absolute body) with
      | .ok glob => some ⟨glob, negated, onlyDirectory⟩
      | .error _ => none

def applies (p : IgnorePattern) (path : Bytes) (isDirectory : Bool) : Bool :=
  (!p.onlyDirectory || isDirectory) && p.glob.isMatch path

end IgnorePattern

structure IgnoreRules where
  base : String
  patterns : List IgnorePattern

namespace IgnoreRules

/-- The path as the patterns see it, without their directory. -/
def relative (base path : String) : Bytes :=
  let path := path.toList
  let base := base.toList
  let path := if base.isPrefixOf path then
      match path.drop base.length with
      | '/' :: rest => rest
      | rest => rest
    else path
  (String.ofList path).toUTF8.toList

def verdict (r : IgnoreRules) (path : String) (isDirectory : Bool) : Verdict :=
  if r.patterns.isEmpty then .none
  else
    let path := relative r.base path
    match r.patterns.reverse.find? (·.applies path isDirectory) with
    | some p => if p.negated then .kept else .ignored
    | none => .none

def ofText (base : String) (text : String) : IgnoreRules :=
  let lines := match text.toList with
    | '\uFEFF' :: rest => splitWhere (· == '\n') rest
    | cs => splitWhere (· == '\n') cs
  let withoutReturn (line : List Char) : List Char :=
    match line.reverse with
    | '\r' :: rest => rest.reverse
    | _ => line
  ⟨base, lines.filterMap (fun line => IgnorePattern.ofLine? true (withoutReturn line))⟩

def ofFile (t : FileTree) (base path : String) : IgnoreRules :=
  match t.readText path with
  | .ok text => ofText base text
  | .error _ => ⟨base, []⟩

end IgnoreRules

/-- Search filters: a plain pattern excludes, one behind `!` names files to keep. -/
structure SearchFilters where
  rules : IgnoreRules

namespace SearchFilters

/-- Filters are written the other way round than lines of ignore files. -/
def lineOf (filter : String) : List Char :=
  match filter.toList with
  | '!' :: rest => rest
  | cs => '!' :: cs

def of (root : String) (filters : List String) : SearchFilters :=
  ⟨⟨root, filters.filterMap (fun f => IgnorePattern.ofLine? false (lineOf f))⟩⟩

/-- Is any filter one that names files to keep? -/
def keepsOnly (f : SearchFilters) : Bool := f.rules.patterns.any (fun p => !p.negated)

/-- A file that matches no filter is left out when there are filters that name files to keep. -/
def verdict (f : SearchFilters) (path : String) (isDirectory : Bool) : Verdict :=
  match f.rules.verdict path isDirectory with
  | .kept => .ignored
  | .ignored => .kept
  | .none => if f.keepsOnly && !isDirectory then .ignored else .none

end SearchFilters

/-- Ignore files of one directory. -/
structure IgnoreLevel where
  ignore : IgnoreRules
  gitIgnore : IgnoreRules
  gitExclude : IgnoreRules

namespace IgnoreLevel

def of (t : FileTree) (dir : String) : IgnoreLevel :=
  { ignore := .ofFile t dir (Path.join dir ".ignore")
    gitIgnore := .ofFile t dir (Path.join dir ".gitignore")
    gitExclude := .ofFile t dir (Path.join dir ".git/info/exclude") }

/-- What the ignore files of one kind say, the levels from the deepest outwards. -/
def ask (levels : List IgnoreLevel) (rules : IgnoreLevel → IgnoreRules) (path : String)
    (isDirectory : Bool) : Verdict :=
  .first (levels.map (fun l => (rules l).verdict path isDirectory))

end IgnoreLevel

end LuaScope

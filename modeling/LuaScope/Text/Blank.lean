/-!
# LuaScope.Text.Blank

Blank characters and trimming. `isBlank` is the `White_Space` property of Unicode, `isLuaBlank`
the six characters that separate tokens of a Lua text.
-/

namespace LuaScope

/-- The `White_Space` property of Unicode. -/
def isBlank (c : Char) : Bool :=
  let n := c.val
  (0x09 ≤ n && n ≤ 0x0D) || n == 0x20 || n == 0x85 || n == 0xA0 || n == 0x1680 ||
  (0x2000 ≤ n && n ≤ 0x200A) || n == 0x2028 || n == 0x2029 || n == 0x202F || n == 0x205F ||
  n == 0x3000

/-- Tab, the three line breaks, form feed and space. -/
def isLuaBlank (c : Char) : Bool := (0x09 ≤ c.val && c.val ≤ 0x0D) || c.val == 0x20

def trimLeft (p : Char → Bool) (cs : List Char) : List Char := cs.dropWhile p

def trimRight (p : Char → Bool) (cs : List Char) : List Char := (cs.reverse.dropWhile p).reverse

def trimBoth (p : Char → Bool) (cs : List Char) : List Char := trimRight p (trimLeft p cs)

def trimBlanks (cs : List Char) : List Char := trimBoth isBlank cs

/-- The pieces between the characters that satisfy `p`; one more than there are such characters. -/
def splitWhere (p : Char → Bool) : List Char → List (List Char)
  | [] => [[]]
  | c :: cs =>
    match splitWhere p cs with
    | [] => [[]]
    | piece :: rest => if p c then [] :: piece :: rest else (c :: piece) :: rest

/-- Segments of a dotted path; a colon counts as a dot and empty segments are skipped. -/
def pathSegments (cs : List Char) : List (List Char) :=
  ((splitWhere (fun c => c == '.' || c == ':') cs).map trimBlanks).filter (fun seg => !seg.isEmpty)

/-- Segments of a dotted path such as `a.b:c`. -/
def splitPath (path : String) : List String := (pathSegments path.toList).map String.ofList

end LuaScope

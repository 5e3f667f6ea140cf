import LuaScope.Decimal.Shortest

/-!
# LuaScope.Data.Value

Values as settings files, environment variables and editors write them. Tables are merged key by
key, a later value replaces anything else.
-/

namespace LuaScope

/-- Numbers keep the way they were written: a reader of settings tells a fraction from a whole
number, and messages name the kind. -/
inductive DataValue where
  | unit
  | boolean (b : Bool)
  | unsigned (n : Nat)
  | signed (i : Int)
  | float (x : Float)
  | text (s : String)
  | list (items : List DataValue)
  | table (fields : List (String × DataValue))
deriving Inhabited

namespace DataValue

/-- Field names in the order of their characters. -/
def sortFields {α : Type} (fields : List (String × α)) : List (String × α) :=
  fields.mergeSort (fun a b => a.1 ≤ b.1)

def setField (key : String) (v : DataValue) : List (String × DataValue) → List (String × DataValue)
  | [] => [(key, v)]
  | (k, old) :: rest => if k = key then (k, v) :: rest else (k, old) :: setField key v rest

mutual

/-- Lay a value over an older one. -/
def merge (old : DataValue) : DataValue → DataValue
  | .table fields =>
    match old with
    | .table olds => .table (mergeFields olds fields)
    | _ => .table fields
  | v => v

def mergeFields (olds : List (String × DataValue)) :
    List (String × DataValue) → List (String × DataValue)
  | [] => olds
  | (key, v) :: rest =>
    let v := match olds.lookup key with
      | some old => merge old v
      | none => v
    mergeFields (setField key v olds) rest

end

def isUnit : DataValue → Bool
  | .unit => true
  | _ => false

mutual

/-- Drop the fields that hold nothing, in tables but not inside lists. -/
def dropUnits : DataValue → DataValue
  | .table fields => .table (dropUnitFields fields)
  | v => v

def dropUnitFields : List (String × DataValue) → List (String × DataValue)
  | [] => []
  | (key, v) :: rest =>
    if v.isUnit then dropUnitFields rest else (key, dropUnits v) :: dropUnitFields rest

end

/-- The value one step further: a field of a table or, by its number, an item of a list. -/
def step? (v : DataValue) (key : String) : Option DataValue :=
  match v with
  | .table fields => fields.lookup key
  | .list items => key.toNat?.bind (fun i => items[i]?)
  | _ => none

/-- The value at the end of a path of keys. -/
def at? (v : DataValue) (path : List String) : Option DataValue :=
  path.foldlM step? v

/-- A value alone at the end of a path of keys. -/
def nest (path : List String) (v : DataValue) : DataValue :=
  path.foldr (fun key v => .table [(key, v)]) v

end DataValue

end LuaScope

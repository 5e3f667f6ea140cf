/-!
# LuaScope.Files.Event

Changes of single files, as an editor reports them.
-/

namespace LuaScope

inductive FileChange where
  | created | changed | deleted
deriving Repr, DecidableEq

namespace FileChange

def label : FileChange → String
  | .created => "created"
  | .changed => "changed"
  | .deleted => "deleted"

def ofLabel? : String → Option FileChange
  | "created" => some .created
  | "changed" => some .changed
  | "deleted" => some .deleted
  | _ => none

/-- The numbers that editors know. -/
def ofNumber? : Nat → Option FileChange
  | 1 => some .created
  | 2 => some .changed
  | 3 => some .deleted
  | _ => none

end FileChange

structure FileEvent where
  path : String
  change : FileChange
deriving Repr, DecidableEq

def FileEvent.ofNumber? (path : String) (number : Nat) : Option FileEvent :=
  (FileChange.ofNumber? number).map (fun change => ⟨path, change⟩)

end LuaScope

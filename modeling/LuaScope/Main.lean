import LuaScope.CommandLine.Run

/-!
# LuaScope.Main

The program. It takes a picture of the files below the current directory, of the settings above it
and of the paths among its arguments, and runs the command on that picture. No other program is
started from here, so the checker is never found.
-/

namespace LuaScope

/-- The place of an absolute path. -/
def placeOfPath (path : String) : Place :=
  ((Path.parts path).filter (· != .root)).map PathPart.text

/-- Directories deeper than this are left out of the picture. -/
def greatestDepth : Nat := 64

def readEntry (path : String) : IO FileEntry := do
  return .file (String.fromUTF8? (← IO.FS.readBinFile path))

/-- What stands at an entry of a directory and below it; a link is not followed. -/
def entriesAt : Nat → IO.FS.DirEntry → IO (List (Place × FileEntry))
  | 0, _ => return []
  | depth + 1, e => do
    let path := e.path.toString
    let place := placeOfPath path
    try
      let real ← IO.FS.realPath e.path
      if real.toString != path then return [(place, .link real.toString)]
      else if ← e.path.isDir then
        let inner ← (← e.path.readDir).toList.mapM (entriesAt depth)
        return (place, .directory) :: inner.flatten
      else return [(place, ← readEntry path)]
    catch _ => return []

/-- Add a file or a whole directory to the picture, by its own path. -/
def addPath (t : FileTree) (path : String) : IO FileTree := do
  try
    let real ← IO.FS.realPath path
    let name := real.toString
    if ← real.isDir then
      let inner ← (← real.readDir).toList.mapM (entriesAt greatestDepth)
      let t := t.create name .directory
      return { t with entries := inner.flatten ++ t.entries }
    else return t.create name (← readEntry name)
  catch _ => return t

/-- The parts of the process environment, each a name and a text. -/
def readEnvironment : IO (List (String × String)) := do
  try
    let bytes ← IO.FS.readBinFile "/proc/self/environ"
    let text := (String.fromUTF8? bytes).getD ""
    let parts := splitWhere (fun c => c.val == 0) text.toList
    return parts.map (fun part =>
      let name := part.takeWhile (· != '=')
      (String.ofList name, String.ofList (part.drop (name.length + 1))))
  catch _ => return []

/-- The files that a command with these arguments may ask for. -/
def takePicture (arguments : List String) : IO FileTree := do
  let here ← IO.currentDir
  let start : FileTree := { entries := [], current := placeOfPath here.toString }
  let t ← addPath start here.toString
  let above := t.currentAndAbove.tail.map (fun dir => Settings.fileIn dir.text)
  let named := arguments.filter (fun argument => !argument.isEmpty)
  (above ++ named).foldlM addPath t

end LuaScope

def main (arguments : List String) : IO UInt32 := do
  let files ← LuaScope.takePicture arguments
  let surroundings : LuaScope.Surroundings :=
    ⟨⟨files, fun _ _ _ => .notStarted .notFound⟩, ← LuaScope.readEnvironment⟩
  let result := surroundings.run arguments
  IO.print result.stdout
  IO.eprint result.stderr
  return result.status.toUInt32

import SearchQuery.Run

/-! The program: takes in the files that a command may look at, runs it, and writes back what
it changed. -/

namespace SearchQuery.Program

partial def readAll (input : IO.FS.Stream) (done : ByteArray) : IO ByteArray := do
  let chunk ← input.read 65536
  if chunk.isEmpty then return done else readAll input (done ++ chunk)

/-- A path from the root, which is written as nothing at all. -/
def asPath (s : String) : Path := (s.splitOn "/").filter (· != "")

def entryAt (path : Path) : IO (Option Entry) := do
  let place := (← IO.currentDir) / path.display ""
  if ← place.isDir then return some .directory
  else if ← place.pathExists then return some (.file (← IO.FS.readBinFile place).toList)
  else return none

/-- The settings files that can matter, with the directories they are in. -/
def takeIn (cwd home : Path) : IO FileTree := do
  let mut tree := (FileTree.empty.makeDirectories cwd).makeDirectories home
  for dir in home :: cwd.way do
    let path := Settings.fileIn dir
    if let some entry := ← entryAt path then tree := tree.put path entry
  return tree

def writeBack (before after : FileTree) : IO Unit := do
  for (path, bytes) in after.filesNamed Settings.fileName do
    if before.get? path != some (.file bytes) then
      IO.FS.writeBinFile ((← IO.currentDir) / path.display "") ⟨bytes.toArray⟩

def perform (i : Invocation) (home : String) : IO UInt32 := do
  let cwd := asPath (← IO.currentDir).toString
  let home := asPath home
  let tree ← takeIn cwd home
  let input ← match i.command with
    | .tokens none _ | .parse none .. => readAll (← IO.getStdin) .empty
    | _ => pure .empty
  let o := (Place.mk tree cwd home "" input.toList).run i.command
  writeBack tree o.tree
  IO.eprint (o.errorOutput i.verbosity)
  IO.print o.output
  return o.code.toUInt32

end SearchQuery.Program

open SearchQuery in
def main (args : List String) : IO UInt32 := do
  match Invocation.ofArgs args with
  | .error e =>
    if e.code = 0 then IO.println e.message else IO.eprintln e.message
    return e.code.toUInt32
  | .ok i =>
    match ← IO.getEnv "HOME" with
    | some home => Program.perform i home
    | none =>
      IO.eprintln "error: could not determine home directory"
      return 1

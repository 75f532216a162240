import SearchQuery.Text.Utf8

/-! Files and directories below one root, as a value. -/

namespace SearchQuery

abbrev Path := List String

def Path.display (root : String) (p : Path) : String := "/".intercalate (root :: p)

/-- The paths on the way from the root to a path, both included. -/
def Path.way : Path → List Path
  | [] => [[]]
  | name :: p => [] :: (Path.way p).map (name :: ·)

inductive Entry where
  | directory
  | file (bytes : List UInt8)
  deriving DecidableEq, Repr

inductive FileError where
  | notFound
  | notDirectory
  | isDirectory
  /-- The bytes are not UTF-8. -/
  | notText
  deriving DecidableEq, Repr

def FileError.message : FileError → String
  | notFound => "No such file or directory (os error 2)"
  | notDirectory => "Not a directory (os error 20)"
  | isDirectory => "Is a directory (os error 21)"
  | notText => "stream did not contain valid UTF-8"

/-- The paths that hold something, and what each holds. The first entry of a path counts. -/
structure FileTree where
  entries : List (Path × Entry)
  deriving DecidableEq, Repr

namespace FileTree

def empty : FileTree := ⟨[([], .directory)]⟩

def get? (t : FileTree) (p : Path) : Option Entry := t.entries.lookup p

def isFile (t : FileTree) (p : Path) : Bool :=
  match t.get? p with
  | some (.file _) => true
  | _ => false

/-- Why there is nothing at a path: a file in the way, or simply nothing. -/
def missing (t : FileTree) (p : Path) : FileError :=
  if p.way.any t.isFile then .notDirectory else .notFound

def readText (t : FileTree) (p : Path) : Except FileError String :=
  match t.get? p with
  | none => .error (t.missing p)
  | some .directory => .error .isDirectory
  | some (.file bytes) =>
    match Utf8.decode? bytes with
    | some text => .ok text
    | none => .error .notText

def put (t : FileTree) (p : Path) (e : Entry) : FileTree :=
  if (t.get? p).isSome then ⟨t.entries.map fun (q, old) => if q = p then (q, e) else (q, old)⟩
  else ⟨t.entries ++ [(p, e)]⟩

/-- A directory and those above it, except where there is something already. -/
def makeDirectories (t : FileTree) (p : Path) : FileTree :=
  p.way.foldl (fun t q => if (t.get? q).isSome then t else t.put q .directory) t

def write (t : FileTree) (p : Path) (bytes : List UInt8) : Except FileError FileTree :=
  match t.get? p with
  | some .directory => .error .isDirectory
  | some (.file _) => .ok (t.put p (.file bytes))
  | none =>
    if t.get? p.dropLast = some .directory then .ok (t.put p (.file bytes))
    else .error (t.missing p)

def filesNamed (t : FileTree) (name : String) : List (Path × List UInt8) :=
  t.entries.filterMap fun (p, e) =>
    match e with
    | .file bytes => if p.getLast? = some name then some (p, bytes) else none
    | .directory => none

end FileTree
end SearchQuery

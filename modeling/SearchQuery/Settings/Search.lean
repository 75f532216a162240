import SearchQuery.FileTree
import SearchQuery.Settings.File

/-! Which settings files apply in a directory: those of the directory and of all above it, the
nearest first, then the one of the user. A file that says it is the root ends the search. -/

namespace SearchQuery.Settings

def fileName : String := ".parceq.toml"

def fileIn (dir : Path) : Path := dir ++ [fileName]

inductive LoadError where
  | read (path : Path) (cause : FileError)
  | malformed (path : Path)
  /-- The setting and what is wrong with it. -/
  | invalid (path : Path) (setting : String) (fault : String)
  deriving DecidableEq, Repr

def malformedReason : String := "not a valid settings file"

def LoadError.message (root : String) : LoadError → String
  | read p cause => "failed to read config file " ++ p.display root ++ ": " ++ cause.message
  | malformed p => "failed to parse config file " ++ p.display root ++ ": " ++ malformedReason
  | invalid p setting fault =>
    "invalid setting '" ++ setting ++ "' in " ++ p.display root ++ ": " ++ fault

def check (path : Path) (file : SettingsFile) : Except LoadError SettingsFile :=
  if file.shingle.bind (·.maxOrder) = some 0 then
    .error (.invalid path "shingle.max_order" "must be at least 1")
  else .ok file

def readFile (tree : FileTree) (path : Path) : Except LoadError SettingsFile :=
  match tree.readText path with
  | .error cause => .error (.read path cause)
  | .ok text =>
    match SettingsFile.read text with
    | none => .error (.malformed path)
    | some file => check path file

/-- Loads files, the one that has precedence first. All have to be in order, also where nothing
of them counts; the first that is not decides the error. -/
def loadFiles (tree : FileTree) (paths : List Path) : Except LoadError (Config Path) := do
  let files ← paths.mapM (readFile tree)
  return ⟨merge files, paths⟩

/-- True for a file that says it is the root. A file that cannot be read says nothing. -/
def isRoot (tree : FileTree) (path : Path) : Bool :=
  match tree.readText path with
  | .error _ => false
  | .ok text => (SettingsFile.read text).any fun file => file.root = some true

def ancestors (dir : Path) : List Path := dir.way.reverse

structure Found where
  files : List Path
  /-- The directory whose file ended the search. -/
  closedBy : Option Path
  deriving DecidableEq, Repr

/-- The files in directories, up to and with one that is the root. -/
def searchDirs (tree : FileTree) : List Path → Found
  | [] => ⟨[], none⟩
  | dir :: dirs =>
    let file := fileIn dir
    if !tree.isFile file then searchDirs tree dirs
    else if isRoot tree file then ⟨[file], some dir⟩
    else
      let found := searchDirs tree dirs
      ⟨file :: found.files, found.closedBy⟩

def search (tree : FileTree) (cwd home : Path) : Found :=
  let found := searchDirs tree (ancestors cwd)
  let user := fileIn home
  -- the search may have come through the home directory already
  if found.closedBy.isNone && tree.isFile user && !found.files.contains user then
    { found with files := found.files ++ [user] }
  else found

def load (tree : FileTree) (cwd home : Path) : Except LoadError (Config Path) :=
  loadFiles tree (search tree cwd home).files

end SearchQuery.Settings

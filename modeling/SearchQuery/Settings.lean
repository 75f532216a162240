import SearchQuery.Shingle
import SearchQuery.Toml.Writer

/-! Settings in force, what one settings file says about them, and the file that a user starts
from. A file may leave anything out; of several files the first to define a setting decides it. -/

namespace SearchQuery

inductive OutputFormat where
  | tree
  | compact
  | json
  deriving DecidableEq, Repr

structure UnknownFormat where
  name : String
  deriving DecidableEq, Repr

def UnknownFormat.message (e : UnknownFormat) : String :=
  "unknown output format '" ++ e.name ++ "' (expected tree, compact or json)"

namespace OutputFormat

def name : OutputFormat → String
  | tree => "tree"
  | compact => "compact"
  | json => "json"

def all : List OutputFormat := [tree, compact, json]

def ofName? (name : String) : Option OutputFormat := all.find? (·.name == name)

/-- The name in any mixture of ASCII cases, as a person types it. -/
def ofInput (input : String) : Except UnknownFormat OutputFormat :=
  match ofName? (String.ofList (input.toList.map Char.toLower)) with
  | some f => .ok f
  | none => .error ⟨input⟩

end OutputFormat

structure ShingleSection where
  maxOrder : Option UInt64
  separator : Option String
  deriving DecidableEq, Repr

structure OutputSection where
  format : Option OutputFormat
  deriving DecidableEq, Repr

structure SettingsFile where
  /-- A file that says it is the root ends the search for further files. -/
  root : Option Bool
  shingle : Option ShingleSection
  output : Option OutputSection
  deriving DecidableEq, Repr

structure Settings where
  shingle : Shingle.Options
  format : OutputFormat
  deriving DecidableEq, Repr

namespace Settings

def default : Settings := ⟨⟨1, " "⟩, .tree⟩

def overlay (file : SettingsFile) (s : Settings) : Settings :=
  let maxOrder := (file.shingle.bind (·.maxOrder)).getD s.shingle.maxOrder
  let separator := (file.shingle.bind (·.separator)).getD s.shingle.separator
  let format := (file.output.bind (·.format)).getD s.format
  ⟨⟨maxOrder, separator⟩, format⟩

/-- The settings that files define together, the one that has precedence first. -/
def merge (files : List SettingsFile) : Settings := files.foldr overlay default

def toToml (s : Settings) : String :=
  "[shingle]\nmax_order = " ++ String.ofList (Nat.toDigits 10 s.shingle.maxOrder.toNat)
    ++ "\nseparator = " ++ Toml.writeText s.shingle.separator
    ++ "\n\n[output]\nformat = " ++ Toml.writeText s.format.name ++ "\n"

/-! ### The file that a user starts from

Every setting is there, commented out, so the file changes nothing until it is edited. -/

def exampleLines : List String :=
  ["# parceq configuration",
    "#",
    "# parceq looks for .parceq.toml in the current directory and every parent,",
    "# then ~/.parceq.toml. The closest file wins for each setting.",
    "",
    "# Stop looking in parent directories and the home directory.",
    "root = false",
    "",
    "[shingle]",
    "# Largest shingle order to add to each term run. 1 disables shingling.",
    "max_order = 1",
    "# Placed between the words of a shingle.",
    "separator = \" \"",
    "",
    "[output]",
    "# How `parceq parse` prints expressions: tree, compact or json.",
    "format = \"tree\""]

def commented (line : String) : String :=
  match line.toList with
  | [] => line
  | '#' :: _ => line
  | _ => "# " ++ line

def template : String := String.join (exampleLines.map fun line => commented line ++ "\n")

end Settings

/-- Settings and the files they come from, in order of precedence. -/
structure Config (Path : Type) where
  settings : Settings
  sources : List Path
  deriving DecidableEq, Repr

end SearchQuery

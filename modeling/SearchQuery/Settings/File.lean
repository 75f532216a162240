import SearchQuery.Settings
import SearchQuery.Toml.Reader

/-! Reading a settings file. Unknown keys are refused. A section may also be a list of its
settings in their order, the last ones left out or further ones behind them. -/

namespace SearchQuery.SettingsFile

open Toml (Value)

/-- The values of the keys `names`, in this order, if there are no other keys. -/
def fieldsOf (names : List String) (entries : List (String × Value)) :
    Option (List (Option Value)) :=
  if entries.all fun (k, _) => names.contains k then some (names.map fun k => entries.lookup k)
  else none

def sectionFields (names : List String) : Value → Option (List (Option Value))
  | .table entries => fieldsOf names entries
  | .list items => some (names.mapIdx fun i _ => items[i]?)
  | _ => none

/-- A setting that may be missing, but not be wrong. -/
def setting {α : Type} (read : Value → Option α) : Option Value → Option (Option α)
  | none => some none
  | some v => (read v).map some

def boolean? : Value → Option Bool
  | .boolean b => some b
  | _ => none

def text? : Value → Option String
  | .text s => some s
  | _ => none

def count? : Value → Option UInt64
  | .integer n => if 0 ≤ n ∧ n < 18446744073709551616 then some n.toNat.toUInt64 else none
  | _ => none

/-- A format by name, or as the only key of a table with nothing in it. -/
def format? : Value → Option OutputFormat
  | .text s => OutputFormat.ofName? s
  | .table [(k, .table [])] => OutputFormat.ofName? k
  | .table [(k, .list [])] => OutputFormat.ofName? k
  | _ => none

def shingle? (v : Value) : Option ShingleSection := do
  match ← sectionFields ["max_order", "separator"] v with
  | [maxOrder, separator] => return ⟨← setting count? maxOrder, ← setting text? separator⟩
  | _ => none

def output? (v : Value) : Option OutputSection := do
  match ← sectionFields ["format"] v with
  | [format] => return ⟨← setting format? format⟩
  | _ => none

def ofEntries (entries : List (String × Value)) : Option SettingsFile := do
  match ← fieldsOf ["root", "shingle", "output"] entries with
  | [root, shingle, output] =>
    return ⟨← setting boolean? root, ← setting shingle? shingle, ← setting output? output⟩
  | _ => none

def read (text : String) : Option SettingsFile := (Toml.read text).bind ofEntries

end SearchQuery.SettingsFile

import SearchQuery.Toml.Value

/-! Tables under construction. A document may come back to a table, but only in the ways that
cannot take back what it said: no key is given twice, a table is headed once, and what dotted
keys or braces have made is not headed at all. -/

namespace SearchQuery.Toml

/-- How a table came about. -/
inductive Origin where
  /-- On the way to a table further in, by a header. -/
  | implied
  /-- On the way to a value, by a dotted key. -/
  | dotted
  /-- By a header of its own. -/
  | headed
  deriving DecidableEq, Repr

inductive Node where
  | value (v : Value)
  | table (origin : Origin) (entries : List (String × Node))
  /-- Tables headed in double brackets, the current one last. -/
  | tables (done : List Node) (entries : List (String × Node))
  deriving Inhabited

abbrev Entries := List (String × Node)

namespace Entries

def put (es : Entries) (k : String) (node : Node) : Entries :=
  if (es.lookup k).isSome then es.map fun (k', old) => if k' = k then (k', node) else (k', old)
  else es ++ [(k, node)]

def assign (k : String) (v : Value) (es : Entries) : Option Entries :=
  match es.lookup k with
  | some _ => none
  | none => some (es.put k (.value v))

def head (k : String) (es : Entries) : Option Entries :=
  match es.lookup k with
  | none => some (es.put k (.table .headed []))
  | some (.table .implied sub) => some (es.put k (.table .headed sub))
  | some _ => none

def headMore (k : String) (es : Entries) : Option Entries :=
  match es.lookup k with
  | none => some (es.put k (.tables [] []))
  | some (.tables done current) => some (es.put k (.tables (done ++ [.table .headed current]) []))
  | some _ => none

/-- Changes the table at the end of a path, making the tables on the way. A dotted key does
not lead into a table that has a header. -/
def within (dotted : Bool) (change : Entries → Option Entries) :
    (path : List String) → Entries → Option Entries
  | [], es => change es
  | k :: path, es =>
    match es.lookup k with
    | none => do
      let sub ← within dotted change path []
      return es.put k (.table (if dotted then .dotted else .implied) sub)
    | some (.table origin sub) =>
      if dotted && origin == .headed then none
      else do
        let sub ← within dotted change path sub
        return es.put k (.table origin sub)
    | some (.tables done current) =>
      if dotted then none
      else do
        let current ← within dotted change path current
        return es.put k (.tables done current)
    | some (.value _) => none

def assignAt (path : List String) (v : Value) (es : Entries) : Option Entries :=
  match path.getLast? with
  | none => none
  | some k => within true (assign k v) path.dropLast es

def headAt (step : String → Entries → Option Entries) (path : List String) (es : Entries) :
    Option Entries :=
  match path.getLast? with
  | none => none
  | some k => within false (step k) path.dropLast es

end Entries

mutual

def Node.finish : Node → Value
  | .value v => v
  | .table _ es => .table (finishEntries es)
  | .tables done current => .list (finishAll done ++ [.table (finishEntries current)])

def finishAll : List Node → List Value
  | [] => []
  | n :: ns => n.finish :: finishAll ns

def finishEntries : Entries → List (String × Value)
  | [] => []
  | (k, n) :: es => (k, n.finish) :: finishEntries es

end

/-- A document under construction: all its entries, and the header that holds sway. -/
structure Draft where
  entries : Entries
  path : List String

namespace Draft

def empty : Draft := ⟨[], []⟩

def head (d : Draft) (path : List String) : Option Draft := do
  return ⟨← d.entries.headAt Entries.head path, path⟩

def headMore (d : Draft) (path : List String) : Option Draft := do
  return ⟨← d.entries.headAt Entries.headMore path, path⟩

def assign (d : Draft) (key : List String) (v : Value) : Option Draft := do
  return { d with entries := ← Entries.within false (Entries.assignAt key v) d.path d.entries }

end Draft
end SearchQuery.Toml

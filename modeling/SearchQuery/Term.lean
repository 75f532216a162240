/-! Terms and where their numbers come from. One source of numbers serves a parse and every
later transformation of its result, so no two terms of an expression share one. -/

namespace SearchQuery

structure Term where
  id : UInt32
  value : String
  /-- The field a term is restricted to; the empty name is a field as well. -/
  field : Option String := none
  deriving DecidableEq, Repr, Inhabited

def Term.display (t : Term) : String :=
  let name := match t.field with
    | some field => field ++ ":"
    | none => ""
  name ++ t.value ++ "#" ++ toString t.id.toNat

/-- A source of term numbers that has given out the first `issued`. -/
structure TermIds where
  issued : UInt32
  deriving DecidableEq, Repr, Inhabited

namespace TermIds

def start : TermIds := ⟨0⟩

def issue (ids : TermIds) (value : String) : Term × TermIds :=
  (⟨ids.issued, value, none⟩, ⟨ids.issued + 1⟩)

def issueAll (ids : TermIds) : List String → List Term × TermIds
  | [] => ([], ids)
  | v :: vs =>
    let (t, ids) := ids.issue v
    let (ts, ids) := ids.issueAll vs
    (t :: ts, ids)

end TermIds
end SearchQuery

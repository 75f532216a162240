import SearchQuery.Expr.Connectives

/-! Shingles: terms made of neighbouring terms. They let an engine that ranks documents reward
words that stand next to each other. -/

namespace SearchQuery

/-- The stretches of `n` neighbours, first to last. -/
def windows {α : Type} (n : Nat) : List α → List (List α)
  | [] => []
  | x :: xs => if n ≤ xs.length + 1 then (x :: xs).take n :: windows n xs else []

namespace Shingle

structure Options where
  /-- The longest stretch that is joined into one term. -/
  maxOrder : UInt64
  /-- Stands between the joined values. -/
  separator : String
  deriving DecidableEq, Repr

def values (separator : String) (n : Nat) (ts : List Term) : List String :=
  (windows n ts).map fun w => separator.intercalate (w.map Term.value)

/-- The orders that a run of `size` terms has shingles of. Nothing depends on how far the
largest order lies beyond the size. -/
def orders (maxOrder size : Nat) : List Nat := List.range' 2 (min maxOrder size - 1)

def runs (separator : String) (ts : List Term) (ids : TermIds) :
    List Nat → List (List Term) × TermIds
  | [] => ([], ids)
  | n :: ns =>
    -- all of one order are numbered before the next
    let (shingles, ids) := ids.issueAll (values separator n ts)
    let (more, ids) := runs separator ts ids ns
    (shingles :: more, ids)

def expand (opts : Options) (ts : List Term) : StateM TermIds Expr := fun ids =>
  let (extra, ids) := runs opts.separator ts ids (orders opts.maxOrder.toNat ts.length)
  let e := if extra.isEmpty then Expr.terms ts
    else Expr.compound .or (Expr.terms ts :: extra.map Expr.terms)
  (e, ids)

end Shingle
end SearchQuery

import SearchQuery.Proofs.Expr.Additive

/-! Which runs of an expression stand below a boost. Joining two expressions changes nothing for the runs
of either, and only `wrap` puts a run below a boost. -/

namespace SearchQuery.Expr

mutual

/-- Every run with whether a boost stands above it, `above` saying whether one stands above the
expression. -/
def boostedRuns (above : Bool) : Expr → List (Bool × List Term)
  | .run ts => [(above, ts)]
  | .node op cs => boostedRunsOf (if op = .boost then true else above) cs

def boostedRunsOf (above : Bool) : List Expr → List (Bool × List Term)
  | [] => []
  | c :: cs => boostedRuns above c ++ boostedRunsOf above cs

end

variable {op : Operator} {l r : Expr}

theorem boostedRunsOf_eq (above : Bool) (cs : List Expr) :
    boostedRunsOf above cs = cs.flatMap (boostedRuns above) := by
  induction cs with
  | nil => rfl
  | cons c cs ih => rw [boostedRunsOf, ih, List.flatMap_cons]

theorem boostedRuns_run (above : Bool) (ts : List Term) : boostedRuns above (.run ts) = [(above, ts)] := by
  rw [boostedRuns]

theorem boostedRuns_noop (above : Bool) : boostedRuns above noop = [] := by
  rw [noop, boostedRuns, boostedRunsOf]

theorem boostedRuns_node (above : Bool) (hop : op ≠ .boost) (cs : List Expr) :
    boostedRuns above (.node op cs) = cs.flatMap (boostedRuns above) := by
  rw [boostedRuns, if_neg hop, boostedRunsOf_eq]

theorem boostedRuns_boost (above : Bool) (cs : List Expr) :
    boostedRuns above (.node .boost cs) = cs.flatMap (boostedRuns true) := by
  rw [boostedRuns, if_pos rfl, boostedRunsOf_eq]

theorem boostedRuns_combine (above : Bool) (hop : Absorbs op) (hl : WellFormed l) (hr : WellFormed r) :
    boostedRuns above (combine op l r) = boostedRuns above l ++ boostedRuns above r := by
  refine flatMap_combine hop (boostedRuns_node above ?_) (boostedRuns_noop above) hl hr
  rcases hop with rfl | rfl <;> decide

theorem boostedRuns_wrap_run (above : Bool) (ts : List Term) :
    boostedRuns above (Expr.run ts).wrap = [(true, ts)] := by
  show boostedRuns above (.node .boost [.run ts]) = _
  simp [boostedRuns_boost, boostedRuns_run]

theorem wrap_of_absorbs (h : Absorbs l.operator) : l.wrap = l := by
  cases l with
  | run ts => exact absurd rfl h.ne_terms
  | node op cs => rfl

end SearchQuery.Expr

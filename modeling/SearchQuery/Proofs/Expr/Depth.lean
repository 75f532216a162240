import SearchQuery.Proofs.Expr.Normal

/-! How deep an expression is nested. A connective adds a level above an operand of another kind only, since
it takes over the children of its own kind, and a group that is boosted adds one above everything. -/

namespace SearchQuery.Expr

mutual

/-- Levels of nesting, a run being one. -/
def depth : Expr → Nat
  | .run _ => 1
  | .node _ cs => depthOf cs + 1

/-- Levels of the deepest of some expressions. -/
def depthOf : List Expr → Nat
  | [] => 0
  | c :: cs => max (depth c) (depthOf cs)

end

/-- Levels that `op` has at least when the expression is one of its operands. -/
def depthUnder (op : Operator) (e : Expr) : Nat :=
  if e.operator = op then e.depth else e.depth + 1

variable {op : Operator} {e l r : Expr}

theorem depth_run (ts : List Term) : depth (.run ts) = 1 := by
  rw [depth]

theorem depth_node (op : Operator) (cs : List Expr) : depth (.node op cs) = depthOf cs + 1 := by
  rw [depth]

theorem depthOf_nil : depthOf [] = 0 := rfl

theorem depthOf_cons (c : Expr) (cs : List Expr) : depthOf (c :: cs) = max c.depth (depthOf cs) := by
  rw [depthOf]

theorem depthOf_append (cs ds : List Expr) :
    depthOf (cs ++ ds) = max (depthOf cs) (depthOf ds) := by
  induction cs with
  | nil => simp [depthOf_nil]
  | cons c cs ih => rw [List.cons_append, depthOf_cons, depthOf_cons, ih, Nat.max_assoc]

theorem depthOf_le {n : Nat} {cs : List Expr} (h : ∀ c ∈ cs, c.depth ≤ n) : depthOf cs ≤ n := by
  induction cs with
  | nil => exact Nat.zero_le n
  | cons c cs ih =>
    obtain ⟨hc, hcs⟩ := List.forall_mem_cons.1 h
    rw [depthOf_cons]
    exact Nat.max_le.2 ⟨hc, ih hcs⟩

theorem depth_pos (e : Expr) : 0 < e.depth := by
  cases e with
  | run ts => rw [depth_run]; exact Nat.one_pos
  | node op cs => rw [depth_node]; exact Nat.succ_pos _

theorem depth_noop : noop.depth = 1 := depth_node _ _

theorem depthUnder_le (op : Operator) (e : Expr) : e.depthUnder op ≤ e.depth + 1 := by
  unfold depthUnder
  split_ifs <;> omega

theorem le_depthUnder (op : Operator) (e : Expr) : e.depth ≤ e.depthUnder op := by
  unfold depthUnder
  split_ifs <;> omega

theorem depthUnder_eq (h : e.operator = op) : e.depthUnder op = e.depth := if_pos h

theorem depthOf_parts (op : Operator) (e : Expr) : depthOf (parts op e) + 1 ≤ e.depthUnder op := by
  have hpos := e.depth_pos
  unfold parts depthUnder
  split_ifs with he hn
  · cases e with
    | run ts => exact hpos
    | node op cs => exact Nat.le_of_eq (depth_node op cs).symm
  · simp [depthOf_nil]
  · simp [depthOf_cons, depthOf_nil]

theorem depth_node?_le (op : Operator) (cs : List Expr) : (node? op cs).depth ≤ depthOf cs + 1 := by
  unfold node?
  split_ifs
  · rw [depth_noop]
    exact Nat.le_add_left 1 _
  · exact Nat.le_of_eq (depth_node op cs)

theorem depth_combine_le (hop : Absorbs op) (hl : WellFormed l) (hr : WellFormed r) :
    (combine op l r).depth ≤ max (l.depthUnder op) (r.depthUnder op) := by
  have hleft := depthOf_parts op l
  have hright := depthOf_parts op r
  rw [combine_eq hop hl hr]
  calc
    (node? op (parts op l ++ parts op r)).depth ≤ depthOf (parts op l ++ parts op r) + 1 :=
      depth_node?_le op _
    _ = max (depthOf (parts op l)) (depthOf (parts op r)) + 1 := by rw [depthOf_append]
    _ ≤ max (l.depthUnder op) (r.depthUnder op) := by omega

theorem depth_wrap_le (e : Expr) : e.wrap.depth ≤ max e.depth 2 := by
  cases e with
  | run ts =>
    show depth (.node .boost [.run ts]) ≤ _
    simp [depth_node, depthOf_cons, depthOf_nil, depth_run]
  | node op cs => exact Nat.le_max_left _ _

theorem depth_boost (l r : Expr) : (Expr.node .boost [l, r]).depth = max l.depth r.depth + 1 := by
  simp [depth_node, depthOf_cons, depthOf_nil]

/-- Whatever is continued with whatever, one level comes on top at most. -/
theorem depth_extend_le (hl : WellFormed l) (hr : WellFormed r) :
    (l.extend r).depth ≤ max l.depth r.depth + 1 := by
  rcases extend_cases l r with ⟨-, h⟩ | ⟨-, h⟩ | ⟨op, hop, h⟩ | ⟨-, -, h⟩
  · rw [h]
    omega
  · rw [h]
    omega
  · have hcombine := depth_combine_le hop hl hr
    have hleft := l.depthUnder_le op
    have hright := r.depthUnder_le op
    rw [h]
    omega
  · exact Nat.le_of_eq (h ▸ depth_boost l r)

/-- What leads a boost is an alternative to what is no run. -/
theorem extend_of_leads (h : Leads l) (hn : r.isNoop = false) (hrun : r.isRun = false) :
    l.extend r = l.or r := by
  unfold extend
  rw [hn, hrun]
  cases l with
  | run ts => rfl
  | node op cs =>
    rcases h with h | h | h
    · cases h
    · obtain rfl : op = .not := h
      rfl
    · obtain rfl : op = .boost := h
      rfl

end SearchQuery.Expr

import SearchQuery.Proofs.Expr.WellFormed

/-! Collections that a node has from its children, one after the other: the runs of an expression,
its terms, what stands below its negations. Every way of joining two expressions joins their
collections, so none of these is lost, doubled or put elsewhere. Only `not` may add something of
its own. -/

namespace SearchQuery.Expr

variable {α : Type} {μ : Expr → List α} {op : Operator} {e l r : Expr}

theorem flatMap_parts (hop : Absorbs op) (hnode : ∀ cs, μ (.node op cs) = cs.flatMap μ)
    (hnoop : μ noop = []) (h : WellFormed e) : (parts op e).flatMap μ = μ e := by
  unfold parts
  split_ifs with he hn
  · cases e with
    | run ts => exact absurd he.symm hop.ne_terms
    | node op' cs =>
      obtain rfl : op' = op := he
      exact (hnode cs).symm
  · rw [h.eq_noop hn, hnoop]
    rfl
  · simp

/-- A connective whose nodes have their collection from their children joins the collections of its
operands. -/
theorem flatMap_combine (hop : Absorbs op) (hnode : ∀ cs, μ (.node op cs) = cs.flatMap μ)
    (hnoop : μ noop = []) (hl : WellFormed l) (hr : WellFormed r) :
    μ (combine op l r) = μ l ++ μ r := by
  rw [combine_eq hop hl hr, ← flatMap_parts hop hnode hnoop hl, ← flatMap_parts hop hnode hnoop hr,
    ← List.flatMap_append]
  by_cases hcs : parts op l ++ parts op r = []
  · rw [hcs]
    exact hnoop
  · rw [node?_of_ne_nil hcs, hnode]

structure Additive {α : Type} (μ : Expr → List α) : Prop where
  node : ∀ op cs, op ≠ .not → μ (.node op cs) = cs.flatMap μ

namespace Additive

theorem noop (hμ : Additive μ) : μ noop = [] := hμ.node _ _ (by decide)

theorem of_isNoop (hμ : Additive μ) (h : WellFormed e) (hn : e.isNoop = true) : μ e = [] := by
  rw [h.eq_noop hn, hμ.noop]

theorem combine (hμ : Additive μ) (hop : Absorbs op) (hl : WellFormed l) (hr : WellFormed r) :
    μ (combine op l r) = μ l ++ μ r :=
  flatMap_combine hop (fun cs => hμ.node op cs hop.ne_not) hμ.noop hl hr

theorem and (hμ : Additive μ) (hl : WellFormed l) (hr : WellFormed r) : μ (l.and r) = μ l ++ μ r :=
  hμ.combine (.inl rfl) hl hr

theorem extend (hμ : Additive μ) (hl : WellFormed l) (hr : WellFormed r) :
    μ (l.extend r) = μ l ++ μ r := by
  rcases extend_cases l r with ⟨hn, h⟩ | ⟨hn, h⟩ | ⟨op, hop, h⟩ | ⟨-, -, h⟩ <;> rw [h]
  · rw [hμ.of_isNoop hr hn, List.append_nil]
  · rw [hμ.of_isNoop hl hn, List.nil_append]
  · exact hμ.combine hop hl hr
  · simp [hμ.node]

theorem wrap (hμ : Additive μ) (e : Expr) : μ e.wrap = μ e := by
  cases e with
  | run ts => simp [Expr.wrap, hμ.node]
  | node op cs => rfl

theorem compound (hμ : Additive μ) (hnoop : op ≠ .noop) (hterms : op ≠ .terms)
    (hnode : ∀ cs, μ (.node op cs) = cs.flatMap μ) {cs : List Expr} (h : ∀ c ∈ cs, WellFormed c) :
    μ (compound op cs) = cs.flatMap μ := by
  have hkept : (cs.filter fun e => !e.isNoop).flatMap μ = cs.flatMap μ := by
    induction cs with
    | nil => rfl
    | cons c cs ih =>
      obtain ⟨hc, hcs⟩ := List.forall_mem_cons.1 h
      cases hn : c.isNoop <;> simp [hn, ih hcs, hμ.of_isNoop hc]
  rw [compound_eq hnoop hterms, ← hkept]
  by_cases hcs : (cs.filter fun e => !e.isNoop) = []
  · rw [hcs]
    exact hμ.noop
  · rw [node?_of_ne_nil hcs, hnode]

theorem compound_and (hμ : Additive μ) {cs : List Expr} (h : ∀ c ∈ cs, WellFormed c) :
    μ (Expr.compound .and cs) = cs.flatMap μ :=
  hμ.compound (by decide) (by decide) (fun cs => hμ.node _ cs (by decide)) h

end Additive

theorem runsOf_eq (cs : List Expr) : runsOf cs = cs.flatMap runs := by
  induction cs with
  | nil => rfl
  | cons c cs ih => simp [runsOf, ih]

theorem terms_node (op : Operator) (cs : List Expr) :
    (Expr.node op cs).runs.flatten = cs.flatMap fun c => c.runs.flatten := by
  rw [runs, runsOf_eq, ← List.flatMap_id, List.flatMap_assoc]
  simp

/-- The terms of all runs. -/
theorem terms_additive : Additive fun e => e.runs.flatten where
  node op cs _ := terms_node op cs

mutual

/-- Every run with the number of negations above it, `above` of them above the expression. -/
def negatedRuns (above : Nat) : Expr → List (Nat × List Term)
  | .run ts => [(above, ts)]
  | .node op cs => negatedRunsOf (if op = .not then above + 1 else above) cs

def negatedRunsOf (above : Nat) : List Expr → List (Nat × List Term)
  | [] => []
  | c :: cs => negatedRuns above c ++ negatedRunsOf above cs

end

mutual

/-- The children of every negation. -/
def negations : Expr → List (List Expr)
  | .run _ => []
  | .node op cs => if op = .not then cs :: negationsOf cs else negationsOf cs

def negationsOf : List Expr → List (List Expr)
  | [] => []
  | c :: cs => negations c ++ negationsOf cs

end

theorem negatedRunsOf_eq (above : Nat) (cs : List Expr) :
    negatedRunsOf above cs = cs.flatMap (negatedRuns above) := by
  induction cs with
  | nil => rfl
  | cons c cs ih => simp [negatedRunsOf, ih]

theorem negationsOf_eq (cs : List Expr) : negationsOf cs = cs.flatMap negations := by
  induction cs with
  | nil => rfl
  | cons c cs ih => simp [negationsOf, ih]

theorem negatedRuns_additive (above : Nat) : Additive (negatedRuns above) where
  node op cs hop := by rw [negatedRuns, if_neg hop, negatedRunsOf_eq]

theorem negations_additive : Additive negations where
  node op cs hop := by rw [negations, if_neg hop, negationsOf_eq]

end SearchQuery.Expr

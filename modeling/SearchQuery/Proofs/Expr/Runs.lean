import SearchQuery.Proofs.Expr.WellFormed

/-! Replacing the runs of an expression while some state is carried along: the equations along the
tree, and that the outcome is well formed as soon as what comes in the place of the runs is. -/

namespace SearchQuery.Expr

variable {σ : Type} {f : List Term → StateM σ Expr}

theorem run_mapRunsM_node (f : List Term → StateM σ Expr) (op : Operator) (cs : List Expr)
    (s : σ) : (mapRunsM f (.node op cs)).run s =
      (compound op ((mapRunsOfM f cs).run s).1, ((mapRunsOfM f cs).run s).2) := by
  rw [mapRunsM]
  rfl

theorem run_mapRunsOfM_nil (f : List Term → StateM σ Expr) (s : σ) :
    (mapRunsOfM f []).run s = ([], s) := by
  rw [mapRunsOfM]
  rfl

theorem run_mapRunsOfM_cons (f : List Term → StateM σ Expr) (c : Expr) (cs : List Expr) (s : σ) :
    (mapRunsOfM f (c :: cs)).run s =
      (((mapRunsM f c).run s).1 :: ((mapRunsOfM f cs).run ((mapRunsM f c).run s).2).1,
        ((mapRunsOfM f cs).run ((mapRunsM f c).run s).2).2) := by
  rw [mapRunsOfM]
  rfl

theorem mem_runs_node {op : Operator} {cs : List Expr} {ts : List Term} :
    ts ∈ (Expr.node op cs).runs ↔ ∃ c ∈ cs, ts ∈ c.runs := by
  rw [runs]
  induction cs with
  | nil => simp [runsOf]
  | cons c cs ih => simp [runsOf, ih]

namespace WellFormed

theorem splice {e child : Expr} (h : WellFormed e) (hchild : WellFormed child) :
    WellFormed (e.splice child) := by
  cases child with
  | run ts =>
    show WellFormed (ts.foldl Expr.appendTerm e)
    clear hchild
    induction ts generalizing e with
    | nil => exact h
    | cons t ts ih => exact ih (h.appendTerm t)
  | node op cs => exact h.or hchild

theorem foldl_splice {e : Expr} (h : WellFormed e) {cs : List Expr} (hcs : ∀ c ∈ cs, WellFormed c) :
    WellFormed (cs.foldl Expr.splice e) := by
  induction cs generalizing e with
  | nil => exact h
  | cons c cs ih =>
    obtain ⟨hc, hcs⟩ := List.forall_mem_cons.1 hcs
    exact ih (h.splice hc) hcs

/-- Any operator over any children, also the two that no node carries. -/
theorem compound_any (op : Operator) {cs : List Expr} (h : ∀ c ∈ cs, WellFormed c) :
    WellFormed (Expr.compound op cs) := by
  cases op with
  | noop => exact .noop
  | terms => exact foldl_splice .noop fun c hc => h c (List.mem_filter.1 hc).1
  | and | or | not | boost => exact .compound (by decide) (by decide) h

theorem mapRunsOfM {cs : List Expr} (h : ∀ c ∈ cs, ∀ s, WellFormed ((c.mapRunsM f).run s).1)
    (s : σ) : ∀ c ∈ ((Expr.mapRunsOfM f cs).run s).1, WellFormed c := by
  induction cs generalizing s with
  | nil =>
    rw [run_mapRunsOfM_nil]
    exact nofun
  | cons c cs ih =>
    obtain ⟨hc, hcs⟩ := List.forall_mem_cons.1 h
    rw [run_mapRunsOfM_cons]
    exact List.forall_mem_cons.2 ⟨hc s, ih hcs _⟩

/-- The nodes are built anew, so nothing is asked of the expression itself. -/
theorem mapRunsM {e : Expr} (hf : ∀ ts ∈ e.runs, ∀ s, WellFormed ((f ts).run s).1) (s : σ) :
    WellFormed ((e.mapRunsM f).run s).1 := by
  induction e using Expr.induct generalizing s with
  | run ts =>
    rw [Expr.mapRunsM]
    exact hf ts (by simp [runs]) s
  | node op cs ih =>
    rw [run_mapRunsM_node]
    refine compound_any op (mapRunsOfM (fun c hc s => ?_) s)
    exact ih c hc (fun ts hts => hf ts (mem_runs_node.2 ⟨c, hc, hts⟩)) s

end WellFormed
end SearchQuery.Expr

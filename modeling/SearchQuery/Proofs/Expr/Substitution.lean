import SearchQuery.Proofs.Expr.Runs

/-! Putting expressions in the place of runs is substitution: to put each run in its own place changes
nothing, and two replacements one after the other are one replacement. Subtrees that become empty on
the way vanish in the first pass or in the second, with the same outcome. -/

namespace SearchQuery.Expr

variable {op : Operator} {e : Expr}

theorem mapRunsOfM_id (f : List Term → Expr) (cs : List Expr) :
    Id.run (mapRunsOfM (fun ts => pure (f ts)) cs) = cs.map (mapRuns f) := by
  induction cs with
  | nil =>
    rw [mapRunsOfM]
    rfl
  | cons c cs ih =>
    rw [List.map_cons, ← ih, mapRunsOfM]
    rfl

theorem mapRuns_run (f : List Term → Expr) (ts : List Term) : mapRuns f (.run ts) = f ts := by
  rw [mapRuns, mapRunsM]
  rfl

theorem mapRuns_node (f : List Term → Expr) (op : Operator) (cs : List Expr) :
    mapRuns f (.node op cs) = compound op (cs.map (mapRuns f)) := by
  rw [← mapRunsOfM_id, mapRuns, mapRunsM]
  rfl

/-- What is empty has no runs, so nothing can come in the place of one. -/
theorem mapRuns_of_isNoop (f : List Term → Expr) (h : e.isNoop = true) : mapRuns f e = noop := by
  cases e with
  | run ts => cases h
  | node op cs =>
    obtain rfl : op = .noop := isNoop_iff.1 h
    rw [mapRuns_node]
    rfl

/-- Among the outcomes nothing is left of the children that were empty before. -/
theorem filter_map_mapRuns (f : List Term → Expr) (cs : List Expr) :
    (((cs.filter fun c => !c.isNoop).map (mapRuns f)).filter fun c => !c.isNoop) =
      (cs.map (mapRuns f)).filter fun c => !c.isNoop := by
  induction cs with
  | nil => rfl
  | cons c cs ih =>
    cases hn : c.isNoop with
    | true =>
      have hgone : (noop.isNoop) = true := rfl
      simp [hn, ih, mapRuns_of_isNoop f hn, hgone]
    | false => simp [hn, List.filter_cons, ih]

/-- A replacement goes through a node that is made anew. -/
theorem mapRuns_compound (f : List Term → Expr) (hterms : op ≠ .terms) (cs : List Expr) :
    mapRuns f (compound op cs) = compound op (cs.map (mapRuns f)) := by
  by_cases hnoop : op = .noop
  · subst hnoop
    exact mapRuns_of_isNoop f rfl
  rw [compound_eq hnoop hterms, compound_eq hnoop hterms, ← filter_map_mapRuns]
  by_cases hkept : (cs.filter fun c => !c.isNoop) = []
  · rw [hkept]
    exact mapRuns_of_isNoop f rfl
  · rw [node?_of_ne_nil hkept, mapRuns_node, compound_eq hnoop hterms]

theorem mapRuns_terms (h : WellFormed e) : e.mapRuns Expr.terms = e := by
  induction h with
  | noop => exact mapRuns_of_isNoop _ rfl
  | run hts => rw [mapRuns_run, terms_of_ne_nil hts]
  | @node op cs hnoop hterms hcs _ hkept ih =>
    have hsame : cs.map (mapRuns Expr.terms) = cs := by
      rw [List.map_congr_left ih, List.map_id']
    rw [mapRuns_node, hsame, compound_node hnoop hterms hcs hkept]

theorem mapRuns_mapRuns (h : WellFormed e) (f g : List Term → Expr) :
    (e.mapRuns f).mapRuns g = e.mapRuns fun ts => (f ts).mapRuns g := by
  induction h with
  | noop =>
    have hnone (f : List Term → Expr) : noop.mapRuns f = noop := mapRuns_of_isNoop f rfl
    rw [hnone, hnone, hnone]
  | run _ => rw [mapRuns_run, mapRuns_run]
  | @node op cs _ hterms _ _ _ ih =>
    calc
      ((Expr.node op cs).mapRuns f).mapRuns g
        = compound op ((cs.map (mapRuns f)).map (mapRuns g)) := by
          rw [mapRuns_node, mapRuns_compound g hterms]
      _ = compound op (cs.map fun c => (c.mapRuns f).mapRuns g) := by rw [List.map_map]; rfl
      _ = compound op (cs.map (mapRuns fun ts => (f ts).mapRuns g)) := by
          rw [List.map_congr_left ih]
      _ = (Expr.node op cs).mapRuns fun ts => (f ts).mapRuns g := (mapRuns_node _ op cs).symm

section

variable {σ : Type} {f : List Term → StateM σ Expr} {g : List Term → Expr}

theorem run_mapRunsOfM_of_pure {cs : List Expr}
    (h : ∀ c ∈ cs, ∀ s, (c.mapRunsM f).run s = (c.mapRuns g, s)) (s : σ) :
    (mapRunsOfM f cs).run s = (cs.map (mapRuns g), s) := by
  induction cs with
  | nil => rw [run_mapRunsOfM_nil, List.map_nil]
  | cons c cs ih =>
    obtain ⟨hc, hcs⟩ := List.forall_mem_cons.1 h
    rw [run_mapRunsOfM_cons, hc s, ih hcs, List.map_cons]

/-- A pass that leaves the state alone is a replacement. -/
theorem run_mapRunsM_of_pure (hf : ∀ ts s, (f ts).run s = (g ts, s)) (e : Expr) (s : σ) :
    (e.mapRunsM f).run s = (e.mapRuns g, s) := by
  induction e using Expr.induct generalizing s with
  | run ts =>
    rw [mapRuns_run, mapRunsM]
    exact hf ts s
  | node op cs ih => rw [run_mapRunsM_node, run_mapRunsOfM_of_pure ih, mapRuns_node]

end

end SearchQuery.Expr

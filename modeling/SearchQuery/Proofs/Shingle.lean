import SearchQuery.Proofs.Expr.Additive
import SearchQuery.Proofs.Expr.Runs
import SearchQuery.Proofs.Token.Stretch
import SearchQuery.Shingle

/-! What a pass over the runs of an expression does to its terms, if all that it does to a run is to
put new terms beside it: no term is lost, and the new ones are those of a list of values, numbered in
the order of the runs. Shingling is such a pass. -/

namespace SearchQuery

namespace Shingle

/-- The values that a run is given terms for, in the order of their numbers. -/
def added (opts : Options) (ts : List Term) : List String :=
  (orders opts.maxOrder.toNat ts.length).flatMap fun n => values opts.separator n ts

theorem runs_eq (separator : String) (ts : List Term) (ids : TermIds) (ns : List Nat) :
    (runs separator ts ids ns).1.flatten =
        (ids.issueAll (ns.flatMap fun n => values separator n ts)).1 ∧
      (runs separator ts ids ns).2 =
        ids.skip (ns.flatMap fun n => values separator n ts).length := by
  induction ns generalizing ids with
  | nil => simp [runs, TermIds.issueAll]
  | cons n ns ih =>
    obtain ⟨hruns, hids⟩ := ih (ids.skip (values separator n ts).length)
    rw [List.flatMap_cons, TermIds.issueAll_append]
    simp only [runs, TermIds.issueAll_snd]
    constructor
    · rw [List.flatten_cons, hruns]
    · rw [hids, TermIds.skip_skip, List.length_append]

end Shingle

namespace Expr

theorem terms_terms (ts : List Term) : (terms ts).runs.flatten = ts := by
  cases ts with
  | nil => rfl
  | cons t ts => simp [terms, runs]

/-- The outcome of a pass over an expression with the terms `ts`. -/
structure Grown (ids : TermIds) (vs : List String) (ts : List Term) (r : Expr × TermIds) :
    Prop where
  wellFormed : r.1.WellFormed
  terms : r.1.runs.flatten.Perm (ts ++ (ids.issueAll vs).1)
  ids : r.2 = ids.skip vs.length

theorem grown_expand (opts : Shingle.Options) (ts : List Term) (ids : TermIds) :
    Grown ids (Shingle.added opts ts) ts ((Shingle.expand opts ts).run ids) := by
  obtain ⟨hruns, hids⟩ := Shingle.runs_eq opts.separator ts ids
    (Shingle.orders opts.maxOrder.toNat ts.length)
  unfold Shingle.expand Shingle.added
  simp only [StateT.run]
  generalize Shingle.runs opts.separator ts ids _ = extra at hruns hids ⊢
  obtain ⟨extra, ids'⟩ := extra
  have hwf : ∀ c ∈ terms ts :: extra.map terms, c.WellFormed := by
    intro c hc
    rcases List.mem_cons.1 hc with rfl | hc
    · exact .terms ts
    · obtain ⟨us, -, rfl⟩ := List.mem_map.1 hc
      exact .terms us
  have hextra : (extra.map terms).flatMap (fun c => c.runs.flatten) = extra.flatten := by
    simp only [List.flatMap_map, terms_terms, List.flatMap_id']
  by_cases hempty : extra.isEmpty = true
  · rw [List.isEmpty_iff.1 hempty] at hruns
    simp only [hempty, if_true]
    exact ⟨.terms ts, by simp [terms_terms, ← hruns], hids⟩
  · simp only [hempty, Bool.false_eq_true, if_false]
    refine ⟨.compound (show Operator.or ≠ .noop by decide) (by decide) hwf, .of_eq ?_, hids⟩
    rw [terms_additive.compound (by decide) (by decide) (terms_node _) hwf, List.flatMap_cons,
      hextra, terms_terms, hruns]

section

variable {f : List Term → StateM TermIds Expr} {vs : List Term → List String}

/-- The outcome of a pass over some expressions with the terms `ts` in all. -/
structure GrownAll (ids : TermIds) (vs : List String) (ts : List Term) (r : List Expr × TermIds) :
    Prop where
  wellFormed : ∀ c ∈ r.1, c.WellFormed
  terms : (r.1.flatMap fun c => c.runs.flatten).Perm (ts ++ (ids.issueAll vs).1)
  ids : r.2 = ids.skip vs.length

theorem grownAll_cons {vs vs' : List String} {ts ts' : List Term} {ids : TermIds}
    {r : Expr × TermIds} {r' : List Expr × TermIds} (h : Grown ids vs ts r)
    (h' : GrownAll r.2 vs' ts' r') :
    GrownAll ids (vs ++ vs') (ts ++ ts') (r.1 :: r'.1, r'.2) := by
  refine ⟨List.forall_mem_cons.2 ⟨h.wellFormed, h'.wellFormed⟩, ?_, ?_⟩
  · rw [List.flatMap_cons, TermIds.issueAll_append, ← h.ids]
    calc
      (r.1.runs.flatten ++ r'.1.flatMap fun c => c.runs.flatten).Perm
          ((ts ++ (ids.issueAll vs).1) ++ (ts' ++ (r.2.issueAll vs').1)) := h.terms.append h'.terms
      _ = ts ++ ((ids.issueAll vs).1 ++ (ts' ++ (r.2.issueAll vs').1)) := List.append_assoc ..
      List.Perm _ (ts ++ (ts' ++ ((ids.issueAll vs).1 ++ (r.2.issueAll vs').1))) :=
        (List.perm_append_comm_assoc _ _ _).append_left ts
      _ = (ts ++ ts') ++ ((ids.issueAll vs).1 ++ (r.2.issueAll vs').1) :=
        (List.append_assoc ..).symm
  · rw [h'.ids, h.ids, TermIds.skip_skip, List.length_append]

theorem grownAll_mapRunsOfM {cs : List Expr}
    (hcs : ∀ c ∈ cs, ∀ ids, Grown ids (c.runs.flatMap vs) c.runs.flatten ((c.mapRunsM f).run ids))
    (ids : TermIds) :
    GrownAll ids ((runsOf cs).flatMap vs) (runsOf cs).flatten ((mapRunsOfM f cs).run ids) := by
  induction cs generalizing ids with
  | nil =>
    rw [run_mapRunsOfM_nil]
    exact ⟨by simp, by simp [runsOf, TermIds.issueAll], by simp [runsOf]⟩
  | cons c cs ih =>
    obtain ⟨hc, hcs⟩ := List.forall_mem_cons.1 hcs
    rw [run_mapRunsOfM_cons, runsOf, List.flatMap_append, List.flatten_append]
    exact grownAll_cons (hc ids) (ih hcs _)

/-- A pass that puts terms beside each run puts them all beside the terms of the expression. -/
theorem grown_mapRunsM (hf : ∀ ts ids, Grown ids (vs ts) ts ((f ts).run ids)) {e : Expr}
    (he : e.WellFormed) (ids : TermIds) :
    Grown ids (e.runs.flatMap vs) e.runs.flatten ((e.mapRunsM f).run ids) := by
  induction e using Expr.induct generalizing ids with
  | run ts => simpa [mapRunsM, runs] using hf ts ids
  | node op cs ih =>
    rw [run_mapRunsM_node]
    cases he with
    | noop =>
      rw [run_mapRunsOfM_nil]
      exact ⟨.noop, by simp [compound, Expr.noop, runs, runsOf, TermIds.issueAll],
        by simp [runs, runsOf]⟩
    | node hnoop hterms _ hcs _ =>
      have hall := grownAll_mapRunsOfM (fun c hc => ih c hc (hcs c hc)) ids
      refine ⟨.compound hnoop hterms hall.wellFormed, ?_, hall.ids⟩
      rw [terms_additive.compound hnoop hterms (terms_node op) hall.wellFormed]
      exact hall.terms

end

end Expr
end SearchQuery

import SearchQuery.Proofs.Expr.Built
import SearchQuery.Proofs.Query.Numbering
import SearchQuery.Proofs.Shingle.Orders

/-! What shingling makes of a query, in full. The tree stays as it is but for the runs, which are
expanded from the first to the last, each with the numbers that come directly behind those of the run
before it. -/

namespace SearchQuery

namespace Expr

mutual

/-- The expression with others in the place of its runs, first to last. -/
def refill : Expr → List Expr → Expr
  | .run ts, es => es.headD (.run ts)
  | .node op cs, es => .node op (refillAll cs es)

def refillAll : List Expr → List Expr → List Expr
  | [], _ => []
  | c :: cs, es => refill c (es.take c.runs.length) :: refillAll cs (es.drop c.runs.length)

end

end Expr

namespace Shingle

/-- How many numbers the shingles of a run of `size` terms take up. -/
def fresh (opts : Options) (size : Nat) : Nat := countBelow size (min opts.maxOrder.toNat size + 1)

def freshAll (opts : Options) (runs : List (List Term)) : Nat :=
  (runs.map fun ts => fresh opts ts.length).sum

/-- Some runs with their shingles, numbered on from `ids`. -/
def expansions (opts : Options) (ids : TermIds) : List (List Term) → List Expr
  | [] => []
  | ts :: runs =>
    ((expand opts ts).run ids).1 :: expansions opts (ids.skip (fresh opts ts.length)) runs

variable {opts : Options}

theorem freshAll_cons (opts : Options) (ts : List Term) (runs : List (List Term)) :
    freshAll opts (ts :: runs) = fresh opts ts.length + freshAll opts runs := List.sum_cons

theorem freshAll_append (opts : Options) (runs more : List (List Term)) :
    freshAll opts (runs ++ more) = freshAll opts runs + freshAll opts more := by
  rw [freshAll, List.map_append, List.sum_append]
  rfl

theorem length_expansions (opts : Options) (ids : TermIds) (runs : List (List Term)) :
    (expansions opts ids runs).length = runs.length := by
  induction runs generalizing ids with
  | nil => rfl
  | cons ts runs ih => rw [expansions, List.length_cons, List.length_cons, ih]

theorem expansions_append (opts : Options) (ids : TermIds) (runs more : List (List Term)) :
    expansions opts ids (runs ++ more) =
      expansions opts ids runs ++ expansions opts (ids.skip (freshAll opts runs)) more := by
  induction runs generalizing ids with
  | nil =>
    rw [List.nil_append, freshAll, List.map_nil, List.sum_nil, TermIds.skip_zero]
    rfl
  | cons ts runs ih =>
    rw [List.cons_append, expansions, ih, TermIds.skip_skip, freshAll_cons]
    rfl

/-- The outcome for a tree: its runs in turn, and as many numbers fewer as they take up. -/
def Expands (opts : Options) (e : Expr) : Prop :=
  ∀ ids, (e.mapRunsM (expand opts)).run ids =
    (e.refill (expansions opts ids e.runs), ids.skip (freshAll opts e.runs))

theorem expands_run (opts : Options) (ts : List Term) : Expands opts (.run ts) := by
  intro ids
  have hids : ((expand opts ts).run ids).2 = ids.skip (freshAll opts [ts]) := by
    rw [ids_expand, length_added]
    rfl
  rw [Expr.mapRunsM, Expr.runs, ← hids]
  rfl

theorem run_mapRunsOfM_expand {cs : List Expr} (h : ∀ c ∈ cs, Expands opts c) (ids : TermIds) :
    (Expr.mapRunsOfM (expand opts) cs).run ids =
      (Expr.refillAll cs (expansions opts ids (Expr.runsOf cs)),
        ids.skip (freshAll opts (Expr.runsOf cs))) := by
  induction cs generalizing ids with
  | nil =>
    rw [Expr.run_mapRunsOfM_nil, Expr.runsOf, freshAll, List.map_nil, List.sum_nil,
      TermIds.skip_zero]
    rfl
  | cons c cs ih =>
    obtain ⟨hc, hcs⟩ := List.forall_mem_cons.1 h
    have hlength := length_expansions opts ids c.runs
    rw [Expr.run_mapRunsOfM_cons, hc ids, ih hcs, Expr.runsOf, Expr.refillAll, expansions_append,
      List.take_left' hlength, List.drop_left' hlength, freshAll_append, TermIds.skip_skip]

/-- No run of a well-formed expression is empty, so that none of its children vanishes. -/
theorem isNoop_refill_expansions {e : Expr} (h : e.WellFormed) (hn : e.isNoop = false)
    (ids : TermIds) : (e.refill (expansions opts ids e.runs)).isNoop = false := by
  cases h with
  | noop => cases hn
  | run hts => exact isNoop_expand hts opts ids
  | node => exact hn

theorem isNoop_refillAll {cs : List Expr} (h : ∀ c ∈ cs, c.WellFormed ∧ c.isNoop = false)
    (ids : TermIds) :
    ∀ c ∈ Expr.refillAll cs (expansions opts ids (Expr.runsOf cs)), c.isNoop = false := by
  induction cs generalizing ids with
  | nil => exact nofun
  | cons c cs ih =>
    obtain ⟨⟨hc, hn⟩, hcs⟩ := List.forall_mem_cons.1 h
    have hlength := length_expansions opts ids c.runs
    rw [Expr.runsOf, Expr.refillAll, expansions_append, List.take_left' hlength,
      List.drop_left' hlength]
    exact List.forall_mem_cons.2 ⟨isNoop_refill_expansions hc hn ids, ih hcs _⟩

theorem expands_of_wellFormed {e : Expr} (h : e.WellFormed) : Expands opts e := by
  induction h with
  | noop =>
    intro ids
    rw [Expr.noop, Expr.run_mapRunsM_node, Expr.run_mapRunsOfM_nil, Expr.runs, Expr.runsOf, freshAll,
      List.map_nil, List.sum_nil, TermIds.skip_zero]
    rfl
  | run _ => exact expands_run opts _
  | @node op cs hnoop hterms hcs hwf hkept ih =>
    intro ids
    have hne : Expr.refillAll cs (expansions opts ids (Expr.runsOf cs)) ≠ [] := by
      cases cs with
      | nil => exact absurd rfl hcs
      | cons c cs => exact List.cons_ne_nil _ _
    rw [Expr.run_mapRunsM_node, run_mapRunsOfM_expand ih,
      Expr.compound_node hnoop hterms hne
        (isNoop_refillAll (fun c hc => ⟨hwf c hc, hkept c hc⟩) ids)]
    rfl

end Shingle

namespace Query

open Shingle

theorem shingle_eq {q : Query} (h : q.expr.WellFormed) (opts : Options) :
    q.shingle opts =
      ⟨q.expr.refill (expansions opts q.ids q.expr.runs), q.ids.skip (freshAll opts q.expr.runs)⟩ := by
  rw [shingle, expands_of_wellFormed h q.ids]

/-- A run without shingles stays as it is. Any other becomes a disjunction of itself and of a run for
each order, the orders numbered one after the other, and an order beyond its size adds nothing. In a
query the runs follow one another in the same way, first to last. -/
theorem shingle_exact :
    (∀ opts ts ids, min opts.maxOrder.toNat ts.length < 2 →
        (expand opts ts).run ids = (Expr.terms ts, ids)) ∧
      (∀ opts ts ids m, min opts.maxOrder.toNat ts.length = m → 2 ≤ m →
        ids.issued.toNat + countBelow ts.length (m + 1) < UInt32.size →
        ∃ (rows : List (List Term)) (ids' : TermIds),
          (expand opts ts).run ids = (.node .or (.run ts :: rows.map .run), ids') ∧
          rows.map (List.map fun w => (w.id.toNat, w.value, w.field)) =
            (List.range' 2 (m - 1)).map (fun n =>
              rowFrom opts.separator ts (ids.issued.toNat + countBelow ts.length n) n) ∧
          ids'.issued.toNat = ids.issued.toNat + countBelow ts.length (m + 1)) ∧
      (∀ opts ts, ts.length ≤ opts.maxOrder.toNat →
        expand opts ts = expand ⟨UInt64.ofNat ts.length, opts.separator⟩ ts) ∧
      ∀ (q : Query) opts, Expr.Built q.expr →
        (q.shingle opts).expr = q.expr.refill (expansions opts q.ids q.expr.runs) ∧
          (q.ids.issued.toNat + freshAll opts q.expr.runs < UInt32.size →
            (q.shingle opts).ids.issued.toNat = q.ids.issued.toNat + freshAll opts q.expr.runs) := by
  refine ⟨?_, ?_, ?_, ?_⟩
  · intro opts ts ids hshort
    exact expand_of_orders (orders_eq_nil hshort) ids
  · intro opts ts ids m hm htwo hroom
    subst hm
    refine ⟨_, _, expand_of_two_le htwo ids, ?_, ?_⟩
    · exact numbers_runs_orders opts.separator hroom
    · rw [length_added]
      exact TermIds.toNat_skip hroom
  · intro opts ts hle
    exact expand_of_le hle
  · intro q opts hq
    rw [shingle_eq hq.wellFormed]
    exact ⟨rfl, fun hroom => TermIds.toNat_skip hroom⟩

/-- Three terms whose numbers say nothing, and as many orders as an option can ask for; two runs of a
query with one between them that has no shingles. -/
theorem shingle_exact_blocks :
    let ts : List Term := [⟨4, "a", some "f"⟩, ⟨0, "b", none⟩, ⟨4, "", none⟩]
    let opts : Options := ⟨UInt64.ofNat (UInt64.size - 1), "_"⟩
    let front : List Term := [⟨0, "a", none⟩, ⟨1, "b", none⟩]
    let lone : List Term := [⟨2, "c", none⟩]
    let back : List Term := [⟨3, "d", none⟩, ⟨4, "e", none⟩, ⟨5, "f", none⟩]
    let q : Query := ⟨.node .or [.run front, .node .not [.run lone], .run back], ⟨6⟩⟩
    (expand ⟨1, "_"⟩ ts).run ⟨7⟩ = (.run ts, ⟨7⟩) ∧
      (∃ (rows : List (List Term)) (ids' : TermIds),
        (expand opts ts).run ⟨7⟩ = (.node .or (.run ts :: rows.map .run), ids') ∧
        rows.map (List.map fun w => (w.id.toNat, w.value, w.field)) =
          [[(7, "a_b", none), (8, "b_", none)], [(9, "a_b_", none)]] ∧
        ids'.issued.toNat = 10) ∧
      expand opts ts = expand ⟨3, "_"⟩ ts ∧
      (q.shingle ⟨2, " "⟩).expr = .node .or [
        .node .or [.run front, .run [⟨6, "a b", none⟩]], .node .not [.run lone],
        .node .or [.run back, .run [⟨7, "d e", none⟩, ⟨8, "e f", none⟩]]] ∧
      (q.shingle ⟨2, " "⟩).ids.issued.toNat = 9 := by
  intro ts opts front lone back q
  obtain ⟨hshort, hlong, hmore, hquery⟩ := shingle_exact
  have hq : Expr.Built q.expr := .or (.or (.terms front) (.not (.terms lone))) (.terms back)
  obtain ⟨hexpr, hids⟩ := hquery q ⟨2, " "⟩ hq
  refine ⟨hshort _ ts ⟨7⟩ (by decide), ?_, hmore opts ts (by decide), ?_, ?_⟩
  · exact hlong opts ts ⟨7⟩ 3 (by decide) (by decide) (by decide)
  · rw [hexpr]
    decide
  · exact hids (by decide)

end Query
end SearchQuery

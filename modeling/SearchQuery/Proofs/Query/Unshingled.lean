import SearchQuery.Proofs.Expr.Built
import SearchQuery.Proofs.Expr.Substitution
import SearchQuery.Proofs.Query.Numbering
import SearchQuery.Proofs.Shingle.Orders
import SearchQuery.Run

/-! Shingles of one word at most are no shingles: such a pass puts each run in its own place, and so
changes nothing. The command that shows a query leaves the pass out then, and nobody can tell but by
the log. -/

namespace SearchQuery

namespace Query

/-- What parsing has made of some tokens is well formed, also if it ends before they do. -/
theorem wellFormed_ofTokens {ts : List Token} {q : Query} (h : ofTokens ts = .ok q) :
    q.expr.WellFormed := by
  obtain ⟨rest, hparses⟩ := Parser.parses_of_ok (ofTokens_eq_ok h).1
  exact hparses.wellFormed

theorem wellFormed_shingles {q : Query} (h : q.expr.WellFormed) (passes : List Shingle.Options) :
    (q.shingles passes).expr.WellFormed := by
  induction passes generalizing q with
  | nil => exact h
  | cons opts passes ih =>
    apply ih
    exact (Expr.grown_mapRunsM (Expr.grown_expand opts) h q.ids).wellFormed

theorem shingle_of_le_one {q : Query} {opts : Shingle.Options} (h : q.expr.WellFormed)
    (hle : opts.maxOrder ≤ 1) : q.shingle opts = q := by
  have hexpand (ts : List Term) (ids : TermIds) :
      (Shingle.expand opts ts).run ids = (Expr.terms ts, ids) := by
    have hle : opts.maxOrder.toNat ≤ 1 := hle
    exact Shingle.expand_of_orders (Shingle.orders_eq_nil (by omega)) ids
  rw [shingle, Expr.run_mapRunsM_of_pure hexpand, Expr.mapRuns_terms h]

end Query

/-- The same outcome for whoever has not asked for a log. -/
structure Outcome.Alike (o o' : Outcome) : Prop where
  code : o.code = o'.code
  output : o.output = o'.output
  tree : o.tree = o'.tree
  reported : o.errorOutput 0 = o'.errorOutput 0

theorem Outcome.Alike.refl (o : Outcome) : o.Alike o := ⟨rfl, rfl, rfl, rfl⟩

/-- No record shows unless it is asked for. -/
theorem Outcome.errorOutput_after (o : Outcome) (records : List Log.Record) :
    (o.after records).errorOutput 0 = o.errorOutput 0 := by
  have hhidden (l : Log.Level) : ¬ l.verbosity ≤ 0 := by cases l <;> decide
  induction records with
  | nil => rfl
  | cons r records ih =>
    rw [← ih]
    simp [errorOutput, after, hhidden]

theorem Outcome.Alike.after {o o' : Outcome} (h : o.Alike o') (records records' : List Log.Record) :
    (o.after records).Alike (o'.after records') := by
  refine ⟨h.code, h.output, h.tree, ?_⟩
  rw [errorOutput_after, errorOutput_after]
  exact h.reported

namespace Place

/-- Shows the expression of a query with its shingles, those of one word among them. -/
def parseShingled (p : Place) (query : Option String) (opts : Shingle.Options)
    (format : OutputFormat) : Outcome :=
  p.withText query fun text =>
    match Query.ofText text with
    | .error e => p.fail (Report.parseError text e)
    | .ok q => p.succeed (Report.query text (q.shingle opts) format ++ "\n")

theorem alike_withText (p : Place) (query : Option String) {next next' : String → Outcome}
    (h : ∀ text, (next text).Alike (next' text)) :
    (p.withText query next).Alike (p.withText query next') := by
  cases query with
  | some text => exact h text
  | none =>
    unfold withText
    simp only
    cases Utf8.decode? p.input with
    | none => exact .refl _
    | some text => exact (h _).after _ _

theorem alike_parseShingled (p : Place) (query : Option String) (opts : Shingle.Options)
    (format : OutputFormat) :
    (p.parse query opts format).Alike (p.parseShingled query opts format) := by
  apply alike_withText
  intro text
  simp only [Query.ofText, Query.ofTokens]
  cases he : (Parser.parse .start (tokenize text)).result with
  | error e => exact (Outcome.Alike.refl _).after _ []
  | ok e =>
    have hq : Query.ofTokens (tokenize text) = .ok ⟨e, (Parser.parse .start (tokenize text)).ids⟩ := by
      rw [Query.ofTokens, he]
      rfl
    simp only [Except.map]
    split_ifs with hlt
    · exact (Outcome.Alike.refl _).after _ []
    · have hsame := Query.shingle_of_le_one (Query.wellFormed_ofTokens hq)
        (UInt64.not_lt.1 hlt)
      rw [hsame]
      exact (Outcome.Alike.refl _).after _ []

end Place

namespace Query

/-- To put each run in its own place changes nothing, and two replacements one after the other are
one, whatever comes in the place of the runs, nothing at all included. So shingles of at most one word
leave a query as it is, however often it has had others, and whether the command for a query adds
them or not is all the same. -/
theorem replacement_laws :
    (∀ e, Expr.Built e → e.mapRuns Expr.terms = e) ∧
      (∀ e, Expr.Built e → ∀ f g : List Term → Expr,
        (e.mapRuns f).mapRuns g = e.mapRuns fun ts => (f ts).mapRuns g) ∧
      (∀ ts q, ofTokens ts = .ok q → ∀ passes opts, opts.maxOrder ≤ 1 →
        (q.shingles passes).shingle opts = q.shingles passes) ∧
      ∀ (p : Place) query opts format,
        (p.parse query opts format).Alike (p.parseShingled query opts format) := by
  refine ⟨?_, ?_, ?_, Place.alike_parseShingled⟩
  · intro e he
    exact Expr.mapRuns_terms he.wellFormed
  · intro e he f g
    exact Expr.mapRuns_mapRuns he.wellFormed f g
  · intro ts q hq passes opts hle
    apply shingle_of_le_one _ hle
    exact wellFormed_shingles (wellFormed_ofTokens hq) passes

/-- A negation that the first replacement empties, a run that the second one does, and a query that
has shingles already. -/
theorem replacement_laws_emptied :
    let a : Term := ⟨0, "a", none⟩
    let b : Term := ⟨1, "b", none⟩
    let e : Expr := .node .and [.node .not [.run [a]], .run [b]]
    let f (ts : List Term) : Expr := if ts = [a] then .noop else .node .boost [.run ts, .run [a]]
    let g (ts : List Term) : Expr := if ts = [b] then .noop else .run (ts ++ ts)
    e.mapRuns Expr.terms = e ∧
      (e.mapRuns f).mapRuns g = (e.mapRuns fun ts => (f ts).mapRuns g) ∧
      (e.mapRuns f).mapRuns g = .node .and [.node .boost [.run [a, a]]] ∧
      ∃ q, ofText "new york +pizza" = .ok q ∧ q.shingles [⟨2, " "⟩] ≠ q ∧
        (q.shingles [⟨2, " "⟩]).shingle ⟨1, "_"⟩ = q.shingles [⟨2, " "⟩] := by
  intro a b e f g
  obtain ⟨hsame, htwice, hshingle, -⟩ := replacement_laws
  have he : Expr.Built e := by
    have hruns : Expr.Built (.run [a]) ∧ Expr.Built (.run [b]) := ⟨.term a, .term b⟩
    exact .and (.not hruns.1) hruns.2
  let q : Query := ⟨.node .and [.run [⟨2, "pizza", none⟩],
    .node .boost [.run [⟨0, "new", none⟩, ⟨1, "york", none⟩]]], ⟨3⟩⟩
  have hq : ofText "new york +pizza" = .ok q := by decide +kernel
  refine ⟨hsame e he, htwice e he f g, by decide, q, hq, by decide, ?_⟩
  exact hshingle _ q hq [⟨2, " "⟩] ⟨1, "_"⟩ (by decide)

end Query
end SearchQuery

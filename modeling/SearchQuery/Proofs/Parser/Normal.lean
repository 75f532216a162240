import SearchQuery.Proofs.Expr.Normal
import SearchQuery.Proofs.Parser.Refusal
import SearchQuery.Proofs.Parser.Operands

/-! The parser builds with the connectives alone. Its one raw compound is a conjunction of signed words,
which are no conjunctions, so joining them one by one gives the same node. Hence every parsed query is
normal. -/

namespace SearchQuery

theorem Stretch.expr_combined {s : Stretch} (h : s.isSigned = true) : s.expr.Combined := by
  rcases s with ws | ⟨_ | _, w⟩
  · cases h
  · exact .term w
  · exact (Expr.Combined.term w).not

namespace Parser

open SearchQuery.Expr (Combined)

theorem map_expr_combined {ss : List Stretch} (h : ∀ s ∈ ss, s.isSigned = true) :
    ∀ a ∈ ss.map Stretch.expr, a.Combined ∧ a.operator ≠ .and ∧ a.isNoop = false := by
  intro a ha
  obtain ⟨s, hs, rfl⟩ := List.mem_map.1 ha
  exact ⟨Stretch.expr_combined (h s hs), signed_expr_operator (h s hs)⟩

theorem conjoin_combined {ss : List Stretch} (h : ∀ s ∈ ss, s.isSigned = true) {rest : Expr}
    (hrest : rest.Combined) : (conjoin (ss.map Stretch.expr) rest).Combined := by
  cases ss with
  | nil => exact hrest
  | cons s ss =>
    show ((Expr.compound .and ((s :: ss).map Stretch.expr)).and rest.wrap).Combined
    rw [compound_signed h]
    exact (Combined.node (.inl rfl) (List.cons_ne_nil _ _) (map_expr_combined h)).and hrest.wrap

theorem applySign_combined {kind : Token.Kind} {arg : Option Expr} {around : Expr}
    (harg : ∀ a ∈ signedArgument kind arg, a.Combined) (haround : around.Combined) :
    (applySign kind arg around).Combined := by
  cases arg with
  | none => exact haround
  | some a => exact (harg (signed kind a) (by simp [signedArgument])).and haround.wrap

theorem signedArgument_combined (kind : Token.Kind) {ids : TermIds} {ts : List Token}
    {arg : Front (Option Expr)} (h : readArgument false ids ts = .ok arg) :
    ∀ a ∈ signedArgument kind arg.value, a.Combined := by
  obtain ⟨ss, hv, hs, -⟩ := signedArgument_cut kind h
  rw [hv]
  exact fun a ha => (map_expr_combined hs a ha).1

theorem joinRight_combined {op : Operator} {left right : Expr} (hop : Expr.Absorbs op)
    (hleft : left.Combined) (hright : right.Combined) :
    (joinRight (Expr.combine op) left right).Combined := by
  unfold joinRight
  split_ifs
  · exact hleft
  · exact Combined.combine hop hleft hright

def Stage.Combined : Stage → Prop
  | .start => True
  | .after left => left.Combined

theorem Reads.combined {min : Nat} {stage : Stage} {ids : TermIds} {ts : List Token}
    {f : Front Expr} (h : Reads min stage ids ts f) (hstage : stage.Combined) :
    f.value.Combined := by
  induction h with
  | none => exact .noop
  | first _ _ ih => exact ih (.term _)
  | signs _ hargs _ _ ihrest ih =>
    obtain ⟨ss, hv, hs, -⟩ := hargs.cut
    exact ih (hv ▸ conjoin_combined hs (ihrest trivial))
  | dangling _ _ ih => exact ih .noop
  | stop _ => exact hstage
  | word _ _ _ ih => exact ih (Expr.Combined.appendTerm hstage _)
  | join _ ht _ _ ihright ih =>
    exact ih (joinRight_combined (joins_absorbs ht) hstage (ihright trivial))
  | sign _ _ harg _ _ ihrest ih =>
    exact ih (applySign_combined (signedArgument_combined _ harg)
      (Expr.Combined.extend hstage (ihrest trivial)))

theorem Resumes.combined {e : Expr} {ids : TermIds} {ts : List Token} {f : Front Expr}
    (h : Resumes e ids ts f) (he : e.Combined) : f.value.Combined := by
  induction h with
  | stop _ => exact he.wrap
  | skip _ hnext _ ih => exact ih (he.extend (hnext.combined trivial))

theorem parse_combined {ids : TermIds} {ts : List Token} {e : Expr}
    (h : (parse ids ts).result = .ok e) : e.Combined := by
  obtain ⟨rest, first, hfirst, hrest, -⟩ := parses_of_ok h
  exact hrest.combined (hfirst.combined trivial)

/-- Normal is what the connectives build and nothing else, every parsed query is normal, and in what
is normal a double negation cancels, whether or not there is a negation at the top. -/
theorem normal_built_and_parsed (e : Expr) :
    (e.Combined ↔ e.Normal) ∧ (∀ ids ts, (parse ids ts).result = .ok e → e.Normal) ∧
      (e.Normal → e.not.not = e) :=
  ⟨Expr.combined_iff e, fun _ _ h => (parse_combined h).normal, Expr.Normal.not_not⟩

/-- Signs, a run that is grouped and a mark of the end in the middle. -/
theorem normal_excluded_between_words :
    let e : Expr := .node .and [.node .not [.run [⟨1, "b", none⟩]],
      .node .boost [.run [⟨0, "a", none⟩], .run [⟨2, "c", none⟩]]]
    e.Normal ∧ e.not.not = e := by
  intro e
  have he : (parse ⟨0⟩ [⟨.word, "a", 0, 1⟩, ⟨.prefixAndNot, "-", 2, 1⟩, ⟨.word, "b", 3, 1⟩,
      ⟨.word, "c", 5, 1⟩, ⟨.eof, "", 6, 0⟩, ⟨.word, "d", 7, 1⟩]).result = .ok e := by
    decide +kernel
  have hnormal := (normal_built_and_parsed e).2.1 _ _ he
  exact ⟨hnormal, (normal_built_and_parsed e).2.2 hnormal⟩

end Parser
end SearchQuery

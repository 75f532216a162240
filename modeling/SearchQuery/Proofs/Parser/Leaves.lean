import Mathlib.Data.List.Basic
import SearchQuery.Proofs.Parser.Conservation
import SearchQuery.Proofs.Parser.Refusal

/-! The runs of a parsed query are the stretches of its tokens: no word is lost, doubled, put into
another run or given another sign. The negations are those of the excluded words, each over the word
alone. -/

namespace SearchQuery

namespace Stretch

/-- The word that a stretch excludes. -/
def excluded? : Stretch → Option Term
  | signed true w => some w
  | _ => none

theorem ahead_negatedRuns (ss : List Stretch) :
    Parser.ahead (Expr.negatedRuns 0) ss =
      ss.map fun s => (if s.excluded?.isSome then 1 else 0, s.terms) := by
  induction ss with
  | nil => rfl
  | cons s ss ih =>
    rw [← List.singleton_append, Parser.ahead_append, ih]
    rcases s with ws | ⟨_ | _, w⟩ <;> rfl

theorem ahead_negations (ss : List Stretch) :
    Parser.ahead Expr.negations ss = (ss.filterMap excluded?).map fun w => [.run [w]] := by
  induction ss with
  | nil => rfl
  | cons s ss ih =>
    rw [← List.singleton_append, Parser.ahead_append, ih]
    rcases s with ws | ⟨_ | _, w⟩ <;> rfl

end Stretch

namespace Parser

theorem eq_append_of_eof {ts : List Token} (h : ts.getLast?.any (·.kind == .eof) = true) :
    ∃ us t, ts = us ++ [t] ∧ t.kind = .eof := by
  rcases List.eq_nil_or_concat' ts with rfl | ⟨us, t, rfl⟩
  · cases h
  · exact ⟨us, t, rfl, by simpa using h⟩

theorem dropEnding_of_unmarked {ts : List Token} (h : ∀ t ∈ ts, t.kind ≠ .eof) :
    dropEnding ts = ts := by
  unfold dropEnding
  split_ifs with hlast
  · obtain ⟨us, t, rfl, ht⟩ := eq_append_of_eof hlast
    exact absurd ht (h t List.mem_concat_self)
  · rfl

theorem cut_dropEnding (ids : TermIds) (ts : List Token) :
    Stretch.cut ids (dropEnding ts) = Stretch.cut ids ts := by
  unfold dropEnding
  split_ifs with h
  · obtain ⟨us, t, rfl, ht⟩ := eq_append_of_eof h
    rw [List.dropLast_concat]
    exact (Stretch.cutFrom_append_eof [] [] ids us ht).symm
  · rfl

theorem words_dropEnding (ts : List Token) : Token.words (dropEnding ts) = Token.words ts := by
  unfold dropEnding
  split_ifs with h
  · obtain ⟨us, t, rfl, ht⟩ := eq_append_of_eof h
    simp [Token.words, ht]
  · rfl

theorem ne_eof_of_mem_dropEnding {ts : List Token} (h : ∀ t ∈ ts.dropLast, t.kind ≠ .eof) :
    ∀ t ∈ dropEnding ts, t.kind ≠ .eof := by
  intro t ht
  unfold dropEnding at ht
  split_ifs at ht with hlast
  · exact h t ht
  · rcases List.eq_nil_or_concat' ts with rfl | ⟨us, u, rfl⟩
    · cases ht
    · rw [List.dropLast_concat] at h
      rcases List.mem_append.1 ht with ht | ht
      · exact h t ht
      · rw [List.mem_singleton.1 ht]
        simpa using hlast

/-- A query without a mark of the end before its end is read to its end. -/
theorem Parses.rest_eq_nil {ids : TermIds} {ts : List Token} {f : Front Expr}
    (h : Parses ids (dropEnding ts) f) (heof : ∀ t ∈ ts.dropLast, t.kind ≠ .eof) : f.rest = [] := by
  have hsub := h.takes.suffix.subset
  obtain ⟨-, -, -, hend⟩ := h
  cases hrest : f.rest with
  | nil => rfl
  | cons t us =>
    rw [hrest] at hend hsub
    exact absurd (hend t rfl) (ne_eof_of_mem_dropEnding heof t (hsub List.mem_cons_self))

theorem Parses.perm_ahead {α : Type} {μ : Expr → List α} (hμ : Expr.Additive μ) {ids ids' : TermIds}
    {ts : List Token} {e : Expr} (h : Parses ids (dropEnding ts) ⟨e, ids', []⟩) :
    (μ e).Perm (ahead μ (Stretch.cut ids ts)) := by
  have hall := h.total_eq hμ
  rw [cut_dropEnding] at hall
  simpa only [Stretch.cut, Stretch.cutFrom, Stretch.ended_nil, ahead, List.flatMap_nil,
    List.append_nil] using hall

/-- The words of `ts` are numbered on from `ids` in order. -/
theorem runs_parse (ids : TermIds) (ts : List Token) (hparen : ∀ t ∈ ts, t.kind ≠ .leftParen)
    (heof : ∀ t ∈ ts.dropLast, t.kind ≠ .eof)
    (hroom : ids.issued.toNat + (Token.words ts).length < UInt32.size) :
    ∃ e, (parse ids ts).result = .ok e ∧
      (e.negatedRuns 0).Perm ((Stretch.cut ids ts).map fun s =>
        (if s.excluded?.isSome then 1 else 0, s.terms)) ∧
      e.negations.Perm (((Stretch.cut ids ts).filterMap Stretch.excluded?).map fun w => [.run [w]]) ∧
      ((Stretch.cut ids ts).flatMap Stretch.terms).map (fun w => (w.id.toNat, w.value, w.field)) =
        (Token.words ts).mapIdx fun i v => (ids.issued.toNat + i, v, none) := by
  obtain ⟨e, rest, he, hparses⟩ := exists_parses hparen ids
  obtain rfl : rest = [] := hparses.rest_eq_nil heof
  refine ⟨e, he, ?_, ?_, ?_⟩
  · rw [← Stretch.ahead_negatedRuns]
    exact hparses.perm_ahead (Expr.negatedRuns_additive 0)
  · rw [← Stretch.ahead_negations]
    exact hparses.perm_ahead Expr.negations_additive
  · rw [Stretch.terms_cut, TermIds.issueAll_numbers hroom]

/-- Signs in a row, words behind a signed word, a stray `)` and a mark of the end. -/
theorem runs_parse_signs :
    ∃ e, (parse ⟨5⟩ [⟨.word, "a", 0, 1⟩, ⟨.prefixAndNot, "-", 2, 1⟩, ⟨.prefixAnd, "+", 3, 1⟩,
        ⟨.word, "b", 4, 1⟩, ⟨.word, "c", 6, 1⟩, ⟨.word, "d", 8, 1⟩, ⟨.rightParen, ")", 9, 1⟩,
        ⟨.word, "e", 11, 1⟩, ⟨.eof, "", 12, 0⟩]).result = .ok e ∧
      (e.negatedRuns 0).Perm [(0, [⟨5, "a", none⟩]), (1, [⟨6, "b", none⟩]),
        (0, [⟨7, "c", none⟩, ⟨8, "d", none⟩]), (0, [⟨9, "e", none⟩])] ∧
      e.negations.Perm [[.run [⟨6, "b", none⟩]]] := by
  obtain ⟨e, he, hruns, hnots, -⟩ := runs_parse ⟨5⟩
    [⟨.word, "a", 0, 1⟩, ⟨.prefixAndNot, "-", 2, 1⟩, ⟨.prefixAnd, "+", 3, 1⟩,
      ⟨.word, "b", 4, 1⟩, ⟨.word, "c", 6, 1⟩, ⟨.word, "d", 8, 1⟩, ⟨.rightParen, ")", 9, 1⟩,
      ⟨.word, "e", 11, 1⟩, ⟨.eof, "", 12, 0⟩] (by decide) (by decide) (by decide)
  exact ⟨e, he, hruns, hnots⟩

end Parser
end SearchQuery

import SearchQuery.Proofs.Parser.Leaves
import SearchQuery.Proofs.Shingle
import SearchQuery.Proofs.Token.Lexer
import SearchQuery.Query

/-! Every number that a query has given out is the number of one term in its expression: after parsing,
and after any passes of shingling. The invariant is that the terms of the expression are, in some order,
those of a list of values numbered from zero: the words of the text, then what each pass adds. -/

namespace SearchQuery

namespace Query

/-- The terms of the query are those of these values, numbered in turn. -/
structure Numbered (q : Query) (vs : List String) : Prop where
  wellFormed : q.expr.WellFormed
  terms : q.expr.runs.flatten.Perm (TermIds.start.issueAll vs).1
  ids : q.ids = TermIds.start.skip vs.length

/-- Passes of shingling, first to last. -/
def shingles (q : Query) (passes : List Shingle.Options) : Query :=
  passes.foldl (fun q opts => q.shingle opts) q

/-- The values that passes of shingling number, in the order of their numbers. -/
def added (q : Query) : List Shingle.Options → List String
  | [] => []
  | opts :: passes => q.expr.runs.flatMap (Shingle.added opts) ++ (q.shingle opts).added passes

variable {q : Query} {vs : List String}

theorem Numbered.shingle (h : q.Numbered vs) (opts : Shingle.Options) :
    (q.shingle opts).Numbered (vs ++ q.expr.runs.flatMap (Shingle.added opts)) := by
  have hpass := Expr.grown_mapRunsM (Expr.grown_expand opts) h.wellFormed q.ids
  refine ⟨hpass.wellFormed, ?_, ?_⟩
  · rw [TermIds.issueAll_append, ← h.ids]
    exact hpass.terms.trans (h.terms.append_right _)
  · rw [List.length_append, ← TermIds.skip_skip, ← h.ids]
    exact hpass.ids

theorem Numbered.shingles (h : q.Numbered vs) (passes : List Shingle.Options) :
    (q.shingles passes).Numbered (vs ++ q.added passes) := by
  induction passes generalizing q vs with
  | nil => simpa [Query.shingles, added] using h
  | cons opts passes ih =>
    have hnext := ih (h.shingle opts)
    rw [List.append_assoc] at hnext
    exact hnext

/-- As long as the numbers last, each is used once. -/
theorem Numbered.perm_range (h : q.Numbered vs) (hroom : vs.length < UInt32.size) :
    q.ids.issued.toNat = vs.length ∧
      (q.expr.runs.flatten.map fun w => w.id.toNat).Perm (List.range vs.length) := by
  have hstart : TermIds.start.issued.toNat + vs.length < UInt32.size := by
    simpa [TermIds.start] using hroom
  constructor
  · rw [h.ids, TermIds.toNat_skip hstart]
    simp [TermIds.start]
  · have hterms := h.terms.map fun w => w.id.toNat
    rw [TermIds.issueAll_ids hstart] at hterms
    simpa [TermIds.start, List.range_eq_range'] using hterms

end Query

namespace Parser

open Stretch

theorem terms_expr (s : Stretch) : s.expr.runs.flatten = s.terms := by
  rcases s with ws | ⟨_ | _, w⟩
  · exact List.append_nil ws
  · rfl
  · rfl

theorem ahead_terms (ss : List Stretch) :
    ahead (fun e => e.runs.flatten) ss = ss.flatMap terms := by
  unfold ahead
  simp only [terms_expr]

theorem numbered_parse {ts : List Token} {e : Expr} (h : (parse .start ts).result = .ok e)
    (heof : ∀ t ∈ ts.dropLast, t.kind ≠ .eof) :
    Query.Numbered ⟨e, (parse .start ts).ids⟩ (Token.words ts) := by
  obtain ⟨rest, hparses⟩ := parses_of_ok h
  obtain rfl : rest = [] := hparses.rest_eq_nil heof
  refine ⟨hparses.wellFormed, ?_, ?_⟩
  · rw [← terms_cut, ← ahead_terms]
    exact hparses.perm_ahead Expr.terms_additive
  · obtain ⟨taken, htaken, hids, -⟩ := hparses.takes
    rw [List.append_nil] at htaken
    rw [← words_dropEnding, htaken]
    exact hids

end Parser

namespace Query

theorem ofTokens_eq_ok {ts : List Token} {q : Query} (h : ofTokens ts = .ok q) :
    (Parser.parse .start ts).result = .ok q.expr ∧ q.ids = (Parser.parse .start ts).ids := by
  unfold ofTokens at h
  cases he : (Parser.parse .start ts).result with
  | error r => simp [he, Except.map] at h
  | ok e =>
    simp only [he, Except.map] at h
    cases h
    exact ⟨rfl, rfl⟩

theorem numbered_ofText {text : String} {q : Query} (h : Query.ofText text = .ok q) :
    q.Numbered (Token.words (tokenize text)) := by
  obtain ⟨e, ids⟩ := q
  obtain ⟨he, rfl⟩ := ofTokens_eq_ok h
  apply Parser.numbered_parse he
  intro t ht
  exact Lexer.unmarked_tokenize text t (List.dropLast_subset _ ht)

theorem ids_shingles (text : String) (q : Query) (passes : List Shingle.Options)
    (hq : Query.ofText text = .ok q)
    (hroom : (Token.words (tokenize text)).length + (q.added passes).length < UInt32.size) :
    ((q.shingles passes).expr.runs.flatten.map fun w => w.id.toNat).Perm
        (List.range (q.shingles passes).ids.issued.toNat) ∧
      (q.shingles passes).ids.issued.toNat =
        (Token.words (tokenize text)).length + (q.added passes).length := by
  rw [← List.length_append] at hroom ⊢
  obtain ⟨hissued, hperm⟩ := ((numbered_ofText hq).shingles passes).perm_range hroom
  rw [hissued]
  exact ⟨hperm, rfl⟩

/-- Two words and a required one, shingled twice. The second pass joins the two words once more. -/
theorem ids_shingles_twice :
    ∃ q, Query.ofText "new york +pizza" = .ok q ∧
      ((q.shingles [⟨2, " "⟩, ⟨3, "_"⟩]).expr.runs.flatten.map fun w => w.id.toNat).Perm
        (List.range 5) := by
  let q : Query := ⟨.node .and [.run [⟨2, "pizza", none⟩],
    .node .boost [.run [⟨0, "new", none⟩, ⟨1, "york", none⟩]]], ⟨3⟩⟩
  have hq : Query.ofText "new york +pizza" = .ok q := by decide +kernel
  have hcount : (Token.words (tokenize "new york +pizza")).length +
      (q.added [⟨2, " "⟩, ⟨3, "_"⟩]).length = 5 := by decide +kernel
  obtain ⟨hperm, hissued⟩ := ids_shingles "new york +pizza" q [⟨2, " "⟩, ⟨3, "_"⟩] hq
    (by rw [hcount]; decide)
  rw [hissued, hcount] at hperm
  exact ⟨q, hq, hperm⟩

end Query
end SearchQuery

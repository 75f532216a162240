import SearchQuery.Proofs.Parser.Leaves
import SearchQuery.Proofs.Token.Span

/-! A query is refused for its first `(` and for nothing else. What the parser has taken before a refusal
has no `(` in it, so the one that it stops at is the first; and a query that it does not refuse it reads
to its end, past every place where a `(` could stand. -/

namespace SearchQuery.Parser

variable {ids : TermIds} {ts before after : List Token} {t : Token} {e : Expr} {err : ParseError}

theorem toNat_issued_skip (ids : TermIds) (n : Nat) :
    (ids.skip n).issued.toNat = (ids.issued.toNat + n) % UInt32.size := by
  simp [TermIds.skip, UInt32.toNat_add, UInt32.size]

theorem dropEnding_prefix (ts : List Token) : dropEnding ts <+: ts := by
  unfold dropEnding
  split_ifs
  · exact List.dropLast_prefix ts
  · exact List.prefix_refl ts

theorem mem_dropEnding (ht : t ∈ ts) (hkind : t.kind ≠ .eof) : t ∈ dropEnding ts := by
  unfold dropEnding
  split_ifs with h
  · obtain ⟨us, u, rfl, hu⟩ := eq_append_of_eof h
    rw [List.dropLast_concat]
    rcases List.mem_append.1 ht with ht | ht
    · exact ht
    · rw [List.mem_singleton.1 ht] at hkind
      exact absurd hu hkind
  · exact ht

theorem first_unique {before' after' : List Token} {t' : Token}
    (h : before ++ t :: after = before' ++ t' :: after') (ht : t.kind = .leftParen)
    (ht' : t'.kind = .leftParen) (hbefore : ∀ u ∈ before, u.kind ≠ .leftParen)
    (hbefore' : ∀ u ∈ before', u.kind ≠ .leftParen) : before = before' ∧ t = t' := by
  rcases List.append_eq_append_iff.1 h with ⟨us, rfl, hus⟩ | ⟨us, rfl, hus⟩
  · cases us with
    | nil => exact ⟨(List.append_nil before).symm, (List.cons.inj hus).1⟩
    | cons u us =>
      obtain ⟨rfl, -⟩ := List.cons.inj hus
      exact absurd ht (hbefore' t (by simp))
  · cases us with
    | nil => exact ⟨List.append_nil before', (List.cons.inj hus).1.symm⟩
    | cons u us =>
      obtain ⟨rfl, -⟩ := List.cons.inj hus
      exact absurd ht' (hbefore t' (by simp))

/-- What is refused is a `(` behind tokens that have been taken, and none of those is one. -/
theorem refused_split (h : (parse ids ts).result = .error err) :
    ∃ before t after, ts = before ++ t :: after ∧ (∀ u ∈ before, u.kind ≠ .leftParen) ∧
      t.kind = .leftParen ∧ err = .unsupported .grouping t.offset ∧
      (parse ids ts).ids = ids.skip (Token.words before).length := by
  obtain ⟨offset, rfl, t, rest, ht, hoffset, taken, htaken, hids, hnone⟩ := parse_refused h
  obtain ⟨more, hmore⟩ := dropEnding_prefix ts
  obtain rfl : t.offset = offset := hoffset
  refine ⟨taken, t, rest ++ more, ?_, hnone, ht, rfl, hids⟩
  rw [← hmore, htaken, List.append_assoc, List.cons_append]

theorem refused_first (h : (parse ids (before ++ t :: after)).result = .error err)
    (hbefore : ∀ u ∈ before, u.kind ≠ .leftParen) (ht : t.kind = .leftParen) :
    err = .unsupported .grouping t.offset ∧
      (parse ids (before ++ t :: after)).ids = ids.skip (Token.words before).length := by
  obtain ⟨taken, u, rest, hsplit, hnone, hu, rfl, hids⟩ := refused_split h
  obtain ⟨rfl, rfl⟩ := first_unique hsplit ht hu hbefore hnone
  exact ⟨rfl, hids⟩

/-- Whatever is read to its end has no `(`. -/
theorem ne_leftParen_of_ok (heof : ∀ t ∈ ts.dropLast, t.kind ≠ .eof)
    (h : (parse ids ts).result = .ok e) : ∀ t ∈ ts, t.kind ≠ .leftParen := by
  intro t ht hkind
  obtain ⟨rest, hparses⟩ := parses_of_ok h
  obtain rfl : rest = [] := hparses.rest_eq_nil heof
  obtain ⟨taken, htaken, -, hnone⟩ := hparses.takes
  rw [List.append_nil] at htaken
  have hmem : t ∈ dropEnding ts := mem_dropEnding ht (by rw [hkind]; decide)
  rw [htaken] at hmem
  exact hnone t hmem hkind

/-- The numbers given out are counted in the 32 bits that they have. -/
theorem refused_iff_leftParen (ids : TermIds) (ts : List Token)
    (heof : ∀ t ∈ ts.dropLast, t.kind ≠ .eof) :
    ((∃ err, (parse ids ts).result = .error err) ↔ ∃ t ∈ ts, t.kind = .leftParen) ∧
    (∀ before t after, ts = before ++ t :: after → (∀ u ∈ before, u.kind ≠ .leftParen) →
      t.kind = .leftParen →
      (parse ids ts).result = .error (.unsupported .grouping t.offset) ∧
        (parse ids ts).ids.issued.toNat =
          (ids.issued.toNat + (Token.words before).length) % UInt32.size) ∧
    ∀ text offset, (parse ids (tokenize text)).result = .error (.unsupported .grouping offset) →
      text.toList[offset]? = some '(' := by
  have hfails : (∃ t ∈ ts, t.kind = .leftParen) → ∃ err, (parse ids ts).result = .error err := by
    rintro ⟨t, ht, hkind⟩
    cases he : (parse ids ts).result with
    | error err => exact ⟨err, rfl⟩
    | ok e => exact absurd hkind (ne_leftParen_of_ok heof he t ht)
  refine ⟨⟨?_, hfails⟩, ?_, ?_⟩
  · rintro ⟨err, h⟩
    obtain ⟨offset, -, hrefused⟩ := parse_refused h
    obtain ⟨t, ht, hkind⟩ := hrefused.exists_leftParen
    exact ⟨t, dropEnding_subset ts ht, hkind⟩
  · rintro before t after rfl hbefore ht
    obtain ⟨err, h⟩ := hfails ⟨t, by simp, ht⟩
    obtain ⟨rfl, hids⟩ := refused_first h hbefore ht
    refine ⟨h, ?_⟩
    rw [hids]
    exact toNat_issued_skip ids _
  · intro text offset h
    obtain ⟨offset', heq, t, rest, ht, hoffset, htakes⟩ := parse_refused h
    cases heq
    have hmem : t ∈ tokenize text := dropEnding_subset _ (htakes.suffix.subset List.mem_cons_self)
    obtain rfl : t.offset = offset := hoffset
    exact Lexer.leftParen_tokenize hmem ht

/-- A refusal behind words, a stray `)` and signs, in tokens and in a text with an escaped parenthesis. -/
theorem refused_behind_signs :
    let ts : List Token := [⟨.word, "a", 0, 1⟩, ⟨.rightParen, ")", 1, 1⟩, ⟨.prefixAnd, "+", 3, 1⟩,
      ⟨.word, "b", 4, 1⟩, ⟨.prefixAndNot, "-", 6, 1⟩, ⟨.leftParen, "(", 7, 1⟩, ⟨.word, "c", 8, 1⟩,
      ⟨.leftParen, "(", 10, 1⟩, ⟨.eof, "", 11, 0⟩]
    (parse ⟨5⟩ ts).result = .error (.unsupported .grouping 7) ∧ (parse ⟨5⟩ ts).ids.issued.toNat = 7 ∧
      "\\(é -(b".toList[5]? = some '(' := by
  intro ts
  obtain ⟨-, hfirst, htext⟩ := refused_iff_leftParen ⟨5⟩ ts (by decide)
  obtain ⟨hresult, hids⟩ := hfirst (ts.take 5) ⟨.leftParen, "(", 7, 1⟩ (ts.drop 6) rfl (by decide) rfl
  exact ⟨hresult, hids, htext "\\(é -(b" 5 (by decide +kernel)⟩

end SearchQuery.Parser

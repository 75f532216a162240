import Mathlib.Tactic.SplitIfs
import SearchQuery.Proofs.Parser.Derivation

/-! The parser refuses a query only at a `(`, and it has read everything before it: the refusal has
the offset of the parenthesis and the numbers of the words in front. So it reads to some end
whatever has no `(`. -/

namespace SearchQuery.Parser

/-- Some tokens are taken, and then comes the `(` that is refused. -/
def RefusedAt (ids : TermIds) (ts : List Token) (r : Refusal) : Prop :=
  ∃ t rest, t.kind = .leftParen ∧ t.offset = r.offset ∧ Takes ids ts r.ids (t :: rest)

theorem RefusedAt.after {ids ids' : TermIds} {ts us : List Token} {r : Refusal}
    (h : Takes ids ts ids' us) (hr : RefusedAt ids' us r) : RefusedAt ids ts r := by
  obtain ⟨t, rest, ht, ho, htakes⟩ := hr
  exact ⟨t, rest, ht, ho, h.trans htakes⟩

theorem RefusedAt.here {t : Token} (ht : t.kind = .leftParen) (ids : TermIds) (ts : List Token) :
    RefusedAt ids (t :: ts) ⟨t.offset, ids⟩ :=
  ⟨t, ts, ht, rfl, Takes.refl _ _⟩

theorem RefusedAt.exists_leftParen {ids : TermIds} {ts : List Token} {r : Refusal}
    (h : RefusedAt ids ts r) : ∃ t ∈ ts, t.kind = .leftParen := by
  obtain ⟨t, rest, ht, -, htakes⟩ := h
  exact ⟨t, htakes.suffix.subset (List.mem_cons_self), ht⟩

theorem bind_error {ε α β : Type} {x : Except ε α} {k : α → Except ε β} {e : ε}
    (h : (x >>= k) = .error e) : x = .error e ∨ ∃ a, x = .ok a ∧ k a = .error e := by
  cases x with
  | error e' =>
    cases h
    exact .inl rfl
  | ok a => exact .inr ⟨a, rfl, h⟩

theorem refusedAt_of_readArgument {negated : Bool} {ids : TermIds} {ts : List Token} {r : Refusal}
    (h : readArgument negated ids ts = .error r) : RefusedAt ids ts r := by
  induction ts generalizing negated with
  | nil => cases h
  | cons t ts ih =>
    rw [readArgument_cons] at h
    cases ht : t.kind with
    | prefixAnd | prefixAndNot =>
      exact .after (Takes.sign (by rw [ht]; rfl) (Takes.refl _ _)) (ih (by simpa only [ht] using h))
    | leftParen =>
      simp only [ht] at h
      cases h
      exact .here ht _ _
    | _ => simp [ht] at h

theorem refusedAt_of_readArguments {kind : Token.Kind} {ids : TermIds} {ts : List Token}
    {r : Refusal} (h : readArguments kind ids ts = .error r) : RefusedAt ids ts r := by
  rw [readArguments_eq] at h
  rcases bind_error h with h | ⟨⟨value, ids', rest⟩, harg, h⟩
  · exact refusedAt_of_readArgument h
  have harg := readArgument_takes harg
  have hle := harg.length_le
  cases rest with
  | nil => simp at h
  | cons t us =>
    by_cases ht : t.kind.isSign
    · simp only [ht, if_true] at h
      cases hmore : readArguments t.kind ids' us with
      | error r' =>
        simp only [hmore, Except.map] at h
        cases h
        exact .after (harg.trans (Takes.sign ht (Takes.refl _ _))) (refusedAt_of_readArguments hmore)
      | ok args => simp [hmore, Except.map] at h
    · simp [ht] at h
termination_by ts.length

mutual

theorem refusedAt_of_readExpr {min : Nat} {ids : TermIds} {ts : List Token} {r : Refusal}
    (h : readExpr min ids ts = .error r) : RefusedAt ids ts r := by
  match ts with
  | [] => simp [readExpr_nil] at h
  | t :: ts =>
    rw [readExpr_cons] at h
    cases ht : t.kind with
    | word =>
      simp only [ht] at h
      exact .after (Takes.word ht (Takes.refl _ _)) (refusedAt_of_readOn h)
    | prefixAnd | prefixAndNot =>
      simp only [ht] at h
      refine .after (Takes.sign (by rw [ht]; rfl) (Takes.refl _ _)) ?_
      rcases bind_error h with h | ⟨args, hargs, h⟩
      · exact refusedAt_of_readArguments h
      have hargs := (readsArguments_of_ok hargs).takes
      have hle := hargs.length_le
      refine .after hargs ?_
      rcases bind_error h with h | ⟨rest, hrest, h⟩
      · exact refusedAt_of_readExpr h
      have hrest := (reads_of_readExpr hrest).takes
      have hle' := hrest.length_le
      exact .after hrest (refusedAt_of_readOn h)
    | leftParen =>
      simp only [ht] at h
      cases h
      exact .here ht _ _
    | rightParen | infixAnd | infixOr | eof =>
      simp only [ht] at h
      exact .after (Takes.dangling (by rw [ht]; rfl) (Takes.refl _ _)) (refusedAt_of_readOn h)
termination_by ts.length

theorem refusedAt_of_readOn {min : Nat} {left : Expr} {ids : TermIds} {ts : List Token}
    {r : Refusal} (h : readOn min left ids ts = .error r) : RefusedAt ids ts r := by
  match ts with
  | [] => simp [readOn_nil] at h
  | t :: ts =>
    rw [readOn_cons] at h
    by_cases hb : min < t.kind.bindingPower
    · rw [if_pos hb] at h
      cases ht : t.kind with
      | word =>
        simp only [ht] at h
        exact .after (Takes.word ht (Takes.refl _ _)) (refusedAt_of_readOn h)
      | infixAnd | infixOr =>
        simp only [ht] at h
        refine .after (Takes.dangling (by rw [ht]; rfl) (Takes.refl _ _)) ?_
        rcases bind_error h with h | ⟨right, hright, h⟩
        · exact refusedAt_of_readExpr h
        have hright := (reads_of_readExpr hright).takes
        have hle := hright.length_le
        exact .after hright (refusedAt_of_readOn h)
      | prefixAnd | prefixAndNot =>
        simp only [ht] at h
        refine .after (Takes.sign (by rw [ht]; rfl) (Takes.refl _ _)) ?_
        rcases bind_error h with h | ⟨arg, harg, h⟩
        · exact refusedAt_of_readArgument h
        have harg := readArgument_takes harg
        have hle := harg.length_le
        refine .after harg ?_
        rcases bind_error h with h | ⟨rest, hrest, h⟩
        · exact refusedAt_of_readExpr h
        have hrest := (reads_of_readExpr hrest).takes
        have hle' := hrest.length_le
        exact .after hrest (refusedAt_of_readOn h)
      | leftParen | rightParen | eof => simp [ht] at h
    · simp [hb] at h
termination_by ts.length

end

theorem resume_refused {e : Expr} {ids : TermIds} {skipped : Array Nat} {ts : List Token}
    {err : ParseError} (h : (resume e ids skipped ts).result = .error err) :
    ∃ offset, err = .unsupported .grouping offset ∧
      RefusedAt ids ts ⟨offset, (resume e ids skipped ts).ids⟩ := by
  match ts with
  | [] =>
    rw [resume_nil] at h
    cases h
  | t :: ts =>
    rw [resume_cons] at h ⊢
    cases ht : t.kind with
    | rightParen =>
      simp only [ht] at h ⊢
      have hskip := Takes.dangling (by rw [ht]; rfl) (Takes.refl ids ts)
      cases hnext : readExpr 0 ids ts with
      | error r =>
        simp only [hnext, Outcome.refused] at h ⊢
        cases h
        exact ⟨r.offset, rfl, .after hskip (refusedAt_of_readExpr hnext)⟩
      | ok next =>
        simp only [hnext] at h ⊢
        have htakes := (reads_of_readExpr hnext).takes
        have hle := htakes.length_le
        obtain ⟨offset, rfl, hr⟩ := resume_refused h
        exact ⟨offset, rfl, .after (hskip.trans htakes) hr⟩
    | leftParen =>
      simp only [ht, Outcome.refused] at h ⊢
      cases h
      exact ⟨t.offset, rfl, .here ht _ _⟩
    | _ =>
      simp only [ht] at h
      cases h
termination_by ts.length

theorem parse_refused {ids : TermIds} {ts : List Token} {err : ParseError}
    (h : (parse ids ts).result = .error err) :
    ∃ offset, err = .unsupported .grouping offset ∧
      RefusedAt ids (dropEnding ts) ⟨offset, (parse ids ts).ids⟩ := by
  rw [parse_eq] at h ⊢
  cases hfirst : readExpr 0 ids (dropEnding ts) with
  | error r =>
    simp only [hfirst, Outcome.refused] at h ⊢
    cases h
    exact ⟨r.offset, rfl, refusedAt_of_readExpr hfirst⟩
  | ok first =>
    simp only [hfirst] at h ⊢
    obtain ⟨offset, rfl, hr⟩ := resume_refused h
    exact ⟨offset, rfl, .after (reads_of_readExpr hfirst).takes hr⟩

theorem dropEnding_subset (ts : List Token) : dropEnding ts ⊆ ts := by
  unfold dropEnding
  split_ifs
  · exact List.dropLast_subset ts
  · exact List.Subset.refl _

/-- Without a `(` a query always has an expression. -/
theorem exists_parses {ts : List Token} (h : ∀ t ∈ ts, t.kind ≠ .leftParen) (ids : TermIds) :
    ∃ e rest, (parse ids ts).result = .ok e ∧
      Parses ids (dropEnding ts) ⟨e, (parse ids ts).ids, rest⟩ := by
  cases he : (parse ids ts).result with
  | ok e =>
    obtain ⟨rest, hrest⟩ := parses_of_ok he
    exact ⟨e, rest, rfl, hrest⟩
  | error err =>
    obtain ⟨offset, -, hr⟩ := parse_refused he
    obtain ⟨t, ht, hp⟩ := hr.exists_leftParen
    exact absurd hp (h t (dropEnding_subset ts ht))

end SearchQuery.Parser

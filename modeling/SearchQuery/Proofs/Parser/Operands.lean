import SearchQuery.Proofs.Expr.WellFormed
import SearchQuery.Proofs.Parser.Derivation

/-! What the parser builds from. The arguments of signs are the signed stretches of the tokens, each
as the expression it stands for, and every operation of the parser keeps expressions well formed. -/

namespace SearchQuery

namespace Stretch

/-- The expression that a stretch comes to by itself. -/
def expr : Stretch → Expr
  | plain ws => .run ws
  | signed excluded w => if excluded then (Expr.term w).not else .term w

theorem expr_wellFormed {s : Stretch} (h : s.isSigned = true) : s.expr.WellFormed := by
  cases s with
  | plain ws => cases h
  | signed excluded w =>
    cases excluded
    · exact .term w
    · exact (Expr.WellFormed.term w).not

end Stretch

namespace Parser

open Stretch

theorem signed_expr (kind : Token.Kind) (excluded : Bool) (w : Term) :
    signed kind (Stretch.signed excluded w).expr =
      (Stretch.signed ((kind == .prefixAndNot) ^^ excluded) w).expr := by
  cases kind <;> cases excluded <;> rfl

/-- The argument of signs is the signed word that the tokens have next, if a word ends the row of
signs. `signs` are all signs before `ts`, `negated` what the parser has made of some of them. -/
theorem readArgument_cut {negated : Bool} {ids : TermIds} {ts : List Token}
    {arg : Front (Option Expr)} (h : readArgument negated ids ts = .ok arg) {signs : List Token.Kind}
    (hsigns : signs ≠ []) :
    (arg.value = none ∧ cutFrom signs [] ids ts = cut arg.ids arg.rest) ∨
      ∃ b w, arg.value = some (Stretch.signed b w).expr ∧
        cutFrom signs [] ids ts =
          .signed (excludes signs ^^ negated ^^ b) w :: cut arg.ids arg.rest := by
  induction ts generalizing negated signs with
  | nil =>
    cases h
    exact .inl ⟨rfl, rfl⟩
  | cons t ts ih =>
    rw [readArgument_cons] at h
    obtain ⟨kind, text, offset, length⟩ := t
    cases kind with
    | word =>
      cases h
      refine .inr ⟨negated, (ids.issue text).1, rfl, ?_⟩
      obtain ⟨k, ks, rfl⟩ := List.exists_cons_of_ne_nil hsigns
      simp [cutFrom, cut]
    | prefixAnd =>
      rw [cutFrom_sign signs [] ids rfl]
      simpa only [excludes_prefixAnd, ended_nil, List.nil_append] using ih h (List.cons_ne_nil .prefixAnd signs)
    | prefixAndNot =>
      have hnot (b : Bool) : ((!excludes signs) ^^ (!negated) ^^ b) =
          (excludes signs ^^ negated ^^ b) := by
        cases excludes signs <;> cases negated <;> rfl
      rw [cutFrom_sign signs [] ids rfl]
      simpa only [excludes_prefixAndNot, hnot, ended_nil, List.nil_append] using ih h (List.cons_ne_nil .prefixAndNot signs)
    | leftParen => cases h
    | rightParen | infixAnd | infixOr | eof =>
      cases h
      exact .inl ⟨rfl, rfl⟩

/-- The signed stretches, none or one, that an argument comes from. -/
theorem signedArgument_cut (kind : Token.Kind) {ids : TermIds} {ts : List Token}
    {arg : Front (Option Expr)} (h : readArgument false ids ts = .ok arg) :
    ∃ ss : List Stretch, signedArgument kind arg.value = ss.map expr ∧
      (∀ s ∈ ss, s.isSigned = true) ∧
      cutFrom [kind] [] ids ts = ss ++ cut arg.ids arg.rest := by
  rcases readArgument_cut h (List.cons_ne_nil kind []) with ⟨hv, hcut⟩ | ⟨b, w, hv, hcut⟩
  · exact ⟨[], by simp [signedArgument, hv], by simp, by simpa using hcut⟩
  · refine ⟨[.signed (excludes [kind] ^^ b) w], ?_, by simp [isSigned], by simpa using hcut⟩
    simp [signedArgument, hv, signed_expr, excludes_singleton]

theorem ReadsArguments.cut {kind : Token.Kind} {ids : TermIds} {ts : List Token}
    {args : Front (List Expr)} (h : ReadsArguments kind ids ts args) :
    ∃ ss : List Stretch, args.value = ss.map expr ∧ (∀ s ∈ ss, s.isSigned = true) ∧
      cutFrom [kind] [] ids ts = ss ++ cut args.ids args.rest := by
  induction h with
  | last harg _ => exact signedArgument_cut _ harg
  | @more kind _ _ _ _ _ _ harg hrest ht _ ih =>
    obtain ⟨ss, hv, hs, hcut⟩ := signedArgument_cut kind harg
    obtain ⟨ss', hv', hs', hcut'⟩ := ih
    refine ⟨ss ++ ss', ?_, ?_, ?_⟩
    · simp [Front.after, hv, hv']
    · intro s hmem
      rcases List.mem_append.1 hmem with hmem | hmem
      · exact hs s hmem
      · exact hs' s hmem
    · rw [hcut, hrest, cut_sign _ ht, hcut']
      simp [Front.after]

theorem conjoin_wellFormed {args : List Expr} {rest : Expr} (hargs : ∀ a ∈ args, a.WellFormed)
    (hrest : rest.WellFormed) : (conjoin args rest).WellFormed := by
  unfold conjoin
  split_ifs
  · exact hrest
  · exact (Expr.WellFormed.compound (by decide) (by decide) hargs).and hrest.wrap

theorem applySign_wellFormed {kind : Token.Kind} {arg : Option Expr} {around : Expr}
    (harg : ∀ a ∈ signedArgument kind arg, a.WellFormed) (haround : around.WellFormed) :
    (applySign kind arg around).WellFormed := by
  cases arg with
  | none => exact haround
  | some a => exact (harg (signed kind a) (by simp [signedArgument])).and haround.wrap

theorem joins_absorbs {kind : Token.Kind} {op : Operator} (h : kind.joins? = some op) :
    Expr.Absorbs op := by
  cases kind <;> cases h
  · exact .inl rfl
  · exact .inr rfl

theorem joinRight_wellFormed {op : Operator} {left right : Expr} (hop : Expr.Absorbs op)
    (hleft : left.WellFormed) (hright : right.WellFormed) :
    (joinRight (Expr.combine op) left right).WellFormed := by
  unfold joinRight
  split_ifs
  · exact hleft
  · exact Expr.WellFormed.combine hop hleft hright

theorem map_expr_wellFormed {ss : List Stretch} (h : ∀ s ∈ ss, s.isSigned = true) :
    ∀ a ∈ ss.map expr, a.WellFormed := by
  intro a ha
  obtain ⟨s, hs, rfl⟩ := List.mem_map.1 ha
  exact expr_wellFormed (h s hs)

theorem signedArgument_wellFormed (kind : Token.Kind) {ids : TermIds} {ts : List Token}
    {arg : Front (Option Expr)} (h : readArgument false ids ts = .ok arg) :
    ∀ a ∈ signedArgument kind arg.value, a.WellFormed := by
  obtain ⟨ss, hv, hs, -⟩ := signedArgument_cut kind h
  rw [hv]
  exact map_expr_wellFormed hs

theorem ReadsArguments.wellFormed {kind : Token.Kind} {ids : TermIds} {ts : List Token}
    {args : Front (List Expr)} (h : ReadsArguments kind ids ts args) :
    ∀ a ∈ args.value, a.WellFormed := by
  obtain ⟨ss, hv, hs, -⟩ := h.cut
  rw [hv]
  exact map_expr_wellFormed hs

/-- A signed word is neither empty nor a conjunction, so that a conjunction takes it as one child. -/
theorem signed_expr_operator {s : Stretch} (h : s.isSigned = true) :
    s.expr.operator ≠ .and ∧ s.expr.isNoop = false := by
  rcases s with ws | ⟨_ | _, w⟩
  · cases h
  · exact ⟨nofun, rfl⟩
  · exact ⟨nofun, rfl⟩

theorem signed_and_operator {s : Stretch} (h : s.isSigned = true) {around : Expr}
    (haround : around.WellFormed) : (s.expr.and around).operator = .and :=
  Expr.operator_combine (.inl rfl) (expr_wellFormed h) haround (.inl (signed_expr_operator h).2)

theorem compound_signed {s : Stretch} {ss : List Stretch} (h : ∀ a ∈ s :: ss, a.isSigned = true) :
    Expr.compound .and ((s :: ss).map expr) = .node .and ((s :: ss).map expr) := by
  have hkept : ((s :: ss).map expr).filter (fun e => !e.isNoop) = (s :: ss).map expr := by
    refine List.filter_eq_self.2 fun e he => ?_
    obtain ⟨a, ha, rfl⟩ := List.mem_map.1 he
    rw [(signed_expr_operator (h a ha)).2]
    rfl
  rw [Expr.compound_eq (by decide) (by decide), hkept]
  exact Expr.node?_of_ne_nil (List.cons_ne_nil _ _)

theorem conjoin_signed {s : Stretch} {ss : List Stretch} (h : ∀ a ∈ s :: ss, a.isSigned = true)
    {rest : Expr} (hrest : rest.WellFormed) :
    conjoin ((s :: ss).map expr) rest =
      .node .and ((s :: ss).map expr ++ Expr.parts .and rest.wrap) := by
  have hargs : (Expr.node .and ((s :: ss).map expr)).WellFormed := by
    rw [← compound_signed h]
    exact Expr.WellFormed.compound (by decide) (by decide) (map_expr_wellFormed h)
  show (Expr.compound .and ((s :: ss).map expr)).and rest.wrap = _
  rw [compound_signed h, Expr.and_eq hargs hrest.wrap rfl]
  rfl

def Stage.WellFormed : Stage → Prop
  | .start => True
  | .after left => left.WellFormed

theorem Reads.wellFormed {min : Nat} {stage : Stage} {ids : TermIds} {ts : List Token}
    {f : Front Expr} (h : Reads min stage ids ts f) (hstage : stage.WellFormed) :
    f.value.WellFormed := by
  induction h with
  | none => exact .noop
  | first _ _ ih => exact ih (.term _)
  | signs _ hargs _ _ ihrest ih => exact ih (conjoin_wellFormed hargs.wellFormed (ihrest trivial))
  | dangling _ _ ih => exact ih .noop
  | stop _ => exact hstage
  | word _ _ _ ih => exact ih (Expr.WellFormed.appendTerm hstage _)
  | join _ ht _ _ ihright ih =>
    exact ih (joinRight_wellFormed (joins_absorbs ht) hstage (ihright trivial))
  | sign _ _ harg _ _ ihrest ih =>
    exact ih (applySign_wellFormed (signedArgument_wellFormed _ harg)
      (Expr.WellFormed.extend hstage (ihrest trivial)))

theorem Resumes.wellFormed {e : Expr} {ids : TermIds} {ts : List Token} {f : Front Expr}
    (h : Resumes e ids ts f) (he : e.WellFormed) : f.value.WellFormed := by
  induction h with
  | stop _ => exact he.wrap
  | skip _ hnext _ ih => exact ih (he.extend (hnext.wellFormed trivial))

theorem Parses.wellFormed {ids : TermIds} {ts : List Token} {f : Front Expr}
    (h : Parses ids ts f) : f.value.WellFormed := by
  obtain ⟨first, hfirst, hrest, -⟩ := h
  exact hrest.wellFormed (hfirst.wellFormed trivial)

end Parser
end SearchQuery

import SearchQuery.Proofs.Parser.Operands

/-! A second parser, which reads signs by recursion alone: a sign at the start of an expression takes
one argument and then, as an expression, everything up to what binds less tightly, further signs
included; and of signs before a word each negates what the signs behind it make of the word. It is
the same function as the parser, which reads a row of signed words in one go: the nested conjunctions
are flat, and an even number of negations cancel. -/

namespace SearchQuery.Parser

namespace Nested

def argument (n : Nat) (ids : TermIds) (ts : List Token) (h : ts.length ≤ n) :
    Except Refusal (Parsed (Option Expr) n) :=
  match ts, h with
  | [], h => .ok ⟨none, [], ids, h⟩
  | t :: ts, h =>
    have le : ts.length ≤ n := le_of_lt h
    match t.kind with
    | .word => .ok ⟨some (.term (ids.issue t.text).1), ts, (ids.issue t.text).2, le⟩
    | .prefixAnd => argument n ids ts le
    | .prefixAndNot => do
      let arg ← argument n ids ts le
      return { arg with value := arg.value.map Expr.not }
    | .leftParen => .error ⟨t.offset, ids⟩
    | .rightParen | .infixAnd | .infixOr | .eof => .ok ⟨none, ts, ids, le⟩

mutual

def expression (n min : Nat) (ids : TermIds) (ts : List Token) (h : ts.length ≤ n) :
    Except Refusal (Parsed Expr n) :=
  match ts, h with
  | [], h => .ok ⟨.noop, [], ids, h⟩
  | t :: ts, h =>
    have le : ts.length ≤ n := Nat.le_of_succ_le h
    match t.kind with
    | .word => absorb n min (.term (ids.issue t.text).1) (ids.issue t.text).2 ts le
    | .prefixAnd | .prefixAndNot => do
      let arg ← argument ts.length ids ts (Nat.le_refl _)
      let rest ← expression arg.rest.length t.kind.bindingPower arg.ids arg.rest (Nat.le_refl _)
      absorb n min (applySign t.kind arg.value rest.value) rest.ids rest.rest
        (Nat.le_trans rest.le (Nat.le_trans arg.le le))
    | .leftParen => .error ⟨t.offset, ids⟩
    | .rightParen | .infixAnd | .infixOr | .eof => absorb n min .noop ids ts le
termination_by ts.length
decreasing_by
  · exact Nat.lt_succ_self _
  · exact Nat.lt_succ_of_le arg.le
  · exact Nat.lt_succ_of_le (Nat.le_trans rest.le arg.le)
  · exact Nat.lt_succ_self _

def absorb (n min : Nat) (left : Expr) (ids : TermIds) (ts : List Token) (h : ts.length ≤ n) :
    Except Refusal (Parsed Expr n) :=
  match ts, h with
  | [], h => .ok ⟨left, [], ids, h⟩
  | t :: ts, h =>
    have le : ts.length ≤ n := Nat.le_of_succ_le h
    if min < t.kind.bindingPower then
      match t.kind with
      | .word => absorb n min (left.appendTerm (ids.issue t.text).1) (ids.issue t.text).2 ts le
      | .infixAnd => do
        let right ← expression ts.length t.kind.bindingPower ids ts (Nat.le_refl _)
        absorb n min (joinRight Expr.and left right.value) right.ids right.rest
          (Nat.le_trans right.le le)
      | .infixOr => do
        let right ← expression ts.length t.kind.bindingPower ids ts (Nat.le_refl _)
        absorb n min (joinRight Expr.or left right.value) right.ids right.rest
          (Nat.le_trans right.le le)
      | .prefixAnd | .prefixAndNot => do
        let arg ← argument ts.length ids ts (Nat.le_refl _)
        let rest ← expression arg.rest.length t.kind.bindingPower arg.ids arg.rest (Nat.le_refl _)
        absorb n min (applySign t.kind arg.value (left.extend rest.value)) rest.ids rest.rest
          (Nat.le_trans rest.le (Nat.le_trans arg.le le))
      | .leftParen | .rightParen | .eof => .ok ⟨left, t :: ts, ids, h⟩
    else .ok ⟨left, t :: ts, ids, h⟩
termination_by ts.length
decreasing_by
  · exact Nat.lt_succ_self _
  · exact Nat.lt_succ_self _
  · exact Nat.lt_succ_of_le right.le
  · exact Nat.lt_succ_self _
  · exact Nat.lt_succ_of_le right.le
  · exact Nat.lt_succ_of_le arg.le
  · exact Nat.lt_succ_of_le (Nat.le_trans rest.le arg.le)

end

def resume (e : Expr) (ids : TermIds) (skipped : Array Nat) (ts : List Token) : Outcome :=
  match ts with
  | [] => ⟨.ok e.wrap, ids, skipped.toList⟩
  | t :: ts =>
    match t.kind with
    | .rightParen =>
      match expression ts.length 0 ids ts (Nat.le_refl _) with
      | .error r => .refused r.offset r.ids (skipped.push t.offset).toList
      | .ok p => resume (e.extend p.value) p.ids (skipped.push t.offset) p.rest
    | .leftParen => .refused t.offset ids skipped.toList
    | _ => ⟨.ok e.wrap, ids, skipped.toList⟩
termination_by ts.length
decreasing_by exact Nat.lt_succ_of_le p.le

def parse (ids : TermIds) (ts : List Token) : Outcome :=
  let ts := dropEnding ts
  match expression ts.length 0 ids ts le_rfl with
  | .error r => .refused r.offset r.ids []
  | .ok p => resume p.value p.ids #[] p.rest

end Nested

variable {n : Nat} {ids : TermIds} {ts : List Token}

/-- One more minus sign in front of an argument. -/
def Front.negate (arg : Front (Option Expr)) : Front (Option Expr) :=
  { arg with value := arg.value.map Expr.not }

/-- An argument is a word under no negation or one, so that one more is one less under one. -/
theorem readArgument_not (negated : Bool) (ids : TermIds) (ts : List Token) :
    readArgument (!negated) ids ts = (readArgument negated ids ts).map Front.negate := by
  induction ts generalizing negated with
  | nil => rfl
  | cons t ts ih =>
    rw [readArgument_cons, readArgument_cons]
    cases t.kind with
    | word => cases negated <;> rfl
    | prefixAnd => exact ih negated
    | prefixAndNot => exact ih (!negated)
    | _ => rfl

theorem nested_argument_front (ids : TermIds) (ts : List Token) (h : ts.length ≤ n) :
    (Nested.argument n ids ts h).map Parsed.front = readArgument false ids ts := by
  induction ts with
  | nil => rfl
  | cons t ts ih =>
    obtain ⟨kind, text, offset, length⟩ := t
    rw [readArgument_cons, Nested.argument.eq_def]
    cases kind with
    | prefixAnd => exact ih _
    | prefixAndNot =>
      simp only
      rw [readArgument_not, ← ih (Nat.le_of_succ_le h)]
      cases Nested.argument n ids ts (Nat.le_of_succ_le h) <;> rfl
    | _ => rfl

/-- What signs in a row come to does not depend on how their words are put in front: the first one by
itself before what the others make of the rest, or all at once. -/
theorem and_conjoin {s : Stretch} {ss : List Stretch} (h : ∀ a ∈ s :: ss, a.isSigned = true)
    {rest : Expr} (hrest : rest.WellFormed) :
    s.expr.and (conjoin (ss.map Stretch.expr) rest).wrap =
      conjoin ((s :: ss).map Stretch.expr) rest := by
  obtain ⟨hs, hss⟩ := List.forall_mem_cons.1 h
  obtain ⟨hop, hn⟩ := signed_expr_operator hs
  have hback := conjoin_wellFormed (map_expr_wellFormed hss) hrest
  rw [conjoin_signed h hrest, Expr.and_eq (Stretch.expr_wellFormed hs) hback.wrap hn,
    Expr.parts_of_ne hop hn]
  cases ss with
  | nil => rfl
  | cons s' ss =>
    rw [conjoin_signed hss hrest]
    rfl

theorem applySign_conjoin {kind : Token.Kind} {arg : Option Expr} {ss ss' : List Stretch}
    (harg : signedArgument kind arg = ss.map Stretch.expr) (h : ∀ a ∈ ss ++ ss', a.isSigned = true)
    {rest : Expr} (hrest : rest.WellFormed) :
    applySign kind arg (conjoin (ss'.map Stretch.expr) rest) =
      conjoin ((ss ++ ss').map Stretch.expr) rest := by
  cases arg with
  | none =>
    obtain rfl : ss = [] := List.map_eq_nil_iff.1 harg.symm
    rfl
  | some a =>
    obtain ⟨s, rfl, hs⟩ := List.map_eq_singleton_iff.1 harg.symm
    rw [applySign, ← hs]
    exact and_conjoin h hrest

/-- Where another sign stands behind the argument of a sign, the row of signs is gone on with, or the
other sign begins the expression that is the rest. -/
theorem readArguments_more {kind : Token.Kind} {arg : Front (Option Expr)} {ss : List Stretch}
    (hss : signedArgument kind arg.value = ss.map Stretch.expr) (hsigned : ∀ s ∈ ss, s.isSigned = true)
    {t : Token} {us : List Token} (ht : t.kind.isSign = true)
    (k : Front Expr → Except Refusal (Front Expr)) :
    (do
      let args ← (readArguments t.kind arg.ids us).map (Front.after (signedArgument kind arg.value))
      let rest ← readExpr 50 args.ids args.rest
      k ⟨conjoin args.value rest.value, rest.ids, rest.rest⟩) = (do
      let rest ← readExpr 50 arg.ids (t :: us)
      k ⟨applySign kind arg.value rest.value, rest.ids, rest.rest⟩) := by
  rw [readExpr_sign 50 arg.ids ht us]
  cases hargs : readArguments t.kind arg.ids us with
  | error r => rfl
  | ok args =>
    obtain ⟨ss', hss', hsigned', -⟩ := (readsArguments_of_ok hargs).cut
    simp only [Except.map, Except.bind, bind, Front.after]
    cases hrest : readExpr 50 args.ids args.rest with
    | error r => rfl
    | ok rest =>
      have hreads := reads_of_readExpr hrest
      have hall : ∀ a ∈ ss ++ ss', a.isSigned = true := fun a ha =>
        (List.mem_append.1 ha).elim (hsigned a) (hsigned' a)
      simp only
      rw [readOn_of_stops hreads.stops]
      simp only [hss', applySign_conjoin hss hall (hreads.wellFormed trivial), hss, List.map_append]

/-- Signs in a row, read in one go or one after the other. -/
theorem readArguments_nested (kind : Token.Kind) (ids : TermIds) (ts : List Token)
    (k : Front Expr → Except Refusal (Front Expr)) :
    (do
      let args ← readArguments kind ids ts
      let rest ← readExpr 50 args.ids args.rest
      k ⟨conjoin args.value rest.value, rest.ids, rest.rest⟩) = (do
      let arg ← readArgument false ids ts
      let rest ← readExpr 50 arg.ids arg.rest
      k ⟨applySign kind arg.value rest.value, rest.ids, rest.rest⟩) := by
  rw [readArguments_eq, bind_assoc]
  cases harg : readArgument false ids ts with
  | error r => rfl
  | ok arg =>
    obtain ⟨ss, hss, hsigned, -⟩ := signedArgument_cut kind harg
    have hlast : (do
        let rest ← readExpr 50 arg.ids arg.rest
        k ⟨conjoin (signedArgument kind arg.value) rest.value, rest.ids, rest.rest⟩) = (do
        let rest ← readExpr 50 arg.ids arg.rest
        k ⟨applySign kind arg.value rest.value, rest.ids, rest.rest⟩) := by
      cases hrest : readExpr 50 arg.ids arg.rest with
      | error r => rfl
      | ok rest =>
        have h : applySign kind arg.value (conjoin (([] : List Stretch).map Stretch.expr) rest.value) =
            conjoin ((ss ++ []).map Stretch.expr) rest.value :=
          applySign_conjoin hss (by simpa using hsigned)
            ((reads_of_readExpr hrest).wellFormed trivial)
        rw [List.append_nil, ← hss] at h
        exact congrArg (fun e => k ⟨e, rest.ids, rest.rest⟩) h.symm
    obtain ⟨value, ids', rest⟩ := arg
    cases rest with
    | nil => exact hlast
    | cons t us =>
      by_cases ht : t.kind.isSign
      · simp only [bind, Except.bind, ht, if_true]
        exact readArguments_more hss hsigned ht k
      · simp only [bind, Except.bind, ht]
        exact hlast

mutual

theorem nested_expression_front (n min : Nat) (ids : TermIds) (ts : List Token) (h : ts.length ≤ n) :
    (Nested.expression n min ids ts h).map Parsed.front = readExpr min ids ts := by
  match ts, h with
  | [], h =>
    rw [readExpr_nil, Nested.expression.eq_def]
    rfl
  | ⟨kind, text, offset, length⟩ :: ts, h =>
    rw [Nested.expression.eq_def]
    cases kind with
    | word =>
      rw [readExpr_cons]
      exact nested_absorb_front n min _ _ ts _
    | prefixAnd | prefixAndNot =>
      rw [readExpr_sign min ids rfl ts]
      refine Eq.trans ?_ (readArguments_nested _ ids ts fun f => readOn min f.value f.ids f.rest).symm
      rw [← nested_argument_front ids ts (Nat.le_refl _)]
      refine map_bind_front fun arg => ?_
      rw [← nested_expression_front _ 50 arg.front.ids arg.front.rest (Nat.le_refl _)]
      refine map_bind_front fun rest => ?_
      exact nested_absorb_front n min _ _ rest.rest _
    | leftParen =>
      rw [readExpr_cons]
      rfl
    | rightParen | infixAnd | infixOr | eof =>
      rw [readExpr_cons]
      exact nested_absorb_front n min _ _ ts _
termination_by ts.length
decreasing_by
  · exact Nat.lt_succ_self _
  · exact Nat.lt_succ_self _
  · exact Nat.lt_succ_self _
  · exact Nat.lt_succ_self _
  · exact Nat.lt_succ_of_le arg.le
  · exact Nat.lt_succ_of_le (Nat.le_trans rest.le arg.le)
  · exact Nat.lt_succ_of_le arg.le
  · exact Nat.lt_succ_of_le (Nat.le_trans rest.le arg.le)
  · exact Nat.lt_succ_self _

theorem nested_absorb_front (n min : Nat) (left : Expr) (ids : TermIds) (ts : List Token)
    (h : ts.length ≤ n) :
    (Nested.absorb n min left ids ts h).map Parsed.front = readOn min left ids ts := by
  match ts, h with
  | [], h =>
    rw [readOn_nil, Nested.absorb.eq_def]
    rfl
  | ⟨kind, text, offset, length⟩ :: ts, h =>
    rw [readOn_cons, Nested.absorb.eq_def]
    by_cases hb : min < kind.bindingPower
    · simp only [hb, if_true]
      cases kind with
      | word => exact nested_absorb_front n min _ _ ts _
      | infixAnd | infixOr =>
        simp only
        rw [← nested_expression_front ts.length _ ids ts (Nat.le_refl _)]
        refine map_bind_front fun right => ?_
        exact nested_absorb_front n min _ _ right.rest _
      | prefixAnd | prefixAndNot =>
        simp only
        rw [← nested_argument_front ids ts (Nat.le_refl _)]
        refine map_bind_front fun arg => ?_
        rw [← nested_expression_front _ _ arg.front.ids arg.front.rest (Nat.le_refl _)]
        refine map_bind_front fun rest => ?_
        exact nested_absorb_front n min _ _ rest.rest _
      | _ => rfl
    · simp only [hb, if_false]
      rfl
termination_by ts.length
decreasing_by
  · exact Nat.lt_succ_self _
  · exact Nat.lt_succ_self _
  · exact Nat.lt_succ_of_le right.le
  · exact Nat.lt_succ_self _
  · exact Nat.lt_succ_of_le right.le
  · exact Nat.lt_succ_of_le arg.le
  · exact Nat.lt_succ_of_le (Nat.le_trans rest.le arg.le)
  · exact Nat.lt_succ_of_le arg.le
  · exact Nat.lt_succ_of_le (Nat.le_trans rest.le arg.le)

end

theorem front_injective {α : Type} : Function.Injective (Parsed.front (α := α) (n := n)) := by
  rintro ⟨value, rest, ids, le⟩ ⟨value', rest', ids', le'⟩ h
  cases h
  rfl

theorem map_front_injective {α : Type} {x y : Except Refusal (Parsed α n)}
    (h : x.map Parsed.front = y.map Parsed.front) : x = y := by
  cases x with
  | error r =>
    cases y with
    | error r' =>
      cases h
      rfl
    | ok q => cases h
  | ok p =>
    cases y with
    | error r' => cases h
    | ok q => rw [front_injective (Except.ok.inj h)]

theorem nested_expression_eq (min : Nat) (ids : TermIds) (ts : List Token) :
    Nested.expression ts.length min ids ts (Nat.le_refl _) =
      expression ts.length min ids ts (Nat.le_refl _) :=
  map_front_injective (nested_expression_front _ min ids ts _)

theorem nested_resume_eq (e : Expr) (ids : TermIds) (skipped : Array Nat) (ts : List Token) :
    Nested.resume e ids skipped ts = resume e ids skipped ts := by
  match ts with
  | [] => rw [Nested.resume.eq_def, resume.eq_def]
  | ⟨kind, text, offset, length⟩ :: ts =>
    rw [Nested.resume.eq_def, resume.eq_def]
    cases kind with
    | rightParen =>
      simp only
      rw [nested_expression_eq]
      cases expression ts.length 0 ids ts (Nat.le_refl _) with
      | error r => rfl
      | ok p => exact nested_resume_eq _ _ _ p.rest
    | _ => rfl
termination_by ts.length
decreasing_by exact Nat.lt_succ_of_le p.le

/-- Reading signs in one go and reading them one at a time are the same, in what is built, in what is
refused and in the numbers given out. -/
theorem nested_parse_eq (ids : TermIds) (ts : List Token) : Nested.parse ids ts = parse ids ts := by
  unfold Nested.parse parse
  simp only
  rw [nested_expression_eq]
  cases expression (dropEnding ts).length 0 ids (dropEnding ts) (Nat.le_refl _) with
  | error r => rfl
  | ok p => exact nested_resume_eq _ _ _ _

end SearchQuery.Parser

import Mathlib.Data.Nat.Basic
import SearchQuery.Query.Parser

/-! The parser's functions carry a bound on what they leave, which is why they stop and which
says nothing about what they read. Here the bound is left out: `readArgument`, `readArguments`,
`readExpr` and `readOn` are `argument`, `arguments`, `expression` and `absorb` less the bound, and
the equations say what each does with the first token, and `resume` and `parse` have equations in
these terms. No later proof opens the four functions themselves. -/

namespace SearchQuery.Parser

/-- What was read from the front of some tokens. -/
structure Front (α : Type) where
  value : α
  ids : TermIds
  rest : List Token
  deriving DecidableEq

variable {α β : Type} {n m : Nat}

def Parsed.front (p : Parsed α n) : Front α := ⟨p.value, p.ids, p.rest⟩

def readArgument (negated : Bool) (ids : TermIds) (ts : List Token) :
    Except Refusal (Front (Option Expr)) :=
  (argument ts.length negated ids ts le_rfl).map Parsed.front

def readArguments (kind : Token.Kind) (ids : TermIds) (ts : List Token) :
    Except Refusal (Front (List Expr)) :=
  (arguments ts.length kind #[] ids ts le_rfl).map Parsed.front

def readExpr (min : Nat) (ids : TermIds) (ts : List Token) : Except Refusal (Front Expr) :=
  (expression ts.length min ids ts le_rfl).map Parsed.front

def readOn (min : Nat) (left : Expr) (ids : TermIds) (ts : List Token) :
    Except Refusal (Front Expr) :=
  (absorb ts.length min left ids ts le_rfl).map Parsed.front

theorem map_bind_congr {x : Except Refusal α} {k : α → Except Refusal (Parsed β n)}
    {l : α → Except Refusal (Parsed β m)}
    (h : ∀ p, (k p).map Parsed.front = (l p).map Parsed.front) :
    (x >>= k).map Parsed.front = (x >>= l).map Parsed.front := by
  cases x with
  | error r => rfl
  | ok p => exact h p

theorem map_bind_front {x : Except Refusal (Parsed α n)}
    {k : Parsed α n → Except Refusal (Parsed β m)} {l : Front α → Except Refusal (Front β)}
    (h : ∀ p, (k p).map Parsed.front = l p.front) :
    (x >>= k).map Parsed.front = x.map Parsed.front >>= l := by
  cases x with
  | error r => rfl
  | ok p => exact h p

theorem argument_congr (negated : Bool) (ids : TermIds) (ts : List Token) (h : ts.length ≤ n)
    (h' : ts.length ≤ m) :
    (argument n negated ids ts h).map Parsed.front =
      (argument m negated ids ts h').map Parsed.front := by
  induction ts generalizing negated ids with
  | nil => rfl
  | cons t ts ih =>
    obtain ⟨kind, text, offset, length⟩ := t
    rw [argument.eq_def, argument.eq_def]
    cases kind with
    | prefixAnd => exact ih _ _ _ _
    | prefixAndNot => exact ih _ _ _ _
    | _ => rfl

theorem absorb_congr (min : Nat) (left : Expr) (ids : TermIds) (ts : List Token)
    (h : ts.length ≤ n) (h' : ts.length ≤ m) :
    (absorb n min left ids ts h).map Parsed.front =
      (absorb m min left ids ts h').map Parsed.front := by
  match ts, h, h' with
  | [], h, h' => rw [absorb.eq_def, absorb.eq_def]; rfl
  | ⟨kind, text, offset, length⟩ :: ts, h, h' =>
    rw [absorb.eq_def n, absorb.eq_def m]
    by_cases hb : min < kind.bindingPower
    · simp only [hb, if_true]
      cases kind with
      | word => exact absorb_congr min _ _ ts _ _
      | infixAnd | infixOr =>
        refine map_bind_congr fun p => ?_
        exact absorb_congr min _ _ p.rest _ _
      | prefixAnd | prefixAndNot =>
        refine map_bind_congr fun p => map_bind_congr fun q => ?_
        exact absorb_congr min _ _ q.rest _ _
      | _ => rfl
    · simp only [hb, if_false]
      rfl
termination_by ts.length
decreasing_by
  · exact Nat.lt_succ_self _
  · exact Nat.lt_succ_of_le p.le
  · exact Nat.lt_succ_of_le p.le
  · exact Nat.lt_succ_of_le (Nat.le_trans q.le p.le)
  · exact Nat.lt_succ_of_le (Nat.le_trans q.le p.le)

theorem argument_front (negated : Bool) (ids : TermIds) (ts : List Token) (h : ts.length ≤ n) :
    (argument n negated ids ts h).map Parsed.front = readArgument negated ids ts :=
  argument_congr negated ids ts h _

theorem absorb_front (min : Nat) (left : Expr) (ids : TermIds) (ts : List Token)
    (h : ts.length ≤ n) :
    (absorb n min left ids ts h).map Parsed.front = readOn min left ids ts :=
  absorb_congr min left ids ts h _

theorem readArgument_cons (negated : Bool) (ids : TermIds) (t : Token) (ts : List Token) :
    readArgument negated ids (t :: ts) =
      match t.kind with
      | .word =>
        let arg := Expr.term (ids.issue t.text).1
        .ok ⟨some (if negated then arg.not else arg), (ids.issue t.text).2, ts⟩
      | .prefixAnd => readArgument negated ids ts
      | .prefixAndNot => readArgument (!negated) ids ts
      | .leftParen => .error ⟨t.offset, ids⟩
      | _ => .ok ⟨none, ids, ts⟩ := by
  obtain ⟨kind, text, offset, length⟩ := t
  rw [readArgument, argument.eq_def]
  cases kind with
  | prefixAnd => exact argument_front _ _ _ _
  | prefixAndNot => exact argument_front _ _ _ _
  | _ => rfl

theorem readOn_nil (min : Nat) (left : Expr) (ids : TermIds) :
    readOn min left ids [] = .ok ⟨left, ids, []⟩ := by
  rw [readOn, absorb.eq_def]
  rfl

theorem readOn_cons (min : Nat) (left : Expr) (ids : TermIds) (t : Token) (ts : List Token) :
    readOn min left ids (t :: ts) =
      if min < t.kind.bindingPower then
        match t.kind with
        | .word => readOn min (left.appendTerm (ids.issue t.text).1) (ids.issue t.text).2 ts
        | .infixAnd => do
          let right ← readExpr t.kind.bindingPower ids ts
          readOn min (joinRight Expr.and left right.value) right.ids right.rest
        | .infixOr => do
          let right ← readExpr t.kind.bindingPower ids ts
          readOn min (joinRight Expr.or left right.value) right.ids right.rest
        | .prefixAnd | .prefixAndNot => do
          let arg ← readArgument false ids ts
          let rest ← readExpr t.kind.bindingPower arg.ids arg.rest
          readOn min (applySign t.kind arg.value (left.extend rest.value)) rest.ids rest.rest
        | _ => .ok ⟨left, ids, t :: ts⟩
      else .ok ⟨left, ids, t :: ts⟩ := by
  obtain ⟨kind, text, offset, length⟩ := t
  rw [readOn, absorb.eq_def]
  by_cases hb : min < kind.bindingPower
  · simp only [hb, if_true]
    cases kind with
    | word => exact absorb_front min _ _ _ _
    | infixAnd | infixOr => exact map_bind_front fun p => absorb_front min _ _ _ _
    | prefixAnd | prefixAndNot =>
      exact map_bind_front fun p => map_bind_front fun q => absorb_front min _ _ _ _
    | _ => rfl
  · simp only [hb, if_false]
    rfl

/-- Arguments found behind others. -/
def Front.after (done : List Expr) (f : Front (List Expr)) : Front (List Expr) :=
  { f with value := done ++ f.value }

theorem map_after (x : Except Refusal (Front (List Expr))) (as bs : List Expr) :
    (x.map (Front.after bs)).map (Front.after as) = x.map (Front.after (as ++ bs)) := by
  cases x with
  | error r => rfl
  | ok f => simp [Except.map, Front.after]

/-- The sign in front applied to its argument, if there is one. -/
def signedArgument (kind : Token.Kind) (arg : Option Expr) : List Expr :=
  (arg.map (signed kind)).toList

theorem arguments_front {n : Nat} (kind : Token.Kind) (done : Array Expr) (ids : TermIds) (ts : List Token)
    (h : ts.length ≤ n) :
    (arguments n kind done ids ts h).map Parsed.front =
      (readArguments kind ids ts).map (Front.after done.toList) := by
  rw [readArguments, arguments.eq_def n, arguments.eq_def ts.length]
  cases argument ts.length false ids ts (Nat.le_refl _) with
  | error r => rfl
  | ok arg =>
    obtain ⟨value, rest, ids, le⟩ := arg
    simp only [bind, Except.bind]
    cases rest with
    | nil => cases value <;> simp [Except.map, Parsed.front, Front.after, pure, Except.pure]
    | cons t rest =>
      by_cases ht : t.kind.isSign
      · simp only [ht, if_true]
        rw [arguments_front t.kind _ ids rest, arguments_front t.kind _ ids rest, map_after]
        cases value <;> simp
      · cases value <;>
          simp [ht, Except.map, Parsed.front, Front.after, pure, Except.pure]
termination_by ts.length
decreasing_by all_goals exact le

theorem readArguments_eq (kind : Token.Kind) (ids : TermIds) (ts : List Token) :
    readArguments kind ids ts = (do
      let arg ← readArgument false ids ts
      match arg.rest with
      | [] => .ok ⟨signedArgument kind arg.value, arg.ids, []⟩
      | t :: rest =>
        if t.kind.isSign then
          (readArguments t.kind arg.ids rest).map (Front.after (signedArgument kind arg.value))
        else .ok ⟨signedArgument kind arg.value, arg.ids, t :: rest⟩) := by
  rw [readArguments, arguments.eq_def, readArgument]
  cases argument ts.length false ids ts (Nat.le_refl _) with
  | error r => rfl
  | ok arg =>
    obtain ⟨value, rest, ids, le⟩ := arg
    simp only [bind, Except.bind]
    cases rest with
    | nil => cases value <;> rfl
    | cons t rest =>
      by_cases ht : t.kind.isSign
      · simp only [ht, if_true]
        rw [arguments_front]
        cases value <;> simp [Except.map, Parsed.front, ht, signedArgument]
      · cases value <;>
          simp [ht, Except.map, Parsed.front, pure, Except.pure, signedArgument]

theorem readExpr_nil (min : Nat) (ids : TermIds) :
    readExpr min ids [] = .ok ⟨.noop, ids, []⟩ := by
  rw [readExpr, expression.eq_def]
  rfl

theorem readExpr_cons (min : Nat) (ids : TermIds) (t : Token) (ts : List Token) :
    readExpr min ids (t :: ts) =
      match t.kind with
      | .word => readOn min (.term (ids.issue t.text).1) (ids.issue t.text).2 ts
      | .prefixAnd | .prefixAndNot => do
        let args ← readArguments t.kind ids ts
        let rest ← readExpr t.kind.bindingPower args.ids args.rest
        readOn min (conjoin args.value rest.value) rest.ids rest.rest
      | .leftParen => .error ⟨t.offset, ids⟩
      | _ => readOn min .noop ids ts := by
  obtain ⟨kind, text, offset, length⟩ := t
  rw [readExpr, expression.eq_def]
  cases kind with
  | word => exact absorb_front min _ _ _ _
  | prefixAnd | prefixAndNot =>
    exact map_bind_front fun p => map_bind_front fun q => absorb_front min _ _ _ _
  | leftParen => rfl
  | _ => exact absorb_front min _ _ _ _

/-- Nothing is added to an expression that what follows does not bind to. -/
theorem readOn_of_stops {min : Nat} {left : Expr} {ids : TermIds} {ts : List Token}
    (h : ∀ t ∈ ts.head?, t.kind.bindingPower ≤ min) :
    readOn min left ids ts = .ok ⟨left, ids, ts⟩ := by
  cases ts with
  | nil => exact readOn_nil min left ids
  | cons t ts => rw [readOn_cons, if_neg (Nat.not_lt.2 (h t rfl))]

theorem readExpr_sign (min : Nat) (ids : TermIds) {t : Token} (ht : t.kind.isSign = true)
    (ts : List Token) : readExpr min ids (t :: ts) = (do
      let args ← readArguments t.kind ids ts
      let rest ← readExpr 50 args.ids args.rest
      readOn min (conjoin args.value rest.value) rest.ids rest.rest) := by
  obtain ⟨kind, text, offset, length⟩ := t
  rw [readExpr_cons]
  cases kind <;> first | rfl | cases ht

theorem readOn_sign {min : Nat} (left : Expr) (ids : TermIds) {t : Token}
    (hb : min < t.kind.bindingPower) (ht : t.kind.isSign = true) (ts : List Token) :
    readOn min left ids (t :: ts) = (do
      let arg ← readArgument false ids ts
      let rest ← readExpr 50 arg.ids arg.rest
      readOn min (applySign t.kind arg.value (left.extend rest.value)) rest.ids rest.rest) := by
  obtain ⟨kind, text, offset, length⟩ := t
  rw [readOn_cons, if_pos hb]
  cases kind <;> first | rfl | cases ht

theorem resume_nil (e : Expr) (ids : TermIds) (skipped : Array Nat) :
    resume e ids skipped [] = ⟨.ok e.wrap, ids, skipped.toList⟩ := by
  rw [resume.eq_def]

theorem resume_cons (e : Expr) (ids : TermIds) (skipped : Array Nat) (t : Token) (ts : List Token) :
    resume e ids skipped (t :: ts) =
      match t.kind with
      | .rightParen =>
        match readExpr 0 ids ts with
        | .error r => .refused r.offset r.ids (skipped.push t.offset).toList
        | .ok f => resume (e.extend f.value) f.ids (skipped.push t.offset) f.rest
      | .leftParen => .refused t.offset ids skipped.toList
      | _ => ⟨.ok e.wrap, ids, skipped.toList⟩ := by
  obtain ⟨kind, text, offset, length⟩ := t
  rw [resume.eq_def]
  cases kind with
  | rightParen =>
    simp only [readExpr]
    cases expression ts.length 0 ids ts (Nat.le_refl _) <;> rfl
  | _ => rfl

theorem parse_eq (ids : TermIds) (ts : List Token) :
    parse ids ts =
      match readExpr 0 ids (dropEnding ts) with
      | .error r => .refused r.offset r.ids []
      | .ok f => resume f.value f.ids #[] f.rest := by
  unfold parse readExpr
  dsimp only
  cases expression (dropEnding ts).length 0 ids (dropEnding ts) (Nat.le_refl _) <;> rfl

end SearchQuery.Parser

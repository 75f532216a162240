import SearchQuery.Expr.Connectives
import SearchQuery.Query.Error
import SearchQuery.Token

/-! The parser. An expression absorbs the tokens after it as long as they bind tighter than the
operator it is an operand of; the end of the tokens binds like a mark of the end, which never
does. Dangling operators and stray closing parentheses are let pass.

Every function below says how many tokens it can leave at most, which is why they all stop. -/

namespace SearchQuery

namespace Parser

structure Refusal where
  offset : Nat
  ids : TermIds
  deriving DecidableEq, Repr

/-- What was read from the front of some tokens, leaving at most `n`. -/
structure Parsed (α : Type) (n : Nat) where
  value : α
  rest : List Token
  ids : TermIds
  le : rest.length ≤ n

/-- The argument of a sign: the next word, negated if an odd number of minus signs stand
before it. Any other token that cannot be an argument is taken, and there is none. -/
def argument (n : Nat) (negated : Bool) (ids : TermIds) (ts : List Token) (h : ts.length ≤ n) :
    Except Refusal (Parsed (Option Expr) n) :=
  match ts, h with
  | [], h => .ok ⟨none, [], ids, h⟩
  | t :: ts, h =>
    have le : ts.length ≤ n := Nat.le_of_succ_le h
    match t.kind with
    | .word =>
      let (term, ids) := ids.issue t.text
      let arg := Expr.term term
      .ok ⟨some (if negated then arg.not else arg), ts, ids, le⟩
    | .prefixAnd => argument n negated ids ts le
    | .prefixAndNot => argument n (!negated) ids ts le
    | .leftParen => .error ⟨t.offset, ids⟩
    | .rightParen | .infixAnd | .infixOr | .eof => .ok ⟨none, ts, ids, le⟩

def signed (kind : Token.Kind) (arg : Expr) : Expr :=
  if kind = .prefixAndNot then arg.not else arg

def arguments (n : Nat) (kind : Token.Kind) (done : Array Expr) (ids : TermIds) (ts : List Token)
    (h : ts.length ≤ n) : Except Refusal (Parsed (List Expr) n) := do
  let arg ← argument ts.length false ids ts (Nat.le_refl _)
  let done := match arg.value with
    | some a => done.push (signed kind a)
    | none => done
  match arg with
  | ⟨_, [], ids, _⟩ => return ⟨done.toList, [], ids, Nat.zero_le _⟩
  | ⟨_, t :: rest, ids, le⟩ =>
    if t.kind.isSign then
      arguments n t.kind done ids rest (Nat.le_trans (Nat.le_of_succ_le le) h)
    else return ⟨done.toList, t :: rest, ids, Nat.le_trans le h⟩
termination_by ts.length
decreasing_by exact le

def conjoin (args : List Expr) (rest : Expr) : Expr :=
  if args.isEmpty then rest else (Expr.compound .and args).and rest.wrap

def applySign (kind : Token.Kind) (arg : Option Expr) (around : Expr) : Expr :=
  match arg with
  | some a => (signed kind a).and around.wrap
  | none => around

def joinRight (join : Expr → Expr → Expr) (left right : Expr) : Expr :=
  -- an operator without a right operand is let pass
  if right.isNoop then left else join left right

mutual

/-- An expression whose tokens bind tighter than `min`. -/
def expression (n min : Nat) (ids : TermIds) (ts : List Token) (h : ts.length ≤ n) :
    Except Refusal (Parsed Expr n) :=
  match ts, h with
  | [], h => .ok ⟨.noop, [], ids, h⟩
  | t :: ts, h =>
    have le : ts.length ≤ n := Nat.le_of_succ_le h
    match t.kind with
    | .word =>
      let (term, ids) := ids.issue t.text
      absorb n min (.term term) ids ts le
    | .prefixAnd | .prefixAndNot => do
      let args ← arguments ts.length t.kind #[] ids ts (Nat.le_refl _)
      let rest ← expression args.rest.length t.kind.bindingPower args.ids args.rest (Nat.le_refl _)
      absorb n min (conjoin args.value rest.value) rest.ids rest.rest
        (Nat.le_trans rest.le (Nat.le_trans args.le le))
    | .leftParen => .error ⟨t.offset, ids⟩
    | .rightParen | .infixAnd | .infixOr | .eof => absorb n min .noop ids ts le
termination_by ts.length
decreasing_by
  · exact Nat.lt_succ_self _
  · exact Nat.lt_succ_of_le args.le
  · exact Nat.lt_succ_of_le (Nat.le_trans rest.le args.le)
  · exact Nat.lt_succ_self _

def absorb (n min : Nat) (left : Expr) (ids : TermIds) (ts : List Token) (h : ts.length ≤ n) :
    Except Refusal (Parsed Expr n) :=
  match ts, h with
  | [], h => .ok ⟨left, [], ids, h⟩
  | t :: ts, h =>
    have le : ts.length ≤ n := Nat.le_of_succ_le h
    if min < t.kind.bindingPower then
      match t.kind with
      | .word =>
        let (term, ids) := ids.issue t.text
        absorb n min (left.appendTerm term) ids ts le
      | .infixAnd => do
        let right ← expression ts.length t.kind.bindingPower ids ts (Nat.le_refl _)
        absorb n min (joinRight Expr.and left right.value) right.ids right.rest
          (Nat.le_trans right.le le)
      | .infixOr => do
        let right ← expression ts.length t.kind.bindingPower ids ts (Nat.le_refl _)
        absorb n min (joinRight Expr.or left right.value) right.ids right.rest
          (Nat.le_trans right.le le)
      | .prefixAnd | .prefixAndNot => do
        let arg ← argument ts.length false ids ts (Nat.le_refl _)
        let rest ← expression arg.rest.length t.kind.bindingPower arg.ids arg.rest (Nat.le_refl _)
        absorb n min (applySign t.kind arg.value (left.extend rest.value)) rest.ids rest.rest
          (Nat.le_trans rest.le (Nat.le_trans arg.le le))
      | .leftParen | .rightParen | .eof => .ok ⟨left, t :: ts, ids, h⟩
    else .ok ⟨left, t :: ts, ids, h⟩
termination_by ts.length
decreasing_by
  · exact Nat.lt_succ_self _
  · exact Nat.lt_succ_self _
  · exact Nat.lt_succ_of_le right.le
  · exact Nat.lt_succ_self _
  · exact Nat.lt_succ_of_le right.le
  · exact Nat.lt_succ_of_le arg.le
  · exact Nat.lt_succ_of_le (Nat.le_trans rest.le arg.le)

end

/-- What a parse comes to. Also a refused query has used numbers and skipped parentheses. -/
structure Outcome where
  result : Except ParseError Expr
  ids : TermIds
  /-- Offsets of the closing parentheses that were skipped. -/
  skipped : List Nat

def Outcome.refused (offset : Nat) (ids : TermIds) (skipped : List Nat) : Outcome :=
  ⟨.error (.unsupported .grouping offset), ids, skipped⟩

def resume (e : Expr) (ids : TermIds) (skipped : Array Nat) (ts : List Token) : Outcome :=
  match ts with
  | [] => ⟨.ok e.wrap, ids, skipped.toList⟩
  | t :: ts =>
    match t.kind with
    | .rightParen =>
      -- a stray parenthesis: the query goes on as if it were not there
      let skipped := skipped.push t.offset
      match expression ts.length 0 ids ts (Nat.le_refl _) with
      | .error r => .refused r.offset r.ids skipped.toList
      | .ok p => resume (e.extend p.value) p.ids skipped p.rest
    | .leftParen => .refused t.offset ids skipped.toList
    | _ => ⟨.ok e.wrap, ids, skipped.toList⟩
termination_by ts.length
decreasing_by exact Nat.lt_succ_of_le p.le

def dropEnding (ts : List Token) : List Token :=
  if ts.getLast?.any (·.kind == .eof) then ts.dropLast else ts

/-- Parses tokens, with or without a mark of the end behind them. A run of words that makes up
a whole query comes back boosted. -/
def parse (ids : TermIds) (ts : List Token) : Outcome :=
  let ts := dropEnding ts
  match expression ts.length 0 ids ts (Nat.le_refl _) with
  | .error r => .refused r.offset r.ids []
  | .ok p => resume p.value p.ids #[] p.rest

end Parser
end SearchQuery

import SearchQuery.Proofs.Parser.Derivation

/-! The parser with its resources in the open: it walks over an array of tokens that a mark of the end
closes, may take only so many rounds in each loop, and may have only so many calls for an expression open at
one time. Five calls and a round for each token are enough for any tokens, and then it is the parser.

Calls for an expression are nested by strength: behind an infix operator the next one is for what binds
tighter, behind a sign for words, and only where further signs come first there is one more. -/

namespace SearchQuery.Parser

namespace Limited

/-- Why the walk ends early. -/
inductive Halt where
  /-- All calls are in use. -/
  | tooDeep
  /-- All rounds of a loop are used up. -/
  | tooLong
  /-- The position has no token. -/
  | outside
  | refused (r : Refusal)
  deriving DecidableEq

/-- What was read, and the position reached. -/
structure Progress (α : Type) where
  value : α
  ids : TermIds
  position : Nat

def peek (tokens : Array Token) (position : Nat) : Except Halt Token :=
  match tokens[position]? with
  | some t => .ok t
  | none => .error .outside

/-- The next position; the last one has none. -/
def advance (tokens : Array Token) (position : Nat) : Nat :=
  if position + 1 < tokens.size then position + 1 else position

def argument (tokens : Array Token) (rounds : Nat) (negated : Bool) (ids : TermIds) (position : Nat) :
    Except Halt (Progress (Option Expr)) :=
  match rounds with
  | 0 => .error .tooLong
  | rounds + 1 => do
    let t ← peek tokens position
    let next := advance tokens position
    match t.kind with
    | .word =>
      let arg := Expr.term (ids.issue t.text).1
      return ⟨some (if negated then arg.not else arg), (ids.issue t.text).2, next⟩
    | .prefixAnd => argument tokens rounds negated ids next
    | .prefixAndNot => argument tokens rounds (!negated) ids next
    | .leftParen => .error (.refused ⟨t.offset, ids⟩)
    | .rightParen | .infixAnd | .infixOr | .eof => return ⟨none, ids, next⟩

def arguments (tokens : Array Token) (rounds : Nat) (kind : Token.Kind) (done : List Expr) (ids : TermIds)
    (position : Nat) : Except Halt (Progress (List Expr)) :=
  match rounds with
  | 0 => .error .tooLong
  | rounds + 1 => do
    let arg ← argument tokens tokens.size false ids position
    let t ← peek tokens arg.position
    let done := done ++ signedArgument kind arg.value
    if t.kind.isSign then arguments tokens rounds t.kind done arg.ids (advance tokens arg.position)
    else return ⟨done, arg.ids, arg.position⟩

/-- Goes on with `left`; `call` is a call for an expression. -/
def absorb (tokens : Array Token) (call : Nat → TermIds → Nat → Except Halt (Progress Expr)) (min : Nat)
    (rounds : Nat) (left : Expr) (ids : TermIds) (position : Nat) : Except Halt (Progress Expr) :=
  match rounds with
  | 0 => .error .tooLong
  | rounds + 1 => do
    let t ← peek tokens position
    if min < t.kind.bindingPower then
      let next := advance tokens position
      match t.kind with
      | .word => absorb tokens call min rounds (left.appendTerm (ids.issue t.text).1) (ids.issue t.text).2 next
      | .infixAnd => do
        let right ← call t.kind.bindingPower ids next
        absorb tokens call min rounds (joinRight Expr.and left right.value) right.ids right.position
      | .infixOr => do
        let right ← call t.kind.bindingPower ids next
        absorb tokens call min rounds (joinRight Expr.or left right.value) right.ids right.position
      | .prefixAnd | .prefixAndNot => do
        let arg ← argument tokens tokens.size false ids next
        let rest ← call t.kind.bindingPower arg.ids arg.position
        absorb tokens call min rounds (applySign t.kind arg.value (left.extend rest.value)) rest.ids
          rest.position
      | .leftParen | .rightParen | .eof => absorb tokens call min rounds left ids next
    else return ⟨left, ids, position⟩

/-- An expression, for which `calls` calls may be open at one time. -/
def expression (tokens : Array Token) (calls : Nat) (min : Nat) (ids : TermIds) (position : Nat) :
    Except Halt (Progress Expr) :=
  match calls with
  | 0 => .error .tooDeep
  | calls + 1 => do
    let t ← peek tokens position
    let next := advance tokens position
    match t.kind with
    | .word =>
      absorb tokens (expression tokens calls) min tokens.size (.term (ids.issue t.text).1)
        (ids.issue t.text).2 next
    | .prefixAnd | .prefixAndNot => do
      let args ← arguments tokens tokens.size t.kind [] ids next
      let rest ← expression tokens calls t.kind.bindingPower args.ids args.position
      absorb tokens (expression tokens calls) min tokens.size (conjoin args.value rest.value) rest.ids
        rest.position
    | .leftParen => .error (.refused ⟨t.offset, ids⟩)
    | .rightParen | .infixAnd | .infixOr | .eof =>
      absorb tokens (expression tokens calls) min tokens.size .noop ids next

/-- A refusal is an outcome of the query; a limit is not. -/
def Halt.outcome (skipped : List Nat) : Halt → Except Halt Outcome
  | .refused r => .ok (.refused r.offset r.ids skipped)
  | halt => .error halt

def resume (tokens : Array Token) (calls : Nat) (rounds : Nat) (e : Expr) (ids : TermIds)
    (skipped : Array Nat) (position : Nat) : Except Halt Outcome :=
  match rounds with
  | 0 => .error .tooLong
  | rounds + 1 => do
    let t ← peek tokens position
    match t.kind with
    | .rightParen =>
      let skipped := skipped.push t.offset
      match expression tokens calls 0 ids (advance tokens position) with
      | .error halt => halt.outcome skipped.toList
      | .ok p => resume tokens calls rounds (e.extend p.value) p.ids skipped p.position
    | .leftParen => return .refused t.offset ids skipped.toList
    | _ => return ⟨.ok e.wrap, ids, skipped.toList⟩

/-- The tokens with a mark of the end behind them, if they have none there. -/
def closed (ts : List Token) : List Token :=
  match ts.getLast? with
  | none => [Token.ending 0]
  | some t => if t.kind = .eof then ts else ts ++ [Token.ending (t.offset + t.length)]

def parse (calls : Nat) (ids : TermIds) (ts : List Token) : Except Halt Outcome :=
  let tokens := (closed ts).toArray
  match expression tokens calls 0 ids 0 with
  | .error halt => halt.outcome []
  | .ok p => resume tokens calls tokens.size p.value p.ids #[] p.position

/-- The position with these tokens in front of it, up to the mark of the end. -/
def Stands (tokens : Array Token) (rest : List Token) (position : Nat) : Prop :=
  ∃ taken mark, mark.kind = .eof ∧ tokens = (taken ++ rest ++ [mark]).toArray ∧ position = taken.length

/-- The same value and numbers, at the position that has the tokens left in front of it. -/
inductive Reaches {α : Type} (tokens : Array Token) : Progress α → Front α → Prop
  | stands (value : α) (ids : TermIds) (rest : List Token) (position : Nat)
      (h : Stands tokens rest position) : Reaches tokens ⟨value, ids, position⟩ ⟨value, ids, rest⟩

/-- The walk reads what the parser reads from the tokens in front of it. -/
abbrev Follows {α : Type} (tokens : Array Token) :
    Except Halt (Progress α) → Except Refusal (Front α) → Prop :=
  Together (fun halt r => halt = .refused r) (Reaches tokens)

variable {α : Type} {tokens : Array Token} {t : Token} {ts : List Token} {position rounds : Nat}

theorem ok_bind {ε β : Type} (a : α) (k : α → Except ε β) : (Except.ok a >>= k) = k a := rfl

theorem Stands.size_eq (h : Stands tokens ts position) : tokens.size = position + ts.length + 1 := by
  obtain ⟨taken, mark, -, rfl, rfl⟩ := h
  simp [Nat.add_assoc]

theorem Stands.length_lt (h : Stands tokens ts position) : ts.length < tokens.size := by
  rw [h.size_eq]
  omega

theorem Stands.peek_cons (h : Stands tokens (t :: ts) position) : peek tokens position = .ok t := by
  obtain ⟨taken, mark, -, rfl, rfl⟩ := h
  simp [peek]

theorem Stands.peek_nil (h : Stands tokens [] position) :
    ∃ mark, mark.kind = .eof ∧ peek tokens position = .ok mark := by
  obtain ⟨taken, mark, hmark, rfl, rfl⟩ := h
  exact ⟨mark, hmark, by simp [peek]⟩

theorem Stands.advance_cons (h : Stands tokens (t :: ts) position) :
    Stands tokens ts (advance tokens position) := by
  have hsize := h.size_eq
  obtain ⟨taken, mark, hmark, rfl, rfl⟩ := h
  refine ⟨taken ++ [t], mark, hmark, by simp, ?_⟩
  rw [advance, if_pos (by rw [hsize, List.length_cons]; omega), List.length_append, List.length_singleton]

theorem Stands.advance_nil (h : Stands tokens [] position) : advance tokens position = position := by
  rw [advance, if_neg (by rw [h.size_eq, List.length_nil]; omega)]

theorem follows_argument (h : Stands tokens ts position) (hrounds : ts.length < rounds) (negated : Bool)
    (ids : TermIds) : Follows tokens (argument tokens rounds negated ids position)
      (readArgument negated ids ts) := by
  induction rounds generalizing ts negated position with
  | zero => cases hrounds
  | succ rounds ih =>
    cases ts with
    | nil =>
      obtain ⟨mark, hmark, hpeek⟩ := h.peek_nil
      rw [argument, hpeek, h.advance_nil]
      simp only [ok_bind, hmark]
      exact .done (.stands _ _ _ _ h)
    | cons t ts =>
      have hnext := h.advance_cons
      have hts : ts.length < rounds := Nat.lt_of_succ_lt_succ hrounds
      rw [argument, h.peek_cons, readArgument_cons]
      simp only [ok_bind]
      cases t.kind with
      | prefixAnd | prefixAndNot => exact ih hnext hts _
      | leftParen => exact .failed rfl
      | _ => exact .done (.stands _ _ _ _ hnext)

theorem map_bind_eq {γ δ : Type} (x : Except Refusal γ) (k : γ → Except Refusal (Front (List Expr)))
    (f : Front (List Expr) → δ) : (x >>= k).map f = x >>= fun a => (k a).map f := by
  cases x <;> rfl

theorem map_after_nil (x : Except Refusal (Front (List Expr))) : x.map (Front.after []) = x := by
  cases x <;> rfl

theorem follows_arguments (h : Stands tokens ts position) (hrounds : ts.length < rounds)
    (kind : Token.Kind) (done : List Expr) (ids : TermIds) :
    Follows tokens (arguments tokens rounds kind done ids position)
      ((readArguments kind ids ts).map (Front.after done)) := by
  induction rounds generalizing ts kind done ids position with
  | zero => cases hrounds
  | succ rounds ih =>
    rw [arguments, readArguments_eq, map_bind_eq]
    refine (follows_argument h h.length_lt false ids).bind ?_
    rintro _ _ - harg ⟨value, ids', rest, position, hrest⟩
    have hle : rest.length ≤ ts.length := (readArgument_takes harg).length_le
    cases rest with
    | nil =>
      obtain ⟨mark, hmark, hpeek⟩ := hrest.peek_nil
      simp only [hpeek, ok_bind, hmark]
      exact .done (.stands _ _ _ _ hrest)
    | cons t rest =>
      simp only [hrest.peek_cons, ok_bind]
      split_ifs
      · rw [map_after]
        exact ih hrest.advance_cons (Nat.lt_of_lt_of_le hle (Nat.le_of_lt_succ hrounds)) _ _ _
      · exact .done (.stands _ _ _ _ hrest)

/-- Calls that may be open at one time for an expression whose tokens bind tighter than `min`, its own call
counted: one for each strength above `min` that an operand can be read at, and at the strength of a sign one
more for what comes behind a row of signs. -/
def needed (min : Nat) (ts : List Token) : Nat :=
  if min < 10 then 5
  else if min < 20 then 4
  else if min < 50 then 3
  else if ts.head?.any (·.kind.isSign) then 2
  else 1

theorem needed_le (min : Nat) (ts : List Token) : needed min ts ≤ 5 := by
  unfold needed
  split_ifs <;> decide

theorem needed_pos (min : Nat) (ts : List Token) : 1 ≤ needed min ts := by
  unfold needed
  split_ifs <;> decide

theorem two_le_needed (min : Nat) (ht : t.kind.isSign = true) : 2 ≤ needed min (t :: ts) := by
  unfold needed
  split_ifs with _ _ _ hsign
  · decide
  · decide
  · decide
  · decide
  · exact absurd ht hsign

theorem needed_of_unsigned (h : ∀ t ∈ ts.head?, t.kind.isSign = false) : needed 50 ts = 1 := by
  cases ts with
  | nil => rfl
  | cons t ts => simp [needed, h t rfl]

/-- What binds is an operand of fewer calls. -/
theorem needed_lt {min : Nat} (hb : min < t.kind.bindingPower) (ht : t.kind ≠ .word) (us : List Token) :
    needed t.kind.bindingPower us < needed min ts := by
  unfold needed
  cases hk : t.kind <;> rw [hk] at hb ht
  case word => exact absurd rfl ht
  all_goals simp [Token.Kind.bindingPower] at hb ⊢
  all_goals split_ifs <;> omega

theorem follows_absorb {call : Nat → TermIds → Nat → Except Halt (Progress Expr)} {min : Nat}
    (hcall : ∀ t : Token, min < t.kind.bindingPower → t.kind ≠ .word → ∀ ids rest position,
      Stands tokens rest position → Follows tokens (call t.kind.bindingPower ids position)
        (readExpr t.kind.bindingPower ids rest))
    (h : Stands tokens ts position) (hrounds : ts.length < rounds) (left : Expr) (ids : TermIds) :
    Follows tokens (absorb tokens call min rounds left ids position) (readOn min left ids ts) := by
  induction rounds generalizing ts left ids position with
  | zero => cases hrounds
  | succ rounds ih =>
    cases ts with
    | nil =>
      obtain ⟨mark, hmark, hpeek⟩ := h.peek_nil
      rw [absorb, hpeek, readOn_nil]
      simp only [ok_bind, hmark]
      exact .done (.stands _ _ _ _ h)
    | cons t ts =>
      have hnext := h.advance_cons
      have hts : ts.length < rounds := Nat.lt_of_succ_lt_succ hrounds
      rw [absorb, h.peek_cons, readOn_cons, ok_bind]
      by_cases hb : min < t.kind.bindingPower
      · rw [if_pos hb, if_pos hb]
        have hcall := hcall t hb
        cases ht : t.kind <;> rw [ht] at hb hcall
        case word => exact ih hnext hts _ _
        case infixAnd | infixOr =>
          refine (hcall nofun ids ts _ hnext).bind ?_
          rintro _ _ - hright ⟨right, ids', rest, position, hrest⟩
          have hle : rest.length ≤ ts.length := (reads_of_readExpr hright).takes.length_le
          exact ih hrest (Nat.lt_of_le_of_lt hle hts) _ _
        case prefixAnd | prefixAndNot =>
          refine (follows_argument hnext hnext.length_lt false ids).bind ?_
          rintro _ _ - harg ⟨arg, ids', rest, position, hrest⟩
          have hle : rest.length ≤ ts.length := (readArgument_takes harg).length_le
          refine (hcall nofun ids' rest _ hrest).bind ?_
          rintro _ _ - hlast ⟨value, ids'', last, position, hend⟩
          have hle' : last.length ≤ rest.length := (reads_of_readExpr hlast).takes.length_le
          exact ih hend (by omega) _ _
        all_goals exact absurd hb (Nat.not_lt_zero min)
      · rw [if_neg hb, if_neg hb]
        exact .done (.stands _ _ _ _ h)

theorem follows_expression {calls min : Nat} (hcalls : needed min ts ≤ calls)
    (h : Stands tokens ts position) (ids : TermIds) :
    Follows tokens (expression tokens calls min ids position) (readExpr min ids ts) := by
  induction calls generalizing min ts ids position with
  | zero => exact absurd (Nat.le_trans (needed_pos min ts) hcalls) (by decide)
  | succ calls ih =>
    -- what the loop calls for binds tighter, so that the calls left are enough for it
    have habsorb {us : List Token} {place : Nat} (hplace : Stands tokens us place) (left : Expr)
        (ids : TermIds) : Follows tokens (absorb tokens (expression tokens calls) min tokens.size left ids place)
          (readOn min left ids us) := by
      refine follows_absorb (fun t hb ht ids rest place hrest => ih ?_ hrest ids) hplace hplace.length_lt left ids
      exact Nat.le_of_lt_succ (Nat.lt_of_lt_of_le (needed_lt hb ht rest) hcalls)
    cases ts with
    | nil =>
      obtain ⟨mark, hmark, hpeek⟩ := h.peek_nil
      rw [expression, hpeek, h.advance_nil, readExpr_nil, ← readOn_nil min]
      simp only [ok_bind, hmark]
      exact habsorb h _ _
    | cons t ts =>
      have hnext := h.advance_cons
      rw [expression, h.peek_cons, readExpr_cons]
      simp only [ok_bind]
      cases ht : t.kind with
      | word => exact habsorb hnext _ _
      | prefixAnd | prefixAndNot =>
        have hsign : t.kind.isSign = true := by rw [ht]; rfl
        have htwo := Nat.le_trans (two_le_needed min hsign) hcalls
        have hargs := follows_arguments hnext hnext.length_lt t.kind [] ids
        rw [map_after_nil, ht] at hargs
        refine hargs.bind ?_
        rintro _ _ - hread ⟨args, ids', rest, place, hrest⟩
        have hone : needed 50 rest = 1 := needed_of_unsigned (readsArguments_of_ok hread).ends
        have hlast : Follows tokens (expression tokens calls 50 ids' place) (readExpr 50 ids' rest) :=
          ih (by omega) hrest ids'
        refine hlast.bind ?_
        rintro _ _ - - ⟨value, ids'', last, place, hend⟩
        exact habsorb hend _ _
      | leftParen => exact .failed rfl
      | _ => exact habsorb hnext _ _

theorem resume_eq {calls : Nat} (hcalls : 5 ≤ calls) (h : Stands tokens ts position)
    (hrounds : ts.length < rounds) (e : Expr) (ids : TermIds) (skipped : Array Nat) :
    resume tokens calls rounds e ids skipped position = .ok (Parser.resume e ids skipped ts) := by
  induction rounds generalizing ts e ids skipped position with
  | zero => cases hrounds
  | succ rounds ih =>
    cases ts with
    | nil =>
      obtain ⟨mark, hmark, hpeek⟩ := h.peek_nil
      rw [resume, hpeek, resume_nil]
      simp only [ok_bind, hmark]
      rfl
    | cons t ts =>
      have hnext := h.advance_cons
      rw [resume, h.peek_cons, resume_cons, ok_bind]
      cases t.kind with
      | rightParen =>
        rcases (follows_expression (Nat.le_trans (needed_le 0 ts) hcalls) hnext ids).dichotomy with
          ⟨_, r, hx, hy, rfl⟩ | ⟨_, _, hx, hy, ⟨value, ids', rest, place, hrest⟩⟩ <;> simp only [hx, hy]
        · rfl
        · have hle : rest.length ≤ ts.length := (reads_of_readExpr hy).takes.length_le
          exact ih hrest (Nat.lt_of_le_of_lt hle (Nat.lt_of_succ_lt_succ hrounds)) _ _ _
      | _ => rfl

theorem closed_eq (ts : List Token) :
    ∃ mark, mark.kind = .eof ∧ closed ts = dropEnding ts ++ [mark] := by
  rcases List.eq_nil_or_concat' ts with rfl | ⟨us, t, rfl⟩
  · exact ⟨Token.ending 0, rfl, rfl⟩
  · by_cases ht : t.kind = .eof
    · exact ⟨t, ht, by simp [closed, dropEnding, ht]⟩
    · exact ⟨Token.ending (t.offset + t.length), rfl, by simp [closed, dropEnding, ht]⟩

theorem stands_zero (ts : List Token) : Stands (closed ts).toArray (dropEnding ts) 0 := by
  obtain ⟨mark, hmark, hclosed⟩ := closed_eq ts
  exact ⟨[], mark, hmark, by rw [hclosed, List.nil_append], rfl⟩

theorem exists_stands (h : position < (closed ts).length) :
    ∃ rest, Stands (closed ts).toArray rest position := by
  obtain ⟨mark, hmark, hclosed⟩ := closed_eq ts
  rw [hclosed, List.length_append, List.length_singleton] at h
  refine ⟨(dropEnding ts).drop position, (dropEnding ts).take position, mark, hmark, ?_, ?_⟩
  · rw [List.take_append_drop, hclosed]
  · rw [List.length_take]
    omega

theorem parse_eq {calls : Nat} (hcalls : 5 ≤ calls) (ids : TermIds) (ts : List Token) :
    parse calls ids ts = .ok (Parser.parse ids ts) := by
  have hstart := stands_zero ts
  rw [parse, Parser.parse_eq]
  rcases (follows_expression (Nat.le_trans (needed_le 0 _) hcalls) hstart ids).dichotomy with
    ⟨_, r, hx, hy, rfl⟩ | ⟨_, _, hx, hy, ⟨value, ids', rest, place, hrest⟩⟩ <;> simp only [hx, hy]
  · rfl
  · have hle : rest.length ≤ (dropEnding ts).length := (reads_of_readExpr hy).takes.length_le
    exact resume_eq hcalls hrest (Nat.lt_of_le_of_lt hle hstart.length_lt) value ids' #[]

/-- Five calls open at one time, a round in each loop for each token and the positions of the tokens are
enough for any query, and from any place in it at any strength. -/
theorem five_calls (ids : TermIds) (ts : List Token) :
    parse 5 ids ts = .ok (Parser.parse ids ts) ∧
    ∀ min, ∀ position < (closed ts).length,
      (∃ r, expression (closed ts).toArray 5 min ids position = .error (.refused r)) ∨
      ∃ p, expression (closed ts).toArray 5 min ids position = .ok p ∧ p.position < (closed ts).length := by
  refine ⟨parse_eq (Nat.le_refl 5) ids ts, fun min position hposition => ?_⟩
  obtain ⟨rest, hrest⟩ := exists_stands hposition
  rcases (follows_expression (needed_le min rest) hrest ids).dichotomy with
    ⟨_, r, hx, -, rfl⟩ | ⟨_, _, hx, -, ⟨value, ids', last, place, hlast⟩⟩
  · exact .inl ⟨r, hx⟩
  · have hsize := hlast.size_eq
    rw [List.size_toArray] at hsize
    exact .inr ⟨_, hx, by show place < _; omega⟩

/-- The sign in `a +` calls for an expression at the mark of the end, and the walk stays there. -/
theorem five_calls_at_mark :
    parse 5 ⟨0⟩ [⟨.word, "a", 0, 1⟩, ⟨.prefixAnd, "+", 2, 1⟩] =
        .ok (Parser.parse ⟨0⟩ [⟨.word, "a", 0, 1⟩, ⟨.prefixAnd, "+", 2, 1⟩]) ∧
      ∃ p, expression (closed [⟨.word, "a", 0, 1⟩, ⟨.prefixAnd, "+", 2, 1⟩]).toArray 5 50 ⟨1⟩ 2 = .ok p ∧
        p.position < 3 := by
  have hmark : (2 : Nat) < (closed [⟨.word, "a", 0, 1⟩, ⟨.prefixAnd, "+", 2, 1⟩]).length := by decide
  refine ⟨(five_calls ⟨0⟩ _).1, ?_⟩
  rcases (five_calls ⟨1⟩ _).2 50 2 hmark with ⟨r, hrefused⟩ | hread
  · have hread : expression (closed [⟨.word, "a", 0, 1⟩, ⟨.prefixAnd, "+", 2, 1⟩]).toArray 5 50 ⟨1⟩ 2 =
        .ok ⟨.noop, ⟨1⟩, 2⟩ := rfl
    rw [hread] at hrefused
    cases hrefused
  · exact hread

/-- Four calls are too few for `a AND b OR c +d -e`. -/
example : parse 4 ⟨0⟩ [⟨.word, "a", 0, 1⟩, ⟨.infixAnd, "AND", 2, 3⟩, ⟨.word, "b", 6, 1⟩,
    ⟨.infixOr, "OR", 8, 2⟩, ⟨.word, "c", 11, 1⟩, ⟨.prefixAnd, "+", 13, 1⟩, ⟨.word, "d", 14, 1⟩,
    ⟨.prefixAndNot, "-", 16, 1⟩, ⟨.word, "e", 17, 1⟩] = .error .tooDeep := by
  rfl

end Limited

end SearchQuery.Parser

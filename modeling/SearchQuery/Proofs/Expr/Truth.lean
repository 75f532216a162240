import SearchQuery.Proofs.Expr.WellFormed

/-! What an expression says about a document that has some of the terms. A conjunction wants all its
children and a negation the contrary of its child; a run, a disjunction and a group that is boosted
want one of theirs. The connectives have these truth tables only up to the empty expression, which is
false by itself and says nothing in a conjunction. -/

namespace SearchQuery.Expr

mutual

def holds (v : Term → Bool) : Expr → Bool
  | .run ts => ts.any v
  | .node .and cs => allHold v cs
  | .node .not cs => !someHolds v cs
  | .node _ cs => someHolds v cs

def allHold (v : Term → Bool) : List Expr → Bool
  | [] => true
  | c :: cs => holds v c && allHold v cs

def someHolds (v : Term → Bool) : List Expr → Bool
  | [] => false
  | c :: cs => holds v c || someHolds v cs

end

variable {v : Term → Bool} {e l r : Expr}

theorem allHold_eq (v : Term → Bool) (cs : List Expr) : allHold v cs = cs.all (holds v) := by
  induction cs with
  | nil => rfl
  | cons c cs ih => rw [allHold, ih, List.all_cons]

theorem someHolds_eq (v : Term → Bool) (cs : List Expr) : someHolds v cs = cs.any (holds v) := by
  induction cs with
  | nil => rfl
  | cons c cs ih => rw [someHolds, ih, List.any_cons]

theorem holds_run (v : Term → Bool) (ts : List Term) : holds v (.run ts) = ts.any v := by
  rw [holds]

theorem holds_and_node (v : Term → Bool) (cs : List Expr) :
    holds v (.node .and cs) = cs.all (holds v) := by
  rw [holds, allHold_eq]

theorem holds_or_node (v : Term → Bool) (cs : List Expr) :
    holds v (.node .or cs) = cs.any (holds v) := by
  rw [holds, someHolds_eq] <;> decide

theorem holds_boost_node (v : Term → Bool) (cs : List Expr) :
    holds v (.node .boost cs) = cs.any (holds v) := by
  rw [holds, someHolds_eq] <;> decide

theorem holds_noop (v : Term → Bool) : holds v noop = false := rfl

theorem holds_wrap (v : Term → Bool) (e : Expr) : holds v e.wrap = holds v e := by
  cases e with
  | run ts => simp [wrap, holds_boost_node]
  | node op cs => rfl

theorem isNoop_wrap (e : Expr) : e.wrap.isNoop = e.isNoop := by
  cases e <;> rfl

theorem WellFormed.holds_of_isNoop (h : WellFormed e) (hn : e.isNoop = true) (v : Term → Bool) :
    holds v e = false := by
  rw [h.eq_noop hn, holds_noop]

/-- As an operand of a conjunction an expression says what it says, or nothing. -/
theorem all_parts (h : WellFormed e) (v : Term → Bool) :
    (parts .and e).all (holds v) = (e.isNoop || holds v e) := by
  by_cases he : e.operator = .and
  · rw [parts_of_eq he, isNoop_eq_false he (by decide), Bool.false_or]
    cases e with
    | run ts => cases he
    | node op cs =>
      obtain rfl : op = .and := he
      exact (holds_and_node v cs).symm
  · by_cases hn : e.isNoop = true
    · rw [parts_of_isNoop (by decide) hn, hn]
      rfl
    · rw [Bool.not_eq_true] at hn
      rw [parts_of_ne he hn, hn]
      simp

theorem any_parts (h : WellFormed e) (v : Term → Bool) :
    (parts .or e).any (holds v) = holds v e := by
  by_cases he : e.operator = .or
  · rw [parts_of_eq he]
    cases e with
    | run ts => cases he
    | node op cs =>
      obtain rfl : op = .or := he
      exact (holds_or_node v cs).symm
  · by_cases hn : e.isNoop = true
    · rw [parts_of_isNoop (by decide) hn, h.holds_of_isNoop hn]
      rfl
    · rw [Bool.not_eq_true] at hn
      rw [parts_of_ne he hn]
      simp

theorem holds_or (hl : WellFormed l) (hr : WellFormed r) (v : Term → Bool) :
    holds v (l.or r) = (holds v l || holds v r) := by
  rw [Expr.or, combine_eq (.inr rfl) hl hr]
  by_cases hcs : parts .or l ++ parts .or r = []
  · have hempty := List.append_eq_nil_iff.1 hcs
    rw [hcs, ← any_parts hl, ← any_parts hr, hempty.1, hempty.2]
    rfl
  · rw [node?_of_ne_nil hcs, holds_or_node, List.any_append, any_parts hl, any_parts hr]

theorem holds_and (hl : WellFormed l) (hr : WellFormed r) (hn : l.isNoop = false)
    (v : Term → Bool) : holds v (l.and r) = (holds v l && (r.isNoop || holds v r)) := by
  rw [and_eq hl hr hn, holds_and_node, List.all_append, all_parts hl, all_parts hr, hn,
    Bool.false_or]

/-- Behind words alone anything that follows is an alternative to them. -/
theorem holds_extend_run {ts : List Term} (hts : ts ≠ []) (hr : WellFormed r) (v : Term → Bool) :
    holds v ((Expr.run ts).extend r) = (ts.any v || holds v r) := by
  unfold extend
  by_cases hn : r.isNoop = true
  · rw [if_pos hn, hr.holds_of_isNoop hn, Bool.or_false, holds_run]
  · rw [if_neg hn]
    show holds v (if r.isRun then _ else _) = _
    split_ifs
    · simp [holds_boost_node, holds_run]
    · rw [holds_or (.run hts) hr, holds_run]

theorem isNoop_extend_run {ts : List Term} (hts : ts ≠ []) (hr : WellFormed r) :
    ((Expr.run ts).extend r).isNoop = false := by
  rcases extend_cases (.run ts) r with ⟨-, h⟩ | ⟨hn, -⟩ | ⟨op, hop, h⟩ | ⟨-, -, h⟩
  · rw [h]
    rfl
  · cases hn
  · rw [h, combine_eq hop (.run hts) hr, node?_of_ne_nil]
    · exact isNoop_eq_false rfl hop.ne_noop
    · simp [WellFormed.parts_ne_nil hop (.run hts) rfl]
  · rw [h]
    rfl

/-- Behind a conjunction anything that follows joins it. -/
theorem extend_of_and (he : l.operator = .and) : l.extend r = l.and r := by
  unfold extend
  by_cases hn : r.isNoop = true
  · rw [if_pos hn]
    have hr : r.operator ≠ .and := by
      rw [isNoop_iff.1 hn]
      decide
    rw [Expr.and, combine, if_pos he, if_neg hr, if_pos hn]
    cases l with
    | run ts => cases he
    | node op cs =>
      obtain rfl : op = .and := he
      rfl
  · rw [if_neg hn, he]

end SearchQuery.Expr

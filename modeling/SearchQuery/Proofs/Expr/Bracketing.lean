import SearchQuery.Proofs.Expr.Built

/-! A conjunction or disjunction depends on the parts of its operands and on nothing else. Joining two
expressions puts their parts one behind the other, so the brackets around several operands leave no
trace, and neither does an empty expression among them. -/

namespace SearchQuery.Expr

/-- Operands joined two at a time. -/
inductive Bracketing where
  | operand (e : Expr)
  | join (l r : Bracketing)

namespace Bracketing

def operands : Bracketing → List Expr
  | operand e => [e]
  | join l r => l.operands ++ r.operands

/-- What the operands come to when each pair of brackets is joined under `op`. -/
def value (op : Operator) : Bracketing → Expr
  | operand e => e
  | join l r => combine op (l.value op) (r.value op)

end Bracketing

variable {op : Operator} {a b c e l r : Expr} {t u : Bracketing}

theorem parts_node? (hop : op ≠ .noop) (cs : List Expr) : parts op (node? op cs) = cs := by
  by_cases hcs : cs = []
  · subst hcs
    exact parts_of_isNoop hop rfl
  · rw [node?_of_ne_nil hcs]
    exact parts_of_eq rfl

theorem parts_combine (hop : Absorbs op) (hl : WellFormed l) (hr : WellFormed r) :
    parts op (combine op l r) = parts op l ++ parts op r := by
  rw [combine_eq hop hl hr]
  exact parts_node? hop.ne_noop _

theorem combine_assoc (hop : Absorbs op) (ha : WellFormed a) (hb : WellFormed b)
    (hc : WellFormed c) : combine op (combine op a b) c = combine op a (combine op b c) := by
  have hab : WellFormed (combine op a b) := .combine hop ha hb
  have hbc : WellFormed (combine op b c) := .combine hop hb hc
  calc
    combine op (combine op a b) c
      = node? op ((parts op a ++ parts op b) ++ parts op c) := by
        rw [combine_eq hop hab hc, parts_combine hop ha hb]
    _ = node? op (parts op a ++ (parts op b ++ parts op c)) := by rw [List.append_assoc]
    _ = combine op a (combine op b c) := by
        rw [combine_eq hop ha hbc, parts_combine hop hb hc]

theorem flatMap_parts_kept (hop : op ≠ .noop) (es : List Expr) :
    (es.filter fun e => !e.isNoop).flatMap (parts op) = es.flatMap (parts op) := by
  induction es with
  | nil => rfl
  | cons e es ih =>
    cases hn : e.isNoop with
    | true => simp [hn, ih, parts_of_isNoop hop hn]
    | false => simp [hn, ih]

namespace Bracketing

theorem wellFormed_value (hop : Absorbs op) (h : ∀ e ∈ t.operands, WellFormed e) :
    WellFormed (t.value op) := by
  induction t with
  | operand e => exact h e (List.mem_singleton_self e)
  | join l r ihl ihr =>
    obtain ⟨hl, hr⟩ := List.forall_mem_append.1 h
    exact .combine hop (ihl hl) (ihr hr)

theorem parts_value (hop : Absorbs op) (h : ∀ e ∈ t.operands, WellFormed e) :
    parts op (t.value op) = t.operands.flatMap (parts op) := by
  induction t with
  | operand e => exact (List.flatMap_singleton (parts op) e).symm
  | join l r ihl ihr =>
    obtain ⟨hl, hr⟩ := List.forall_mem_append.1 h
    have hjoin : parts op ((join l r).value op) = parts op (l.value op) ++ parts op (r.value op) :=
      parts_combine hop (wellFormed_value hop hl) (wellFormed_value hop hr)
    rw [hjoin, ihl hl, ihr hr, operands, List.flatMap_append]

/-- As soon as something is joined, the operands are all that counts. -/
theorem value_eq (hop : Absorbs op) (h : ∀ e ∈ t.operands, WellFormed e)
    (htwo : 2 ≤ t.operands.length) : t.value op = node? op (t.operands.flatMap (parts op)) := by
  cases t with
  | operand e =>
    have : 2 ≤ 1 := htwo
    omega
  | join l r =>
    obtain ⟨hl, hr⟩ := List.forall_mem_append.1 h
    have hjoin : (join l r).value op = node? op (parts op (l.value op) ++ parts op (r.value op)) :=
      combine_eq hop (wellFormed_value hop hl) (wellFormed_value hop hr)
    rw [hjoin, parts_value hop hl, parts_value hop hr, operands, List.flatMap_append]

end Bracketing

/-- For `and` and `or`, which are `combine` for their operators. Of the operands only their parts
count: not the brackets, and not the empty expressions, as long as at least two are joined. -/
theorem combine_bracketing (hop : Absorbs op) :
    (∀ a b c, Built a → Built b → Built c →
      combine op (combine op a b) c = combine op a (combine op b c)) ∧
    (∀ a b, Built a → Built b →
      (parts op a ++ parts op b = [] → combine op a b = noop) ∧
      (parts op a ++ parts op b ≠ [] → combine op a b = .node op (parts op a ++ parts op b))) ∧
    ∀ t u : Bracketing, (∀ e ∈ t.operands, Built e) → (∀ e ∈ u.operands, Built e) →
      2 ≤ t.operands.length → 2 ≤ u.operands.length →
      (t.operands.filter fun e => !e.isNoop) = (u.operands.filter fun e => !e.isNoop) →
      t.value op = u.value op := by
  refine ⟨?_, ?_, ?_⟩
  · intro a b c ha hb hc
    exact combine_assoc hop ha.wellFormed hb.wellFormed hc.wellFormed
  · intro a b ha hb
    rw [combine_eq hop ha.wellFormed hb.wellFormed]
    refine ⟨?_, node?_of_ne_nil⟩
    intro hnil
    rw [hnil]
    rfl
  · intro t u ht hu htwo hutwo hkept
    have hparts : t.operands.flatMap (parts op) = u.operands.flatMap (parts op) := by
      rw [← flatMap_parts_kept hop.ne_noop, hkept, flatMap_parts_kept hop.ne_noop]
    rw [Bracketing.value_eq hop (fun e he => (ht e he).wellFormed) htwo,
      Bracketing.value_eq hop (fun e he => (hu e he).wellFormed) hutwo, hparts]

/-- A raw conjunction in a conjunction, which joining does not flatten, and empty expressions. -/
theorem combine_bracketing_raw :
    let x : Expr := .term ⟨0, "x", none⟩
    let raw : Expr := compound .and [compound .and [x]]
    and (and raw noop) x = and raw (and noop x) ∧
      and raw x = .node .and [.node .and [x], x] ∧ and noop noop = noop ∧
      and (and noop raw) (and x noop) = and raw x := by
  intro x raw
  have hx : Built x := .term _
  have hinner : Built (compound .and [x]) := .compound .and (by simpa using hx)
  have hraw : Built raw := .compound .and (by simpa using hinner)
  obtain ⟨hassoc, hjoin, hbrackets⟩ := combine_bracketing (.inl rfl : Absorbs .and)
  refine ⟨hassoc raw noop x hraw .noop hx, (hjoin raw x hraw hx).2 (by decide),
    (hjoin noop noop .noop .noop).1 (by decide), ?_⟩
  exact hbrackets (.join (.join (.operand noop) (.operand raw)) (.join (.operand x) (.operand noop)))
    (.join (.operand raw) (.operand x)) (by simpa [Bracketing.operands] using ⟨.noop, hraw, hx, .noop⟩)
    (by simpa [Bracketing.operands] using ⟨hraw, hx⟩) (by decide) (by decide) (by decide)

end SearchQuery.Expr

import Mathlib.Tactic.SplitIfs
import SearchQuery.Expr.Connectives

/-! The expressions that the connectives build from terms: no run is empty, and the empty expression
stands alone, never below a node. For these `and` and `or` have one rule, `combine_eq`: the parts of
the left operand and then those of the right one. -/

namespace SearchQuery.Expr

inductive WellFormed : Expr → Prop
  | noop : WellFormed noop
  | run {ts : List Term} (h : ts ≠ []) : WellFormed (.run ts)
  | node {op : Operator} {cs : List Expr} (hnoop : op ≠ .noop) (hterms : op ≠ .terms) (hcs : cs ≠ [])
      (h : ∀ c ∈ cs, WellFormed c) (hkept : ∀ c ∈ cs, c.isNoop = false) : WellFormed (.node op cs)

/-- The operators that absorb children of their own kind. -/
def Absorbs (op : Operator) : Prop := op = .and ∨ op = .or

/-- What an expression adds to a connective: nothing, its children or itself. -/
def parts (op : Operator) (e : Expr) : List Expr :=
  if e.operator = op then e.children else if e.isNoop then [] else [e]

variable {op : Operator} {e l r : Expr}

theorem Absorbs.ne_noop (h : Absorbs op) : op ≠ .noop := by
  rcases h with rfl | rfl <;> decide

theorem Absorbs.ne_terms (h : Absorbs op) : op ≠ .terms := by
  rcases h with rfl | rfl <;> decide

theorem Absorbs.ne_not (h : Absorbs op) : op ≠ .not := by
  rcases h with rfl | rfl <;> decide

theorem isNoop_iff : e.isNoop = true ↔ e.operator = .noop := by
  simp [isNoop]

theorem isNoop_eq_false (h : e.operator = op) (hop : op ≠ .noop) : e.isNoop = false := by
  rw [← Bool.not_eq_true, isNoop_iff, h]
  exact hop

theorem node?_of_ne_nil {cs : List Expr} (h : cs ≠ []) : node? op cs = .node op cs := by
  simp [node?, h]

theorem compound_eq (hnoop : op ≠ .noop) (hterms : op ≠ .terms) (cs : List Expr) :
    compound op cs = node? op (cs.filter fun e => !e.isNoop) := by
  cases op with
  | noop => exact absurd rfl hnoop
  | terms => exact absurd rfl hterms
  | _ => rfl

theorem terms_of_ne_nil {ts : List Term} (h : ts ≠ []) : terms ts = .run ts := by
  simp [terms, h]

/-- A node is made anew from its children, as long as none of them is empty. -/
theorem compound_node (hnoop : op ≠ .noop) (hterms : op ≠ .terms) {cs : List Expr} (hcs : cs ≠ [])
    (hkept : ∀ c ∈ cs, c.isNoop = false) : compound op cs = .node op cs := by
  have hfilter : (cs.filter fun c => !c.isNoop) = cs := by
    apply List.filter_eq_self.2
    intro c hc
    rw [hkept c hc]
    rfl
  rw [compound_eq hnoop hterms, hfilter, node?_of_ne_nil hcs]

theorem WellFormed.eq_noop (h : WellFormed e) (hn : e.isNoop = true) : e = Expr.noop := by
  rw [isNoop_iff] at hn
  cases h with
  | noop => rfl
  | run _ => cases hn
  | node hnoop _ _ _ _ => exact absurd hn hnoop

theorem WellFormed.children_ne_nil (h : WellFormed e) (he : e.operator = op) (hop : op ≠ .noop)
    (hterms : op ≠ .terms) : e.children ≠ [] := by
  cases h with
  | noop => exact absurd he.symm hop
  | run _ => exact absurd he.symm hterms
  | node _ _ hcs _ _ => exact hcs

theorem WellFormed.of_mem_children (h : WellFormed e) :
    ∀ c ∈ e.children, WellFormed c ∧ c.isNoop = false := by
  cases h with
  | noop => simp [Expr.noop, children]
  | run _ => simp [children]
  | node _ _ _ hcs hkept => exact fun c hc => ⟨hcs c hc, hkept c hc⟩

theorem parts_of_eq (h : e.operator = op) : parts op e = e.children := if_pos h

theorem parts_of_isNoop (hop : op ≠ .noop) (h : e.isNoop = true) : parts op e = [] := by
  have hne : e.operator ≠ op := by rw [isNoop_iff.1 h]; exact hop.symm
  simp [parts, hne, h]

theorem parts_of_ne (h : e.operator ≠ op) (hn : e.isNoop = false) : parts op e = [e] := by
  simp [parts, h, hn]

theorem WellFormed.of_mem_parts (h : WellFormed e) :
    ∀ c ∈ parts op e, WellFormed c ∧ c.isNoop = false := by
  unfold parts
  split_ifs with he hn
  · exact h.of_mem_children
  · simp
  · simpa using ⟨h, by simpa using hn⟩

theorem combine_eq (hop : Absorbs op) (hl : WellFormed l) (hr : WellFormed r) :
    combine op l r = node? op (parts op l ++ parts op r) := by
  unfold combine
  by_cases hlo : l.operator = op
  · have hne := hl.children_ne_nil hlo hop.ne_noop hop.ne_terms
    rw [if_pos hlo, parts_of_eq hlo, node?_of_ne_nil (by simp [hne])]
    by_cases hro : r.operator = op
    · rw [if_pos hro, parts_of_eq hro]
    · rw [if_neg hro]
      by_cases hrn : r.isNoop
      · rw [if_pos hrn, parts_of_isNoop hop.ne_noop hrn, List.append_nil]
      · rw [if_neg hrn, parts_of_ne hro (by simpa using hrn)]
  · rw [if_neg hlo]
    by_cases hro : r.operator = op
    · have hne := hr.children_ne_nil hro hop.ne_noop hop.ne_terms
      rw [if_pos hro, parts_of_eq hro, node?_of_ne_nil (by simp [hne])]
      by_cases hln : l.isNoop
      · rw [if_pos hln, parts_of_isNoop hop.ne_noop hln, List.nil_append]
      · rw [if_neg hln, parts_of_ne hlo (by simpa using hln), List.singleton_append]
    · rw [if_neg hro]
      congr 1
      cases hln : l.isNoop <;> cases hrn : r.isNoop <;>
        simp [parts, hlo, hro, hln, hrn]

theorem WellFormed.parts_ne_nil (hop : Absorbs op) (h : WellFormed e) (hn : e.isNoop = false) :
    parts op e ≠ [] := by
  by_cases he : e.operator = op
  · rw [parts_of_eq he]
    exact h.children_ne_nil he hop.ne_noop hop.ne_terms
  · rw [parts_of_ne he hn]
    exact List.cons_ne_nil _ _

theorem operator_combine (hop : Absorbs op) (hl : WellFormed l) (hr : WellFormed r)
    (hn : l.isNoop = false ∨ r.isNoop = false) : (combine op l r).operator = op := by
  have hne : parts op l ++ parts op r ≠ [] := by
    rcases hn with hn | hn
    · simp [hl.parts_ne_nil hop hn]
    · simp [hr.parts_ne_nil hop hn]
  rw [combine_eq hop hl hr, node?_of_ne_nil hne]
  rfl

/-- A conjunction with something on its left. -/
theorem and_eq (hl : WellFormed l) (hr : WellFormed r) (hn : l.isNoop = false) :
    l.and r = .node .and (parts .and l ++ parts .and r) := by
  rw [Expr.and, combine_eq (.inl rfl) hl hr]
  exact node?_of_ne_nil (by simp [hl.parts_ne_nil (.inl rfl) hn])

theorem isNoop_of_isRun (h : e.isRun = true) : e.isNoop = false := by
  cases e with
  | run ts => rfl
  | node op cs => cases h

/-- All that `extend` can come to. -/
theorem extend_cases (l r : Expr) :
    (r.isNoop = true ∧ l.extend r = l) ∨ (l.isNoop = true ∧ l.extend r = r) ∨
      (∃ op, Absorbs op ∧ l.extend r = combine op l r) ∨
      (l.isNoop = false ∧ r.isRun = true ∧ l.extend r = .node .boost [l, r]) := by
  unfold extend
  by_cases hrn : r.isNoop = true
  · exact .inl ⟨hrn, if_pos hrn⟩
  rw [if_neg hrn]
  cases hlo : l.operator with
  | noop => exact .inr (.inl ⟨isNoop_iff.2 hlo, rfl⟩)
  | and => exact .inr (.inr (.inl ⟨.and, .inl rfl, rfl⟩))
  | or => exact .inr (.inr (.inl ⟨.or, .inr rfl, rfl⟩))
  | not | boost | terms =>
    by_cases hrr : r.isRun = true
    · exact .inr (.inr (.inr ⟨isNoop_eq_false hlo (by decide), hrr, if_pos hrr⟩))
    · exact .inr (.inr (.inl ⟨.or, .inr rfl, if_neg hrr⟩))

namespace WellFormed

theorem node? {cs : List Expr} (hnoop : op ≠ .noop) (hterms : op ≠ .terms)
    (h : ∀ c ∈ cs, WellFormed c ∧ c.isNoop = false) : WellFormed (node? op cs) := by
  by_cases hcs : cs = []
  · subst hcs
    exact .noop
  · rw [node?_of_ne_nil hcs]
    exact .node hnoop hterms hcs (fun c hc => (h c hc).1) (fun c hc => (h c hc).2)

theorem combine (hop : Absorbs op) (hl : WellFormed l) (hr : WellFormed r) :
    WellFormed (combine op l r) := by
  rw [combine_eq hop hl hr]
  refine .node? hop.ne_noop hop.ne_terms fun c hc => ?_
  rcases List.mem_append.1 hc with hc | hc
  · exact hl.of_mem_parts c hc
  · exact hr.of_mem_parts c hc

theorem and (hl : WellFormed l) (hr : WellFormed r) : WellFormed (l.and r) :=
  combine (.inl rfl) hl hr

theorem or (hl : WellFormed l) (hr : WellFormed r) : WellFormed (l.or r) :=
  combine (.inr rfl) hl hr

theorem term (t : Term) : WellFormed (term t) := .run (by simp)

theorem appendTerm (h : WellFormed e) (t : Term) : WellFormed (e.appendTerm t) := by
  cases e with
  | run ts => exact .run (by simp)
  | node op cs =>
    simp only [Expr.appendTerm]
    split_ifs
    · exact .term t
    · exact h.or (.term t)

theorem not (h : WellFormed e) : WellFormed e.not := by
  unfold Expr.not
  split
  · exact (h.of_mem_children _ (by simp [children])).1
  · split_ifs with hn
    · exact h
    · exact .node (by decide) (by decide) (by simp) (by simpa using h) (by simpa using hn)

theorem boost {cs : List Expr} (hcs : cs ≠ []) (h : ∀ c ∈ cs, WellFormed c ∧ c.isNoop = false) :
    WellFormed (.node .boost cs) :=
  .node (by decide) (by decide) hcs (fun c hc => (h c hc).1) (fun c hc => (h c hc).2)

theorem wrap (h : WellFormed e) : WellFormed e.wrap := by
  cases e with
  | run ts => exact .boost (by simp) (by simpa using ⟨h, rfl⟩)
  | node op cs => exact h

theorem extend (hl : WellFormed l) (hr : WellFormed r) : WellFormed (l.extend r) := by
  rcases extend_cases l r with ⟨-, h⟩ | ⟨-, h⟩ | ⟨op, hop, h⟩ | ⟨hln, hrr, h⟩ <;> rw [h]
  · exact hl
  · exact hr
  · exact combine hop hl hr
  · refine boost (by simp) fun c hc => ?_
    rcases List.mem_cons.1 hc with rfl | hc
    · exact ⟨hl, hln⟩
    · rw [List.mem_singleton.1 hc]
      exact ⟨hr, isNoop_of_isRun hrr⟩

theorem compound {cs : List Expr} (hnoop : op ≠ .noop) (hterms : op ≠ .terms)
    (h : ∀ c ∈ cs, WellFormed c) : WellFormed (compound op cs) := by
  rw [compound_eq hnoop hterms]
  refine .node? hnoop hterms fun c hc => ?_
  obtain ⟨hc, hn⟩ := List.mem_filter.1 hc
  exact ⟨h c hc, by simpa using hn⟩

theorem terms (ts : List Term) : WellFormed (terms ts) := by
  cases ts with
  | nil => exact .noop
  | cons t ts => exact .run (List.cons_ne_nil t ts)

end WellFormed
end SearchQuery.Expr

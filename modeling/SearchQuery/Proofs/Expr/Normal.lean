import Mathlib.Data.List.Induction
import SearchQuery.Proofs.Expr.Built

/-! The shape of what the connectives build. A conjunction never stands directly in a conjunction, nor
a disjunction in a disjunction, a negation has one child that is no negation, and a boost is over a run,
or over a run and one thing in front of it. Each connective looks at the top of its operands only; that
this is enough is the invariant `Normal`, and it is exact: every normal expression can be built. -/

namespace SearchQuery.Expr

/-- Everything that the connectives make of terms, without raw compounds and replaced runs. -/
inductive Combined : Expr → Prop
  | noop : Combined noop
  | term (t : Term) : Combined (term t)
  | terms (ts : List Term) : Combined (terms ts)
  | appendTerm {e : Expr} (h : Combined e) (t : Term) : Combined (e.appendTerm t)
  | and {l r : Expr} (hl : Combined l) (hr : Combined r) : Combined (l.and r)
  | or {l r : Expr} (hl : Combined l) (hr : Combined r) : Combined (l.or r)
  | not {e : Expr} (h : Combined e) : Combined e.not
  | wrap {e : Expr} (h : Combined e) : Combined e.wrap
  | extend {l r : Expr} (hl : Combined l) (hr : Combined r) : Combined (l.extend r)

/-- What a boost may have in front of its run. -/
def Leads (e : Expr) : Prop := e.isRun = true ∨ e.operator = .not ∨ e.operator = .boost

/-- What an operator may have below it. -/
def Fits : Operator → List Expr → Prop
  | .and, cs => ∀ c ∈ cs, c.operator ≠ .and
  | .or, cs => ∀ c ∈ cs, c.operator ≠ .or
  | .not, cs => ∃ c, cs = [c] ∧ c.operator ≠ .not
  | .boost, cs => ∃ ts, cs = [.run ts] ∨ ∃ c, cs = [c, .run ts] ∧ Leads c
  | .noop, _ | .terms, _ => True

structure Normal (e : Expr) : Prop where
  wellFormed : WellFormed e
  fits : ∀ op cs, .node op cs ∈ e.subs → Fits op cs

variable {op : Operator} {cs : List Expr} {c e l r : Expr}

theorem fits_iff (hop : Absorbs op) : Fits op cs ↔ ∀ c ∈ cs, c.operator ≠ op := by
  rcases hop with rfl | rfl <;> exact Iff.rfl

theorem not_of_ne (hnot : e.operator ≠ .not) (hn : e.isNoop = false) : e.not = .node .not [e] := by
  unfold Expr.not
  split
  · exact absurd rfl hnot
  · rw [hn]
    exact if_neg Bool.false_ne_true

theorem extend_run (h : Leads l) (ts : List Term) :
    l.extend (.run ts) = .node .boost [l, .run ts] := by
  cases l with
  | run us => rfl
  | node p ds =>
    rcases h with h | h | h
    · cases h
    · obtain rfl : p = .not := h
      rfl
    · obtain rfl : p = .boost := h
      rfl

theorem leads_or_absorbs (h : WellFormed e) (hn : e.isNoop = false) :
    Leads e ∨ Absorbs e.operator := by
  cases h with
  | noop => cases hn
  | run _ => exact .inl (.inl rfl)
  | @node p cs hnoop hterms _ _ _ =>
    cases p with
    | noop => exact absurd rfl hnoop
    | terms => exact absurd rfl hterms
    | and => exact .inr (.inl rfl)
    | or => exact .inr (.inr rfl)
    | not => exact .inl (.inr (.inl rfl))
    | boost => exact .inl (.inr (.inr rfl))

theorem extend_of_absorbs (hop : Absorbs l.operator) (hn : r.isNoop = false) :
    l.extend r = combine l.operator l r := by
  unfold extend
  rw [hn, if_neg Bool.false_ne_true]
  rcases hop with h | h <;> rw [h] <;> rfl

namespace Normal

theorem noop : Normal noop where
  wellFormed := .noop
  fits p ds h := by
    obtain ⟨rfl, -⟩ : p = .noop ∧ ds = [] := by simpa [Expr.noop, subs, subsOf] using h
    trivial

theorem run {ts : List Term} (h : ts ≠ []) : Normal (.run ts) where
  wellFormed := .run h
  fits p ds h := by simp [subs] at h

theorem node (h : WellFormed (.node op cs)) (hfits : Fits op cs) (hcs : ∀ c ∈ cs, Normal c) :
    Normal (.node op cs) where
  wellFormed := h
  fits p ds hp := by
    rcases mem_subs_node.1 hp with hp | ⟨c, hc, hp⟩
    · cases hp
      exact hfits
    · exact (hcs c hc).fits p ds hp

theorem fits_children (h : Normal (.node op cs)) : Fits op cs :=
  h.fits op cs (mem_subs_self _)

theorem of_mem_children (h : Normal (.node op cs)) (hc : c ∈ cs) : Normal c where
  wellFormed := (h.wellFormed.of_mem_children c hc).1
  fits p ds hp := h.fits p ds (mem_subs_node.2 (.inr ⟨c, hc, hp⟩))

theorem of_mem_parts (hop : Absorbs op) (h : Normal e) (hc : c ∈ parts op e) :
    Normal c ∧ c.operator ≠ op := by
  by_cases he : e.operator = op
  · rw [parts_of_eq he] at hc
    cases e with
    | run ts => cases hc
    | node p cs =>
      obtain rfl : p = op := he
      exact ⟨h.of_mem_children hc, (fits_iff hop).1 h.fits_children c hc⟩
  · cases hn : e.isNoop with
    | true =>
      rw [parts_of_isNoop hop.ne_noop hn] at hc
      cases hc
    | false =>
      rw [parts_of_ne he hn, List.mem_singleton] at hc
      rw [hc]
      exact ⟨h, he⟩

theorem combine (hop : Absorbs op) (hl : Normal l) (hr : Normal r) :
    Normal (combine op l r) := by
  have hwell := WellFormed.combine hop hl.wellFormed hr.wellFormed
  rw [combine_eq hop hl.wellFormed hr.wellFormed] at hwell ⊢
  have hparts : ∀ c ∈ parts op l ++ parts op r, Normal c ∧ c.operator ≠ op := by
    intro c hc
    rcases List.mem_append.1 hc with hc | hc
    · exact hl.of_mem_parts hop hc
    · exact hr.of_mem_parts hop hc
  by_cases hcs : parts op l ++ parts op r = []
  · rw [hcs]
    exact noop
  · rw [node?_of_ne_nil hcs] at hwell ⊢
    exact node hwell ((fits_iff hop).2 fun c hc => (hparts c hc).2) fun c hc => (hparts c hc).1

theorem term (t : Term) : Normal (term t) := run (List.cons_ne_nil t [])

theorem terms (ts : List Term) : Normal (terms ts) := by
  cases ts with
  | nil => exact noop
  | cons t ts => exact run (List.cons_ne_nil t ts)

theorem appendTerm (h : Normal e) (t : Term) : Normal (e.appendTerm t) := by
  cases e with
  | run ts => exact run (by simp)
  | node p cs =>
    show Normal (if (Expr.node p cs).isNoop = true then Expr.term t else Expr.or _ (Expr.term t))
    split_ifs
    · exact term t
    · exact combine (.inr rfl) h (term t)

theorem single (hc : Normal c) (hnot : c.operator ≠ .not) (hn : c.isNoop = false) :
    Normal (.node .not [c]) := by
  have hwell := hc.wellFormed.not
  rw [not_of_ne hnot hn] at hwell
  exact node hwell ⟨c, rfl, hnot⟩ (by simpa using hc)

theorem not (h : Normal e) : Normal e.not := by
  cases hn : e.isNoop with
  | true =>
    rw [h.wellFormed.eq_noop hn]
    exact noop
  | false =>
    by_cases hnot : e.operator = .not
    · cases e with
      | run ts => cases hnot
      | node p cs =>
        obtain rfl : p = .not := hnot
        obtain ⟨c, rfl, -⟩ := h.fits_children
        exact h.of_mem_children (List.mem_singleton_self c)
    · rw [not_of_ne hnot hn]
      exact h.single hnot hn

theorem wrap (h : Normal e) : Normal e.wrap := by
  cases e with
  | run ts => exact node h.wellFormed.wrap ⟨ts, .inl rfl⟩ (by simpa using h)
  | node p cs => exact h

theorem extend (hl : Normal l) (hr : Normal r) : Normal (l.extend r) := by
  have hwell := hl.wellFormed.extend hr.wellFormed
  rcases extend_cases l r with ⟨-, h⟩ | ⟨-, h⟩ | ⟨op, hop, h⟩ | ⟨hln, hrun, h⟩
  · rwa [h]
  · rwa [h]
  · rw [h]
    exact combine hop hl hr
  · cases r with
    | node p cs => cases hrun
    | run ts =>
      rcases leads_or_absorbs hl.wellFormed hln with hlead | hop
      · rw [h] at hwell ⊢
        refine node hwell ⟨ts, .inr ⟨l, rfl, hlead⟩⟩ fun c hc => ?_
        rcases List.mem_cons.1 hc with rfl | hc
        · exact hl
        · rw [List.mem_singleton.1 hc]
          exact hr
      · rw [extend_of_absorbs hop rfl]
        exact combine hop hl hr

/-- A double negation cancels, also below the top: what a negation gives back is no negation. -/
theorem not_not (h : Normal e) : e.not.not = e := by
  cases hn : e.isNoop with
  | true =>
    rw [h.wellFormed.eq_noop hn]
    rfl
  | false =>
    by_cases hnot : e.operator = .not
    · cases e with
      | run ts => cases hnot
      | node p cs =>
        obtain rfl : p = .not := hnot
        obtain ⟨c, rfl, hc⟩ := h.fits_children
        have hkept := (h.wellFormed.of_mem_children c (List.mem_singleton_self c)).2
        exact not_of_ne hc hkept
    · rw [not_of_ne hnot hn]
      rfl

end Normal

namespace Combined

theorem normal (h : Combined e) : Normal e := by
  induction h with
  | noop => exact .noop
  | term t => exact .term t
  | terms ts => exact .terms ts
  | appendTerm _ t ih => exact ih.appendTerm t
  | and _ _ hl hr => exact .combine (.inl rfl) hl hr
  | or _ _ hl hr => exact .combine (.inr rfl) hl hr
  | not _ ih => exact ih.not
  | wrap _ ih => exact ih.wrap
  | extend _ _ hl hr => exact hl.extend hr

theorem combine (hop : Absorbs op) (hl : Combined l) (hr : Combined r) :
    Combined (combine op l r) := by
  rcases hop with rfl | rfl
  · exact hl.and hr
  · exact hl.or hr

/-- Children of another kind can be joined one by one. -/
theorem node (hop : Absorbs op) (hcs : cs ≠ [])
    (h : ∀ c ∈ cs, Combined c ∧ c.operator ≠ op ∧ c.isNoop = false) : Combined (.node op cs) := by
  induction cs using List.reverseRecOn with
  | nil => exact absurd rfl hcs
  | append_singleton cs c ih =>
    obtain ⟨hc, hne, hkept⟩ := h c (by simp)
    have hwell := hc.normal.wellFormed
    by_cases hfirst : cs = []
    · have hjoin : Expr.combine op c Expr.noop = .node op (cs ++ [c]) := by
        rw [combine_eq hop hwell .noop, parts_of_ne hne hkept, parts_of_isNoop hop.ne_noop rfl, hfirst]
        rfl
      rw [← hjoin]
      exact combine hop hc noop
    · have hcs : Combined (.node op cs) := ih hfirst fun c hc => h c (by simp [hc])
      have hparts : parts op (.node op cs) = cs := parts_of_eq rfl
      have hjoin : Expr.combine op (.node op cs) c = .node op (cs ++ [c]) := by
        rw [combine_eq hop hcs.normal.wellFormed hwell, hparts, parts_of_ne hne hkept]
        exact node?_of_ne_nil (by simp)
      rw [← hjoin]
      exact combine hop hcs hc

theorem single (h : Combined c) (hnot : c.operator ≠ .not) (hn : c.isNoop = false) :
    Combined (.node .not [c]) := by
  rw [← not_of_ne hnot hn]
  exact h.not

end Combined

/-- One connective for each kind of node: it gives back the node that it is meant for. -/
theorem Normal.combined (h : Normal e) : Combined e := by
  induction e using Expr.induct with
  | run ts =>
    cases h.wellFormed with
    | run hts =>
      have hterms : Expr.terms ts = .run ts := by simp [Expr.terms, hts]
      rw [← hterms]
      exact .terms ts
  | node op cs ih =>
    have hcs : ∀ c ∈ cs, Combined c := fun c hc => ih c hc (h.of_mem_children hc)
    have hfits := h.fits_children
    cases h.wellFormed with
    | noop => exact .noop
    | node hnoop hterms hne _ hkept =>
      cases op with
      | noop => exact absurd rfl hnoop
      | terms => exact absurd rfl hterms
      | and => exact .node (.inl rfl) hne fun c hc => ⟨hcs c hc, hfits c hc, hkept c hc⟩
      | or => exact .node (.inr rfl) hne fun c hc => ⟨hcs c hc, hfits c hc, hkept c hc⟩
      | not =>
        obtain ⟨c, rfl, hnot⟩ := hfits
        exact .single (hcs c (by simp)) hnot (hkept c (by simp))
      | boost =>
        obtain ⟨ts, rfl | ⟨c, rfl, hlead⟩⟩ := hfits
        · exact (hcs (.run ts) (by simp)).wrap
        · rw [← extend_run hlead ts]
          exact (hcs c (by simp)).extend (hcs (.run ts) (by simp))

/-- Whatever the connectives build is normal, and whatever is normal they can build. -/
theorem combined_iff (e : Expr) : Combined e ↔ Normal e := ⟨Combined.normal, Normal.combined⟩

end SearchQuery.Expr

import SearchQuery.Proofs.Expr.Runs

/-! What can be built at all. The operations on expressions, raw compounds and the replacement of runs
among them, lead to the well-formed expressions and to no others, so the invariant is exact. -/

namespace SearchQuery.Expr

/-- Everything that operations make of terms. A run may be replaced by what depends on the runs
before it; only what is put in the place of a run that is there has to be built as well. -/
inductive Built : Expr → Prop
  | noop : Built noop
  | term (t : Term) : Built (term t)
  | terms (ts : List Term) : Built (terms ts)
  | compound (op : Operator) {cs : List Expr} (h : ∀ c ∈ cs, Built c) : Built (compound op cs)
  | appendTerm {e : Expr} (h : Built e) (t : Term) : Built (e.appendTerm t)
  | and {l r : Expr} (hl : Built l) (hr : Built r) : Built (l.and r)
  | or {l r : Expr} (hl : Built l) (hr : Built r) : Built (l.or r)
  | not {e : Expr} (h : Built e) : Built e.not
  | wrap {e : Expr} (h : Built e) : Built e.wrap
  | extend {l r : Expr} (hl : Built l) (hr : Built r) : Built (l.extend r)
  | mapRunsM {σ : Type} {e : Expr} (f : List Term → StateM σ Expr) (s : σ) (h : Built e)
      (hf : ∀ ts ∈ e.runs, ∀ s, Built ((f ts).run s).1) : Built ((e.mapRunsM f).run s).1

mutual

/-- The expression and all that stands below it. -/
def subs : Expr → List Expr
  | .run ts => [.run ts]
  | .node op cs => .node op cs :: subsOf cs

def subsOf : List Expr → List Expr
  | [] => []
  | c :: cs => subs c ++ subsOf cs

end

variable {e : Expr}

theorem mem_subsOf {cs : List Expr} : e ∈ subsOf cs ↔ ∃ c ∈ cs, e ∈ c.subs := by
  induction cs with
  | nil => simp [subsOf]
  | cons c cs ih => simp [subsOf, ih]

theorem mem_subs_node {op : Operator} {cs : List Expr} :
    e ∈ (Expr.node op cs).subs ↔ e = .node op cs ∨ ∃ c ∈ cs, e ∈ c.subs := by
  rw [subs, List.mem_cons, mem_subsOf]

theorem mem_subs_self (e : Expr) : e ∈ e.subs := by
  cases e <;> simp [subs]

/-- One step for each operation. -/
theorem Built.wellFormed (h : Built e) : WellFormed e := by
  induction h with
  | noop => exact .noop
  | term t => exact .term t
  | terms ts => exact .terms ts
  | compound op _ ih => exact .compound_any op ih
  | appendTerm _ t ih => exact ih.appendTerm t
  | and _ _ hl hr => exact hl.and hr
  | or _ _ hl hr => exact hl.or hr
  | not _ ih => exact ih.not
  | wrap _ ih => exact ih.wrap
  | extend _ _ hl hr => exact hl.extend hr
  | mapRunsM f s _ _ _ ih => exact .mapRunsM ih s

theorem WellFormed.built (h : WellFormed e) : Built e := by
  induction h with
  | noop => exact .noop
  | @run ts hts => exact terms_of_ne_nil hts ▸ .terms ts
  | @node op cs hnoop hterms hcs _ hkept ih =>
    exact compound_node hnoop hterms hcs hkept ▸ .compound op ih

/-- The invariant, said of every run and node of the tree. -/
structure Sound (e : Expr) : Prop where
  run_ne_nil : ∀ ts, .run ts ∈ e.subs → ts ≠ []
  ne_terms : ∀ op cs, .node op cs ∈ e.subs → op ≠ .terms
  children_ne_nil : ∀ op cs, .node op cs ∈ e.subs → op ≠ .noop → cs ≠ []
  /-- The empty expression is all there is, or it is not there. -/
  eq_noop : ∀ cs, .node .noop cs ∈ e.subs → e = noop

theorem Sound.of_mem_children {op : Operator} {cs : List Expr} (h : Sound (.node op cs))
    (hop : op ≠ .noop) {c : Expr} (hc : c ∈ cs) : Sound c where
  run_ne_nil ts hts := h.run_ne_nil ts (mem_subs_node.2 (.inr ⟨c, hc, hts⟩))
  ne_terms p ds hds := h.ne_terms p ds (mem_subs_node.2 (.inr ⟨c, hc, hds⟩))
  children_ne_nil p ds hds := h.children_ne_nil p ds (mem_subs_node.2 (.inr ⟨c, hc, hds⟩))
  eq_noop ds hds := by
    have hwhole := h.eq_noop ds (mem_subs_node.2 (.inr ⟨c, hc, hds⟩))
    exact absurd (Expr.node.inj hwhole).1 hop

theorem Sound.wellFormed (h : Sound e) : WellFormed e := by
  induction e using Expr.induct with
  | run ts => exact .run (h.run_ne_nil ts (mem_subs_self _))
  | node op cs ih =>
    by_cases hop : op = .noop
    · subst hop
      rw [h.eq_noop cs (mem_subs_self _)]
      exact .noop
    · refine .node hop (h.ne_terms op cs (mem_subs_self _))
        (h.children_ne_nil op cs (mem_subs_self _) hop)
        (fun c hc => ih c hc (h.of_mem_children hop hc)) fun c hc => ?_
      cases c with
      | run ts => rfl
      | node p ds =>
        refine isNoop_eq_false rfl fun hp => ?_
        subst hp
        have hbelow : Expr.node .noop ds ∈ (Expr.node op cs).subs :=
          mem_subs_node.2 (.inr ⟨_, hc, mem_subs_self _⟩)
        exact hop (Expr.node.inj (h.eq_noop ds hbelow)).1

theorem WellFormed.sound (h : WellFormed e) : Sound e := by
  induction h with
  | noop => exact ⟨by simp [Expr.noop, subs, subsOf], by simp [Expr.noop, subs, subsOf],
      by simp [Expr.noop, subs, subsOf], fun _ _ => rfl⟩
  | run hts => exact ⟨by simpa [subs] using hts, by simp [subs], by simp [subs], by simp [subs]⟩
  | @node op cs hnoop hterms hcs _ hkept ih =>
    refine ⟨fun ts hts => ?_, fun p ds hds => ?_, fun p ds hds => ?_, fun ds hds => ?_⟩
    · rcases mem_subs_node.1 hts with h | ⟨c, hc, h⟩
      · cases h
      · exact (ih c hc).run_ne_nil ts h
    · rcases mem_subs_node.1 hds with h | ⟨c, hc, h⟩
      · rw [(Expr.node.inj h).1]
        exact hterms
      · exact (ih c hc).ne_terms p ds h
    · rcases mem_subs_node.1 hds with h | ⟨c, hc, h⟩
      · rw [(Expr.node.inj h).2]
        exact fun _ => hcs
      · exact (ih c hc).children_ne_nil p ds h
    · rcases mem_subs_node.1 hds with h | ⟨c, hc, h⟩
      · exact absurd (Expr.node.inj h).1.symm hnoop
      · -- a child with an empty node in it would be the empty expression itself
        have hempty := hkept c hc
        rw [(ih c hc).eq_noop ds h] at hempty
        cases hempty

/-- Whatever the operations build is sound, and whatever is sound they can build. -/
theorem built_iff_sound (e : Expr) : Built e ↔ Sound e :=
  ⟨fun h => h.wellFormed.sound, fun h => h.wellFormed.built⟩

end SearchQuery.Expr

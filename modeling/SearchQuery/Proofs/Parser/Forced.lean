import SearchQuery.Proofs.Parser.Truth

/-! Which signs bind. A signed word forces its truth value on the whole query, as long as it is not in
the row of signed words that directly follows a plain opening and its first signed word. In that row
no word is forced: the query still holds by its opening words. -/

namespace SearchQuery

namespace Stretch

/-- A plain opening, the signed word behind it, and nothing but signed words from there on. -/
def weakens : List Stretch → Bool
  | .plain _ :: _ :: ss => ss.all isSigned
  | _ => false

variable {ss pre post : List Stretch} {v : Term → Bool}

theorem mem_behindRow {s : Stretch} (h : pre.all isSigned = false) :
    s ∈ behindRow (pre ++ s :: post) := by
  induction pre with
  | nil => cases h
  | cons p pre ih =>
    rw [List.cons_append, behindRow]
    split_ifs with hp
    · exact ih (by simpa [hp] using h)
    · simp

theorem holds_of_demand {s : Stretch} (hs : s.isSigned = true) (hpre : weakens pre = false)
    (h : demand v (pre ++ s :: post) = true) : s.expr.holds v = true := by
  have hall : allHold v (pre ++ s :: post) = true → s.expr.holds v = true := by
    intro h
    simp only [allHold, Bool.and_eq_true, List.all_eq_true] at h
    exact h.2 s (by simp)
  rcases pre with _ | ⟨ws | ⟨excluded, u⟩, _ | ⟨p, pre⟩⟩
  · exact hall (by rwa [List.nil_append, demand_of_signed hs] at h)
  · simp only [List.cons_append, List.nil_append, demand, Bool.and_eq_true] at h
    exact h.1.1
  · simp only [List.cons_append, demand, Bool.and_eq_true, List.all_eq_true] at h
    exact h.2 s (mem_behindRow hpre)
  · exact hall h
  · exact hall h

theorem eq_of_mem_terms (hss : (ss.flatMap terms).Nodup) {a b : Stretch} (ha : a ∈ ss) (hb : b ∈ ss)
    {t : Term} (hta : t ∈ a.terms) (htb : t ∈ b.terms) : a = b := by
  induction ss with
  | nil => cases ha
  | cons s ss ih =>
    rw [List.flatMap_cons, List.nodup_append] at hss
    obtain ⟨-, hss, hdisjoint⟩ := hss
    have hnot {c : Stretch} (hc : c ∈ ss) (hs : t ∈ s.terms) : t ∉ c.terms := fun htc =>
      hdisjoint t hs t (List.mem_flatMap.2 ⟨c, hc, htc⟩) rfl
    rcases List.mem_cons.1 ha with has | ha' <;> rcases List.mem_cons.1 hb with hbs | hb'
    · exact has.trans hbs.symm
    · exact absurd htb (hnot hb' (has ▸ hta))
    · exact absurd hta (hnot ha' (hbs ▸ htb))
    · exact ih hss ha' hb'

/-- Truth as the signs want it, except for one word. -/
def defying (ss : List Stretch) (excluded : Bool) (w t : Term) : Bool :=
  if t = w then excluded else !decide (signed true t ∈ ss)

theorem holds_defying (hss : (ss.flatMap terms).Nodup) {excluded : Bool} {w : Term} {s : Stretch}
    (hs : s ∈ ss) (hne : s.terms ≠ []) (hw : w ∉ s.terms) :
    s.expr.holds (defying ss excluded w) = true := by
  have hplain {t : Term} (ht : t ∈ s.terms) (hsign : s ≠ signed true t) :
      defying ss excluded w t = true := by
    have htw : t ≠ w := fun h => hw (h ▸ ht)
    have hnot : signed true t ∉ ss := fun hmem =>
      hsign (eq_of_mem_terms hss hs hmem ht (List.mem_singleton_self t))
    simp [defying, htw, hnot]
  rcases s with us | ⟨_ | _, u⟩
  · obtain ⟨t, ht⟩ := List.exists_mem_of_ne_nil us hne
    exact (Expr.holds_run _ us).trans (List.any_eq_true.2 ⟨t, ht, hplain ht nofun⟩)
  · exact holds_signed.2 (hplain (List.mem_singleton_self u) nofun)
  · have huw : u ≠ w := fun h => hw (by simp [terms, h])
    refine holds_signed.2 ?_
    simp [defying, huw, hs]

theorem not_mem_terms {excluded : Bool} {w : Term}
    (h : ((pre ++ .signed excluded w :: post).flatMap terms).Nodup) :
    ∀ s ∈ pre ++ post, w ∉ s.terms := by
  rw [List.flatMap_append, List.flatMap_cons] at h
  have hw : w ∉ pre.flatMap terms ++ post.flatMap terms :=
    (List.nodup_cons.1 (List.nodup_middle.1 h)).1
  rw [← List.flatMap_append] at hw
  intro s hs hws
  exact hw (List.mem_flatMap.2 ⟨s, hs, hws⟩)

/-- Every stretch but the one of the word is taken at its word, and the demand does without that one. -/
theorem demand_defying {excluded : Bool} {w : Term} (hpre : weakens pre = true)
    (hnodup : ((pre ++ .signed excluded w :: post).flatMap terms).Nodup)
    (hne : ∀ s ∈ pre ++ .signed excluded w :: post, s.terms ≠ []) :
    demand (defying (pre ++ .signed excluded w :: post) excluded w)
      (pre ++ .signed excluded w :: post) = true := by
  have hholds : ∀ s ∈ pre ++ post,
      s.expr.holds (defying (pre ++ .signed excluded w :: post) excluded w) = true := by
    intro s hs
    have hmem : s ∈ pre ++ .signed excluded w :: post := by
      rcases List.mem_append.1 hs with hs | hs
      · exact List.mem_append_left _ hs
      · exact List.mem_append_right _ (List.mem_cons_of_mem _ hs)
    exact holds_defying hnodup hmem (hne s hmem) (not_mem_terms hnodup s hs)
  generalize defying (pre ++ .signed excluded w :: post) excluded w = v at hholds ⊢
  rcases pre with _ | ⟨ws | ⟨excluded', u⟩, _ | ⟨p, pre⟩⟩
  · cases hpre
  · cases hpre
  · have hsigned : ∀ s ∈ pre, s.isSigned = true := List.all_eq_true.1 hpre
    have hbehind : behindRow (pre ++ .signed excluded w :: post) = behindRow post :=
      behindRow_append hsigned
    have hopening : ws.any v = true := (Expr.holds_run v ws).symm.trans (hholds (.plain ws) (by simp))
    simp only [List.cons_append, demand, hbehind, hopening, Bool.true_or, Bool.and_true,
      Bool.and_eq_true, List.all_eq_true]
    refine ⟨hholds p (by simp), fun s hs => hholds s ?_⟩
    have hpost : s ∈ post := by
      rw [← row_append_behindRow post]
      exact List.mem_append_right _ hs
    exact List.mem_append_right _ hpost
  · cases hpre
  · cases hpre

end Stretch

namespace Parser

theorem signs_forced_unless_weakened (ids : TermIds) (ts : List Token)
    (hts : ∀ t ∈ ts, t.kind = .word ∨ t.kind.isSign = true) :
    ∃ e, (parse ids ts).result = .ok e ∧
      ∀ pre excluded w post, Stretch.cut ids ts = pre ++ .signed excluded w :: post →
        (Stretch.weakens pre = false → ∀ v, e.holds v = true → v w = !excluded) ∧
        (Stretch.weakens pre = true → ids.issued.toNat + (Token.words ts).length < UInt32.size →
          ∃ v, e.holds v = true ∧ v w = excluded) := by
  obtain ⟨e, he, hholds⟩ := holds_parse ids hts
  refine ⟨e, he, fun pre excluded w post hcut => ⟨fun hpre v hv => ?_, fun hpre hroom => ?_⟩⟩
  · rw [hholds v, hcut] at hv
    exact Stretch.holds_signed.1 (Stretch.holds_of_demand rfl hpre hv)
  · have hnodup : ((Stretch.cut ids ts).flatMap Stretch.terms).Nodup := by
      rw [Stretch.terms_cut]
      exact TermIds.issueAll_nodup hroom
    refine ⟨Stretch.defying (Stretch.cut ids ts) excluded w, ?_, by simp [Stretch.defying]⟩
    rw [hholds]
    rw [hcut] at hnodup ⊢
    exact Stretch.demand_defying hpre hnodup fun s hs => Stretch.terms_ne_nil (hcut ▸ hs)

/-- In `a +b -c` the word `b` is required and `c` is not excluded. -/
theorem first_sign_forced_second_not :
    ∃ e, (parse ⟨0⟩ [⟨.word, "a", 0, 1⟩, ⟨.prefixAnd, "+", 2, 1⟩, ⟨.word, "b", 3, 1⟩,
        ⟨.prefixAndNot, "-", 5, 1⟩, ⟨.word, "c", 6, 1⟩]).result = .ok e ∧
      (∀ v, e.holds v = true → v ⟨1, "b", none⟩ = true) ∧
      ∃ v, e.holds v = true ∧ v ⟨2, "c", none⟩ = true := by
  obtain ⟨e, he, hsigns⟩ := signs_forced_unless_weakened ⟨0⟩ [⟨.word, "a", 0, 1⟩,
    ⟨.prefixAnd, "+", 2, 1⟩, ⟨.word, "b", 3, 1⟩, ⟨.prefixAndNot, "-", 5, 1⟩, ⟨.word, "c", 6, 1⟩]
    (by decide)
  refine ⟨e, he, ?_, ?_⟩
  · exact (hsigns [.plain [⟨0, "a", none⟩]] false _ [.signed true ⟨2, "c", none⟩] rfl).1 rfl
  · exact (hsigns [.plain [⟨0, "a", none⟩], .signed false ⟨1, "b", none⟩] true _ [] rfl).2 rfl
      (by decide)

end Parser
end SearchQuery

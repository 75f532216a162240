import Mathlib.Algebra.BigOperators.Intervals
import Mathlib.Algebra.Order.BigOperators.Group.Finset
import Mathlib.Data.List.TakeWhile
import SearchQuery.Proofs.Shingle

/-! The shingles of one run, order by order: how many there are, which terms each of them joins and
which number it has. An order has one shingle less than the order before it, the orders end where no
shingle is left, and each begins with the number behind the last one of the order before it. -/

namespace SearchQuery

theorem windows_eq {α : Type} {n : Nat} (hn : 0 < n) (xs : List α) :
    windows n xs = (List.range (xs.length + 1 - n)).map fun i => (xs.drop i).take n := by
  induction xs with
  | nil =>
    have hnone : 1 - n = 0 := by omega
    simp [windows, hnone]
  | cons x xs ih =>
    rw [windows, List.length_cons]
    split_ifs with hle
    · have hmore : xs.length + 1 + 1 - n = xs.length + 1 - n + 1 := by omega
      rw [hmore, List.range_succ_eq_map, List.map_cons, List.map_map, ih]
      rfl
    · have hnone : xs.length + 1 + 1 - n = 0 := by omega
      rw [hnone]
      rfl

namespace Shingle

/-- How many shingles of fewer than `n` terms a run of `size` terms has. -/
def countBelow (size n : Nat) : Nat := ∑ j ∈ Finset.Ico 2 n, (size - j + 1)

/-- The value of the shingle that joins `n` terms from the one at index `i` on. -/
def joined (separator : String) (ts : List Term) (n i : Nat) : String :=
  separator.intercalate (((ts.drop i).take n).map Term.value)

/-- The shingles that join `n` terms, the first of them numbered `first`: their numbers, values and
fields. -/
def rowFrom (separator : String) (ts : List Term) (first n : Nat) :
    List (Nat × String × Option String) :=
  (List.range (ts.length - n + 1)).map fun i => (first + i, joined separator ts n i, none)

variable {opts : Options} {separator : String} {ts : List Term} {ids : TermIds} {m n size : Nat}

theorem values_eq (hn : 0 < n) (separator : String) (ts : List Term) : values separator n ts =
    (List.range (ts.length + 1 - n)).map (joined separator ts n) := by
  rw [values, windows_eq hn, List.map_map]
  rfl

theorem length_values (hn : 0 < n) (separator : String) (ts : List Term) :
    (values separator n ts).length = ts.length + 1 - n := by
  rw [values_eq hn, List.length_map, List.length_range]

theorem orders_eq_nil (h : min m size < 2) : orders m size = [] := by
  have hnone : min m size - 1 = 0 := by omega
  rw [orders, hnone, List.range'_zero]

theorem mem_orders : n ∈ orders m size ↔ 2 ≤ n ∧ n ≤ min m size := by
  rw [orders, List.mem_range'_1]
  omega

theorem takeWhile_range' {p : Nat → Bool} {a : Nat} (hp : ∀ n, a ≤ n → (p n = true ↔ n ≤ size))
    (len : Nat) : (List.range' a len).takeWhile p = List.range' a (min len (size + 1 - a)) := by
  induction len generalizing a with
  | zero => rw [Nat.zero_min, List.range'_zero, List.takeWhile_nil]
  | succ len ih =>
    have hnext : ∀ n, a + 1 ≤ n → (p n = true ↔ n ≤ size) := fun n hn => hp n (by omega)
    have ha := hp a (Nat.le_refl a)
    rw [List.range'_succ]
    by_cases hle : a ≤ size
    · have hmore : min (len + 1) (size + 1 - a) = min len (size + 1 - (a + 1)) + 1 := by omega
      rw [List.takeWhile_cons_of_pos (ha.2 hle), ih hnext, hmore, List.range'_succ]
    · have hnone : min (len + 1) (size + 1 - a) = 0 := by omega
      rw [List.takeWhile_cons_of_neg (fun h => hle (ha.1 h)), hnone, List.range'_zero]

/-- The orders are those from two on, up to the first that has no shingle. -/
theorem orders_eq_takeWhile (separator : String) (ts : List Term) (m : Nat) :
    orders m ts.length =
      (List.range' 2 (m - 1)).takeWhile fun n => !(values separator n ts).isEmpty := by
  have hany : ∀ n, 2 ≤ n → ((!(values separator n ts).isEmpty) = true ↔ n ≤ ts.length) := by
    intro n hn
    have hlength := length_values (show 0 < n by omega) separator ts
    rw [Bool.not_eq_true', List.isEmpty_eq_false_iff, ← List.length_pos_iff, hlength]
    omega
  have hsize : min (m - 1) (ts.length + 1 - 2) = min m ts.length - 1 := by omega
  rw [takeWhile_range' hany, hsize, orders]

theorem values_ne_nil (separator : String) (hn : n ∈ orders m ts.length) : values separator n ts ≠ [] := by
  rw [orders_eq_takeWhile separator] at hn
  have hsome := List.mem_takeWhile_imp hn
  rwa [Bool.not_eq_true', List.isEmpty_eq_false_iff] at hsome

theorem countBelow_succ (size : Nat) (h : 2 ≤ n) :
    countBelow size (n + 1) = countBelow size n + (size - n + 1) :=
  Finset.sum_Ico_succ_top h _

theorem countBelow_mono (size : Nat) (h : m ≤ n) : countBelow size m ≤ countBelow size n :=
  Finset.sum_le_sum_of_subset (Finset.Ico_subset_Ico_right h)

theorem runs_range' (separator : String) {ts : List Term} {a len : Nat} (ha : 0 < a)
    (hlen : a + len ≤ ts.length + 1) (ids : TermIds) :
    (runs separator ts ids (List.range' a len)).1 = (List.range' a len).map fun n =>
      ((ids.skip (∑ j ∈ Finset.Ico a n, (ts.length - j + 1))).issueAll (values separator n ts)).1 := by
  induction len generalizing a ids with
  | zero => rfl
  | succ len ih =>
    have hcount : (values separator a ts).length = ts.length - a + 1 := by
      rw [length_values ha]
      omega
    rw [List.range'_succ, runs, List.map_cons, Finset.Ico_self, Finset.sum_empty, TermIds.skip_zero]
    simp only [TermIds.issueAll_snd]
    rw [ih (Nat.succ_pos a) (by omega), hcount]
    congr 1
    apply List.map_congr_left
    intro n hn
    have hlt : a < n := (List.mem_range'_1.1 hn).1
    rw [TermIds.skip_skip, Finset.sum_eq_sum_Ico_succ_bot hlt]

theorem runs_orders (separator : String) (ts : List Term) (ids : TermIds) (m : Nat) :
    (runs separator ts ids (orders m ts.length)).1 = (orders m ts.length).map fun n =>
      ((ids.skip (countBelow ts.length n)).issueAll (values separator n ts)).1 := by
  by_cases hm : min m ts.length < 2
  · rw [orders_eq_nil hm]
    rfl
  · exact runs_range' separator (by decide) (by omega) ids

theorem length_added (opts : Options) (ts : List Term) :
    (added opts ts).length = countBelow ts.length (min opts.maxOrder.toNat ts.length + 1) := by
  have hlength : ∀ n ∈ orders opts.maxOrder.toNat ts.length,
      (values opts.separator n ts).length = ts.length - n + 1 := by
    intro n hn
    have hn := mem_orders.1 hn
    rw [length_values (by omega)]
    omega
  have hsum (len : Nat) : ((List.range' 2 (len + 1 - 2)).map fun j => ts.length - j + 1).sum =
      countBelow ts.length (len + 1) := rfl
  rw [added, List.length_flatMap, List.map_congr_left hlength, orders, ← hsum]
  rfl

/-- As long as the numbers last, each order has the numbers that it is due. -/
theorem numbers_runs_orders (separator : String) {ts : List Term} {ids : TermIds} {m : Nat}
    (hroom : ids.issued.toNat + countBelow ts.length (min m ts.length + 1) < UInt32.size) :
    (runs separator ts ids (orders m ts.length)).1.map
        (List.map fun w => (w.id.toNat, w.value, w.field)) =
      (orders m ts.length).map fun n =>
        rowFrom separator ts (ids.issued.toNat + countBelow ts.length n) n := by
  rw [runs_orders, List.map_map]
  apply List.map_congr_left
  intro n hn
  obtain ⟨htwo, hle⟩ := mem_orders.1 hn
  have hcount : ts.length + 1 - n = ts.length - n + 1 := by omega
  have hnext := countBelow_succ ts.length htwo
  have hlast := countBelow_mono ts.length (show n + 1 ≤ min m ts.length + 1 by omega)
  have hskip : (ids.skip (countBelow ts.length n)).issued.toNat =
      ids.issued.toNat + countBelow ts.length n := TermIds.toNat_skip (by omega)
  have hlength := length_values (show 0 < n by omega) separator ts
  rw [Function.comp_apply, TermIds.issueAll_numbers (by omega), hskip, values_eq (by omega), hcount,
    rowFrom]
  apply List.ext_getElem (by simp)
  intro i _ _
  simp

theorem expand_of_orders {opts : Options} {ts : List Term}
    (h : orders opts.maxOrder.toNat ts.length = []) (ids : TermIds) :
    (expand opts ts).run ids = (Expr.terms ts, ids) := by
  unfold expand
  simp only [StateT.run, h]
  rfl

/-- No order that is gone through is without a shingle. -/
theorem runs_orders_ne_nil (separator : String) (ts : List Term) (ids : TermIds) (m : Nat) :
    ∀ row ∈ (runs separator ts ids (orders m ts.length)).1, row ≠ [] := by
  rw [runs_orders]
  intro row hrow
  obtain ⟨n, hn, rfl⟩ := List.mem_map.1 hrow
  rw [← List.length_pos_iff, TermIds.issueAll_fst, List.length_mapIdx, List.length_pos_iff]
  exact values_ne_nil separator hn

theorem expand_of_two_le (h : 2 ≤ min opts.maxOrder.toNat ts.length) (ids : TermIds) :
    (expand opts ts).run ids =
      (.node .or (.run ts ::
        (runs opts.separator ts ids (orders opts.maxOrder.toNat ts.length)).1.map .run),
        ids.skip (added opts ts).length) := by
  have hts : ts ≠ [] := by
    rintro rfl
    simp at h
  have hids := (runs_eq opts.separator ts ids (orders opts.maxOrder.toNat ts.length)).2
  have hrows := runs_orders_ne_nil opts.separator ts ids opts.maxOrder.toNat
  have hsome : (runs opts.separator ts ids (orders opts.maxOrder.toNat ts.length)).1 ≠ [] := by
    rw [runs_orders, Ne, List.map_eq_nil_iff, ← List.length_eq_zero_iff, orders, List.length_range']
    omega
  unfold expand
  simp only [StateT.run]
  rw [added, ← hids]
  generalize runs opts.separator ts ids (orders opts.maxOrder.toNat ts.length) = extra at hrows hsome
  obtain ⟨rows, ids'⟩ := extra
  have hempty : rows.isEmpty = false := List.isEmpty_eq_false_iff.2 hsome
  have hterms : rows.map Expr.terms = rows.map .run :=
    List.map_congr_left fun row hrow => Expr.terms_of_ne_nil (hrows row hrow)
  have hkept : ∀ c ∈ Expr.run ts :: rows.map .run, c.isNoop = false := by
    intro c hc
    rcases List.mem_cons.1 hc with rfl | hc
    · rfl
    · obtain ⟨row, -, rfl⟩ := List.mem_map.1 hc
      rfl
  simp only [hempty, Bool.false_eq_true, if_false]
  rw [hterms, Expr.terms_of_ne_nil hts,
    Expr.compound_node (by decide) (by decide) (List.cons_ne_nil _ _) hkept]

theorem ids_expand (opts : Options) (ts : List Term) (ids : TermIds) :
    ((expand opts ts).run ids).2 = ids.skip (added opts ts).length :=
  (Expr.grown_expand opts ts ids).ids

theorem isNoop_expand (hts : ts ≠ []) (opts : Options) (ids : TermIds) :
    ((expand opts ts).run ids).1.isNoop = false := by
  by_cases h : 2 ≤ min opts.maxOrder.toNat ts.length
  · rw [expand_of_two_le h]
    rfl
  · rw [expand_of_orders (orders_eq_nil (Nat.not_le.1 h)), Expr.terms_of_ne_nil hts]
    rfl

/-- No order beyond the size of a run makes a difference. -/
theorem expand_of_le (h : ts.length ≤ opts.maxOrder.toNat) :
    expand opts ts = expand ⟨UInt64.ofNat ts.length, opts.separator⟩ ts := by
  have hsize : (UInt64.ofNat ts.length).toNat = ts.length := by
    apply UInt64.toNat_ofNat_of_lt
    exact Nat.lt_of_le_of_lt h opts.maxOrder.toNat_lt
  have horders : orders opts.maxOrder.toNat ts.length = orders ts.length ts.length := by
    rw [orders, orders, Nat.min_eq_right h, Nat.min_self]
  unfold expand
  rw [hsize, horders]

end Shingle
end SearchQuery

import SearchQuery.Proofs.Text.Word
import SearchQuery.Proofs.Toml.Quotation

/-! A number written in decimal digits is read back as that number: its digits are no other kind of value,
and none of them ends it. -/

namespace SearchQuery.Toml

variable {c : Char} {ds rest : List Char} {n m : Nat}

theorem digit?_of_isDigit (h : c.isDigit = true) : digit? 10 c = some (c.toNat - '0'.toNat) := by
  have hbounds : '0' ≤ c ∧ c ≤ '9' := by
    simp only [Char.isDigit, Bool.and_eq_true, decide_eq_true_eq] at h
    exact h
  have hnum : '0'.toNat ≤ c.toNat ∧ c.toNat ≤ '9'.toNat := Char.isDigit_iff_toNat.1 h
  have hlt : c.toNat - 0x30 < 10 := by
    have : '9'.toNat = 0x39 := rfl
    omega
  rw [digit?, hexValue?, if_pos hbounds, Option.filter_some, decide_eq_true hlt]
  rfl

theorem digitsFrom_ofDigitChars (h : ∀ c ∈ ds, c.isDigit = true) (init : Nat) :
    digitsFrom 10 init ds = some (Nat.ofDigitChars 10 ds init) := by
  induction ds generalizing init with
  | nil => rfl
  | cons c ds ih =>
    obtain ⟨hc, hds⟩ := List.forall_mem_cons.1 h
    have hunder : c ≠ '_' := by
      rintro rfl
      cases hc
    rw [digitsFrom, digit?_of_isDigit hc, Nat.ofDigitChars_cons, Nat.mul_comm 10]
    · exact ih hds _
    · exact fun d r he _ => absurd he hunder

theorem digits?_toDigits (n : Nat) : digits? 10 (Nat.toDigits 10 n) = some n := by
  have hdigits := isDigit_toDigits n
  have hvalue : Nat.ofDigitChars 10 (Nat.toDigits 10 n) 0 = n := Nat.ofDigitChars_ten_toDigits
  obtain ⟨c, ds, hds⟩ := List.exists_cons_of_ne_nil (Nat.toDigits_ne_nil (n := n) (b := 10))
  rw [hds] at hdigits hvalue ⊢
  obtain ⟨hc, hds⟩ := List.forall_mem_cons.1 hdigits
  rw [Nat.ofDigitChars_cons, Nat.mul_zero, Nat.zero_add] at hvalue
  rw [digits?, digit?_of_isDigit hc, ← hvalue]
  exact digitsFrom_ofDigitChars hds _

theorem decimal?_toDigits (n : Nat) : decimal? (Nat.toDigits 10 n) = some n := by
  unfold decimal?
  rw [if_neg]
  · exact digits?_toDigits n
  · rintro ⟨hzero, hlength⟩
    rw [eq_zero_of_head n hzero] at hlength
    exact hlength rfl

theorem sign_toDigits (n : Nat) : sign (Nat.toDigits 10 n) = (false, Nat.toDigits 10 n) := by
  have hdigits := isDigit_toDigits n
  rw [sign]
  · intro r hr
    have hsign := hdigits '+' (hr ▸ List.mem_cons_self)
    cases hsign
  · intro r hr
    have hsign := hdigits '-' (hr ▸ List.mem_cons_self)
    cases hsign

theorem integer?_toDigits (n : Nat) : integer? (Nat.toDigits 10 n) = some (n : Int) := by
  have hzero (c : Char) (r : List Char) : Nat.toDigits 10 n ≠ '0' :: c :: r := by
    intro h
    rw [eq_zero_of_head n (by rw [h]; rfl)] at h
    cases (List.cons.inj h).2
  rw [integer?]
  · rw [sign_toDigits]
    dsimp only
    rw [decimal?_toDigits]
    rfl
  · exact hzero 'x'
  · exact hzero 'o'
  · exact hzero 'b'

theorem scalar?_toDigits (n : Nat) : scalar? (Nat.toDigits 10 n) = some (.integer n) := by
  have hdigits := isDigit_toDigits n
  have htrue : Nat.toDigits 10 n ≠ ['t', 'r', 'u', 'e'] := by
    intro h
    have hletter := hdigits 't' (by simp [h])
    cases hletter
  have hfalse : Nat.toDigits 10 n ≠ ['f', 'a', 'l', 's', 'e'] := by
    intro h
    have hletter := hdigits 'f' (by simp [h])
    cases hletter
  rw [scalar?, if_neg htrue, if_neg hfalse, integer?_toDigits]

theorem not_endsScalar (h : c.isDigit = true) : endsScalar c = false := by
  rw [← Bool.not_eq_true]
  intro hc
  simp only [endsScalar, Bool.or_eq_true, beq_iff_eq] at hc
  rcases hc with (((((((rfl | rfl) | rfl) | rfl) | rfl) | rfl) | rfl) | rfl) | rfl <;> cases h

theorem not_isBlank (h : c.isDigit = true) : isBlank c = false := by
  rw [← Bool.not_eq_true]
  intro hc
  simp only [isBlank, Bool.or_eq_true, beq_iff_eq] at hc
  rcases hc with rfl | rfl <;> cases h

theorem dropBlanksAtEnd_of_not_blank (h : ∀ c ∈ ds, isBlank c = false) : dropBlanksAtEnd ds = ds := by
  rw [dropBlanksAtEnd]
  cases hds : ds.reverse with
  | nil =>
    rw [← List.reverse_reverse ds, hds]
    rfl
  | cons c r =>
    have hc : isBlank c = false := h c (by rw [← List.mem_reverse, hds]; exact List.mem_cons_self)
    rw [List.dropWhile_cons, hc, if_neg Bool.false_ne_true, ← hds, List.reverse_reverse]

theorem bare_toDigits (n : Nat) (h : (Nat.toDigits 10 n ++ '\n' :: rest).length ≤ m) :
    Yields (bare m (Nat.toDigits 10 n ++ '\n' :: rest) h) (.integer n) ('\n' :: rest) := by
  have hdigits := isDigit_toDigits n
  have hends : ∀ c ∈ Nat.toDigits 10 n, (!endsScalar c) = true := by
    intro c hc
    rw [not_endsScalar (hdigits c hc)]
    rfl
  have hline : ∀ c ∈ ('\n' :: rest).head?, (!endsScalar c) = false := by
    intro c hc
    obtain rfl : '\n' = c := Option.some.inj hc
    rfl
  obtain ⟨htake, hdrop⟩ := split_word hends hline
  have hscalar : scalar? (dropBlanksAtEnd (Nat.toDigits 10 n)) = some (.integer n) := by
    rw [dropBlanksAtEnd_of_not_blank fun c hc => not_isBlank (hdigits c hc)]
    exact scalar?_toDigits n
  refine ⟨by simp only [List.length_append] at h; omega, ?_⟩
  simp only [bare, htake, hdrop, hscalar, Option.bind_eq_bind, Option.bind_some, Option.pure_def]

end SearchQuery.Toml

import Mathlib.Data.Nat.Init

/-! Words: built by one code point after another, and cut off a text by the class of their characters, as
the digits of a number are. -/

namespace SearchQuery

variable {ds rest : List Char}

theorem push_append (text : String) (c : Char) (cs : List Char) :
    text.push c ++ String.ofList cs = text ++ String.ofList (c :: cs) := by
  rw [← String.toList_inj]
  simp

theorem append_ofList_one (text : String) (c : Char) : text ++ String.ofList [c] = text.push c := by
  rw [← push_append, String.ofList_nil, String.append_empty]

theorem append_ofList_two (text : String) (b c : Char) :
    text ++ String.ofList [b, c] = (text.push b).push c := by
  rw [← push_append, append_ofList_one]

/-- A word is cut off whole, and nothing with it. -/
theorem split_word {p : Char → Bool} (h : ∀ c ∈ ds, p c = true) (hrest : ∀ c ∈ rest.head?, p c = false) :
    (ds ++ rest).takeWhile p = ds ∧ (ds ++ rest).dropWhile p = rest := by
  rw [List.takeWhile_append_of_pos h, List.dropWhile_append_of_pos h]
  cases rest with
  | nil => exact ⟨List.append_nil ds, rfl⟩
  | cons c rest =>
    rw [List.takeWhile_cons, List.dropWhile_cons, hrest c rfl, if_neg Bool.false_ne_true]
    exact ⟨List.append_nil ds, rfl⟩

theorem isDigit_toDigits (n : Nat) : ∀ c ∈ Nat.toDigits 10 n, c.isDigit = true :=
  fun _ hc => Nat.isDigit_of_mem_toDigits (by decide) (by decide) hc

/-- Only zero begins with a zero. -/
theorem eq_zero_of_head (n : Nat) (h : (Nat.toDigits 10 n).head? = some '0') : n = 0 := by
  induction n using Nat.strongRecOn with
  | ind n ih =>
    by_cases hn : n < 10
    · rw [Nat.toDigits_of_lt_base hn] at h
      exact Nat.digitChar_eq_zero.1 (Option.some.inj h)
    · obtain ⟨c, ds, hds⟩ := List.exists_cons_of_ne_nil (Nat.toDigits_ne_nil (n := n / 10) (b := 10))
      rw [Nat.toDigits_of_base_le (by decide) (by omega), hds] at h
      have hsmaller := ih (n / 10) (by omega) (by rw [hds]; exact h)
      omega

end SearchQuery

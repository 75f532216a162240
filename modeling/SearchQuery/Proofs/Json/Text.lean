import SearchQuery.Proofs.Json.Grammar
import SearchQuery.Proofs.Text.Utf8

/-! A quoted text is read one code point after the other, each in whatever way it is spelled. No spelling
begins with the closing quote, and none is the beginning of another. -/

namespace SearchQuery.Json

/-- What is read from the front of a text, and the rest. -/
abbrev Reader (α : Type) := List Char → Option (α × List Char)

def code? : Reader Nat
  | a :: b :: c :: d :: rest => do
    let i ← Toml.hexValue? a
    let j ← Toml.hexValue? b
    let k ← Toml.hexValue? c
    let l ← Toml.hexValue? d
    some (((i * 16 + j) * 16 + k) * 16 + l, rest)
  | _ => none

/-- Behind the escape of the first half of a pair, that of the second. -/
def half? : Reader Nat
  | '\\' :: 'u' :: cs => code? cs
  | _ => none

/-- What a backslash and a `u` begin. -/
def coded? : Reader Char := fun cs => do
  let (n, rest) ← code? cs
  match Utf8.scalar? 0 n with
  | some c => some (c, rest)
  | none =>
    let (m, rest) ← half? rest
    if 0xD800 ≤ n ∧ n < 0xDC00 ∧ 0xDC00 ≤ m ∧ m < 0xE000 then
      (Utf8.scalar? 0x10000 (0x10000 + (n - 0xD800) * 0x400 + (m - 0xDC00))).map (·, rest)
    else none

def spelled? : Reader Char
  | '\\' :: 'u' :: cs => coded? cs
  | '\\' :: l :: rest => (letter? l).map (·, rest)
  | c :: rest => if 0x20 ≤ c.toNat ∧ c ≠ '"' ∧ c ≠ '\\' then some (c, rest) else none
  | [] => none

/-- A text of fewer than `n` code points. -/
def quotedWithin? : Nat → Reader (List Char)
  | 0, _ => none
  | n + 1, cs =>
    match cs with
    | '"' :: rest => some ([], rest)
    | cs => do
      let (c, rest) ← spelled? cs
      let (s, rest) ← quotedWithin? n rest
      some (c :: s, rest)

def quoted? : Reader (List Char) := fun cs => quotedWithin? cs.length cs

variable {c : Char} {n : Nat} {s cs w rest : List Char}

theorem code?_eq_some : code? cs = some (n, rest) ↔ ∃ w, cs = w ++ rest ∧ Code n w := by
  constructor
  · intro h
    unfold code? at h
    split at h
    · obtain ⟨i, hi, h⟩ := Option.bind_eq_some_iff.1 h
      obtain ⟨j, hj, h⟩ := Option.bind_eq_some_iff.1 h
      obtain ⟨k, hk, h⟩ := Option.bind_eq_some_iff.1 h
      obtain ⟨l, hl, h⟩ := Option.bind_eq_some_iff.1 h
      cases h
      exact ⟨_, rfl, .mk hi hj hk hl⟩
    · cases h
  · rintro ⟨w, rfl, ⟨hi, hj, hk, hl⟩⟩
    simp [code?, hi, hj, hk, hl]

theorem half?_eq_some : half? cs = some (n, rest) ↔ ∃ w, cs = '\\' :: 'u' :: (w ++ rest) ∧ Code n w := by
  constructor
  · intro h
    unfold half? at h
    split at h
    · obtain ⟨w, rfl, hw⟩ := code?_eq_some.1 h
      exact ⟨w, rfl, hw⟩
    · cases h
  · rintro ⟨w, rfl, hw⟩
    exact code?_eq_some.2 ⟨w, rfl, hw⟩

theorem coded?_sound (h : coded? cs = some (c, rest)) :
    ∃ w, cs = w ++ rest ∧ Spelled c ('\\' :: 'u' :: w) := by
  obtain ⟨⟨n, behind⟩, hn, hread⟩ := Option.bind_eq_some_iff.1 h
  obtain ⟨v, rfl, hv⟩ := code?_eq_some.1 hn
  dsimp only at hread
  split at hread
  next hc =>
    cases hread
    obtain ⟨-, rfl⟩ := Utf8.toNat_of_scalar? hc
    exact ⟨v, rfl, .code hv⟩
  · obtain ⟨⟨m, behind⟩, hm, hread⟩ := Option.bind_eq_some_iff.1 hread
    obtain ⟨⟨hn₀, hn₁, hm₀, hm₁⟩, hread⟩ := Option.ite_none_right_eq_some.1 hread
    obtain ⟨c, hc, hread⟩ := Option.map_eq_some_iff.1 hread
    cases hread
    obtain ⟨w, rfl, hw⟩ := half?_eq_some.1 hm
    obtain ⟨-, hc⟩ := Utf8.toNat_of_scalar? hc
    have hhigh : 0xD800 + (n - 0xD800) = n := by omega
    have hlow : 0xDC00 + (m - 0xDC00) = m := by omega
    refine ⟨v ++ '\\' :: 'u' :: w, by simp, ?_⟩
    exact .pair (i := n - 0xD800) (by omega) (hhigh.symm ▸ hv) (j := m - 0xDC00) (by omega)
      (hlow.symm ▸ hw) hc

theorem coded?_complete (h : Spelled c ('\\' :: 'u' :: w)) :
    coded? (w ++ rest) = some (c, rest) := by
  cases h with
  | letter h => cases h
  | code h =>
    rw [coded?, code?_eq_some.2 ⟨_, rfl, h⟩]
    dsimp only [Option.bind_eq_bind, Option.bind_some]
    rw [Utf8.scalar?_toNat rfl (Nat.zero_le _)]
  | @pair i j v w hi hv hj hw hc =>
    -- the first half numbers no code point, so the second is asked for
    have hnone : Utf8.scalar? 0 (0xD800 + i) = none := by
      rw [Utf8.scalar?, if_neg]
      rintro ⟨-, h | h⟩ <;> omega
    have hranges : 0xD800 ≤ 0xD800 + i ∧ 0xD800 + i < 0xDC00 ∧ 0xDC00 ≤ 0xDC00 + j ∧
        0xDC00 + j < 0xE000 := by
      omega
    rw [List.append_assoc, coded?, code?_eq_some.2 ⟨v, rfl, hv⟩]
    dsimp only [Option.bind_eq_bind, Option.bind_some]
    rw [hnone, List.cons_append, List.cons_append, half?_eq_some.2 ⟨w, rfl, hw⟩]
    dsimp only [Option.bind_some]
    rw [if_pos hranges, Nat.add_sub_cancel_left, Nat.add_sub_cancel_left, ← hc,
      Utf8.scalar?_toNat rfl (by omega), Option.map_some]

theorem spelled?_sound (h : spelled? cs = some (c, rest)) : ∃ w, cs = w ++ rest ∧ Spelled c w := by
  unfold spelled? at h
  split at h
  · obtain ⟨w, rfl, hw⟩ := coded?_sound h
    exact ⟨'\\' :: 'u' :: w, rfl, hw⟩
  · obtain ⟨c, hc, h⟩ := Option.map_eq_some_iff.1 h
    cases h
    exact ⟨['\\', _], rfl, .letter hc⟩
  · obtain ⟨⟨hcontrol, hquote, hslash⟩, h⟩ := Option.ite_none_right_eq_some.1 h
    cases h
    exact ⟨[c], rfl, .plain hcontrol hquote hslash⟩
  · cases h

theorem spelled?_complete (h : Spelled c w) : spelled? (w ++ rest) = some (c, rest) := by
  cases h with
  | plain hcontrol hquote hslash =>
    rw [List.singleton_append, spelled?, if_pos ⟨hcontrol, hquote, hslash⟩]
    · intro _ hc
      exact absurd hc hslash
    · intro _ _ hc
      exact absurd hc hslash
  | @letter l h =>
    have hu : l ≠ 'u' := by
      rintro rfl
      cases h
    rw [List.cons_append, List.singleton_append, spelled?, h]
    · rfl
    · exact hu
  | code h => exact coded?_complete (.code h)
  | pair hi hv hj hw hc => exact coded?_complete (.pair hi hv hj hw hc)

theorem Spelled.head (h : Spelled c w) : ∃ d ds, w = d :: ds ∧ d ≠ '"' := by
  cases h with
  | plain hcontrol hquote hslash => exact ⟨c, [], rfl, hquote⟩
  | _ => exact ⟨_, _, rfl, by decide⟩

theorem quotedWithin?_sound (h : quotedWithin? n cs = some (s, rest)) :
    ∃ w, cs = w ++ rest ∧ Quoted s w := by
  induction n generalizing cs s with
  | zero => cases h
  | succ n ih =>
    rw [quotedWithin?.eq_def] at h
    dsimp only at h
    split at h
    · cases h
      exact ⟨['"'], rfl, .close⟩
    · obtain ⟨⟨c, behind⟩, hc, h⟩ := Option.bind_eq_some_iff.1 h
      obtain ⟨⟨s, last⟩, hs, h⟩ := Option.bind_eq_some_iff.1 h
      cases h
      obtain ⟨v, rfl, hv⟩ := spelled?_sound hc
      obtain ⟨w, rfl, hw⟩ := ih hs
      exact ⟨v ++ w, (List.append_assoc v w _).symm, .cons hv hw⟩

theorem quotedWithin?_complete (h : Quoted s w) (hn : w.length ≤ n) :
    quotedWithin? n (w ++ rest) = some (s, rest) := by
  induction h generalizing n with
  | close =>
    cases n with
    | zero => cases hn
    | succ n => rfl
  | @cons c s w cs hc _ ih =>
    obtain ⟨d, ds, rfl, hd⟩ := hc.head
    cases n with
    | zero => cases hn
    | succ n =>
      have hcs : cs.length ≤ n := by
        simp only [List.length_append, List.length_cons] at hn
        omega
      rw [List.append_assoc, quotedWithin?]
      · rw [spelled?_complete hc]
        dsimp only [Option.bind_eq_bind, Option.bind_some]
        rw [ih hcs]
        rfl
      · intro r hr
        exact hd (List.cons.inj hr).1

theorem quoted?_eq_some : quoted? cs = some (s, rest) ↔ ∃ w, cs = w ++ rest ∧ Quoted s w := by
  constructor
  · exact quotedWithin?_sound
  · rintro ⟨w, rfl, hw⟩
    exact quotedWithin?_complete hw (by simp)

end SearchQuery.Json

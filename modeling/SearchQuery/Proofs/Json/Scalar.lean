import Mathlib.Tactic.SplitIfs
import SearchQuery.Proofs.Json.Grammar
import SearchQuery.Proofs.Text.Word

/-! Decimal numbers are read by cutting them at the point and at the exponent. Every part ends where the
class of its characters ends, so there is one way to cut, and the reading is the grammar's. The words for
values are of the same characters, so that a number or a word ends where these end. -/

namespace SearchQuery.Json

instance (ds : List Char) : Decidable (Digits ds) := inferInstanceAs (Decidable (_ ∧ _))

instance (ds : List Char) : Decidable (Whole ds) := inferInstanceAs (Decidable (_ ∧ _))

def unsigned? (ds : List Char) : Option Int := if Digits ds then some (natural ds) else none

def signed? : List Char → Option Int
  | '+' :: ds => unsigned? ds
  | '-' :: ds => (unsigned? ds).map (- ·)
  | ds => unsigned? ds

def exponent? : List Char → Option Int
  | [] => some 0
  | e :: cs => if e = 'e' ∨ e = 'E' then signed? cs else none

/-- The digits behind a point, and the rest; without a point there are none. -/
def fraction? : List Char → Option (List Char × List Char)
  | '.' :: cs =>
    if Digits (cs.takeWhile Char.isDigit) then
      some (cs.takeWhile Char.isDigit, cs.dropWhile Char.isDigit)
    else none
  | cs => some ([], cs)

def decimal? (cs : List Char) : Option Rat := do
  let ws := cs.takeWhile Char.isDigit
  let (fs, ds) ← fraction? (cs.dropWhile Char.isDigit)
  let k ← exponent? ds
  if Whole ws then some (decimal ws fs k) else none

def number? : List Char → Option Rat
  | '-' :: cs => (decimal? cs).map (- ·)
  | cs => decimal? cs

/-- The characters of numbers and of the words for values. -/
def isScalarChar (c : Char) : Bool := c.isAlphanum || c == '+' || c == '-' || c == '.'

def scalar? (w : List Char) : Option Value :=
  if w = ['n', 'u', 'l', 'l'] then some .null
  else if w = ['t', 'r', 'u', 'e'] then some (.bool true)
  else if w = ['f', 'a', 'l', 's', 'e'] then some (.bool false)
  else (number? w).map .number

variable {c : Char} {k : Int} {q : Rat} {v : Value} {cs ds fs rest w : List Char}

theorem unsigned?_eq_some : unsigned? ds = some k ↔ Digits ds ∧ (natural ds : Int) = k := by
  rw [unsigned?, Option.ite_none_right_eq_some, Option.some.injEq]

theorem Digits.head (h : Digits (c :: ds)) : c.isDigit = true := h.2 c List.mem_cons_self

theorem signed?_digits (h : Digits ds) : signed? ds = unsigned? ds := by
  obtain ⟨c, ds, rfl⟩ := List.exists_cons_of_ne_nil h.1
  rw [signed?]
  · intro cs hcs
    obtain ⟨rfl, -⟩ := List.cons.inj hcs
    cases h.head
  · intro cs hcs
    obtain ⟨rfl, -⟩ := List.cons.inj hcs
    cases h.head

theorem exponent?_eq_some : exponent? cs = some k ↔ Exponent k cs := by
  constructor
  · intro h
    unfold exponent? at h
    split at h
    · cases h
      exact .none
    · obtain ⟨he, h⟩ := Option.ite_none_right_eq_some.1 h
      unfold signed? at h
      split at h
      · obtain ⟨hds, rfl⟩ := unsigned?_eq_some.1 h
        exact .plus he hds
      · obtain ⟨n, hn, rfl⟩ := Option.map_eq_some_iff.1 h
        obtain ⟨hds, rfl⟩ := unsigned?_eq_some.1 hn
        exact .minus he hds
      · obtain ⟨hds, rfl⟩ := unsigned?_eq_some.1 h
        exact .unsigned he hds
  · intro h
    cases h with
    | none => rfl
    | unsigned he h => rw [exponent?, if_pos he, signed?_digits h, unsigned?, if_pos h]
    | plus he h => rw [exponent?, if_pos he, signed?, unsigned?, if_pos h]
    | minus he h => rw [exponent?, if_pos he, signed?, unsigned?, if_pos h, Option.map_some]

theorem Exponent.not_digit (h : Exponent k cs) : ∀ c ∈ cs.head?, c.isDigit = false := by
  cases h with
  | none => exact nofun
  | unsigned he | plus he | minus he =>
    intro c hc
    obtain rfl := Option.some.inj hc
    rcases he with rfl | rfl <;> rfl

theorem Exponent.not_point (h : Exponent k cs) : ∀ c ∈ cs.head?, c ≠ '.' := by
  cases h with
  | none => exact nofun
  | unsigned he | plus he | minus he =>
    intro c hc
    obtain rfl := Option.some.inj hc
    rcases he with rfl | rfl <;> decide

theorem fraction?_of_not_point (h : ∀ c ∈ cs.head?, c ≠ '.') : fraction? cs = some ([], cs) := by
  rw [fraction?]
  intro ds hcs
  subst hcs
  exact h '.' rfl rfl

/-- A fraction and what is behind it. -/
theorem fraction?_eq_some (h : fraction? cs = some (fs, rest)) :
    ∃ ds, cs = ds ++ rest ∧ Fraction fs ds := by
  unfold fraction? at h
  split at h
  · next cs =>
    obtain ⟨hds, h⟩ := Option.ite_none_right_eq_some.1 h
    cases h
    exact ⟨'.' :: cs.takeWhile Char.isDigit, by simp, .some hds⟩
  · cases h
    exact ⟨[], rfl, .none⟩

theorem fraction?_append (h : Fraction fs ds) (hk : Exponent k rest) :
    fraction? (ds ++ rest) = some (fs, rest) := by
  cases h with
  | none => exact fraction?_of_not_point hk.not_point
  | some h =>
    obtain ⟨htake, hdrop⟩ := split_word h.2 hk.not_digit
    rw [List.cons_append, fraction?, htake, hdrop, if_pos h]

theorem Fraction.not_digit (h : Fraction fs ds) (hk : Exponent k rest) :
    ∀ c ∈ (ds ++ rest).head?, c.isDigit = false := by
  cases h with
  | none => exact hk.not_digit
  | some h =>
    intro c hc
    obtain rfl := Option.some.inj hc
    rfl

theorem decimal?_eq_some : decimal? cs = some q ↔ Decimal q cs := by
  constructor
  · intro h
    obtain ⟨⟨fs, ds⟩, hfs, h⟩ := Option.bind_eq_some_iff.1 h
    obtain ⟨k, hk, h⟩ := Option.bind_eq_some_iff.1 h
    obtain ⟨hws, h⟩ := Option.ite_none_right_eq_some.1 h
    obtain ⟨ds', hcs, hfs⟩ := fraction?_eq_some hfs
    cases h
    have hall := Decimal.mk hws hfs (exponent?_eq_some.1 hk)
    rwa [← hcs, List.takeWhile_append_dropWhile] at hall
  · intro h
    cases h with
    | @mk ws fs cs ds k hws hfs hk =>
      obtain ⟨htake, hdrop⟩ := split_word hws.1.2 (hfs.not_digit hk)
      rw [decimal?, htake, hdrop, fraction?_append hfs hk]
      simp [exponent?_eq_some.2 hk, hws]

theorem Decimal.head (h : Decimal q cs) : ∃ c ds, cs = c :: ds ∧ c.isDigit = true := by
  cases h with
  | mk hws =>
    obtain ⟨c, ds, rfl⟩ := List.exists_cons_of_ne_nil hws.1.1
    exact ⟨c, _, rfl, hws.1.head⟩

theorem number?_eq_some : number? cs = some q ↔ Number q cs := by
  constructor
  · intro h
    unfold number? at h
    split at h
    · obtain ⟨q, hq, rfl⟩ := Option.map_eq_some_iff.1 h
      exact .minus (decimal?_eq_some.1 hq)
    · exact .plain (decimal?_eq_some.1 h)
  · intro h
    cases h with
    | plain h =>
      obtain ⟨c, ds, rfl, hc⟩ := h.head
      rw [number?]
      · exact decimal?_eq_some.2 h
      · intro cs hcs
        obtain ⟨rfl, -⟩ := List.cons.inj hcs
        cases hc
    | minus h => rw [number?, decimal?_eq_some.2 h, Option.map_some]

theorem scalar?_sound (h : scalar? w = some v) : Written (.value v) w := by
  unfold scalar? at h
  split_ifs at h with hnull htrue hfalse
  · cases h
    subst hnull
    exact .null
  · cases h
    subst htrue
    exact .yes
  · cases h
    subst hfalse
    exact .no
  · obtain ⟨q, hq, rfl⟩ := Option.map_eq_some_iff.1 h
    exact .number (number?_eq_some.1 hq)

theorem isScalarChar_of_isDigit (h : c.isDigit = true) : isScalarChar c = true := by
  simp [isScalarChar, Char.isAlphanum, h]

theorem of_isScalarChar (h : isScalarChar c = true) : isBlank c = false ∧ c ≠ '"' ∧
    (c ≠ '[' ∧ c ≠ ']') ∧ c ≠ '\x7b' ∧ c ≠ '\x7d' := by
  refine ⟨?_, ?_, ⟨?_, ?_⟩, ?_, ?_⟩
  · cases hb : isBlank c with
    | false => rfl
    | true =>
      simp only [isBlank, Bool.or_eq_true, beq_iff_eq] at hb
      rcases hb with ((rfl | rfl) | rfl) | rfl <;> cases h
  all_goals
    rintro rfl
    cases h

theorem Digits.isScalarChar (h : Digits ds) : ∀ c ∈ ds, isScalarChar c = true :=
  fun c hc => isScalarChar_of_isDigit (h.2 c hc)

theorem Decimal.isScalarChar (h : Decimal q w) : ∀ c ∈ w, isScalarChar c = true := by
  cases h with
  | mk hws hfs hk =>
    intro c hc
    rcases List.mem_append.1 hc with hc | hc
    · exact hws.1.isScalarChar c hc
    rcases List.mem_append.1 hc with hc | hc
    · cases hfs with
      | none => cases hc
      | some h =>
        rcases List.mem_cons.1 hc with rfl | hc
        · rfl
        · exact h.isScalarChar c hc
    · cases hk with
      | none => cases hc
      | unsigned he h =>
        rcases List.mem_cons.1 hc with rfl | hc
        · rcases he with rfl | rfl <;> rfl
        · exact h.isScalarChar c hc
      | plus he h | minus he h =>
        rcases List.mem_cons.1 hc with rfl | hc
        · rcases he with rfl | rfl <;> rfl
        rcases List.mem_cons.1 hc with rfl | hc
        · rfl
        · exact h.isScalarChar c hc

theorem Number.isScalarChar (h : Number q w) : ∀ c ∈ w, isScalarChar c = true := by
  cases h with
  | plain h => exact h.isScalarChar
  | minus h =>
    intro c hc
    rcases List.mem_cons.1 hc with rfl | hc
    · rfl
    · exact h.isScalarChar c hc

theorem Number.head (h : Number q w) : ∃ c ds, w = c :: ds ∧ (c = '-' ∨ c.isDigit = true) := by
  cases h with
  | plain h =>
    obtain ⟨c, ds, rfl, hc⟩ := h.head
    exact ⟨c, ds, rfl, .inr hc⟩
  | minus h => exact ⟨'-', _, rfl, .inl rfl⟩

theorem scalar?_number (h : Number q w) : scalar? w = some (.number q) := by
  obtain ⟨c, ds, rfl, hc⟩ := h.head
  -- none of the words begins with a digit or a sign
  have hletter {d : Char} {r : List Char} (hd : d.isDigit = false) (hminus : d ≠ '-') :
      c :: ds ≠ d :: r := by
    intro heq
    obtain ⟨rfl, -⟩ := List.cons.inj heq
    rcases hc with hc | hc
    · exact hminus hc
    · rw [hd] at hc
      cases hc
  rw [scalar?, if_neg (hletter rfl (by decide)), if_neg (hletter rfl (by decide)),
    if_neg (hletter rfl (by decide)), number?_eq_some.2 h, Option.map_some]

end SearchQuery.Json

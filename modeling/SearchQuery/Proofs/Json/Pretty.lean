import SearchQuery.Json
import SearchQuery.Proofs.Json.Reader

/-! The indented text of a value is one of the texts that the grammar lets it be written as, so it is read
back as that value. -/

namespace SearchQuery.Json

mutual

/-- What is there to be read. -/
def value : Json → Value
  | .number n => .number n
  | .text s => .text s
  | .list vs => .list (values vs)
  | .object ms => .object (valuesOf ms)

def values : List Json → List Value
  | [] => []
  | v :: vs => value v :: values vs

def valuesOf : List (String × Json) → List (String × Value)
  | [] => []
  | (name, v) :: ms => (name, value v) :: valuesOf ms

end

variable {a b w : List Char} {v : Value}

theorem values_eq (vs : List Json) : values vs = vs.map value := by
  induction vs with
  | nil => rfl
  | cons v vs ih => rw [values, ih, List.map_cons]

theorem hexValue?_hexDigit : ∀ d < 16, Toml.hexValue? (hexDigit d) = some d := by decide

theorem spelled_escapedChar (c : Char) : Spelled c (escapedChar c) := by
  unfold escapedChar
  split
  case h_8 hquote hslash _ _ _ _ _ =>
    split
    next hcontrol =>
      have hzero : Toml.hexValue? '0' = some 0 := rfl
      have hhigh := hexValue?_hexDigit (c.toNat / 16) (by omega)
      have hlow := hexValue?_hexDigit (c.toNat % 16) (by omega)
      have hcode := Code.mk hzero hzero hhigh hlow
      have hnumber : ((0 * 16 + 0) * 16 + c.toNat / 16) * 16 + c.toNat % 16 = c.toNat := by omega
      rw [hnumber] at hcode
      exact .code hcode
    next hcontrol => exact .plain (Nat.le_of_not_lt hcontrol) hquote hslash
  all_goals exact .letter rfl

theorem quoted_flatMap (s : List Char) : Quoted s (s.flatMap escapedChar ++ ['"']) := by
  induction s with
  | nil => exact .close
  | cons c s ih =>
    rw [List.flatMap_cons, List.append_assoc]
    exact .cons (spelled_escapedChar c) ih

theorem written_text (s : String) : Written (.value (.text s)) (quotedChars s) := by
  have htext := Written.text (quoted_flatMap s.toList)
  rwa [String.ofList_toList] at htext

theorem written_number (n : Nat) : Written (.value (.number n)) (Nat.toDigits 10 n) := by
  have hdigits : Digits (Nat.toDigits 10 n) := ⟨Nat.toDigits_ne_nil, isDigit_toDigits n⟩
  have hwhole : Whole (Nat.toDigits 10 n) := by
    refine ⟨hdigits, fun hzero => ?_⟩
    rw [eq_zero_of_head n hzero]
    rfl
  have hvalue : natural (Nat.toDigits 10 n) = n := Nat.ofDigitChars_ten_toDigits
  have hdecimal := Decimal.mk hwhole .none .none
  rw [decimal, List.append_nil, hvalue, List.append_nil, List.append_nil] at hdecimal
  have hnumber : (n : Rat) * 10 ^ ((0 : Int) - ([] : List Char).length) = n := by
    simp
  rw [hnumber] at hdecimal
  exact .number (.plain hdecimal)

theorem blank_lineStart (depth : Nat) : Blank (lineStart depth) := by
  intro c hc
  rcases List.mem_cons.1 hc with rfl | hc
  · rfl
  · rw [List.eq_of_mem_replicate hc]
    rfl

theorem written_member (name : String) (ha : Blank a) (h : Written (.value v) w) (hb : Blank b) :
    Written (.member (name, v)) (a ++ quotedChars name ++ [':', ' '] ++ w ++ b) := by
  have hspace : Blank [' '] := List.forall_mem_singleton.2 rfl
  have hmember := Written.member ha (quoted_flatMap name.toList) (b := []) nofun (.element hspace h hb)
  rw [String.ofList_toList] at hmember
  simpa [quotedChars] using hmember

mutual

theorem written_chars (depth : Nat) (j : Json) : Written (.value j.value) (chars depth j) := by
  cases j with
  | number n => exact written_number n
  | text s => exact written_text s
  | list vs =>
    cases vs with
    | nil => exact .emptyList (b := []) nofun
    | cons v vs =>
      obtain ⟨cs, hcs, hw⟩ := written_moreItems depth vs (blank_lineStart (depth + 1))
        (written_chars (depth + 1) v)
      rw [chars, hcs]
      exact .list hw
  | object ms =>
    cases ms with
    | nil => exact .emptyObject (b := []) nofun
    | cons m ms =>
      obtain ⟨name, v⟩ := m
      obtain ⟨cs, hcs, hw⟩ := written_moreMembers depth ms name (blank_lineStart (depth + 1))
        (written_chars (depth + 1) v)
      rw [chars, hcs]
      exact .object hw

theorem written_moreItems (depth : Nat) (vs : List Json) {a w : List Char} {v : Value}
    (ha : Blank a) (h : Written (.value v) w) :
    ∃ cs, a ++ w ++ moreItems depth vs = cs ++ [']'] ∧ Written (.elements (v :: values vs)) cs := by
  cases vs with
  | nil =>
    -- the line of the closing bracket begins with blanks, which belong to the last item
    refine ⟨a ++ (w ++ lineStart depth), ?_, .lastElement (.element ha h (blank_lineStart depth))⟩
    simp [moreItems]
  | cons u us =>
    obtain ⟨cs, hcs, hw⟩ := written_moreItems depth us (blank_lineStart (depth + 1))
      (written_chars (depth + 1) u)
    refine ⟨a ++ (w ++ []) ++ ',' :: cs, ?_, .moreElements (.element ha h nofun) hw⟩
    rw [moreItems, hcs]
    simp

theorem written_moreMembers (depth : Nat) (ms : List (String × Json)) (name : String)
    {a w : List Char} {v : Value} (ha : Blank a) (h : Written (.value v) w) :
    ∃ cs, a ++ quotedChars name ++ [':', ' '] ++ w ++ moreMembers depth ms = cs ++ ['\x7d'] ∧
      Written (.members ((name, v) :: valuesOf ms)) cs := by
  cases ms with
  | nil =>
    have hmember := written_member name ha h (blank_lineStart depth)
    refine ⟨_, ?_, .lastMember hmember⟩
    simp [moreMembers]
  | cons m ms =>
    obtain ⟨other, u⟩ := m
    obtain ⟨cs, hcs, hw⟩ := written_moreMembers depth ms other (blank_lineStart (depth + 1))
      (written_chars (depth + 1) u)
    have hmember := written_member name ha h (b := []) nofun
    refine ⟨_, ?_, .moreMembers hmember hw⟩
    rw [moreMembers, hcs]
    simp

end

/-- The reader gets the value back. -/
theorem read?_pretty (j : Json) : read? j.pretty = some j.value := by
  apply read?_eq_some.2
  have hwritten := Written.element (a := []) (b := []) nofun (written_chars 0 j) nofun
  rwa [List.nil_append, List.append_nil, ← String.toList_ofList (l := chars 0 j)] at hwritten

end SearchQuery.Json

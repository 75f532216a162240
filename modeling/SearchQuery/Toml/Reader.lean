import SearchQuery.Toml.Document
import SearchQuery.Toml.Value

/-! The TOML reader, for version 1.1 of the format. It says what a document holds or that it is
none; every function returns what it has not read. -/

namespace SearchQuery.Toml

/-! ### Texts in quotes

Between double quotes there are escapes, between apostrophes there are none; either may go over
several lines between tripled quotes. Each function reads what follows the opening quote. -/

def hexChar? (digits : List Char) : Option Char := do
  let n ← digits.foldlM (fun n c => do return n * 16 + (← hexValue? c)) 0
  if n.isValidChar then some (Char.ofNat n) else none

def plainEscape? : Char → Option Char
  | 'b' => some '\x08'
  | 't' => some '\t'
  | 'n' => some '\n'
  | 'f' => some '\x0c'
  | 'r' => some '\r'
  | 'e' => some '\x1b'
  | '"' => some '"'
  | '\\' => some '\\'
  | _ => none

def escape? (n : Nat) (s : List Char) (h : s.length ≤ n) : Option (Front Char n) :=
  match s, h with
  | 'x' :: a :: b :: r, h => do
    return ⟨← hexChar? [a, b], r, Nat.le_trans (Nat.le_add_right _ 3) h⟩
  | 'u' :: a :: b :: c :: d :: r, h => do
    return ⟨← hexChar? [a, b, c, d], r, Nat.le_trans (Nat.le_add_right _ 5) h⟩
  | 'U' :: a :: b :: c :: d :: e :: f :: g :: i :: r, h => do
    return ⟨← hexChar? [a, b, c, d, e, f, g, i], r, Nat.le_trans (Nat.le_add_right _ 9) h⟩
  | c :: r, h => do return ⟨← plainEscape? c, r, Nat.le_of_succ_le h⟩
  | [], _ => none

def basic (n : Nat) (done : String) (s : List Char) (h : s.length ≤ n) : Option (Front String n) :=
  match s, h with
  | [], _ => none
  | '"' :: r, h => some ⟨done, r, Nat.le_of_succ_le h⟩
  | '\\' :: r, h => do
    let e ← escape? r.length r (Nat.le_refl _)
    basic n (done.push e.value) e.rest (Nat.le_trans e.le (Nat.le_of_succ_le h))
  | c :: r, h => if isAllowed c then basic n (done.push c) r (Nat.le_of_succ_le h) else none
termination_by s.length
decreasing_by
  · exact Nat.lt_succ_of_le e.le
  · exact Nat.lt_succ_self _

def literal (n : Nat) (done : String) (s : List Char) (h : s.length ≤ n) :
    Option (Front String n) :=
  match s, h with
  | [], _ => none
  | '\x27' :: r, h => some ⟨done, r, Nat.le_of_succ_le h⟩
  | c :: r, h => if isAllowed c then literal n (done.push c) r (Nat.le_of_succ_le h) else none

/-- A quote that closes a text of several lines is the first of three, and up to two more in
front of it belong to the text: how many, and what follows. -/
def closing? (quote : Char) (n : Nat) (s : List Char) (h : s.length ≤ n) : Option (Front Nat n) :=
  match s, h with
  | a :: b :: c :: d :: e :: r, h =>
    if [a, b, c, d, e] = List.replicate 5 quote then
      some ⟨2, r, by simp only [List.length_cons] at h; omega⟩
    else if [a, b, c, d] = List.replicate 4 quote then
      some ⟨1, e :: r, by simp only [List.length_cons] at h ⊢; omega⟩
    else if [a, b, c] = List.replicate 3 quote then
      some ⟨0, d :: e :: r, by simp only [List.length_cons] at h ⊢; omega⟩
    else none
  | [a, b, c, d], h =>
    if [a, b, c, d] = List.replicate 4 quote then some ⟨1, [], Nat.zero_le _⟩
    else if [a, b, c] = List.replicate 3 quote then
      some ⟨0, [d], by simp only [List.length_cons] at h ⊢; omega⟩
    else none
  | [a, b, c], _ =>
    if [a, b, c] = List.replicate 3 quote then some ⟨0, [], Nat.zero_le _⟩ else none
  | _, _ => none

/-- Behind the opening quotes a newline is not part of the text. -/
def dropNewline : List Char → List Char
  | '\n' :: r => r
  | '\r' :: '\n' :: r => r
  | s => s

theorem dropNewline_length (s : List Char) : (dropNewline s).length ≤ s.length := by
  unfold dropNewline
  split
  · exact Nat.le_succ _
  · simp only [List.length_cons]; omega
  · exact Nat.le_refl _

def skipLines : List Char → List Char
  | [] => []
  -- a carriage return counts only before a newline
  | '\r' :: '\n' :: r => skipLines r
  | c :: r => if isBlank c || c == '\n' then skipLines r else c :: r

theorem skipLines_length (s : List Char) : (skipLines s).length ≤ s.length := by
  fun_induction skipLines s with
  | case1 => exact Nat.le_refl _
  | case2 r ih => simp only [List.length_cons]; omega
  | case3 c r _ _ ih => simp only [List.length_cons]; omega
  | case4 c r _ _ => exact Nat.le_refl _

/-- A backslash at the end of a line joins the line to the next code point that shows: what
follows, if the text behind a backslash is such a line end. -/
def joined? (s : List Char) : Option (List Char) :=
  match skipBlank s with
  | '\n' :: r => some (skipLines r)
  | '\r' :: '\n' :: r => some (skipLines r)
  | _ => none

theorem joined?_length {s r : List Char} (h : joined? s = some r) : r.length ≤ s.length := by
  unfold joined? at h
  have le := skipBlank_length s
  split at h
  · next t e =>
    have := skipLines_length t
    simp only [Option.some.injEq] at h
    rw [e, List.length_cons] at le
    rw [← h]; omega
  · next t e =>
    have := skipLines_length t
    simp only [Option.some.injEq] at h
    rw [e, List.length_cons, List.length_cons] at le
    rw [← h]; omega
  · simp at h

def mayStand (c : Char) (r : List Char) : Bool :=
  isAllowed c || c == '\n' || (c == '\r' && r.head? == some '\n')

def basicLines (n : Nat) (done : String) (s : List Char) (h : s.length ≤ n) :
    Option (Front String n) :=
  match s, h with
  | [], _ => none
  | '"' :: r, h =>
    match closing? '"' n ('"' :: r) h with
    | some p => some (p.map fun k => done ++ String.ofList (List.replicate k '"'))
    | none => basicLines n (done.push '"') r (Nat.le_of_succ_le h)
  | '\\' :: r, h =>
    match e : joined? r with
    | some r' =>
      have le := joined?_length e
      basicLines n done r' (Nat.le_trans le (Nat.le_of_succ_le h))
    | none => do
      let e ← escape? r.length r (Nat.le_refl _)
      basicLines n (done.push e.value) e.rest (Nat.le_trans e.le (Nat.le_of_succ_le h))
  | c :: r, h =>
    if mayStand c r then basicLines n (done.push c) r (Nat.le_of_succ_le h) else none
termination_by s.length
decreasing_by
  · exact Nat.lt_succ_self _
  · exact Nat.lt_succ_of_le le
  · exact Nat.lt_succ_of_le e.le
  · exact Nat.lt_succ_self _

def literalLines (n : Nat) (done : String) (s : List Char) (h : s.length ≤ n) :
    Option (Front String n) :=
  match s, h with
  | [], _ => none
  | '\x27' :: r, h =>
    match closing? '\x27' n ('\x27' :: r) h with
    | some p => some (p.map fun k => done ++ String.ofList (List.replicate k '\x27'))
    | none => literalLines n (done.push '\x27') r (Nat.le_of_succ_le h)
  | c :: r, h =>
    if mayStand c r then literalLines n (done.push c) r (Nat.le_of_succ_le h) else none

/-! ### Keys, values and statements -/

/-- What stands between the parts of a value in brackets: blanks, newlines and comments. -/
def filler (inComment : Bool) (s : List Char) : Option (List Char) :=
  match s with
  | [] => some []
  | '\n' :: r => filler false r
  | '\r' :: '\n' :: r => filler false r
  | c :: r =>
    if inComment then if isAllowed c then filler true r else none
    else if isBlank c then filler false r
    else if c = '#' then filler true r
    else some (c :: r)

theorem filler_length (inComment : Bool) (s r : List Char) (h : filler inComment s = some r) :
    r.length ≤ s.length := by
  fun_induction filler inComment s with
  | case1 => simp_all
  | case2 b s ih => have := ih h; simp only [List.length_cons]; omega
  | case3 b s ih => have := ih h; simp only [List.length_cons]; omega
  | case4 c s _ _ _ ih => have := ih h; simp only [List.length_cons]; omega
  | case5 => simp at h
  | case6 b c s _ _ _ _ ih => have := ih h; simp only [List.length_cons]; omega
  | case7 b s _ _ _ _ ih => have := ih h; simp only [List.length_cons]; omega
  | case8 => simp_all

/-- The end of a statement: blanks and a comment, up to and with the end of the line. -/
def lineEnd (inComment : Bool) (s : List Char) : Option (List Char) :=
  match s with
  | [] => some []
  | '\n' :: r => some r
  | '\r' :: '\n' :: r => some r
  | c :: r =>
    if inComment then if isAllowed c then lineEnd true r else none
    else if isBlank c then lineEnd false r
    else if c = '#' then lineEnd true r
    else none

theorem lineEnd_length (inComment : Bool) (s r : List Char) (h : lineEnd inComment s = some r) :
    r.length ≤ s.length := by
  fun_induction lineEnd inComment s with
  | case1 => simp_all
  | case2 => simp_all
  | case3 => simp_all; omega
  | case4 c s _ _ _ ih => have := ih h; simp only [List.length_cons]; omega
  | case5 => simp at h
  | case6 b c s _ _ _ _ ih => have := ih h; simp only [List.length_cons]; omega
  | case7 b s _ _ _ _ ih => have := ih h; simp only [List.length_cons]; omega
  | case8 => simp at h

def isKeyChar (c : Char) : Bool := c.isAlphanum || c == '_' || c == '-'

def keyPart (n : Nat) (s : List Char) (h : s.length ≤ n) : Option (Front String n) :=
  match s, h with
  | '"' :: r, h => basic n "" r (Nat.le_of_succ_le h)
  | '\x27' :: r, h => literal n "" r (Nat.le_of_succ_le h)
  | s, h =>
    let word := s.takeWhile isKeyChar
    if word.isEmpty then none
    else some ⟨String.ofList word, s.dropWhile isKeyChar,
      Nat.le_trans (List.dropWhile_suffix _).length_le h⟩

/-- More brackets inside one another are refused, and so are more parts of one key. -/
def maxDepth : Nat := 80

def key (n : Nat) (done : List String) (s : List Char) (h : s.length ≤ n) :
    Option (Front (List String) n) := do
  let part ← keyPart s.length (skipBlank s) (skipBlank_length s)
  if done.length = maxDepth then none
  let done := done ++ [part.value]
  have le := Nat.le_trans (skipBlank_length part.rest) part.le
  match e : skipBlank part.rest with
  | '.' :: r => key n done r (by rw [e] at le; exact Nat.le_of_succ_le (Nat.le_trans le h))
  | r => some ⟨done, r, by rw [e] at le; exact Nat.le_trans le h⟩
termination_by s.length
decreasing_by rw [e] at le; exact le

def spacing (inBraces : Bool) (s : List Char) : Option (List Char) :=
  if inBraces then filler false s else some (skipBlank s)

theorem spacing_length (inBraces : Bool) (s r : List Char) (h : spacing inBraces s = some r) :
    r.length ≤ s.length := by
  unfold spacing at h
  split at h
  · exact filler_length _ _ _ h
  · simp only [Option.some.injEq] at h
    exact h ▸ skipBlank_length s

def keyEquals (n : Nat) (inBraces : Bool) (s : List Char) (h : s.length ≤ n + 1) :
    Option (Front (List String) n) := do
  let k ← key s.length [] s (Nat.le_refl _)
  match e : spacing inBraces k.rest with
  | some ('=' :: r) =>
    match e' : spacing inBraces r with
    | some rest =>
      some ⟨k.value, rest, by
        have le := spacing_length _ _ _ e
        have le' := spacing_length _ _ _ e'
        have := k.le
        simp only [List.length_cons] at le
        omega⟩
    | none => none
  | _ => none

def leaf (n : Nat) (s : List Char) (h : s.length ≤ n) : Option (Front Value n) :=
  match s, h with
  | '"' :: '"' :: '"' :: r, h =>
    (basicLines n "" (dropNewline r) (by
      have := dropNewline_length r
      simp only [List.length_cons] at h
      omega)).map (·.map Value.text)
  | '\x27' :: '\x27' :: '\x27' :: r, h =>
    (literalLines n "" (dropNewline r) (by
      have := dropNewline_length r
      simp only [List.length_cons] at h
      omega)).map (·.map Value.text)
  | '"' :: r, h => (basic n "" r (Nat.le_of_succ_le h)).map (·.map Value.text)
  | '\x27' :: r, h => (literal n "" r (Nat.le_of_succ_le h)).map (·.map Value.text)
  | s, h => bare n s h

mutual

def value (n depth : Nat) (s : List Char) (h : s.length ≤ n) : Option (Front Value n) :=
  match s, h with
  | [], h => leaf n [] h
  | c :: r, h =>
    if c = '[' then
      if depth = maxDepth then none
      else (items n (depth + 1) #[] r (Nat.le_of_succ_le h)).map (·.map Value.list)
    else if c = '\x7b' then
      if depth = maxDepth then none
      else (members n (depth + 1) [] r (Nat.le_of_succ_le h)).map
        (·.map fun es => Value.table (finishEntries es))
    else leaf n (c :: r) h
termination_by (s.length, 0)
decreasing_by all_goals exact Prod.Lex.left _ _ (Nat.lt_succ_self _)

def items (n depth : Nat) (done : Array Value) (s : List Char) (h : s.length ≤ n) :
    Option (Front (List Value) n) :=
  match e : filler false s with
  | none => none
  | some (']' :: r) =>
    have le := filler_length _ _ _ e
    some ⟨done.toList, r, Nat.le_of_succ_le (Nat.le_trans le h)⟩
  | some r =>
    have le := filler_length _ _ _ e
    match value s.length depth r le with
    | none => none
    | some v =>
      match e' : filler false v.rest with
      | some (',' :: r) =>
        have le' := Nat.le_trans (filler_length _ _ _ e') v.le
        items n depth (done.push v.value) r (Nat.le_of_succ_le (Nat.le_trans le' h))
      | some (']' :: r) =>
        have le' := Nat.le_trans (filler_length _ _ _ e') v.le
        some ⟨(done.push v.value).toList, r, Nat.le_of_succ_le (Nat.le_trans le' h)⟩
      | _ => none
termination_by (s.length, 1)
decreasing_by
  · rcases Nat.lt_or_eq_of_le le with lt | eq
    · exact Prod.Lex.left _ _ lt
    · rw [eq]; exact Prod.Lex.right _ (by decide)
  · exact Prod.Lex.left _ _ le'

def members (n depth : Nat) (done : Entries) (s : List Char) (h : s.length ≤ n) :
    Option (Front Entries n) :=
  match e : filler false s with
  | none => none
  | some ('\x7d' :: r) =>
    have le := filler_length _ _ _ e
    some ⟨done, r, Nat.le_of_succ_le (Nat.le_trans le h)⟩
  | some r =>
    have le := filler_length _ _ _ e
    match keyEquals s.length true r (Nat.le_succ_of_le le) with
    | none => none
    | some k =>
      match value k.rest.length depth k.rest (Nat.le_refl _) with
      | none => none
      | some v =>
        match done.assignAt k.value v.value with
        | none => none
        | some done =>
          match e' : filler false v.rest with
          | some (',' :: r) =>
            have le' := Nat.le_trans (filler_length _ _ _ e') (Nat.le_trans v.le k.le)
            members n depth done r (Nat.le_of_succ_le (Nat.le_trans le' h))
          | some ('\x7d' :: r) =>
            have le' := Nat.le_trans (filler_length _ _ _ e') (Nat.le_trans v.le k.le)
            some ⟨done, r, Nat.le_of_succ_le (Nat.le_trans le' h)⟩
          | _ => none
termination_by (s.length, 1)
decreasing_by
  · rcases Nat.lt_or_eq_of_le k.le with lt | eq
    · exact Prod.Lex.left _ _ lt
    · rw [eq]; exact Prod.Lex.right _ (by decide)
  · exact Prod.Lex.left _ _ le'

end

def header (n : Nat) (s : List Char) (h : s.length ≤ n) : Option (Front (Bool × List String) n) :=
  match s, h with
  | '[' :: r, h => do
    let k ← key r.length [] r (Nat.le_refl _)
    match k with
    | ⟨path, ']' :: ']' :: r, le⟩ =>
      some ⟨(true, path), r, by simp only [List.length_cons] at h le; omega⟩
    | _ => none
  | s, h => do
    let k ← key n [] s h
    match k with
    | ⟨path, ']' :: r, le⟩ => some ⟨(false, path), r, Nat.le_of_succ_le le⟩
    | _ => none

def statement (n : Nat) (d : Draft) (s : List Char) (h : s.length ≤ n + 1) :
    Option (Front Draft n) :=
  match s, h with
  | '[' :: r, h => do
    let head ← header n r (Nat.le_of_succ_le_succ h)
    let d ← if head.value.1 then d.headMore head.value.2 else d.head head.value.2
    match e : lineEnd false head.rest with
    | some r => some ⟨d, r, Nat.le_trans (lineEnd_length _ _ _ e) head.le⟩
    | none => none
  | s, h => do
    let k ← keyEquals n false s h
    let v ← value n 0 k.rest k.le
    let d ← d.assign k.value v.value
    match e : lineEnd false v.rest with
    | some r => some ⟨d, r, Nat.le_trans (lineEnd_length _ _ _ e) v.le⟩
    | none => none

def statements (d : Draft) (s : List Char) : Option Draft :=
  match _e : filler false s with
  | none => none
  | some [] => some d
  | some (c :: r) =>
    match statement r.length d (c :: r) (Nat.le_refl _) with
    | none => none
    | some d => statements d.value d.rest
termination_by s.length
decreasing_by exact Nat.lt_of_le_of_lt d.le (filler_length _ _ _ _e)

def dropByteOrderMark : List Char → List Char
  | '\uFEFF' :: r => r
  | s => s

def read (text : String) : Option (List (String × Value)) :=
  (statements .empty (dropByteOrderMark text.toList)).map fun d => finishEntries d.entries

end SearchQuery.Toml

/-! The values of a TOML document, and the reading of those that are written without quotes. Numbers
other than integers and points in time are kept as they are written, since nothing here computes
with them. -/

namespace SearchQuery.Toml

inductive Value where
  | text (s : String)
  | integer (n : Int)
  /-- A number with a fraction, or one whose digits do not read. -/
  | number (literal : String)
  | boolean (b : Bool)
  | moment (literal : String)
  | list (items : List Value)
  | table (entries : List (String × Value))
  deriving Repr, Inhabited

/-- What was read from the front of a text, leaving at most `n` code points. -/
structure Front (α : Type) (n : Nat) where
  value : α
  rest : List Char
  le : rest.length ≤ n

def Front.map {α β : Type} {n : Nat} (f : α → β) (p : Front α n) : Front β n :=
  ⟨f p.value, p.rest, p.le⟩

def isBlank (c : Char) : Bool := c == ' ' || c == '\t'

/-- Controls may not be written out; the tab is not counted as one here. -/
def isAllowed (c : Char) : Bool := c == '\t' || (0x20 ≤ c.toNat && c.toNat != 0x7F)

def skipBlank (s : List Char) : List Char := s.dropWhile isBlank

theorem skipBlank_length (s : List Char) : (skipBlank s).length ≤ s.length :=
  (List.dropWhile_suffix isBlank).length_le

/-! ### Truth values, numbers and points in time -/

def hexValue? (c : Char) : Option Nat :=
  if '0' ≤ c ∧ c ≤ '9' then some (c.toNat - 0x30)
  else if 'a' ≤ c ∧ c ≤ 'f' then some (c.toNat - 0x57)
  else if 'A' ≤ c ∧ c ≤ 'F' then some (c.toNat - 0x37)
  else none

def digit? (base : Nat) (c : Char) : Option Nat :=
  (hexValue? c).filter (· < base)

/-- The number that digits spell on from `n`, where a digit may have one underscore in front. -/
def digitsFrom (base n : Nat) : List Char → Option Nat
  | [] => some n
  | '_' :: c :: r => do digitsFrom base (n * base + (← digit? base c)) r
  | c :: r => do digitsFrom base (n * base + (← digit? base c)) r

def digits? (base : Nat) : List Char → Option Nat
  | [] => none
  | c :: r => do digitsFrom base (← digit? base c) r

def decimal? (s : List Char) : Option Nat :=
  if s.head? = some '0' ∧ s.length ≠ 1 then none else digits? 10 s

def sign : List Char → Bool × List Char
  | '+' :: r => (false, r)
  | '-' :: r => (true, r)
  | s => (false, s)

/-- A base other than ten is announced, and such a number has no sign. -/
def integer? (s : List Char) : Option Int :=
  match s with
  | '0' :: 'x' :: r => (digits? 16 r).map Int.ofNat
  | '0' :: 'o' :: r => (digits? 8 r).map Int.ofNat
  | '0' :: 'b' :: r => (digits? 2 r).map Int.ofNat
  | s =>
    let (negative, r) := sign s
    (decimal? r).map fun n => if negative then -(n : Int) else n

def cut (p : Char → Bool) (s : List Char) : List Char × Option (List Char) :=
  match s.dropWhile (!p ·) with
  | [] => (s, none)
  | _ :: r => (s.takeWhile (!p ·), some r)

def isFloat (s : List Char) : Bool :=
  let body := (sign s).2
  if body = ['i', 'n', 'f'] ∨ body = ['n', 'a', 'n'] then true
  else
    let (mantissa, exponent) := cut (fun c => c == 'e' || c == 'E') body
    let (whole, fraction) := cut (· == '.') mantissa
    (fraction.isSome || exponent.isSome) && (decimal? whole).isSome
      && fraction.all (fun f => (digits? 10 f).isSome)
      && exponent.all (fun e => (digits? 10 (sign e).2).isSome)

def underscoresFit : List Char → Bool
  | a :: '_' :: c :: r =>
    (hexValue? a).isSome && (hexValue? c).isSome && underscoresFit (c :: r)
  | [_, '_'] => false
  | _ :: r => underscoresFit r
  | [] => true

/-- Behind a tab a quote begins a text and is no part of a number. -/
def quotesAfterTab : List Char → Bool
  | '\t' :: c :: r => c == '"' || c == '\x27' || quotesAfterTab (c :: r)
  | _ :: r => quotesAfterTab r
  | [] => false

/-- Digits and an underscore make a number, whatever follows, and so does the announcement of a
base. It is not read until it is used, so digits that make no sense are no mistake before. -/
def isUnread (s : List Char) : Bool :=
  let r := (sign s).2
  let rest := r.dropWhile Char.isDigit
  s == ['0', 'x'] || s == ['0', 'o'] || s == ['0', 'b'] ||
    (r.head?.any (fun c => c.isDigit && c != '0') && rest.head? == some '_'
      && !rest.any (fun c => c == '.' || c == 'e' || c == 'E' || c == ' ')
      && underscoresFit r && !quotesAfterTab r)

def fixed? (count : Nat) (s : List Char) : Option Nat :=
  if s.length = count ∧ s.all Char.isDigit then digits? 10 s else none

def daysIn (year month : Nat) : Nat :=
  if month = 2 then if year % 4 = 0 ∧ (year % 100 ≠ 0 ∨ year % 400 = 0) then 29 else 28
  else if month = 4 ∨ month = 6 ∨ month = 9 ∨ month = 11 then 30
  else 31

def isDate (s : List Char) : Bool :=
  -- as in 1979-05-27
  match fixed? 4 (s.take 4), s.drop 4 with
  | some year, '-' :: r =>
    match fixed? 2 (r.take 2), r.drop 2 with
    | some month, '-' :: r =>
      (fixed? 2 r).any fun day =>
        1 ≤ month && month ≤ 12 && 1 ≤ day && day ≤ daysIn year month
    | _, _ => false
  | _, _ => false

def isClock (s : List Char) : Bool :=
  -- as in 07:32
  match fixed? 2 (s.take 2), s.drop 2 with
  | some hour, ':' :: r => (fixed? 2 r).any fun minute => hour ≤ 23 && minute ≤ 59
  | _, _ => false

def isTime (s : List Char) : Bool :=
  let (whole, fraction) := cut (· == '.') s
  isClock (whole.take 5) &&
    match whole.drop 5 with
    | [] => fraction.isNone
    | ':' :: seconds => (fixed? 2 seconds).any (· ≤ 60)
      && fraction.all fun f => !f.isEmpty && f.all Char.isDigit
    | _ => false

def isTimeThere (s : List Char) : Bool :=
  let (time, offset) := cut (fun c => c == 'Z' || c == 'z' || c == '+' || c == '-') s
  isTime time && offset.all fun o =>
    -- nothing follows a Z, and a sign has hours and minutes behind it
    if s.getLast?.any (fun c => c == 'Z' || c == 'z') then o.isEmpty else isClock o

def isMoment (s : List Char) : Bool :=
  isDate s || isTime s ||
    (isDate (s.take 10) &&
      match s.drop 10 with
      | c :: r => (c == 'T' || c == 't' || c == ' ') && isTimeThere r
      | [] => false)

def scalar? (s : List Char) : Option Value :=
  if s = ['t', 'r', 'u', 'e'] then some (.boolean true)
  else if s = ['f', 'a', 'l', 's', 'e'] then some (.boolean false)
  else match integer? s with
    | some n => some (.integer n)
    | none =>
      if isFloat s || isUnread s then some (.number (String.ofList s))
      else if isMoment s then some (.moment (String.ofList s))
      else none

/-- What ends a value written without quotes. Blanks do not, unless nothing follows them. -/
def endsScalar (c : Char) : Bool :=
  c == '\n' || c == '\r' || c == ',' || c == '#' || c == '=' || c == '[' || c == ']'
    || c == '\x7b' || c == '\x7d'

def dropBlanksAtEnd (s : List Char) : List Char := (s.reverse.dropWhile isBlank).reverse

def bare (n : Nat) (s : List Char) (h : s.length ≤ n) : Option (Front Value n) := do
  let v ← scalar? (dropBlanksAtEnd (s.takeWhile (!endsScalar ·)))
  return ⟨v, s.dropWhile (!endsScalar ·), Nat.le_trans (List.dropWhile_suffix _).length_le h⟩

end SearchQuery.Toml

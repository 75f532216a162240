/-! UTF-8. The decoder takes one byte at a time: a lead byte announces how many bytes its
sequence has, all of them are taken, and only then is the sequence judged. -/

namespace SearchQuery.Utf8

def encodeChar (c : Char) : List UInt8 :=
  let n := c.toNat
  if n < 0x80 then [n.toUInt8]
  else if n < 0x800 then [(0xC0 + n / 64).toUInt8, (0x80 + n % 64).toUInt8]
  else if n < 0x10000 then
    [(0xE0 + n / 4096).toUInt8, (0x80 + n / 64 % 64).toUInt8, (0x80 + n % 64).toUInt8]
  else
    [(0xF0 + n / 262144).toUInt8, (0x80 + n / 4096 % 64).toUInt8, (0x80 + n / 64 % 64).toUInt8,
      (0x80 + n % 64).toUInt8]

def encode (text : String) : List UInt8 := text.toList.flatMap encodeChar

/-- Length of the sequence that a lead byte announces; none for a byte that leads no sequence. -/
def width? (b : UInt8) : Option Nat :=
  let n := b.toNat
  if n < 0x80 then some 1
  else if n < 0xC2 then none
  else if n < 0xE0 then some 2
  else if n < 0xF0 then some 3
  else if n < 0xF5 then some 4
  else none

def payload? (b : UInt8) : Option Nat :=
  if 0x80 ≤ b.toNat ∧ b.toNat < 0xC0 then some (b.toNat - 0x80) else none

/-- The code point numbered `n`, if there is one and it needs the sequence it came in: `least`
is the smallest number that a sequence of that length may spell. -/
def scalar? (least n : Nat) : Option Char :=
  if least ≤ n ∧ n.isValidChar then some (Char.ofNat n) else none

def decodeSequence? : List UInt8 → Option Char
  | [a] => scalar? 0 a.toNat
  | [a, b] => do
    let y ← payload? b
    scalar? 0x80 ((a.toNat - 0xC0) * 64 + y)
  | [a, b, c] => do
    let y ← payload? b
    let z ← payload? c
    scalar? 0x800 ((a.toNat - 0xE0) * 4096 + y * 64 + z)
  | [a, b, c, d] => do
    let y ← payload? b
    let z ← payload? c
    let w ← payload? d
    scalar? 0x10000 ((a.toNat - 0xF0) * 262144 + y * 4096 + z * 64 + w)
  | _ => none

inductive Piece where
  | code (c : Char)
  | malformed
  deriving DecidableEq, Repr

inductive Decoder where
  /-- Between two sequences. -/
  | idle
  /-- Inside a sequence: the bytes it has, and how many it lacks beyond the next one. -/
  | within (taken : List UInt8) (lacking : Nat)
  deriving DecidableEq, Repr

namespace Decoder

def judge (bytes : List UInt8) : Piece :=
  match decodeSequence? bytes with
  | some c => .code c
  | none => .malformed

def step : Decoder → UInt8 → Option Piece × Decoder
  | .idle, b =>
    match width? b with
    | none => (some .malformed, .idle)
    | some (w + 2) => (none, .within [b] w)
    | some _ => (some (judge [b]), .idle)
  | .within taken 0, b => (some (judge (taken ++ [b])), .idle)
  | .within taken (n + 1), b => (none, .within (taken ++ [b]) n)

def finish : Decoder → Option Piece
  | .idle => none
  | .within .. => some .malformed

end Decoder

def decodeFrom (d : Decoder) (done : String) : List UInt8 → Option String
  | [] => match d.finish with
    | none => some done
    | some _ => none
  | b :: rest =>
    match d.step b with
    | (none, d) => decodeFrom d done rest
    | (some (.code c), d) => decodeFrom d (done.push c) rest
    | (some .malformed, _) => none

def decode? (bytes : List UInt8) : Option String := decodeFrom .idle "" bytes

def mayFollow (lead b : UInt8) : Bool :=
  let n := b.toNat
  if lead == 0xE0 then 0xA0 ≤ n && n ≤ 0xBF
  else if lead == 0xED then 0x80 ≤ n && n ≤ 0x9F
  else if lead == 0xF0 then 0x90 ≤ n && n ≤ 0xBF
  else if lead == 0xF4 then 0x80 ≤ n && n ≤ 0x8F
  else (payload? b).isSome

def repairLead (done : String) (b : UInt8) : String × Decoder :=
  match width? b with
  | none => (done.push '\uFFFD', .idle)
  | some (w + 2) => (done, .within [b] w)
  | some _ => (done.push (Char.ofNat b.toNat), .idle)

/-- Decodes with a replacement mark for each longest run of bytes that could still have become
a code point. -/
def repairFrom (d : Decoder) (done : String) : List UInt8 → String
  | [] => match d with
    | .idle => done
    | .within .. => done.push '\uFFFD'
  | b :: rest =>
    match d with
    | .idle =>
      let (done, d) := repairLead done b
      repairFrom d done rest
    | .within taken lacking =>
      let fits := match taken with
        | [lead] => mayFollow lead b
        | _ => (payload? b).isSome
      if fits then
        match lacking with
        | 0 => match decodeSequence? (taken ++ [b]) with
          | some c => repairFrom .idle (done.push c) rest
          | none => repairFrom .idle (done.push '\uFFFD') rest
        | n + 1 => repairFrom (.within (taken ++ [b]) n) done rest
      else
        let (done, d) := repairLead (done.push '\uFFFD') b
        repairFrom d done rest

def decodeLossy (bytes : List UInt8) : String := repairFrom .idle "" bytes

end SearchQuery.Utf8

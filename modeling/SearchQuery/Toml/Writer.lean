/-! Writing texts as TOML: the plainest of the four ways to quote a text that needs no escape,
and with escapes if none does. -/

namespace SearchQuery.Toml

inductive QuoteStyle where
  | basic
  | literal
  | basicLines
  | literalLines
  deriving DecidableEq, Repr

/-- Controls that cannot be written out. A newline is asked about on its own. -/
def isControl (c : Char) : Bool :=
  (c.toNat < 0x20 && c != '\t' && c != '\n') || c.toNat == 0x7F

def longestRun (c : Char) (run : Nat) : List Char → Nat
  | [] => run
  | d :: r => if d = c then longestRun c (run + 1) r else max run (longestRun c 0 r)

/-- The first style that holds the text without an escape, or else one with escapes. -/
def quoteStyle (s : List Char) : QuoteStyle :=
  let control := s.any isControl
  let newline := s.contains '\n'
  let backslash := s.contains '\\'
  if !control && !backslash && !s.contains '"' && !newline then .basic
  else if !control && !s.contains '\x27' && !newline then .literal
  else if !control && !backslash && longestRun '"' 0 s ≤ 2 then .basicLines
  else if !control && longestRun '\x27' 0 s ≤ 2 then .literalLines
  else if newline then .basicLines
  else .basic

def upperHexDigit (n : Nat) : Char :=
  if n < 10 then Char.ofNat (0x30 + n) else Char.ofNat (0x37 + n)

def escapedChar (c : Char) : List Char :=
  match c with
  | '\x08' => ['\\', 'b']
  | '\t' => ['\\', 't']
  | '\x0c' => ['\\', 'f']
  | '\r' => ['\\', 'r']
  | '\\' => ['\\', '\\']
  | c =>
    if isControl c then
      ['\\', 'u', '0', '0', upperHexDigit (c.toNat / 16), upperHexDigit (c.toNat % 16)]
    else [c]

/-- A text between double quotes, where at most `room` quotes may follow one another without an
escape; `left` of them still may. -/
def escaped (room left : Nat) : List Char → List Char
  | [] => []
  | '"' :: r =>
    match left with
    | 0 => '\\' :: '"' :: escaped room room r
    | left + 1 => '"' :: escaped room left r
  | c :: r => escapedChar c ++ escaped room room r

def openLines (s : List Char) : List Char := if s.contains '\n' then ['\n'] else []

def quotedIn (s : List Char) : QuoteStyle → List Char
  | .basic => '"' :: (escaped 0 0 s ++ ['"'])
  | .literal => '\x27' :: (s ++ ['\x27'])
  | .basicLines =>
    ['"', '"', '"'] ++ openLines s ++ escaped 2 2 s ++ ['"', '"', '"']
  | .literalLines =>
    ['\x27', '\x27', '\x27'] ++ openLines s ++ s ++ ['\x27', '\x27', '\x27']

def writeText (s : String) : String := String.ofList (quotedIn s.toList (quoteStyle s.toList))

end SearchQuery.Toml

/-! JSON values and their indented text: two spaces a level, one member a line, and an empty
list or object on one line. Only what JSON forbids in a string is escaped. -/

namespace SearchQuery

inductive Json where
  | number (n : Nat)
  | text (s : String)
  | list (items : List Json)
  | object (members : List (String × Json))
  deriving Repr, Inhabited

namespace Json

def hexDigit (n : Nat) : Char :=
  if n < 10 then Char.ofNat (0x30 + n) else Char.ofNat (0x57 + n)

def escapedChar (c : Char) : List Char :=
  match c with
  | '"' => ['\\', '"']
  | '\\' => ['\\', '\\']
  | '\x08' => ['\\', 'b']
  | '\x0c' => ['\\', 'f']
  | '\n' => ['\\', 'n']
  | '\r' => ['\\', 'r']
  | '\t' => ['\\', 't']
  | c =>
    if c.toNat < 0x20 then
      ['\\', 'u', '0', '0', hexDigit (c.toNat / 16), hexDigit (c.toNat % 16)]
    else [c]

def quotedChars (s : String) : List Char := '"' :: (s.toList.flatMap escapedChar ++ ['"'])

def lineStart (depth : Nat) : List Char := '\n' :: List.replicate (2 * depth) ' '

mutual

/-- The text of a value whose first line is already begun at `depth`. -/
def chars (depth : Nat) : Json → List Char
  | .number n => Nat.toDigits 10 n
  | .text s => quotedChars s
  | .list [] => ['[', ']']
  | .list (v :: vs) =>
    '[' :: (lineStart (depth + 1) ++ chars (depth + 1) v ++ moreItems depth vs)
  | .object [] => ['\x7b', '\x7d']
  | .object ((k, v) :: ms) =>
    '\x7b' :: (lineStart (depth + 1) ++ quotedChars k ++ [':', ' '] ++ chars (depth + 1) v
      ++ moreMembers depth ms)

def moreItems (depth : Nat) : List Json → List Char
  | [] => lineStart depth ++ [']']
  | v :: vs => ',' :: (lineStart (depth + 1) ++ chars (depth + 1) v ++ moreItems depth vs)

def moreMembers (depth : Nat) : List (String × Json) → List Char
  | [] => lineStart depth ++ ['\x7d']
  | (k, v) :: ms =>
    ',' :: (lineStart (depth + 1) ++ quotedChars k ++ [':', ' '] ++ chars (depth + 1) v
      ++ moreMembers depth ms)

end

def pretty (j : Json) : String := String.ofList (j.chars 0)

end Json
end SearchQuery

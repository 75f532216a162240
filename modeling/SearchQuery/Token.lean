import SearchQuery.Text.Printable

/-! Tokens of the query language: words, operators and parentheses, with their place in the
query text. Places and lengths count code points. -/

namespace SearchQuery

namespace Token

inductive Kind where
  | word
  | leftParen
  | rightParen
  | infixAnd
  | infixOr
  /-- A plus sign before a word: the word is required. -/
  | prefixAnd
  /-- A minus sign before a word: the word is excluded. -/
  | prefixAndNot
  | eof
  deriving DecidableEq, Repr, Inhabited

namespace Kind

def name : Kind → String
  | word => "WORD"
  | leftParen => "LPAREN"
  | rightParen => "RPAREN"
  | infixAnd => "INFIX_AND"
  | infixOr => "INFIX_OR"
  | prefixAnd => "PREFIX_AND"
  | prefixAndNot => "PREFIX_ANDNOT"
  | eof => "EOF"

/-- How tightly a token binds to what stands on its left. Zero never binds. -/
def bindingPower : Kind → Nat
  | word => 80
  | prefixAnd | prefixAndNot => 50
  | infixOr => 20
  | infixAnd => 10
  | leftParen | rightParen | eof => 0

def all : List Kind :=
  [word, leftParen, rightParen, infixAnd, infixOr, prefixAnd, prefixAndNot, eof]

def ofName? (name : String) : Option Kind := all.find? (·.name == name)

def isSign : Kind → Bool
  | prefixAnd | prefixAndNot => true
  | _ => false

end Kind
end Token

structure Token where
  kind : Token.Kind
  /-- A word without its quotes and escapes; an operator as written. -/
  text : String
  offset : Nat
  length : Nat
  deriving DecidableEq, Repr, Inhabited

namespace Token

/-- The mark after the last token of a query of `size` code points. -/
def ending (size : Nat) : Token := ⟨.eof, "", size, 0⟩

def display (t : Token) : String :=
  t.kind.name ++ "(" ++ quoted t.text ++ ")@" ++ toString t.offset

end Token
end SearchQuery

import SearchQuery.Token

/-! The lexer, one code point at a time. A token comes out at the code point that settles it:
a sign or a parenthesis at once, a phrase at its closing quote, a word at the space or
parenthesis after it. So the same machine serves a text at hand and one that is still
arriving. -/

namespace SearchQuery

/-- What the lexer is in the middle of. A token under way knows its offset and the text it has
so far; `Escape` stands behind a backslash whose effect is still open. -/
inductive LexMode where
  | gap
  | word (start : Nat) (text : String)
  | wordEscape (start : Nat) (text : String)
  /-- Behind a backslash that begins a word. -/
  | firstEscape (start : Nat)
  | phrase (start : Nat) (text : String)
  | phraseEscape (start : Nat) (text : String)
  deriving DecidableEq, Repr, Inhabited

structure Lexer where
  position : Nat
  mode : LexMode
  deriving DecidableEq, Repr, Inhabited

namespace Lexer

def start : Lexer := ⟨0, .gap⟩

def kindOfWord (text : String) : Token.Kind :=
  if text = "AND" ∨ text = "&&" then .infixAnd
  else if text = "OR" ∨ text = "||" then .infixOr
  else .word

def wordToken (start : Nat) (text : String) (stop : Nat) : Token :=
  ⟨kindOfWord text, text, start, stop - start⟩

def phraseTokens (start : Nat) (text : String) (stop : Nat) : List Token :=
  -- a phrase without content is no token
  if text = "" then [] else [⟨.word, text, start, stop - start⟩]

def operator? : Char → Option Token.Kind
  | '(' => some .leftParen
  | ')' => some .rightParen
  | '-' => some .prefixAndNot
  | '+' => some .prefixAnd
  | _ => none

def isEscapable (c : Char) : Bool := c == ' ' || c == '(' || c == ')' || c == '"'

/-- What a backslash makes literal at the start of a word, where signs are operators too. -/
def isEscapableFirst (c : Char) : Bool := isEscapable c || c == '-' || c == '+'

def stepGap (here : Nat) (c : Char) : List Token × LexMode :=
  match operator? c with
  | some kind => ([⟨kind, c.toString, here, 1⟩], .gap)
  | none =>
    if c = ' ' then ([], .gap)
    else if c = '"' then ([], .phrase here "")
    else if c = '\\' then ([], .firstEscape here)
    else ([], .word here c.toString)

def stepWord (here start : Nat) (text : String) (c : Char) : List Token × LexMode :=
  if c = ' ' then ([wordToken start text here], .gap)
  else if c = '(' then ([wordToken start text here, ⟨.leftParen, "(", here, 1⟩], .gap)
  else if c = ')' then ([wordToken start text here, ⟨.rightParen, ")", here, 1⟩], .gap)
  else if c = '\\' then ([], .wordEscape start text)
  else ([], .word start (text.push c))

def stepWordEscape (here start : Nat) (text : String) (c : Char) : List Token × LexMode :=
  if isEscapable c then ([], .word start (text.push c))
  else if c = '\\' then ([], .word start ((text.push '\\').push '\\'))
  -- a backslash that escapes nothing stands for itself
  else stepWord here start (text.push '\\') c

def stepFirstEscape (here start : Nat) (c : Char) : List Token × LexMode :=
  if isEscapableFirst c then ([], .word start c.toString) else stepWordEscape here start "" c

def stepPhrase (here start : Nat) (text : String) (c : Char) : List Token × LexMode :=
  if c = '"' then (phraseTokens start text (here + 1), .gap)
  else if c = '\\' then ([], .phraseEscape start text)
  else ([], .phrase start (text.push c))

def stepPhraseEscape (here start : Nat) (text : String) (c : Char) : List Token × LexMode :=
  if c = '"' then ([], .phrase start (text.push '"'))
  else if c = '\\' then ([], .phrase start ((text.push '\\').push '\\'))
  else stepPhrase here start (text.push '\\') c

def stepMode (here : Nat) (c : Char) : LexMode → List Token × LexMode
  | .gap => stepGap here c
  | .word start text => stepWord here start text c
  | .wordEscape start text => stepWordEscape here start text c
  | .firstEscape start => stepFirstEscape here start c
  | .phrase start text => stepPhrase here start text c
  | .phraseEscape start text => stepPhraseEscape here start text c

def step (l : Lexer) (c : Char) : List Token × Lexer :=
  let (tokens, mode) := stepMode l.position c l.mode
  (tokens, ⟨l.position + 1, mode⟩)

/-- The token that the end of the text settles. A phrase left open is closed there, and a
backslash with nothing behind it stands for itself. -/
def finish (l : Lexer) : List Token :=
  match l.mode with
  | .gap => []
  | .word start text => [wordToken start text l.position]
  | .wordEscape start text => [wordToken start (text.push '\\') l.position]
  | .firstEscape start => [wordToken start "\\" l.position]
  | .phrase start text => phraseTokens start text l.position
  | .phraseEscape start text => phraseTokens start (text.push '\\') l.position

def run (l : Lexer) (done : Array Token) (cs : List Char) : Array Token × Lexer :=
  cs.foldl (fun (done, l) c =>
    let (tokens, l) := l.step c
    (done ++ tokens, l)) (done, l)

end Lexer

def tokenize (text : String) : List Token :=
  let (done, l) := Lexer.start.run #[] text.toList
  done.toList ++ l.finish

end SearchQuery

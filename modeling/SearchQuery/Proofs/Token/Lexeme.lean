import Mathlib.Tactic.SplitIfs
import SearchQuery.Token.Lexer

/-! The lexical grammar of a query, apart from the machine that reads it. A text is a row of blanks
and lexemes. What stands at its end may still be open: a word that nothing ends, a phrase without its
closing quote. Every text has a reading by this grammar. -/

namespace SearchQuery.Lexer

/-- What can stand inside a word or a phrase, up to a code point that ends it. A backslash takes
the code point behind it along, whatever that is. -/
inductive Inside (ends : Char → Bool) : List Char → Prop
  | nil : Inside ends []
  | plain {c : Char} {cs : List Char} (hends : ends c = false) (hc : c ≠ '\\') (h : Inside ends cs) :
      Inside ends (c :: cs)
  | escape (c : Char) {cs : List Char} (h : Inside ends cs) : Inside ends ('\\' :: c :: cs)

/-- The same up to the end of the text, where a backslash may have nothing behind it. -/
inductive InsideToEnd (ends : Char → Bool) : List Char → Prop
  | whole {cs : List Char} (h : Inside ends cs) : InsideToEnd ends cs
  | dangling {cs : List Char} (h : Inside ends cs) : InsideToEnd ends (cs ++ ['\\'])

def endsWord (c : Char) : Bool := c == ' ' || c == '(' || c == ')'

def endsPhrase (c : Char) : Bool := c == '"'

/-- A word as written, in full: it begins with an escape or with what begins nothing else. -/
inductive Word : List Char → Prop
  | plain {c : Char} {cs : List Char} (hop : operator? c = none) (hspace : c ≠ ' ')
      (hquote : c ≠ '"') (hc : c ≠ '\\') (h : Inside endsWord cs) : Word (c :: cs)
  | escape (c : Char) {cs : List Char} (h : Inside endsWord cs) : Word ('\\' :: c :: cs)

inductive WordToEnd : List Char → Prop
  | whole {w : List Char} (h : Word w) : WordToEnd w
  | dangling {w : List Char} (h : Word w) : WordToEnd (w ++ ['\\'])
  | backslash : WordToEnd ['\\']

/-- The text behind escapes: a backslash goes where it makes a code point literal, and stays
before any other. -/
def unescape (literal : Char → Bool) : List Char → List Char
  | '\\' :: c :: cs => (if literal c then [c] else ['\\', c]) ++ unescape literal cs
  | c :: cs => c :: unescape literal cs
  | [] => []

/-- The text of a word. More can be escaped at its beginning. -/
def wordText : List Char → List Char
  | '\\' :: c :: cs => (if isEscapableFirst c then [c] else ['\\', c]) ++ unescape isEscapable cs
  | cs => unescape isEscapable cs

def wordAt (n : Nat) (w : List Char) : Token :=
  wordToken n (String.ofList (wordText w)) (n + w.length)

/-- The token of a phrase at offset `n` that has `body` behind its opening quote, and takes up
`size` code points. -/
def phraseAt (n : Nat) (body : List Char) (size : Nat) : Token :=
  ⟨.word, String.ofList (unescape endsPhrase body), n, size⟩

/-- A lexeme at offset `n`, what follows it, and its token. Only a word depends on what follows:
something has to end it. -/
inductive Lexeme (n : Nat) : List Char → List Char → Token → Prop
  | operator {c : Char} {kind : Token.Kind} {rest : List Char} (h : operator? c = some kind) :
      Lexeme n [c] rest ⟨kind, c.toString, n, 1⟩
  | phrase {body rest : List Char} (h : Inside endsPhrase body) (hbody : body ≠ []) :
      Lexeme n ('"' :: (body ++ ['"'])) rest (phraseAt n body (body.length + 2))
  | word {w rest : List Char} {c : Char} (h : Word w) (hc : endsWord c = true) :
      Lexeme n w (c :: rest) (wordAt n w)

/-- What is open at the end of the text, and the token that the end makes of it. -/
inductive Pending (n : Nat) : List Char → Token → Prop
  | word {w : List Char} (h : WordToEnd w) : Pending n w (wordAt n w)
  | phrase {body : List Char} (h : InsideToEnd endsPhrase body) (hbody : body ≠ []) :
      Pending n ('"' :: body) (phraseAt n body (body.length + 1))

/-- A text from offset `n` on, the tokens in it that are complete, and the one that is open at
its end. Spaces and phrases without content leave no token. -/
inductive Lexes : Nat → List Char → List Token → List Token → Prop
  | nil (n : Nat) : Lexes n [] [] []
  | quote (n : Nat) : Lexes n ['"'] [] []
  | pending {n : Nat} {w : List Char} {t : Token} (h : Pending n w t) : Lexes n w [] [t]
  | space {n : Nat} {cs : List Char} {ts us : List Token} (h : Lexes (n + 1) cs ts us) :
      Lexes n (' ' :: cs) ts us
  | noPhrase {n : Nat} {cs : List Char} {ts us : List Token} (h : Lexes (n + 2) cs ts us) :
      Lexes n ('"' :: '"' :: cs) ts us
  | lexeme {n : Nat} {w cs : List Char} {t : Token} {ts us : List Token} (hw : Lexeme n w cs t)
      (h : Lexes (n + w.length) cs ts us) : Lexes n (w ++ cs) (t :: ts) us

variable {ends : Char → Bool} {n : Nat} {cs : List Char} {ts us : List Token}

namespace InsideToEnd

theorem plain {c : Char} (hends : ends c = false) (hc : c ≠ '\\') (h : InsideToEnd ends cs) :
    InsideToEnd ends (c :: cs) := by
  cases h with
  | whole h => exact .whole (.plain hends hc h)
  | dangling h => exact .dangling (.plain hends hc h)

theorem escape (c : Char) (h : InsideToEnd ends cs) : InsideToEnd ends ('\\' :: c :: cs) := by
  cases h with
  | whole h => exact .whole (.escape c h)
  | dangling h => exact .dangling (.escape c h)

theorem of_plain {c : Char} (hc : c ≠ '\\') (h : InsideToEnd ends (c :: cs)) :
    ends c = false ∧ InsideToEnd ends cs := by
  generalize hall : c :: cs = all at h
  cases h with
  | whole h =>
    subst hall
    cases h with
    | plain hends _ h => exact ⟨hends, .whole h⟩
    | escape => exact absurd rfl hc
  | @dangling body h =>
    cases h with
    | nil => exact absurd (List.cons.inj hall).1 hc
    | plain hends _ h =>
      obtain ⟨rfl, rfl⟩ := List.cons.inj hall
      exact ⟨hends, .dangling h⟩
    | escape => exact absurd (List.cons.inj hall).1 hc

theorem of_escape {c : Char} (h : InsideToEnd ends ('\\' :: c :: cs)) : InsideToEnd ends cs := by
  generalize hall : '\\' :: c :: cs = all at h
  cases h with
  | whole h =>
    subst hall
    cases h with
    | plain _ hc => exact absurd rfl hc
    | escape _ h => exact .whole h
  | @dangling body h =>
    cases h with
    | nil => cases hall
    | plain _ hc => exact absurd (List.cons.inj hall).1.symm hc
    | escape _ h =>
      obtain ⟨-, rfl⟩ := List.cons.inj (List.cons.inj hall).2
      exact .dangling h

end InsideToEnd

/-- Either something ends what stands inside, or it reaches the end of the text. -/
theorem insideToEnd_or_ends (ends : Char → Bool) : (cs : List Char) →
    InsideToEnd ends cs ∨
      ∃ body c rest, Inside ends body ∧ ends c = true ∧ cs = body ++ c :: rest
  | [] => .inl (.whole .nil)
  | c :: cs => by
    by_cases hends : ends c = true
    · exact .inr ⟨[], c, cs, .nil, hends, rfl⟩
    rw [Bool.not_eq_true] at hends
    by_cases hc : c = '\\'
    · subst hc
      match cs with
      | [] => exact .inl (.dangling .nil)
      | d :: cs =>
        rcases insideToEnd_or_ends ends cs with h | ⟨body, e, rest, h, he, rfl⟩
        · exact .inl (h.escape d)
        · exact .inr ⟨'\\' :: d :: body, e, rest, .escape d h, he, rfl⟩
    · rcases insideToEnd_or_ends ends cs with h | ⟨body, e, rest, h, he, rfl⟩
      · exact .inl (h.plain hends hc)
      · exact .inr ⟨c :: body, e, rest, .plain hends hc h, he, rfl⟩

theorem wordToEnd_or_ends {w : List Char} (hw : ∀ {body}, Inside endsWord body → Word (w ++ body))
    (cs : List Char) :
    WordToEnd (w ++ cs) ∨
      ∃ body c rest, Word (w ++ body) ∧ endsWord c = true ∧ cs = body ++ c :: rest := by
  rcases insideToEnd_or_ends endsWord cs with h | ⟨body, c, rest, h, hc, rfl⟩
  · cases h with
    | whole h => exact .inl (.whole (hw h))
    | dangling h => exact .inl (List.append_assoc .. ▸ .dangling (hw h))
  · exact .inr ⟨body, c, rest, hw h, hc, rfl⟩

theorem exists_lexes_word {w : List Char}
    (hw : ∀ {body}, Inside endsWord body → Word (w ++ body))
    (ih : ∀ n ds, ds.length ≤ cs.length → ∃ ts us, Lexes n ds ts us) :
    ∃ ts us, Lexes n (w ++ cs) ts us := by
  rcases wordToEnd_or_ends hw cs with h | ⟨body, c, rest, h, hc, rfl⟩
  · exact ⟨[], _, .pending (.word h)⟩
  · obtain ⟨ts, us, hrest⟩ := ih (n + (w ++ body).length) (c :: rest) (by simp)
    rw [← List.append_assoc]
    exact ⟨_, us, .lexeme (.word h hc) hrest⟩

theorem exists_lexes_phrase (ih : ∀ n ds, ds.length ≤ cs.length → ∃ ts us, Lexes n ds ts us) :
    ∃ ts us, Lexes n ('"' :: cs) ts us := by
  rcases insideToEnd_or_ends endsPhrase cs with h | ⟨body, c, rest, h, hc, rfl⟩
  · by_cases hcs : cs = []
    · subst hcs
      exact ⟨[], [], .quote n⟩
    · exact ⟨[], _, .pending (.phrase h hcs)⟩
  · obtain rfl : c = '"' := by simpa [endsPhrase] using hc
    by_cases hbody : body = []
    · subst hbody
      obtain ⟨ts, us, hrest⟩ := ih (n + 2) rest (by simp)
      exact ⟨ts, us, .noPhrase hrest⟩
    · obtain ⟨ts, us, hrest⟩ := ih (n + (body.length + 2)) rest (by simp; omega)
      refine ⟨phraseAt n body (body.length + 2) :: ts, us, ?_⟩
      have hlexeme := Lexes.lexeme (.phrase h hbody) (by simpa using hrest)
      simpa using hlexeme

theorem exists_lexes (n : Nat) (cs : List Char) : ∃ ts us, Lexes n cs ts us := by
  induction hlen : cs.length using Nat.strongRecOn generalizing n cs with
  | ind len ih =>
    have hshorter (ds : List Char) (hds : ds.length < cs.length) (m : Nat) (es : List Char)
        (hes : es.length ≤ ds.length) : ∃ ts us, Lexes m es ts us :=
      ih es.length (by omega) m es rfl
    match cs with
    | [] => exact ⟨[], [], .nil n⟩
    | c :: cs =>
      cases hop : operator? c with
      | some kind =>
        obtain ⟨ts, us, h⟩ := hshorter cs (by simp) (n + 1) cs (Nat.le_refl _)
        exact ⟨_, us, .lexeme (.operator hop) h⟩
      | none =>
        by_cases hspace : c = ' '
        · subst hspace
          obtain ⟨ts, us, h⟩ := hshorter cs (by simp) (n + 1) cs (Nat.le_refl _)
          exact ⟨ts, us, .space h⟩
        by_cases hquote : c = '"'
        · subst hquote
          exact exists_lexes_phrase (hshorter cs (by simp))
        by_cases hc : c = '\\'
        · subst hc
          match cs with
          | [] => exact ⟨[], _, .pending (.word .backslash)⟩
          | d :: cs =>
            exact exists_lexes_word (w := ['\\', d]) (fun h => .escape d h)
              (hshorter cs (by simp only [List.length_cons]; omega))
        · exact exists_lexes_word (w := [c]) (fun h => .plain hop hspace hquote hc h)
            (hshorter cs (by simp))

end SearchQuery.Lexer

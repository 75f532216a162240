import SearchQuery.Proofs.Token.Scan

/-! Where tokens come from: each is settled by one code point of the text or by its end. A code point
settles the word or phrase before it, and the operator that it is itself where no token takes it in. So an
operator stands in the text as it is among the tokens, and no token is a mark of the end. -/

namespace SearchQuery

/-- True in a phrase and behind a backslash, where a space or a parenthesis joins the token. -/
def LexMode.isLiteral : LexMode → Bool
  | .gap | .word .. => false
  | .wordEscape .. | .firstEscape _ | .phrase .. | .phraseEscape .. => true

namespace Lexer

/-- What a word or a phrase can be. -/
def wordKinds : List Token.Kind := [.word, .infixAnd, .infixOr]

/-- The token of a code point that is an operator. -/
def IsOperator (here : Nat) (c : Char) (t : Token) : Prop :=
  ∃ kind, operator? c = some kind ∧ t = ⟨kind, c.toString, here, 1⟩

variable {here m stop : Nat} {text : String} {c : Char} {cs : List Char} {t : Token} {l : Lexer}

theorem ne_leftParen_of_wordKinds {kind : Token.Kind} (h : kind ∈ wordKinds) : kind ≠ .leftParen := by
  rintro rfl
  revert h
  decide

theorem ne_eof_of_wordKinds {kind : Token.Kind} (h : kind ∈ wordKinds) : kind ≠ .eof := by
  rintro rfl
  revert h
  decide

theorem eq_of_operator_leftParen (h : operator? c = some .leftParen) : c = '(' := by
  unfold operator? at h
  split at h <;> cases h
  rfl

theorem operator_ne_eof {kind : Token.Kind} (h : operator? c = some kind) : kind ≠ .eof := by
  unfold operator? at h
  split at h <;> cases h <;> exact nofun

theorem kind_wordToken (start : Nat) (text : String) (stop : Nat) :
    (wordToken start text stop).kind ∈ wordKinds := by
  show kindOfWord text ∈ wordKinds
  unfold kindOfWord
  split_ifs <;> decide

theorem kind_of_mem_phraseTokens (ht : t ∈ phraseTokens m text stop) : t.kind ∈ wordKinds := by
  unfold phraseTokens at ht
  split_ifs at ht
  · cases ht
  · rw [List.mem_singleton.1 ht]
    exact List.mem_cons_self

theorem mem_stepGap (ht : t ∈ (stepGap here c).1) : IsOperator here c t := by
  unfold stepGap at ht
  cases hop : operator? c with
  | some kind =>
    simp only [hop] at ht
    exact ⟨kind, hop, List.mem_singleton.1 ht⟩
  | none =>
    simp only [hop] at ht
    split_ifs at ht <;> cases ht

theorem mem_stepWord (ht : t ∈ (stepWord here m text c).1) :
    t.kind ∈ wordKinds ∨ IsOperator here c t := by
  have hword (ht : t = wordToken m text here) : t.kind ∈ wordKinds := by
    rw [ht]
    exact kind_wordToken m text here
  unfold stepWord at ht
  split_ifs at ht with hspace hopen hclose
  · exact .inl (hword (List.mem_singleton.1 ht))
  · subst hopen
    rcases List.mem_cons.1 ht with ht | ht
    · exact .inl (hword ht)
    · exact .inr ⟨.leftParen, rfl, List.mem_singleton.1 ht⟩
  · subst hclose
    rcases List.mem_cons.1 ht with ht | ht
    · exact .inl (hword ht)
    · exact .inr ⟨.rightParen, rfl, List.mem_singleton.1 ht⟩
  · cases ht
  · cases ht

theorem mem_stepPhrase (ht : t ∈ (stepPhrase here m text c).1) : t.kind ∈ wordKinds := by
  unfold stepPhrase at ht
  split_ifs at ht
  · exact kind_of_mem_phraseTokens ht
  · cases ht
  · cases ht

/-- What one code point can settle. -/
theorem mem_step (ht : t ∈ (l.step c).1) :
    t.kind ∈ wordKinds ∨ l.mode.isLiteral = false ∧ IsOperator l.position c t := by
  obtain ⟨here, mode⟩ := l
  have hgiven {us : List Token} {mode' : LexMode} (h : stepMode here c mode = (us, mode')) : t ∈ us := by
    rwa [step, h] at ht
  cases mode with
  | gap => exact .inr ⟨rfl, mem_stepGap ht⟩
  | word start text => exact (mem_stepWord ht).imp_right fun h => ⟨rfl, h⟩
  | phrase start text => exact .inl (mem_stepPhrase ht)
  -- behind a backslash nothing is settled, whatever the code point is
  | wordEscape start text => cases hgiven (stepWordEscape_eq here start text c)
  | firstEscape start => cases hgiven (stepFirstEscape_eq here start c)
  | phraseEscape start text => cases hgiven (stepPhraseEscape_eq here start text c)

theorem kind_of_mem_finish (ht : t ∈ l.finish) : t.kind ∈ wordKinds := by
  obtain ⟨here, mode⟩ := l
  cases mode with
  | gap => cases ht
  | word | wordEscape | firstEscape =>
    rw [List.mem_singleton.1 ht]
    exact kind_wordToken _ _ _
  | phrase | phraseEscape => exact kind_of_mem_phraseTokens ht

theorem mem_feed (ht : t ∈ (l.feed cs).1) :
    ∃ before c after, cs = before ++ c :: after ∧ t ∈ ((l.feed before).2.step c).1 := by
  induction cs generalizing l with
  | nil => cases ht
  | cons c cs ih =>
    rcases List.mem_append.1 ht with ht | ht
    · exact ⟨[], c, cs, rfl, ht⟩
    · obtain ⟨before, d, after, rfl, hstep⟩ := ih ht
      exact ⟨c :: before, d, after, rfl, hstep⟩

/-- No mark of the end is among the tokens. -/
def Unmarked (ts : List Token) : Prop := ∀ t ∈ ts, t.kind ≠ .eof

theorem unmarked_tokenize (text : String) : Unmarked (tokenize text) := by
  intro t ht
  rw [tokenize_eq] at ht
  rcases List.mem_append.1 ht with ht | ht
  · obtain ⟨_, c, _, -, hstep⟩ := mem_feed ht
    rcases mem_step hstep with hkind | ⟨-, kind, hop, rfl⟩
    · exact ne_eof_of_wordKinds hkind
    · exact operator_ne_eof hop
  · exact ne_eof_of_wordKinds (kind_of_mem_finish ht)

/-- A parenthesis among the tokens of a text is one in the text, behind what takes no parenthesis in. -/
theorem leftParen_feed (ht : t ∈ (l.feed cs).1) (hkind : t.kind = .leftParen) :
    ∃ before after, cs = before ++ '(' :: after ∧ t.offset = l.position + before.length ∧
      (l.feed before).2.mode.isLiteral = false := by
  obtain ⟨before, c, after, rfl, hstep⟩ := mem_feed ht
  rcases mem_step hstep with hword | ⟨hmode, kind, hop, rfl⟩
  · exact absurd hkind (ne_leftParen_of_wordKinds hword)
  · obtain rfl : kind = .leftParen := hkind
    rw [eq_of_operator_leftParen hop]
    exact ⟨before, after, rfl, position_feed l before, hmode⟩

theorem leftParen_stands (ht : t ∈ tokenize text) (hkind : t.kind = .leftParen) :
    ∃ before after, text.toList = before ++ '(' :: after ∧ t.offset = before.length ∧
      (start.feed before).2.mode.isLiteral = false := by
  rw [tokenize_eq] at ht
  rcases List.mem_append.1 ht with ht | ht
  · obtain ⟨before, after, htext, hoffset, hmode⟩ := leftParen_feed ht hkind
    rw [start, Nat.zero_add] at hoffset
    exact ⟨before, after, htext, hoffset, hmode⟩
  · exact absurd hkind (ne_leftParen_of_wordKinds (kind_of_mem_finish ht))

end Lexer
end SearchQuery

import SearchQuery.Proofs.Token.Determined

/-! Where a space cuts a text in two. Between tokens and in a word the lexer has nothing under way that
takes a space in, so a space there ends what the text before it is read as, and what stands behind it is
read as if it stood alone. In a phrase and behind a backslash a space is text. -/

namespace SearchQuery

/-- The token of the same lexeme behind `k` further code points. -/
def Token.shift (k : Nat) (t : Token) : Token := { t with offset := k + t.offset }

namespace Lexer

variable {n : Nat} {w cs rest : List Char} {t : Token} {ts us : List Token} {l : Lexer}

theorem wordAt_shift (k n : Nat) (w : List Char) : (wordAt n w).shift k = wordAt (k + n) w := by
  rw [wordAt_eq, wordAt_eq]
  rfl

theorem Lexeme.shift (h : Lexeme n w rest t) (k : Nat) : Lexeme (k + n) w rest (t.shift k) := by
  cases h with
  | operator hop => exact .operator hop
  | phrase h hbody => exact .phrase h hbody
  | word h hc =>
    rw [wordAt_shift]
    exact .word h hc

theorem Pending.shift (h : Pending n w t) (k : Nat) : Pending (k + n) w (t.shift k) := by
  cases h with
  | word h =>
    rw [wordAt_shift]
    exact .word h
  | phrase h hbody => exact .phrase h hbody

/-- The reading of a text does not depend on where the text stands. -/
theorem Lexes.shift (h : Lexes n cs ts us) (k : Nat) :
    Lexes (k + n) cs (ts.map (Token.shift k)) (us.map (Token.shift k)) := by
  induction h with
  | nil n => exact .nil (k + n)
  | quote n => exact .quote (k + n)
  | pending h => exact .pending (h.shift k)
  | space _ ih => exact .space ih
  | noPhrase _ ih => exact .noPhrase ih
  | lexeme hw _ ih =>
    rw [← Nat.add_assoc] at ih
    exact .lexeme (hw.shift k) ih

theorem feed_gap_eq (k : Nat) (text : String) :
    (feed ⟨k, .gap⟩ text.toList).1 ++ (feed ⟨k, .gap⟩ text.toList).2.finish =
      (tokenize text).map (Token.shift k) := by
  obtain ⟨hgiven, hlast⟩ := ((lexes_feed 0 text.toList).shift k).feed_gap
  rw [Nat.add_zero] at hgiven hlast
  rw [hgiven, hlast, tokenize_eq, List.map_append]
  rfl

/-- A space that no token takes in settles the token under way. -/
theorem step_space (h : l.mode.isLiteral = false) :
    l.step ' ' = (l.finish, ⟨l.position + 1, .gap⟩) := by
  obtain ⟨here, mode⟩ := l
  cases mode with
  | gap | word => rfl
  | wordEscape | firstEscape | phrase | phraseEscape => cases h

theorem text_eq_of_phraseTokens {start here here' : Nat} {text text' : String}
    (h : phraseTokens start text here = phraseTokens start text' here') : text = text' := by
  unfold phraseTokens at h
  split_ifs at h with htext htext'
  · rw [htext, htext']
  · exact congrArg Token.text (List.singleton_inj.1 h)

/-- Where a space is text, the token under way has it and becomes another one. -/
theorem step_space_literal (h : l.mode.isLiteral = true) :
    (l.step ' ').1 = [] ∧ (l.step ' ').2.finish ≠ l.finish := by
  have hword {t u : Token} (hne : t.text ≠ u.text) : [t] ≠ [u] := fun h =>
    hne (congrArg Token.text (List.singleton_inj.1 h))
  obtain ⟨here, mode⟩ := l
  cases mode with
  | gap | word => cases h
  | wordEscape start text =>
    -- the space is escaped, and the end of the text would have left the backslash
    have hne : text.push ' ' ≠ text.push '\\' := by simp [← String.toList_inj]
    exact ⟨rfl, hword hne⟩
  | firstEscape start =>
    have hne : ' '.toString ≠ "\\" := by decide
    exact ⟨rfl, hword hne⟩
  | phrase start text => exact ⟨rfl, fun h => push_ne text ' ' (text_eq_of_phraseTokens h)⟩
  | phraseEscape start text =>
    exact ⟨rfl, fun h => push_ne (text.push '\\') ' ' (text_eq_of_phraseTokens h)⟩

theorem tokenize_behind_space {p : String} (h : (start.feed p.toList).2.mode.isLiteral = false)
    (q : String) :
    tokenize (p ++ " " ++ q) = tokenize p ++ (tokenize q).map (Token.shift (p.length + 1)) := by
  have hposition : (start.feed p.toList).2.position = p.length := by
    rw [position_start, String.length_toList]
  have hmore : (" " ++ q).toList = ' ' :: q.toList := by simp
  rw [String.append_assoc, tokenize_append, hmore, feed, step_space h, hposition, List.append_assoc,
    feed_gap_eq, tokenize_eq p, List.append_assoc]

theorem not_literal_of_tokenize_space {p : String} (h : tokenize (p ++ " ") = tokenize p) :
    (start.feed p.toList).2.mode.isLiteral = false := by
  rw [← Bool.not_eq_true]
  intro hmode
  obtain ⟨hquiet, hne⟩ := step_space_literal hmode
  have hfeed (l : Lexer) : l.feed " ".toList = ((l.step ' ').1 ++ [], (l.step ' ').2) := rfl
  rw [tokenize_append, hfeed, hquiet, tokenize_eq, List.append_cancel_left_eq] at h
  exact hne h

/-- A space behind a text leaves its tokens alone unless the text ends in an open phrase or behind an
open backslash. Then and only then it separates the text from any other: what stands behind it has the
tokens that it has alone, further on by the text and the space. -/
theorem space_separates (p : String) :
    (tokenize (p ++ " ") = tokenize p ↔ (start.run #[] p.toList).2.mode.isLiteral = false) ∧
      (tokenize (p ++ " ") = tokenize p ↔ ∀ q,
        tokenize (p ++ " " ++ q) = tokenize p ++ (tokenize q).map (Token.shift (p.length + 1))) := by
  have hempty (h : ∀ q, tokenize (p ++ " " ++ q) =
      tokenize p ++ (tokenize q).map (Token.shift (p.length + 1))) :
      tokenize (p ++ " ") = tokenize p := by
    have hnone : tokenize "" = [] := rfl
    simpa [hnone] using h ""
  rw [run_eq]
  constructor
  · exact ⟨not_literal_of_tokenize_space, fun h => hempty (tokenize_behind_space h)⟩
  · exact ⟨fun h => tokenize_behind_space (not_literal_of_tokenize_space h), hempty⟩

/-- An open phrase takes the space in. -/
example : tokenize ("a \"b" ++ " " ++ "c\"") = [⟨.word, "a", 0, 1⟩, ⟨.word, "b c", 2, 5⟩] := by
  decide +kernel

end Lexer
end SearchQuery

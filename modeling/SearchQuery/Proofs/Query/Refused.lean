import Mathlib.Logic.Function.Iterate
import SearchQuery.Proofs.Parser.Grouping
import SearchQuery.Query

/-! Where a query text is refused, and what its suggestion does. A text is refused at the first
parenthesis in it that is neither escaped nor in a phrase. With a backslash before it that parenthesis is
part of a word, and the lexer reads what is in front of it as before, so the next refusal, if there is
one, is at a parenthesis further on. Each parenthesis is escaped once at most. -/

namespace SearchQuery.Query

open Lexer

variable {text : String} {before after cs : List Char} {t : Token} {e e' : ParseError}

theorem ofText_eq_error (h : ofText text = .error e) :
    (Parser.parse .start (tokenize text)).result = .error e := by
  unfold ofText ofTokens at h
  cases he : (Parser.parse .start (tokenize text)).result with
  | error r =>
    simp only [he, Except.map] at h
    cases h
    rfl
  | ok _ => simp [he, Except.map] at h

theorem first_leftParen (h : ofText text = .error e) :
    ∃ t ∈ tokenize text, t.kind = .leftParen ∧ t.offset = e.offset ∧
      ∀ u ∈ tokenize text, u.kind = .leftParen → e.offset ≤ u.offset := by
  obtain ⟨ts, t, us, htokens, hnone, ht, rfl, -⟩ := Parser.refused_split (ofText_eq_error h)
  have hpairwise := pairwise_tokenize text
  rw [htokens] at hpairwise ⊢
  refine ⟨t, by simp, ht, rfl, fun u hu hkind => ?_⟩
  rcases List.mem_append.1 hu with hu | hu
  · exact absurd hkind (hnone u hu)
  rcases List.mem_cons.1 hu with rfl | hu
  · exact Nat.le_refl _
  · obtain ⟨hlater, -⟩ := (List.pairwise_cons.1 (List.pairwise_append.1 hpairwise).2.1).1 u hu
    exact Nat.le_of_lt hlater

theorem ofText_refused (h : ofText text = .error e) :
    ∃ before after, text.toList = before ++ '(' :: after ∧ e.offset = before.length ∧
      (start.feed before).2.mode.isLiteral = false := by
  obtain ⟨t, ht, hkind, hoffset, -⟩ := first_leftParen h
  rw [← hoffset]
  exact leftParen_stands ht hkind

/-! ### Escaping the refused parenthesis -/

/-- A text with a backslash before the code point at an offset. -/
def escapeAt (text : String) (offset : Nat) : String :=
  String.ofList (text.toList.take offset ++ '\\' :: text.toList.drop offset)

/-- Escapes the parenthesis that a text is refused for, if it is refused. -/
def repair (text : String) : String :=
  match ofText text with
  | .ok _ => text
  | .error e => escapeAt text e.offset

theorem toList_escapeAt (htext : text.toList = before ++ cs) :
    (escapeAt text before.length).toList = before ++ '\\' :: cs := by
  rw [escapeAt, String.toList_ofList, htext, List.take_left, List.drop_left]

/-- Behind a backslash the parenthesis is text, and the lexer is in a word behind it. -/
theorem feed_escaped {l : Lexer} (h : l.mode.isLiteral = false) (cs : List Char) :
    ∃ mode, l.feed ('\\' :: '(' :: cs) = feed ⟨l.position + 2, mode⟩ cs := by
  obtain ⟨here, mode⟩ := l
  cases mode with
  | gap => exact ⟨.word here "(", rfl⟩
  | word start text => exact ⟨.word start (text.push '('), rfl⟩
  | wordEscape | firstEscape | phrase | phraseEscape => cases h

/-- Escaping a parenthesis leaves those in front of it where they are, and none is in its place. -/
theorem leftParen_escapeAt (htext : text.toList = before ++ '(' :: after)
    (hmode : (start.feed before).2.mode.isLiteral = false)
    (ht : t ∈ tokenize (escapeAt text before.length)) (hkind : t.kind = .leftParen) :
    t ∈ tokenize text ∧ t.offset < before.length ∨ before.length + 2 ≤ t.offset := by
  obtain ⟨mode, hmore⟩ := feed_escaped hmode after
  rw [tokenize_eq, toList_escapeAt htext, feed_append, hmore, position_start] at ht
  rcases List.mem_append.1 ht with ht | ht
  · rcases List.mem_append.1 ht with ht | ht
    · left
      obtain ⟨pre, post, rfl, hoffset, -⟩ := leftParen_feed ht hkind
      rw [start, Nat.zero_add] at hoffset
      constructor
      · rw [tokenize_eq, htext, feed_append]
        simp [ht]
      · rw [hoffset, List.length_append, List.length_cons]
        omega
    · right
      obtain ⟨pre, post, -, hoffset, -⟩ := leftParen_feed ht hkind
      rw [hoffset]
      exact Nat.le_add_right _ _
  · exact absurd hkind (ne_leftParen_of_wordKinds (kind_of_mem_finish ht))

theorem offset_escapeAt (h : ofText text = .error e)
    (h' : ofText (escapeAt text e.offset) = .error e') : e.offset + 1 < e'.offset := by
  obtain ⟨-, -, -, -, hfirst⟩ := first_leftParen h
  obtain ⟨before, after, htext, hbefore, hmode⟩ := ofText_refused h
  obtain ⟨t, ht, hkind, hoffset, -⟩ := first_leftParen h'
  rw [hbefore] at ht
  rcases leftParen_escapeAt htext hmode ht hkind with ⟨hmem, hlt⟩ | hle
  · -- one in front of it would have been refused before
    have hge := hfirst t hmem hkind
    omega
  · omega

/-- The parentheses that can still be refused. -/
def unread (text : String) (offset : Nat) : Nat := (text.toList.drop offset).count '('

theorem unread_eq (htext : text.toList = before ++ '(' :: after) :
    unread text before.length = after.count '(' + 1 := by
  rw [unread, htext, List.drop_left, List.count_cons_self]

theorem unread_escapeAt (h : ofText text = .error e)
    (h' : ofText (escapeAt text e.offset) = .error e') :
    unread (escapeAt text e.offset) e'.offset < unread text e.offset := by
  obtain ⟨before, after, htext, hbefore, -⟩ := ofText_refused h
  have hlater := offset_escapeAt h h'
  obtain ⟨k, hk⟩ : ∃ k, e'.offset = before.length + (k + 2) :=
    ⟨e'.offset - before.length - 2, by omega⟩
  have hdrop : (escapeAt text before.length).toList.drop e'.offset = after.drop k := by
    rw [toList_escapeAt htext, hk, List.drop_append]
    simp
  rw [hbefore, unread_eq htext, unread, hdrop]
  exact Nat.lt_succ_of_le ((List.drop_sublist k after).count_le '(')

theorem unread_pos (h : ofText text = .error e) : 0 < unread text e.offset := by
  obtain ⟨before, after, htext, hbefore, -⟩ := ofText_refused h
  rw [hbefore, unread_eq htext]
  exact Nat.succ_pos _

theorem exists_repaired (k : Nat) (h : ∀ e, ofText text = .error e → unread text e.offset ≤ k) :
    ∃ n ≤ k, ∃ q, ofText (repair^[n] text) = .ok q := by
  induction k generalizing text with
  | zero =>
    cases htext : ofText text with
    | ok q => exact ⟨0, Nat.le_refl 0, q, htext⟩
    | error e => exact absurd (unread_pos htext) (Nat.not_lt.2 (h e htext))
  | succ k ih =>
    cases htext : ofText text with
    | ok q => exact ⟨0, Nat.zero_le _, q, htext⟩
    | error e =>
      have hrepair : repair text = escapeAt text e.offset := by rw [repair, htext]
      have hless (e' : ParseError) (h' : ofText (escapeAt text e.offset) = .error e') :
          unread (escapeAt text e.offset) e'.offset ≤ k :=
        Nat.le_of_lt_succ (Nat.lt_of_lt_of_le (unread_escapeAt htext h') (h e htext))
      obtain ⟨n, hn, q, hq⟩ := ih hless
      refine ⟨n + 1, Nat.succ_le_succ hn, q, ?_⟩
      rwa [Function.iterate_succ_apply, hrepair]

/-- Escaping the parenthesis that a text is refused for makes it a query or moves the refusal behind that
parenthesis. Repeated, it makes a query of any text, in as many steps as the text has parentheses or
fewer. -/
theorem escaping_repairs :
    (∀ text e, ofText text = .error e →
      (∃ q, ofText (escapeAt text e.offset) = .ok q) ∨
        ∃ e', ofText (escapeAt text e.offset) = .error e' ∧ e.offset + 1 < e'.offset) ∧
      ∀ text : String, ∃ n ≤ text.toList.count '(', ∃ q, ofText (repair^[n] text) = .ok q := by
  constructor
  · intro text e h
    cases h' : ofText (escapeAt text e.offset) with
    | ok q => exact .inl ⟨q, rfl⟩
    | error e' => exact .inr ⟨e', rfl, offset_escapeAt h h'⟩
  · intro text
    apply exists_repaired
    intro e _
    exact (List.drop_sublist e.offset text.toList).count_le '('

/-- A parenthesis behind two backslashes, one in a word and one in a phrase. The first two are escaped. -/
theorem escaping_repairs_behind_backslashes :
    let text := "x\\\\(y(z) \"(\""
    let e : ParseError := .unsupported .grouping 3
    ofText text = .error e ∧
      ((∃ q, ofText (escapeAt text e.offset) = .ok q) ∨
        ∃ e', ofText (escapeAt text e.offset) = .error e' ∧ e.offset + 1 < e'.offset) ∧
      ∃ n ≤ text.toList.count '(', ∃ q, ofText (repair^[n] text) = .ok q := by
  intro text e
  have h : ofText text = .error e := by decide +kernel
  exact ⟨h, escaping_repairs.1 text e h, escaping_repairs.2 text⟩

end SearchQuery.Query

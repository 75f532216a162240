import SearchQuery.Proofs.Text.Word
import SearchQuery.Proofs.Token.Lexeme

/-! The lexer reads by the lexical grammar: from a gap on it takes a lexeme in as many steps as the
lexeme has code points, without giving a token before the last of them, and is at a gap again. So the
tokens that it has given at any moment are the complete ones of what it has read, and the end of the
text adds the open one. -/

namespace SearchQuery.Lexer

/-- What comes of code points in turn: the tokens that they settle, and the lexer behind them. -/
def feed (l : Lexer) : List Char → List Token × Lexer
  | [] => ([], l)
  | c :: cs => ((l.step c).1 ++ ((l.step c).2.feed cs).1, ((l.step c).2.feed cs).2)

variable {n m : Nat} {text : String} {cs body w : List Char} {c : Char} {ts us : List Token}

theorem run_eq (l : Lexer) (done : Array Token) (cs : List Char) :
    l.run done cs = (done ++ (l.feed cs).1, (l.feed cs).2) := by
  induction cs generalizing l done with
  | nil => simp [run, feed]
  | cons c cs ih =>
    have hstep : l.run done (c :: cs) = (l.step c).2.run (done ++ (l.step c).1) cs := rfl
    have hdone : done ++ (l.step c).1 ++ ((l.step c).2.feed cs).1 =
        done ++ ((l.step c).1 ++ ((l.step c).2.feed cs).1) := by
      rw [← Array.toList_inj]
      simp
    rw [hstep, ih, feed, hdone]

theorem tokenize_eq (text : String) :
    tokenize text = (start.feed text.toList).1 ++ (start.feed text.toList).2.finish := by
  simp [tokenize, run_eq]

theorem feed_append (l : Lexer) (cs ds : List Char) : l.feed (cs ++ ds) =
    ((l.feed cs).1 ++ ((l.feed cs).2.feed ds).1, ((l.feed cs).2.feed ds).2) := by
  induction cs generalizing l with
  | nil => rfl
  | cons c cs ih => simp [feed, ih]

theorem feed_of_eq {l m : Lexer} (h : l.feed cs = (ts, m)) (ds : List Char) :
    l.feed (cs ++ ds) = (ts ++ (m.feed ds).1, (m.feed ds).2) := by
  rw [feed_append, h]

theorem position_feed (l : Lexer) (cs : List Char) :
    (l.feed cs).2.position = l.position + cs.length := by
  induction cs generalizing l with
  | nil => rfl
  | cons c cs ih =>
    rw [feed, ih, List.length_cons]
    show l.position + 1 + cs.length = _
    omega

theorem position_start (cs : List Char) : (start.feed cs).2.position = cs.length := by
  rw [position_feed]
  exact Nat.zero_add _

theorem isEscapable_of_endsWord (h : endsWord c = true) : isEscapable c = true := by
  simp only [endsWord, Bool.or_eq_true, beq_iff_eq] at h
  rcases h with (rfl | rfl) | rfl <;> decide

theorem stepWord_plain (here start : Nat) (text : String) (h : endsWord c = false) (hc : c ≠ '\\') :
    stepWord here start text c = ([], .word start (text.push c)) := by
  simp only [endsWord, Bool.or_eq_false_iff, beq_eq_false_iff_ne] at h
  obtain ⟨⟨hspace, hopen⟩, hclose⟩ := h
  simp [stepWord, hspace, hopen, hclose, hc]

/-- Behind a backslash any code point joins the word. -/
theorem stepWordEscape_eq (here start : Nat) (text : String) (c : Char) :
    stepWordEscape here start text c =
      ([], .word start (text ++ String.ofList (if isEscapable c then [c] else ['\\', c]))) := by
  unfold stepWordEscape
  by_cases hesc : isEscapable c = true
  · rw [if_pos hesc, if_pos hesc, append_ofList_one]
  · rw [if_neg hesc, if_neg hesc, append_ofList_two]
    by_cases hc : c = '\\'
    · rw [if_pos hc, hc]
    · rw [if_neg hc]
      have hends : endsWord c = false := by
        rw [← Bool.not_eq_true]
        exact fun h => hesc (isEscapable_of_endsWord h)
      exact stepWord_plain here start _ hends hc

theorem stepFirstEscape_eq (here start : Nat) (c : Char) :
    stepFirstEscape here start c =
      ([], .word start (String.ofList (if isEscapableFirst c then [c] else ['\\', c]))) := by
  unfold stepFirstEscape
  by_cases hfirst : isEscapableFirst c = true
  · rw [if_pos hfirst, if_pos hfirst]
    rfl
  · have hesc : isEscapable c = false := by
      rw [← Bool.not_eq_true]
      exact fun h => hfirst (by simp [isEscapableFirst, h])
    rw [if_neg hfirst, if_neg hfirst, stepWordEscape_eq, hesc, String.empty_append]
    rfl

theorem stepPhrase_plain (here start : Nat) (text : String) (h : endsPhrase c = false)
    (hc : c ≠ '\\') : stepPhrase here start text c = ([], .phrase start (text.push c)) := by
  have hquote : c ≠ '"' := by simpa [endsPhrase] using h
  simp [stepPhrase, hquote, hc]

theorem stepPhraseEscape_eq (here start : Nat) (text : String) (c : Char) :
    stepPhraseEscape here start text c =
      ([], .phrase start (text ++ String.ofList (if endsPhrase c then [c] else ['\\', c]))) := by
  unfold stepPhraseEscape
  by_cases hends : endsPhrase c = true
  · obtain rfl : c = '"' := by simpa [endsPhrase] using hends
    rw [if_pos rfl, if_pos hends, append_ofList_one]
  · have hquote : c ≠ '"' := fun h => hends (by simp [endsPhrase, h])
    rw [if_neg hquote, if_neg hends, append_ofList_two]
    by_cases hc : c = '\\'
    · rw [if_pos hc, hc]
    · rw [if_neg hc]
      exact stepPhrase_plain here start _ (by simpa using hends) hc

theorem add_length_escape (n : Nat) (c : Char) (cs : List Char) :
    n + 1 + 1 + cs.length = n + ('\\' :: c :: cs).length := by
  simp only [List.length_cons]
  omega

theorem unescape_plain (literal : Char → Bool) (hc : c ≠ '\\') (cs : List Char) :
    unescape literal (c :: cs) = c :: unescape literal cs := by
  rw [unescape]
  intro d ds h
  exact absurd h hc

theorem unescape_escape (literal : Char → Bool) (c : Char) (cs : List Char) :
    unescape literal ('\\' :: c :: cs) =
      (if literal c then [c] else ['\\', c]) ++ unescape literal cs := by
  rw [unescape]

theorem wordText_plain (hc : c ≠ '\\') (cs : List Char) :
    wordText (c :: cs) = c :: unescape isEscapable cs := by
  rw [wordText, unescape_plain _ hc]
  intro d ds h
  exact absurd (List.cons.inj h).1 hc

theorem wordText_escape (c : Char) (cs : List Char) : wordText ('\\' :: c :: cs) =
    (if isEscapableFirst c then [c] else ['\\', c]) ++ unescape isEscapable cs := by
  rw [wordText]

theorem Inside.unescape_append {ends : Char → Bool} (literal : Char → Bool) (h : Inside ends body)
    (cs : List Char) : unescape literal (body ++ cs) = unescape literal body ++ unescape literal cs := by
  induction h with
  | nil => rfl
  | plain _ hc _ ih => rw [List.cons_append, unescape_plain _ hc, ih, unescape_plain _ hc]; rfl
  | escape c _ ih =>
    rw [List.cons_append, List.cons_append, unescape_escape, unescape_escape, ih, List.append_assoc]

theorem Word.wordText_append (h : Word w) (cs : List Char) :
    wordText (w ++ cs) = wordText w ++ unescape isEscapable cs := by
  cases h with
  | plain _ _ _ hc h =>
    rw [List.cons_append, wordText_plain hc, wordText_plain hc, h.unescape_append]
    rfl
  | escape c h =>
    rw [List.cons_append, List.cons_append, wordText_escape, wordText_escape, h.unescape_append,
      List.append_assoc]

theorem feed_cons_of_step (mode : LexMode) {mode' : LexMode}
    (h : stepMode n c mode = (ts, mode')) (cs : List Char) : feed ⟨n, mode⟩ (c :: cs) =
      (ts ++ (feed ⟨n + 1, mode'⟩ cs).1, (feed ⟨n + 1, mode'⟩ cs).2) := by
  simp only [feed, step, h]

theorem feed_cons_of_quiet_step (mode : LexMode) {mode' : LexMode}
    (h : stepMode n c mode = ([], mode')) (cs : List Char) : feed ⟨n, mode⟩ (c :: cs) = feed ⟨n + 1, mode'⟩ cs := by
  rw [feed_cons_of_step mode h]
  rfl

/-- Inside a word and inside a phrase the lexer goes on in the same way: it takes up what is plain,
and a backslash with what is behind it. -/
theorem Inside.feed_eq {ends : Char → Bool} (mode escape : String → LexMode) (literal : Char → Bool)
    (hplain : ∀ n text c, ends c = false → c ≠ '\\' →
      stepMode n c (mode text) = ([], mode (text.push c)))
    (hback : ∀ n text, stepMode n '\\' (mode text) = ([], escape text))
    (hescape : ∀ n text c, stepMode n c (escape text) =
      ([], mode (text ++ String.ofList (if literal c then [c] else ['\\', c]))))
    (h : Inside ends body) (n : Nat) (text : String) :
    feed ⟨n, mode text⟩ body =
      ([], ⟨n + body.length, mode (text ++ String.ofList (unescape literal body))⟩) := by
  induction h generalizing n text with
  | nil => simp [feed, unescape]
  | @plain c cs hends hc _ ih =>
    rw [feed_cons_of_quiet_step _ (hplain n text c hends hc), ih, unescape_plain _ hc, push_append,
      List.length_cons, Nat.add_right_comm, Nat.add_assoc]
  | @escape c cs _ ih =>
    rw [feed_cons_of_quiet_step _ (hback n text), feed_cons_of_quiet_step _ (hescape (n + 1) text c), ih,
      unescape_escape, String.append_assoc, ← String.ofList_append, add_length_escape]

theorem Inside.feed_word (h : Inside endsWord body) (n m : Nat) (text : String) :
    feed ⟨n, .word m text⟩ body =
      ([], ⟨n + body.length, .word m (text ++ String.ofList (unescape isEscapable body))⟩) :=
  h.feed_eq (.word m) (.wordEscape m) isEscapable (fun n text _ => stepWord_plain n m text)
    (fun _ _ => rfl) (fun n text => stepWordEscape_eq n m text) n text

theorem Inside.feed_phrase (h : Inside endsPhrase body) (n m : Nat) (text : String) :
    feed ⟨n, .phrase m text⟩ body =
      ([], ⟨n + body.length, .phrase m (text ++ String.ofList (unescape endsPhrase body))⟩) :=
  h.feed_eq (.phrase m) (.phraseEscape m) endsPhrase (fun n text _ => stepPhrase_plain n m text)
    (fun _ _ => rfl) (fun n text => stepPhraseEscape_eq n m text) n text

/-- The first step into a word. -/
theorem stepGap_plain (here : Nat) (hop : operator? c = none) (hspace : c ≠ ' ') (hquote : c ≠ '"')
    (hc : c ≠ '\\') : stepGap here c = ([], .word here c.toString) := by
  simp [stepGap, hop, hspace, hquote, hc]

theorem Word.feed_gap (h : Word w) (n : Nat) :
    feed ⟨n, .gap⟩ w = ([], ⟨n + w.length, .word n (String.ofList (wordText w))⟩) := by
  cases h with
  | @plain c cs hop hspace hquote hc h =>
    rw [feed_cons_of_quiet_step .gap (stepGap_plain n hop hspace hquote hc), h.feed_word, wordText_plain hc,
      String.ofList_cons, List.length_cons, Nat.add_right_comm, Nat.add_assoc]
    rfl
  | @escape c cs h =>
    rw [feed_cons_of_quiet_step .gap rfl,
      feed_cons_of_quiet_step (.firstEscape n) (stepFirstEscape_eq (n + 1) n c), h.feed_word, wordText_escape,
      String.ofList_append, add_length_escape]

/-- What ends a word belongs to what is behind it. -/
theorem feed_word_ends (hc : endsWord c = true) (n m : Nat) (text : String) (cs : List Char) :
    feed ⟨n, .word m text⟩ (c :: cs) =
      (wordToken m text n :: (feed ⟨n, .gap⟩ (c :: cs)).1, (feed ⟨n, .gap⟩ (c :: cs)).2) := by
  simp only [endsWord, Bool.or_eq_true, beq_iff_eq] at hc
  rcases hc with (rfl | rfl) | rfl <;> rfl

theorem unescape_ne_nil (literal : Char → Bool) (hcs : cs ≠ []) : unescape literal cs ≠ [] := by
  match cs with
  | [] => exact absurd rfl hcs
  | [c] => simp [unescape]
  | c :: d :: cs =>
    by_cases hc : c = '\\'
    · rw [hc, unescape_escape]
      split <;> simp
    · rw [unescape_plain _ hc]
      exact List.cons_ne_nil _ _

theorem phraseTokens_eq (n : Nat) (hbody : body ≠ []) (size : Nat) :
    phraseTokens n (String.ofList (unescape endsPhrase body)) (n + size) =
      [phraseAt n body size] := by
  simp [phraseTokens, phraseAt, unescape_ne_nil endsPhrase hbody]

theorem InsideToEnd.feed_phrase (h : InsideToEnd endsPhrase body) (hbody : body ≠ []) (n : Nat) :
    ∃ l, feed ⟨n, .gap⟩ ('"' :: body) = ([], l) ∧
      l.finish = [phraseAt n body (body.length + 1)] := by
  have hopen : feed ⟨n, .gap⟩ ('"' :: body) = feed ⟨n + 1, .phrase n ""⟩ body :=
    feed_cons_of_quiet_step .gap rfl body
  have hsize : n + 1 + body.length = n + (body.length + 1) := by omega
  cases h with
  | whole h =>
    rw [hopen, h.feed_phrase, String.empty_append, hsize]
    exact ⟨_, rfl, phraseTokens_eq n hbody _⟩
  | @dangling body h =>
    rw [hopen, feed_of_eq (h.feed_phrase (n + 1) n ""), String.empty_append]
    refine ⟨_, rfl, ?_⟩
    have htext : unescape endsPhrase (body ++ ['\\']) = unescape endsPhrase body ++ ['\\'] :=
      h.unescape_append endsPhrase ['\\']
    rw [← phraseTokens_eq n hbody, htext, String.ofList_append, append_ofList_one, ← hsize,
      List.length_append]
    rfl

theorem WordToEnd.feed_gap (h : WordToEnd w) (n : Nat) :
    ∃ l, feed ⟨n, .gap⟩ w = ([], l) ∧ l.finish = [wordAt n w] := by
  cases h with
  | whole h => exact ⟨_, h.feed_gap n, rfl⟩
  | @dangling w h =>
    rw [feed_of_eq (h.feed_gap n)]
    refine ⟨_, rfl, ?_⟩
    have htext : wordText (w ++ ['\\']) = wordText w ++ ['\\'] := h.wordText_append ['\\']
    rw [wordAt, htext, String.ofList_append, append_ofList_one, List.length_append]
    rfl
  | backslash => exact ⟨_, feed_cons_of_quiet_step .gap rfl [], rfl⟩

theorem Pending.feed_gap {t : Token} (h : Pending n w t) :
    ∃ l, feed ⟨n, .gap⟩ w = ([], l) ∧ l.finish = [t] := by
  cases h with
  | word h => exact h.feed_gap n
  | phrase h hbody => exact h.feed_phrase hbody n

theorem Lexeme.feed_gap {t : Token} (h : Lexeme n w cs t) : feed ⟨n, .gap⟩ (w ++ cs) =
    (t :: (feed ⟨n + w.length, .gap⟩ cs).1, (feed ⟨n + w.length, .gap⟩ cs).2) := by
  cases h with
  | @operator c kind cs hop =>
    have hstep : stepGap n c = ([⟨kind, c.toString, n, 1⟩], .gap) := by simp [stepGap, hop]
    exact feed_cons_of_step .gap hstep cs
  | @phrase body cs h hbody =>
    have hopen : feed ⟨n, .gap⟩ ('"' :: (body ++ ['"']) ++ cs) =
        feed ⟨n + 1, .phrase n ""⟩ (body ++ '"' :: cs) := by
      rw [List.cons_append, List.append_assoc]
      exact feed_cons_of_quiet_step .gap rfl _
    have hsize : n + 1 + body.length + 1 = n + (body.length + 2) := by omega
    have hclose : stepPhrase (n + 1 + body.length) n (String.ofList (unescape endsPhrase body)) '"' =
        ([phraseAt n body (body.length + 2)], .gap) := by
      rw [← phraseTokens_eq n hbody, ← hsize]
      rfl
    rw [hopen, feed_of_eq (h.feed_phrase (n + 1) n ""), String.empty_append,
      feed_cons_of_step (.phrase n _) hclose, hsize]
    simp
  | @word w cs c h hc => rw [feed_of_eq (h.feed_gap n), feed_word_ends hc]; rfl

theorem Lexes.feed_gap (h : Lexes n cs ts us) :
    (feed ⟨n, .gap⟩ cs).1 = ts ∧ (feed ⟨n, .gap⟩ cs).2.finish = us := by
  induction h with
  | nil n => exact ⟨rfl, rfl⟩
  | quote n => exact ⟨rfl, rfl⟩
  | pending h =>
    obtain ⟨l, hfeed, hfinish⟩ := h.feed_gap
    rw [hfeed]
    exact ⟨rfl, hfinish⟩
  | @space n cs ts us _ ih =>
    rw [feed_cons_of_quiet_step .gap rfl]
    exact ih
  | @noPhrase n cs ts us _ ih =>
    rw [feed_cons_of_quiet_step .gap rfl, feed_cons_of_quiet_step (.phrase n "") rfl]
    exact ih
  | lexeme hw _ ih =>
    rw [hw.feed_gap, ih.1]
    exact ⟨rfl, ih.2⟩

/-- What the lexer has given, and what it would give at the end, is the reading of the text. -/
theorem lexes_feed (n : Nat) (cs : List Char) :
    Lexes n cs (feed ⟨n, .gap⟩ cs).1 (feed ⟨n, .gap⟩ cs).2.finish := by
  obtain ⟨ts, us, h⟩ := exists_lexes n cs
  rw [h.feed_gap.1, h.feed_gap.2]
  exact h

theorem Lexes.tokenize_eq (h : Lexes 0 cs ts us) : tokenize (String.ofList cs) = ts ++ us := by
  rw [Lexer.tokenize_eq, String.toList_ofList, ← h.feed_gap.1, ← h.feed_gap.2]
  rfl

end SearchQuery.Lexer

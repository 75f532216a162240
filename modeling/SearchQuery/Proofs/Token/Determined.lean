import SearchQuery.Proofs.Token.Span
import SearchQuery.Proofs.Token.Stream

/-! When a token comes out of a text that is still arriving: as soon as no continuation of the text
can change it, and not before. A word or a phrase that reaches the end of what has arrived is open,
since one more code point would make another token of it. -/

namespace SearchQuery.Lexer

open Token

variable {n : Nat} {ends : Char → Bool} {body w cs rest : List Char} {c : Char} {t : Token}

/-- The longest list of tokens that every continuation of a text begins with. -/
structure Determined (text : String) (ts : List Token) : Prop where
  isPrefix : ∀ more, ts <+: tokenize (text ++ more)
  longest : ∀ us, (∀ more, us <+: tokenize (text ++ more)) → us <+: ts

/-- A phrase as written, up to a quote of its own. -/
def ClosedPhrase (w : List Char) : Prop :=
  ∃ body, Inside endsPhrase body ∧ w = '"' :: (body ++ ['"'])

/-- A word without quotes, or a phrase without its closing quote: more code points can join it. -/
def Unclosed (w : List Char) : Prop := Unquoted w ∨ w.head? = some '"' ∧ ¬ ClosedPhrase w

/-- A token that reaches the end of the text and can go on behind it. -/
def Open (text : String) (t : Token) : Prop :=
  t.stop = text.length ∧ Unclosed (t.source text.toList)

theorem push_ne (text : String) (c : Char) : text.push c ≠ text := by
  intro h
  have hlength := congrArg String.length h
  simp at hlength

theorem finish_step (l : Lexer) (ht : t ∈ l.finish) :
    (l.step 'x').1 = [] ∧ ∃ u, (l.step 'x').2.finish = [u] ∧ u ≠ t := by
  have hword (here start : Nat) (text : String) :
      wordToken start (text.push 'x') (here + 1) ≠ wordToken start text here := fun h =>
    push_ne text 'x' (congrArg Token.text h)
  have hphrase (here start : Nat) (text : String) (ht : t ∈ phraseTokens start text here) :
      ∃ u, phraseTokens start (text.push 'x') (here + 1) = [u] ∧ u ≠ t := by
    have hne : text.push 'x' ≠ "" := by simp
    obtain rfl : t = ⟨.word, text, start, here - start⟩ := by
      unfold phraseTokens at ht
      split_ifs at ht
      · cases ht
      · exact List.mem_singleton.1 ht
    exact ⟨_, if_neg hne, fun h => push_ne text 'x' (congrArg Token.text h)⟩
  obtain ⟨here, mode⟩ := l
  cases mode with
  | gap => cases ht
  | word start text =>
    obtain rfl := List.mem_singleton.1 ht
    exact ⟨rfl, _, rfl, hword here start text⟩
  | wordEscape start text =>
    obtain rfl := List.mem_singleton.1 ht
    exact ⟨rfl, _, rfl, hword here start (text.push '\\')⟩
  | firstEscape start =>
    obtain rfl := List.mem_singleton.1 ht
    exact ⟨rfl, _, rfl, hword here start "\\"⟩
  | phrase start text => exact ⟨rfl, hphrase here start text ht⟩
  | phraseEscape start text => exact ⟨rfl, hphrase here start (text.push '\\') ht⟩

theorem finish_cases (l : Lexer) : l.finish = [] ∨ ∃ t, l.finish = [t] := by
  have hphrase (start : Nat) (text : String) (here : Nat) :
      phraseTokens start text here = [] ∨ ∃ t, phraseTokens start text here = [t] := by
    unfold phraseTokens
    split_ifs
    · exact .inl rfl
    · exact .inr ⟨_, rfl⟩
  obtain ⟨here, mode⟩ := l
  cases mode with
  | gap => exact .inl rfl
  | word | wordEscape | firstEscape => exact .inr ⟨_, rfl⟩
  | phrase start text => exact hphrase start text here
  | phraseEscape start text => exact hphrase start (text.push '\\') here

theorem tokenize_append (text more : String) : tokenize (text ++ more) =
    (start.feed text.toList).1 ++ (((start.feed text.toList).2.feed more.toList).1 ++
      ((start.feed text.toList).2.feed more.toList).2.finish) := by
  rw [tokenize_eq, String.toList_append, feed_append, List.append_assoc]

theorem determined_feed (text : String) : Determined text (start.feed text.toList).1 where
  isPrefix more := by
    rw [tokenize_append]
    exact List.prefix_append _ _
  longest us h := by
    have hend : us <+: (start.feed text.toList).1 ++ (start.feed text.toList).2.finish := by
      have hnone := h ""
      rwa [String.append_empty, tokenize_eq] at hnone
    rcases finish_cases (start.feed text.toList).2 with hfinish | ⟨t, hfinish⟩
    · rwa [hfinish, List.append_nil] at hend
    rw [hfinish] at hend
    rcases List.prefix_concat_iff.1 hend with rfl | hend
    · -- with one more code point another token stands in the place of `t`
      obtain ⟨hquiet, u, hu, hne⟩ := finish_step _ (hfinish ▸ List.mem_singleton_self t)
      have hmore := h "x"
      have hfeed (l : Lexer) : l.feed "x".toList = ((l.step 'x').1 ++ [], (l.step 'x').2) := rfl
      rw [tokenize_append, hfeed, hquiet, hu, List.prefix_append_right_inj] at hmore
      have htu : t = u := by simpa using hmore
      exact absurd htu.symm hne
    · exact hend

theorem Inside.not_insideToEnd (h : Inside ends body) (hends : ends c = true) (hc : c ≠ '\\') :
    ¬ InsideToEnd ends (body ++ c :: cs) := by
  induction h with
  | nil =>
    intro hopen
    rw [(hopen.of_plain hc).1] at hends
    cases hends
  | plain _ hd _ ih => exact fun hopen => ih (hopen.of_plain hd).2
  | escape d _ ih => exact fun hopen => ih hopen.of_escape

theorem Word.head (h : Word w) : ∃ c cs, w = c :: cs ∧ operator? c = none ∧ c ≠ '"' := by
  cases h with
  | plain hop _ hquote => exact ⟨_, _, rfl, hop, hquote⟩
  | escape => exact ⟨_, _, rfl, rfl, by decide⟩

theorem unquoted_cons (hop : operator? c = none) (hquote : c ≠ '"') (cs : List Char) :
    Unquoted (c :: cs) := by
  refine ⟨by simpa using hquote, fun hmem => ?_⟩
  simp only [List.mem_cons, List.cons.injEq, List.not_mem_nil, or_false] at hmem
  rcases hmem with ⟨rfl, -⟩ | ⟨rfl, -⟩ | ⟨rfl, -⟩ | ⟨rfl, -⟩ <;> cases hop

theorem WordToEnd.unquoted (h : WordToEnd w) : Unquoted w := by
  cases h with
  | whole h | dangling h =>
    obtain ⟨c, cs, rfl, hop, hquote⟩ := h.head
    exact unquoted_cons hop hquote _
  | backslash => exact unquoted_cons rfl (by decide) []

theorem Pending.unclosed (h : Pending n w t) : Unclosed w := by
  cases h with
  | word h => exact .inl h.unquoted
  | phrase hopen =>
    refine .inr ⟨rfl, fun ⟨body, h, hbody⟩ => ?_⟩
    obtain ⟨-, rfl⟩ := List.cons.inj hbody
    exact h.not_insideToEnd rfl (by decide) hopen

theorem Lexeme.closed (h : Lexeme n w [] t) : ¬ Unclosed w := by
  rintro (⟨hquote, hop⟩ | ⟨hquote, hclosed⟩)
  · cases h with
    | operator h => exact hop (mem_operators h)
    | phrase => exact hquote rfl
  · cases h with
    | operator h =>
      cases hquote
      cases h
    | phrase h => exact hclosed ⟨_, h, rfl⟩

theorem Lexes.open_atEnd {ts us : List Token} {text : String} (h : Lexes 0 text.toList ts us)
    (ht : t ∈ us) : Open text t := by
  obtain ⟨pre, w, htext, hw⟩ := h.atEnd ht
  obtain ⟨hoffset, hlength, -⟩ := (Stands.atEnd hw rfl).length
  rw [Nat.zero_add] at hoffset
  constructor
  · rw [← String.length_toList, htext, stop, hoffset, hlength, List.length_append]
  · rw [htext, ← List.append_nil w, ← List.append_assoc, source_append hoffset hlength]
    exact hw.unclosed

theorem Lexes.not_open_complete {ts us : List Token} {text : String}
    (h : Lexes 0 text.toList ts us) (ht : t ∈ ts) : ¬ Open text t := by
  obtain ⟨pre, -, htext, w, rest, rfl, hw⟩ := h.complete ht
  obtain ⟨hoffset, hlength, -⟩ := (Stands.complete hw).length
  rw [Nat.zero_add] at hoffset
  rintro ⟨hstop, hopen⟩
  rw [← String.length_toList, htext, stop, hoffset, hlength, List.length_append,
    List.length_append] at hstop
  obtain rfl : rest = [] := List.eq_nil_of_length_eq_zero (by omega)
  rw [htext, ← List.append_assoc, source_append hoffset hlength] at hopen
  exact hw.closed hopen

/-- Either a text settles all its tokens and none of them is open, or it settles all but the last
one, which is. -/
theorem tokenize_feed (text : String) :
    tokenize text = (start.feed text.toList).1 ∧
        (∀ t ∈ (start.feed text.toList).1, ¬ Open text t) ∨
      ∃ t, tokenize text = (start.feed text.toList).1 ++ [t] ∧ Open text t := by
  have hlexes := lexes_feed 0 text.toList
  rcases finish_cases (start.feed text.toList).2 with hfinish | ⟨t, hfinish⟩
  · left
    refine ⟨?_, fun t ht => hlexes.not_open_complete ht⟩
    rw [tokenize_eq, hfinish, List.append_nil]
  · right
    refine ⟨t, by rw [tokenize_eq, hfinish], hlexes.open_atEnd ?_⟩
    show t ∈ (start.feed text.toList).2.finish
    rw [hfinish]
    exact List.mem_singleton_self t

end SearchQuery.Lexer

namespace SearchQuery.TokenStream

open Lexer

/-- When a source fails behind a text, the stream has given every token that the text settles and no
other, then gives the failure, and has ended whatever the source does later. What is missing from
the tokens of the text is the one that is open at its end, if there is one. -/
theorem values_of_failure {text : String} {e : ReadError}
    {items : List (Stamped (Except ReadError Char))} {later : List (Except ReadError Char)}
    (h : items.map (·.value) = text.toList.map .ok ++ .error e :: later) (reads : Nat) :
    ∃ ts, ((items.foldl next .start).finish reads).values = ts.map .ok ++ [.error e] ∧
      Determined text ts ∧
      ((∃ t ∈ (tokenize text).getLast?, Open text t) → ts = (tokenize text).dropLast) ∧
      ((∀ t ∈ (tokenize text).getLast?, ¬ Open text t) → ts = tokenize text) := by
  refine ⟨(Lexer.start.feed text.toList).1, ?_, determined_feed text, ?_⟩
  · rw [values_finish, allValues_start, h, yields_map_ok]
    rfl
  rcases tokenize_feed text with ⟨htokens, hclosed⟩ | ⟨t, htokens, hopen⟩
  · refine ⟨?_, fun _ => htokens.symm⟩
    rintro ⟨t, ht, hopen⟩
    rw [htokens] at ht
    exact absurd hopen (hclosed t (List.mem_of_getLast? ht))
  · rw [htokens, List.dropLast_concat, List.getLast?_concat]
    exact ⟨fun _ => rfl, fun hnone => absurd hopen (hnone t rfl)⟩

/-- A phrase is under way when the pipe breaks, and is lost although its closing quote is still
to come. -/
theorem values_of_failure_in_phrase :
    let pipe : ReadError := ⟨.brokenPipe, "pipe closed"⟩
    let items : List (Stamped (Except ReadError Char)) :=
      [⟨.ok 'a', 1⟩, ⟨.ok ' ', 1⟩, ⟨.ok '"', 1⟩, ⟨.ok 'b', 2⟩, ⟨.error pipe, 3⟩, ⟨.ok '"', 4⟩]
    items.map (·.value) = "a \"b".toList.map .ok ++ .error pipe :: [.ok '"'] ∧
      ∃ ts, ((items.foldl next .start).finish 4).values = ts.map .ok ++ [.error pipe] ∧
        Determined "a \"b" ts ∧
        ((∃ t ∈ (tokenize "a \"b").getLast?, Open "a \"b" t) →
          ts = (tokenize "a \"b").dropLast) ∧
        ((∀ t ∈ (tokenize "a \"b").getLast?, ¬ Open "a \"b" t) → ts = tokenize "a \"b") := by
  intro pipe items
  have h : items.map (·.value) = "a \"b".toList.map .ok ++ .error pipe :: [.ok '"'] := by rfl
  exact ⟨h, values_of_failure h 4⟩

end SearchQuery.TokenStream

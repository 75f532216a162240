import SearchQuery.Proofs.Token.Determined

/-! What can be written as a phrase, and what phrases are read as. Only a quote has to be escaped, and
a backslash takes what is behind it along, so a text has a phrase if its backslashes leave each quote
and the end alone. Other texts have none: what a closed phrase is read as always has this form, and is
written as that phrase. -/

namespace SearchQuery.Lexer

open Token

/-- A longest row of backslashes with a quote or the end behind it has an even number of them. -/
def EvenRows (w : List Char) : Prop :=
  ∀ pre n post, w = pre ++ (List.replicate n '\\' ++ post) → pre.getLast? ≠ some '\\' →
    (post = [] ∨ post.head? = some '"') → n % 2 = 0

/-- A text that a phrase can hold. -/
structure Quotable (w : List Char) : Prop where
  ne_nil : w ≠ []
  evenRows : EvenRows w

def escapeQuotes (w : List Char) : List Char :=
  w.flatMap fun c => if c = '"' then ['\\', '"'] else [c]

/-- The phrase of a text. -/
def quote (w : List Char) : List Char := '"' :: (escapeQuotes w ++ ['"'])

/-- Phrases of some texts in a row, each with a number of spaces before it. -/
def quoteRow (items : List (Nat × List Char)) : List Char :=
  items.flatMap fun (n, w) => List.replicate n ' ' ++ quote w

/-- A word for each phrase of a row that begins at offset `n`. -/
def quotedFrom (n : Nat) : List (Nat × List Char) → List Token
  | [] => []
  | (k, w) :: items =>
    ⟨.word, String.ofList w, n + k, (quote w).length⟩ ::
      quotedFrom (n + k + (quote w).length) items

/-- A backslash and what it takes along are read together, and that is no quote. -/
inductive Paired : List Char → Prop
  | nil : Paired []
  | plain {c : Char} {cs : List Char} (hc : c ≠ '\\') (h : Paired cs) : Paired (c :: cs)
  | pair {c : Char} {cs : List Char} (hc : c ≠ '"') (h : Paired cs) : Paired ('\\' :: c :: cs)

variable {n : Nat} {w cs body : List Char} {c : Char} {ts us : List Token}

theorem getLast?_ne_of_cons {α : Type} {x d : α} {pre : List α}
    (h : (d :: pre).getLast? ≠ some x) : pre.getLast? ≠ some x := by
  cases pre with
  | nil => exact nofun
  | cons e pre => rwa [List.getLast?_cons_cons] at h

/-- A row of backslashes at the beginning of what is left after some pairs is a row of the whole text,
shorter by those pairs. -/
theorem Paired.evenRows (h : Paired w) : EvenRows w := by
  induction h with
  | nil =>
    intro pre n post hw _ _
    have hn : List.replicate n '\\' = [] := by
      simp only [List.nil_eq, List.append_eq_nil_iff] at hw
      exact hw.2.1
    rw [(List.replicate_eq_nil_iff _).1 hn]
  | @plain c cs hc _ ih =>
    intro pre n post hw hpre hpost
    cases pre with
    | nil =>
      cases n with
      | zero => rfl
      | succ n => exact absurd (List.cons.inj hw).1 hc
    | cons d pre => exact ih pre n post (List.cons.inj hw).2 (getLast?_ne_of_cons hpre) hpost
  | @pair c cs hc _ ih =>
    intro pre n post hw hpre hpost
    match pre, n with
    | [], 0 => rfl
    | [], 1 =>
      obtain rfl : c :: cs = post := (List.cons.inj hw).2
      rcases hpost with hpost | hpost
      · cases hpost
      · exact absurd (Option.some.inj hpost) hc
    | [], n + 2 =>
      have heven : n % 2 = 0 := ih [] n post (List.cons.inj (List.cons.inj hw).2).2 nofun hpost
      omega
    | [d], n =>
      rw [← (List.cons.inj hw).1] at hpre
      exact absurd rfl hpre
    | d :: e :: pre, n =>
      apply ih pre n post (List.cons.inj (List.cons.inj hw).2).2 _ hpost
      exact getLast?_ne_of_cons (getLast?_ne_of_cons hpre)

theorem EvenRows.behind (front : List Char) (h : EvenRows (front ++ w))
    (hfront : front.getLast? ≠ some '\\') : EvenRows w := by
  intro pre n post hw hpre hpost
  apply h (front ++ pre) n post _ _ hpost
  · rw [hw, List.append_assoc]
  · rw [List.getLast?_append]
    cases hlast : pre.getLast? with
    | none => exact hfront
    | some d => rwa [hlast] at hpre

theorem EvenRows.behind_two (h : EvenRows ('\\' :: '\\' :: cs)) : EvenRows cs := by
  intro pre n post hcs hpre hpost
  cases pre with
  | nil =>
    have heven : (n + 2) % 2 = 0 := by
      apply h [] (n + 2) post _ hpre hpost
      rw [hcs]
      rfl
    omega
  | cons d pre =>
    apply h ('\\' :: '\\' :: d :: pre) n post _ _ hpost
    · rw [hcs]
      rfl
    · rwa [List.getLast?_cons_cons, List.getLast?_cons_cons]

theorem paired_of_evenRows : (w : List Char) → EvenRows w → Paired w
  | [], _ => .nil
  | c :: cs, h => by
    by_cases hc : c = '\\'
    · subst hc
      match cs with
      | [] => exact absurd (h [] 1 [] rfl nofun (.inl rfl)) (by decide)
      | d :: cs =>
        have hquote : d ≠ '"' := by
          rintro rfl
          exact absurd (h [] 1 ('"' :: cs) rfl nofun (.inr rfl)) (by decide)
        apply Paired.pair hquote
        apply paired_of_evenRows cs
        by_cases hd : d = '\\'
        · subst hd
          exact h.behind_two
        · exact h.behind ['\\', d] (by simpa using hd)
    · exact .plain hc (paired_of_evenRows cs (h.behind [c] (by simpa using hc)))

theorem escapeQuotes_cons (c : Char) (cs : List Char) : escapeQuotes (c :: cs) =
    (if c = '"' then ['\\', '"'] else [c]) ++ escapeQuotes cs :=
  List.flatMap_cons

theorem escapeQuotes_plain (hc : c ≠ '"') (cs : List Char) :
    escapeQuotes (c :: cs) = c :: escapeQuotes cs := by
  rw [escapeQuotes_cons, if_neg hc]
  rfl

theorem escapeQuotes_quote (cs : List Char) :
    escapeQuotes ('"' :: cs) = '\\' :: '"' :: escapeQuotes cs := by
  rw [escapeQuotes_cons, if_pos rfl]
  rfl

theorem escapeQuotes_ne_nil (h : w ≠ []) : escapeQuotes w ≠ [] := by
  cases w with
  | nil => exact absurd rfl h
  | cons c cs =>
    by_cases hc : c = '"'
    · subst hc
      rw [escapeQuotes_quote]
      exact List.cons_ne_nil _ _
    · rw [escapeQuotes_plain hc]
      exact List.cons_ne_nil _ _

theorem unescape_quote (cs : List Char) :
    unescape endsPhrase ('\\' :: '"' :: cs) = '"' :: unescape endsPhrase cs := by
  rw [unescape_escape]
  rfl

theorem unescape_pair (hc : c ≠ '"') (cs : List Char) :
    unescape endsPhrase ('\\' :: c :: cs) = '\\' :: c :: unescape endsPhrase cs := by
  have hends : ¬ endsPhrase c = true := by simpa [endsPhrase] using hc
  rw [unescape_escape, if_neg hends]
  rfl

/-- With its quotes escaped a text is what a phrase can have inside, and what that is read as. -/
theorem Paired.inside (h : Paired w) :
    Inside endsPhrase (escapeQuotes w) ∧ unescape endsPhrase (escapeQuotes w) = w := by
  induction h with
  | nil => exact ⟨.nil, rfl⟩
  | @plain c cs hc _ ih =>
    obtain ⟨hinside, htext⟩ := ih
    by_cases hquote : c = '"'
    · subst hquote
      rw [escapeQuotes_quote, unescape_quote, htext]
      exact ⟨.escape '"' hinside, rfl⟩
    · rw [escapeQuotes_plain hquote, unescape_plain _ hc, htext]
      exact ⟨.plain (by simpa [endsPhrase] using hquote) hc hinside, rfl⟩
  | @pair c cs hc _ ih =>
    obtain ⟨hinside, htext⟩ := ih
    rw [escapeQuotes_plain (by decide), escapeQuotes_plain hc, unescape_pair hc, htext]
    exact ⟨.escape c hinside, rfl⟩

/-- What is inside a phrase is read as a text whose quotes, when escaped, are what they were. -/
theorem Inside.paired (h : Inside endsPhrase body) :
    Paired (unescape endsPhrase body) ∧ escapeQuotes (unescape endsPhrase body) = body := by
  induction h with
  | nil => exact ⟨.nil, rfl⟩
  | @plain c cs hends hc _ ih =>
    obtain ⟨hpaired, htext⟩ := ih
    have hquote : c ≠ '"' := by simpa [endsPhrase] using hends
    rw [unescape_plain _ hc, escapeQuotes_plain hquote, htext]
    exact ⟨.plain hc hpaired, rfl⟩
  | @escape c cs _ ih =>
    obtain ⟨hpaired, htext⟩ := ih
    by_cases hquote : c = '"'
    · subst hquote
      rw [unescape_quote, escapeQuotes_quote, htext]
      exact ⟨.plain (by decide) hpaired, rfl⟩
    · rw [unescape_pair hquote, escapeQuotes_plain (by decide), escapeQuotes_plain hquote, htext]
      exact ⟨.pair hquote hpaired, rfl⟩

theorem length_quote (w : List Char) : (quote w).length = (escapeQuotes w).length + 2 := by
  simp [quote]

theorem Lexes.spaces (k : Nat) (h : Lexes (n + k) cs ts us) :
    Lexes n (List.replicate k ' ' ++ cs) ts us := by
  induction k generalizing n with
  | zero => exact h
  | succ k ih =>
    apply Lexes.space
    apply ih
    rwa [Nat.add_right_comm, Nat.add_assoc]

theorem Quotable.lexeme (h : Quotable w) (n : Nat) (rest : List Char) :
    Lexeme n (quote w) rest ⟨.word, String.ofList w, n, (quote w).length⟩ := by
  obtain ⟨hinside, htext⟩ := (paired_of_evenRows w h.evenRows).inside
  have hread : Lexeme n (quote w) rest (phraseAt n (escapeQuotes w) (quote w).length) := by
    rw [length_quote]
    exact .phrase hinside (escapeQuotes_ne_nil h.ne_nil)
  rwa [phraseAt, htext] at hread

theorem quoteRow_cons (k : Nat) (w : List Char) (items : List (Nat × List Char)) :
    quoteRow ((k, w) :: items) = List.replicate k ' ' ++ (quote w ++ quoteRow items) := by
  rw [quoteRow, List.flatMap_cons, List.append_assoc]
  rfl

theorem lexes_quoteRow {items : List (Nat × List Char)} (h : ∀ p ∈ items, Quotable p.2) (m : Nat) :
    Lexes n (quoteRow items ++ List.replicate m ' ') (quotedFrom n items) [] := by
  induction items generalizing n with
  | nil =>
    have hend := Lexes.spaces m (.nil (n + m))
    rwa [List.append_nil] at hend
  | cons p items ih =>
    obtain ⟨k, w⟩ := p
    obtain ⟨hw, hitems⟩ := List.forall_mem_cons.1 h
    rw [quoteRow_cons, List.append_assoc, List.append_assoc]
    apply Lexes.spaces
    exact .lexeme (hw.lexeme _ _) (ih hitems)

theorem source_quotedFrom (items : List (Nat × List Char)) (pre post : List Char) :
    (quotedFrom pre.length items).map (source (pre ++ quoteRow items ++ post)) =
      items.map fun p => quote p.2 := by
  induction items generalizing pre with
  | nil => rfl
  | cons p items ih =>
    obtain ⟨k, w⟩ := p
    have hspaces : (pre ++ List.replicate k ' ').length = pre.length + k := by simp
    have hbehind : (pre ++ List.replicate k ' ' ++ quote w).length =
        pre.length + k + (quote w).length := by rw [List.length_append, hspaces]
    have htext : pre ++ quoteRow ((k, w) :: items) ++ post =
        pre ++ List.replicate k ' ' ++ quote w ++ (quoteRow items ++ post) := by
      simp [quoteRow_cons]
    have hrest := ih (pre ++ List.replicate k ' ' ++ quote w)
    rw [hbehind, List.append_assoc] at hrest
    rw [quotedFrom, List.map_cons, List.map_cons, htext, hrest, source_append hspaces.symm rfl]

theorem Stands.eq_phraseAt {t : Token} {rest : List Char} (h : Stands n w rest t)
    (hinside : Inside endsPhrase body) (hw : w = '"' :: (body ++ ['"'])) :
    body ≠ [] ∧ t.text = String.ofList (unescape endsPhrase body) := by
  rcases h with h | ⟨h, -⟩
  · cases h with
    | operator hop => simp at hw
    | @phrase body' rest _ hbody =>
      obtain rfl : body' = body := by simpa using hw
      exact ⟨hbody, rfl⟩
    | word h _ =>
      obtain ⟨c, cs, rfl, -, hc⟩ := h.head
      exact absurd (List.cons.inj hw).1 hc
  · cases h with
    | word h =>
      have hhead := h.unquoted.1
      rw [hw] at hhead
      exact absurd rfl hhead
    | phrase hopen =>
      obtain ⟨-, rfl⟩ := List.cons.inj hw
      exact absurd hopen (hinside.not_insideToEnd rfl (by decide))

/-- Phrases are the texts whose backslashes leave quotes and the end alone, and each such text has one
phrase. A row of them, with any spaces in it, is read as their texts, and a closed phrase in any query
is the phrase of the text it is read as. -/
theorem phrases_exact :
    (∀ (items : List (Nat × List Char)) (m : Nat), (∀ p ∈ items, Quotable p.2) →
      let cs := quoteRow items ++ List.replicate m ' '
      tokenize (String.ofList cs) = quotedFrom 0 items ∧
        (tokenize (String.ofList cs)).map (source cs) = items.map fun p => quote p.2) ∧
      ∀ text, ∀ t ∈ tokenize text, ClosedPhrase (t.source text.toList) →
        Quotable t.text.toList ∧ quote t.text.toList = t.source text.toList := by
  constructor
  · intro items m h cs
    have htokens : tokenize (String.ofList cs) = quotedFrom 0 items := by
      rw [(lexes_quoteRow h m).tokenize_eq, List.append_nil]
    refine ⟨htokens, ?_⟩
    rw [htokens]
    exact source_quotedFrom items [] _
  · intro text t ht hclosed
    obtain ⟨pre, w, rest, htext, hoffset, hlength, -, hstands⟩ := stands_tokenize ht
    rw [htext, source_append hoffset hlength] at hclosed ⊢
    obtain ⟨body, hinside, hw⟩ := hclosed
    obtain ⟨hbody, hread⟩ := hstands.eq_phraseAt hinside hw
    obtain ⟨hpaired, hquotes⟩ := hinside.paired
    rw [hread, String.toList_ofList]
    constructor
    · exact ⟨unescape_ne_nil endsPhrase hbody, hpaired.evenRows⟩
    · rw [quote, hquotes, hw]

/-- Two backslashes before a quote, a phrase that touches the one before it and holds an operator, and
a closed phrase between a word and one that is left open. -/
theorem phrases_exact_touching :
    let items : List (Nat × List Char) := [(1, ['a', '\\', '\\', '"']), (0, ['-', '\\', 'x'])]
    let cs := quoteRow items ++ [' ', ' ']
    tokenize (String.ofList cs) = [⟨.word, "a\\\\\"", 1, 7⟩, ⟨.word, "-\\x", 8, 5⟩] ∧
      (tokenize (String.ofList cs)).map (source cs) =
        [['"', 'a', '\\', '\\', '\\', '"', '"'], ['"', '-', '\\', 'x', '"']] ∧
      Quotable ['c', '"'] ∧ quote ['c', '"'] = ['"', 'c', '\\', '"', '"'] := by
  intro items cs
  have hitems : ∀ p ∈ items, Quotable p.2 := by
    have hfirst : Paired ['a', '\\', '\\', '"'] :=
      .plain (by decide) (.pair (by decide) (.plain (by decide) .nil))
    have hsecond : Paired ['-', '\\', 'x'] := .plain (by decide) (.pair (by decide) .nil)
    intro p hp
    rcases List.mem_cons.1 hp with rfl | hp
    · exact ⟨by decide, hfirst.evenRows⟩
    · rw [List.mem_singleton.1 hp]
      exact ⟨by decide, hsecond.evenRows⟩
  obtain ⟨htokens, hsources⟩ := phrases_exact.1 items 2 hitems
  let text := String.ofList ['b', ' ', '"', 'c', '\\', '"', '"', '"', 'd']
  let t : Token := ⟨.word, "c\"", 2, 5⟩
  have ht : t ∈ tokenize text := by decide +kernel
  have hsource : t.source text.toList = ['"', 'c', '\\', '"', '"'] := by decide +kernel
  have hclosed : ClosedPhrase (t.source text.toList) := by
    rw [hsource]
    exact ⟨['c', '\\', '"'], .plain rfl (by decide) (.escape '"' .nil), rfl⟩
  have hquotable := phrases_exact.2 text t ht hclosed
  have htext : t.text.toList = ['c', '"'] := by decide
  rw [hsource, htext] at hquotable
  exact ⟨htokens, hsources, hquotable⟩

end SearchQuery.Lexer

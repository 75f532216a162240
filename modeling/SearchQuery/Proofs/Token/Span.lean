import SearchQuery.Proofs.Token.Lexer

/-! Where the tokens of a text stand. Their spans follow one another, between them there is nothing
but blanks, and what a span holds is read alone as it is read in its place. -/

namespace SearchQuery

/-- The code points from offset `m` up to offset `n`. -/
def segment (cs : List Char) (m n : Nat) : List Char := (cs.take n).drop m

namespace Token

/-- The offset behind a token. -/
def stop (t : Token) : Nat := t.offset + t.length

/-- What a token was read from. -/
def source (cs : List Char) (t : Token) : List Char := segment cs t.offset t.stop

/-- Where the last of some tokens stops, or else the text begins. -/
def lastStop (n : Nat) (ts : List Token) : Nat := (ts.getLast?.map stop).getD n

/-- Where the first of some tokens begins, or else the text ends. -/
def firstOffset (size : Nat) (ts : List Token) : Nat := (ts.head?.map Token.offset).getD size

end Token

namespace Lexer

open Token

/-- What leaves no token: spaces, and phrases without content. -/
inductive Blank : List Char → Prop
  | nil : Blank []
  | space {cs : List Char} (h : Blank cs) : Blank (' ' :: cs)
  | noPhrase {cs : List Char} (h : Blank cs) : Blank ('"' :: '"' :: cs)

/-- Neither written as a phrase nor an operator of one code point. -/
def Unquoted (w : List Char) : Prop :=
  w.head? ≠ some '"' ∧ w ∉ [['('], [')'], ['-'], ['+']]

variable {n : Nat} {cs w rest pre : List Char} {c : Char} {t : Token} {ts us before after : List Token}

theorem segment_append (pre w post : List Char) :
    segment (pre ++ w ++ post) pre.length (pre.length + w.length) = w := by
  simp [segment, List.take_append, List.append_assoc]

theorem source_append (hoffset : t.offset = pre.length) (hlength : t.length = w.length)
    (rest : List Char) : t.source (pre ++ w ++ rest) = w := by
  rw [source, stop, hoffset, hlength, segment_append]

theorem wordAt_eq (n : Nat) (w : List Char) : wordAt n w =
    ⟨kindOfWord (String.ofList (wordText w)), String.ofList (wordText w), n, w.length⟩ := by
  simp [wordAt, wordToken]

theorem mem_operators {kind : Token.Kind} (h : operator? c = some kind) :
    [c] ∈ [['('], [')'], ['-'], ['+']] := by
  unfold operator? at h
  split at h <;> first | decide | cases h

theorem Word.ne_nil (h : Word w) : w ≠ [] := by
  cases h <;> exact List.cons_ne_nil _ _

theorem WordToEnd.ne_nil (h : WordToEnd w) : w ≠ [] := by
  cases h with
  | whole h => exact h.ne_nil
  | dangling | backslash => simp

/-- A token in its place: its lexeme, and what follows that in the text. -/
inductive Stands (n : Nat) (w rest : List Char) (t : Token) : Prop
  | complete (h : Lexeme n w rest t)
  | atEnd (h : Pending n w t) (hrest : rest = [])

namespace Stands

theorem length (h : Stands n w rest t) : t.offset = n ∧ t.length = w.length ∧ w ≠ [] := by
  rcases h with h | ⟨h, -⟩
  · cases h with
    | operator => exact ⟨rfl, rfl, List.cons_ne_nil _ _⟩
    | phrase => exact ⟨rfl, by simp [phraseAt], List.cons_ne_nil _ _⟩
    | word h =>
      rw [wordAt_eq]
      exact ⟨rfl, rfl, h.ne_nil⟩
  · cases h with
    | word h =>
      rw [wordAt_eq]
      exact ⟨rfl, rfl, h.ne_nil⟩
    | phrase => exact ⟨rfl, by simp [phraseAt], List.cons_ne_nil _ _⟩

theorem alone (h : Stands n w rest t) : tokenize (String.ofList w) = [{ t with offset := 0 }] := by
  have hword (w : List Char) : { wordAt n w with offset := 0 } = wordAt 0 w := by
    rw [wordAt_eq, wordAt_eq]
  rcases h with h | ⟨h, -⟩
  · cases h with
    | operator hop => exact (Lexes.lexeme (.operator hop) (.nil 1)).tokenize_eq
    | @phrase body rest h hbody =>
      have hread := (Lexes.lexeme (.phrase h hbody) (.nil _)).tokenize_eq
      rw [List.append_nil] at hread
      exact hread
    | word h =>
      rw [hword]
      exact (Lexes.pending (.word (.whole h))).tokenize_eq
  · cases h with
    | word h =>
      rw [hword]
      exact (Lexes.pending (.word h)).tokenize_eq
    | phrase h hbody => exact (Lexes.pending (.phrase h hbody)).tokenize_eq

theorem ends (h : Stands n w rest t) (hw : Unquoted w) :
    rest = [] ∨ ∃ c more, rest = c :: more ∧ endsWord c = true := by
  rcases h with h | ⟨-, hrest⟩
  · cases h with
    | operator hop => exact absurd (mem_operators hop) hw.2
    | phrase => exact absurd rfl hw.1
    | word h hc => exact .inr ⟨_, _, rfl, hc⟩
  · exact .inl hrest

end Stands

/-- What holds of a text from some offset on. -/
def Later (P : Nat → List Char → Prop) (n : Nat) (cs : List Char) : Prop :=
  ∃ pre rest, cs = pre ++ rest ∧ P (n + pre.length) rest

section

variable {P : Nat → List Char → Prop}

theorem Later.here (h : P n cs) : Later P n cs := ⟨[], cs, rfl, h⟩

theorem Later.behind (w : List Char) (h : Later P (n + w.length) cs) : Later P n (w ++ cs) := by
  obtain ⟨pre, rest, rfl, h⟩ := h
  refine ⟨w ++ pre, rest, (List.append_assoc ..).symm, ?_⟩
  rwa [List.length_append, ← Nat.add_assoc]

end

/-- Every token that is complete stands somewhere in the text. -/
theorem Lexes.complete (h : Lexes n cs ts us) (ht : t ∈ ts) :
    Later (fun m ds => ∃ w rest, ds = w ++ rest ∧ Lexeme m w rest t) n cs := by
  induction h with
  | nil | quote | pending => cases ht
  | space _ ih => exact (ih ht).behind [' ']
  | noPhrase _ ih => exact (ih ht).behind ['"', '"']
  | @lexeme n w cs u ts us hw _ ih =>
    rcases List.mem_cons.1 ht with rfl | ht
    · exact .here ⟨w, cs, rfl, hw⟩
    · exact (ih ht).behind w

theorem Lexes.atEnd (h : Lexes n cs ts us) (ht : t ∈ us) : Later (fun m w => Pending m w t) n cs := by
  induction h with
  | nil | quote => cases ht
  | @pending n w u h =>
    obtain rfl : t = u := List.mem_singleton.1 ht
    exact .here h
  | space _ ih => exact (ih ht).behind [' ']
  | noPhrase _ ih => exact (ih ht).behind ['"', '"']
  | @lexeme n w cs u ts us _ _ ih => exact (ih ht).behind w

theorem Lexes.stands (h : Lexes n cs ts us) (ht : t ∈ ts ++ us) :
    ∃ pre w rest, cs = pre ++ w ++ rest ∧ Stands (n + pre.length) w rest t := by
  rcases List.mem_append.1 ht with ht | ht
  · obtain ⟨pre, -, rfl, w, rest, rfl, hw⟩ := h.complete ht
    exact ⟨pre, w, rest, (List.append_assoc ..).symm, .complete hw⟩
  · obtain ⟨pre, w, rfl, hw⟩ := h.atEnd ht
    exact ⟨pre, w, [], (List.append_nil _).symm, .atEnd hw rfl⟩

theorem Lexes.le_offset (h : Lexes n cs ts us) : ∀ t ∈ ts ++ us, n ≤ t.offset := by
  intro t ht
  obtain ⟨pre, w, rest, -, hw⟩ := h.stands ht
  rw [hw.length.1]
  exact Nat.le_add_right n pre.length

theorem Lexes.pairwise (h : Lexes n cs ts us) :
    (ts ++ us).Pairwise fun t u => t.stop ≤ u.offset := by
  induction h with
  | nil | quote => exact .nil
  | pending => exact List.pairwise_singleton _ _
  | space _ ih => exact ih
  | noPhrase _ ih => exact ih
  | @lexeme n w cs t ts us hw h ih =>
    refine List.pairwise_cons.2 ⟨fun u hu => ?_, ih⟩
    obtain ⟨hoffset, hlength, -⟩ := (Stands.complete hw).length
    rw [stop, hoffset, hlength]
    exact h.le_offset u hu

/-- Between some tokens and those behind them the text, which begins at `n`, has a gap: blanks, and
behind the last token perhaps a quote that opens nothing. -/
def Gap (n : Nat) (cs : List Char) (before after : List Token) : Prop :=
  ∃ pre gap post, cs = pre ++ gap ++ post ∧
    lastStop n before = n + pre.length ∧
    firstOffset (n + cs.length) after = n + pre.length + gap.length ∧
    (Blank gap ∨ after = [] ∧ ∃ g, Blank g ∧ gap = g ++ ['"'])

namespace Gap

theorem first (h : t.offset = n) : Gap n cs [] (t :: after) :=
  ⟨[], [], cs, rfl, rfl, h, .inl .nil⟩

/-- Blanks in front of a text widen its first gap and move the others. -/
theorem behind_blank {g : List Char} (hg : ∀ {gap}, Blank gap → Blank (g ++ gap))
    (h : Gap (n + g.length) cs before after) : Gap n (g ++ cs) before after := by
  obtain ⟨pre, gap, post, rfl, hstop, hfirst, hgap⟩ := h
  have hsize : n + (g ++ (pre ++ gap ++ post)).length =
      n + g.length + (pre ++ gap ++ post).length := by
    rw [List.length_append, Nat.add_assoc]
  rw [Gap, hsize]
  cases before with
  | nil =>
    obtain rfl : pre = [] := List.eq_nil_of_length_eq_zero (by simpa [lastStop] using hstop)
    refine ⟨[], g ++ gap, post, by simp, rfl, ?_, ?_⟩
    · rw [hfirst, List.length_append]
      simp [Nat.add_assoc]
    · rcases hgap with hgap | ⟨hafter, gap, hgap, rfl⟩
      · exact .inl (hg hgap)
      · exact .inr ⟨hafter, g ++ gap, hg hgap, (List.append_assoc ..).symm⟩
  | cons t before =>
    refine ⟨g ++ pre, gap, post, by simp, ?_, ?_, hgap⟩
    · rw [List.length_append, ← Nat.add_assoc, ← hstop]
      simp [lastStop, List.getLast?_cons]
    · rw [hfirst, List.length_append, Nat.add_assoc n]

/-- A token in front of a text stands before the first gap. -/
theorem behind_token (hstop : t.stop = n + w.length) (h : Gap (n + w.length) cs before after) :
    Gap n (w ++ cs) (t :: before) after := by
  obtain ⟨pre, gap, post, rfl, hlast, hfirst, hgap⟩ := h
  refine ⟨w ++ pre, gap, post, by simp, ?_, ?_, hgap⟩
  · rw [List.length_append, ← Nat.add_assoc, ← hlast, ← hstop]
    cases before <;> simp [lastStop, List.getLast?_cons]
  · rw [List.length_append, ← Nat.add_assoc, hfirst, List.length_append, ← Nat.add_assoc]

end Gap

theorem Lexes.gap (h : Lexes n cs ts us) (hts : ts ++ us = before ++ after) :
    Gap n cs before after := by
  have hnone (m : Nat) : Gap m [] [] [] := ⟨[], [], [], rfl, rfl, rfl, .inl .nil⟩
  induction h generalizing before with
  | nil n =>
    obtain ⟨rfl, rfl⟩ := List.append_eq_nil_iff.1 hts.symm
    exact hnone n
  | quote n =>
    obtain ⟨rfl, rfl⟩ := List.append_eq_nil_iff.1 hts.symm
    exact ⟨[], ['"'], [], rfl, rfl, rfl, .inr ⟨rfl, [], .nil, rfl⟩⟩
  | @pending n w t hw =>
    obtain ⟨hoffset, hlength, -⟩ := (Stands.atEnd hw rfl).length
    cases before with
    | nil =>
      obtain rfl := hts
      exact .first hoffset
    | cons u before =>
      obtain ⟨rfl, hrest⟩ := List.cons.inj hts
      obtain ⟨rfl, rfl⟩ := List.append_eq_nil_iff.1 hrest.symm
      have hgap := Gap.behind_token (w := w) (by rw [stop, hoffset, hlength]) (hnone (n + w.length))
      rwa [List.append_nil] at hgap
  | space _ ih => exact Gap.behind_blank (g := [' ']) .space (ih hts)
  | noPhrase _ ih => exact Gap.behind_blank (g := ['"', '"']) .noPhrase (ih hts)
  | @lexeme n w cs t ts us hw _ ih =>
    obtain ⟨hoffset, hlength, -⟩ := (Stands.complete hw).length
    cases before with
    | nil =>
      obtain rfl := hts
      exact .first hoffset
    | cons u before =>
      obtain ⟨rfl, hrest⟩ := List.cons.inj hts
      exact .behind_token (by rw [stop, hoffset, hlength]) (ih hrest)

theorem lexes_tokenize (text : String) :
    ∃ ts us, Lexes 0 text.toList ts us ∧ tokenize text = ts ++ us :=
  ⟨_, _, lexes_feed 0 text.toList, tokenize_eq text⟩

theorem stands_tokenize {text : String} (ht : t ∈ tokenize text) :
    ∃ pre w rest, text.toList = pre ++ w ++ rest ∧ t.offset = pre.length ∧ t.length = w.length ∧
      w ≠ [] ∧ Stands t.offset w rest t := by
  obtain ⟨ts, us, h, hts⟩ := lexes_tokenize text
  rw [hts] at ht
  obtain ⟨pre, w, rest, heq, hw⟩ := h.stands ht
  obtain ⟨hoffset, hlength, hne⟩ := hw.length
  rw [← hoffset] at hw
  rw [Nat.zero_add] at hoffset
  exact ⟨pre, w, rest, heq, hoffset, hlength, hne, hw⟩

theorem span_tokenize {text : String} (ht : t ∈ tokenize text) :
    0 < t.length ∧ t.stop ≤ text.length := by
  obtain ⟨pre, w, rest, heq, hoffset, hlength, hne, -⟩ := stands_tokenize ht
  constructor
  · rw [hlength]
    exact List.length_pos_iff.2 hne
  · rw [← String.length_toList, heq, stop, hoffset, hlength, List.length_append, List.length_append]
    exact Nat.le_add_right _ _

theorem pairwise_tokenize (text : String) :
    (tokenize text).Pairwise fun t u => t.offset < u.offset ∧ t.stop ≤ u.offset := by
  obtain ⟨ts, us, h, hts⟩ := lexes_tokenize text
  have hstop : (tokenize text).Pairwise fun t u => t.stop ≤ u.offset := hts ▸ h.pairwise
  refine hstop.imp_of_mem fun {t u} ht _ hle => ⟨?_, hle⟩
  have hpos := (span_tokenize ht).1
  rw [stop] at hle
  omega

theorem gap_tokenize {text : String} (h : tokenize text = before ++ after) :
    let gap := segment text.toList (lastStop 0 before) (firstOffset text.length after)
    Blank gap ∨ after = [] ∧ ∃ g, Blank g ∧ gap = g ++ ['"'] := by
  obtain ⟨ts, us, hlexes, hts⟩ := lexes_tokenize text
  obtain ⟨pre, gap, post, heq, hlast, hfirst, hgap⟩ := hlexes.gap (hts.symm.trans h)
  rw [Nat.zero_add] at hlast hfirst
  rw [Nat.zero_add, String.length_toList] at hfirst
  rw [hlast, hfirst, heq, segment_append]
  exact hgap

theorem tokenize_source {text : String} (ht : t ∈ tokenize text) :
    tokenize (String.ofList (t.source text.toList)) = [{ t with offset := 0 }] := by
  obtain ⟨pre, w, rest, heq, hoffset, hlength, -, hw⟩ := stands_tokenize ht
  rw [heq, source_append hoffset hlength]
  exact hw.alone

/-- Only a parenthesis as written is one among the tokens. -/
theorem leftParen_tokenize {text : String} (ht : t ∈ tokenize text) (hkind : t.kind = .leftParen) :
    text.toList[t.offset]? = some '(' := by
  obtain ⟨before, after, htext, hoffset, -⟩ := leftParen_stands ht hkind
  rw [htext, hoffset]
  simp

theorem unquoted_tokenize {text : String} (ht : t ∈ tokenize text)
    (hw : Unquoted (t.source text.toList)) :
    t.stop = text.length ∨ ∃ c, text.toList[t.stop]? = some c ∧ (c = ' ' ∨ c = '(' ∨ c = ')') := by
  obtain ⟨pre, w, rest, heq, hoffset, hlength, -, hstands⟩ := stands_tokenize ht
  have hstop : t.stop = (pre ++ w).length := by rw [stop, hoffset, hlength, List.length_append]
  rw [heq, source_append hoffset hlength] at hw
  rcases hstands.ends hw with rfl | ⟨c, more, rfl, hc⟩
  · left
    rw [← String.length_toList, heq, hstop, List.append_nil]
  · right
    refine ⟨c, by rw [heq, hstop]; simp, ?_⟩
    simpa [endsWord, or_assoc] using hc

/-- Nothing of a text is lost, and no lexeme depends on what is around it. The spans of the tokens
stand one behind the other, with blanks between them; a span read alone gives its token again; and a
word is as long as it can be. -/
theorem tokenize_lossless (text : String) :
    (∀ t ∈ tokenize text, 0 < t.length ∧ t.stop ≤ text.length) ∧
      (tokenize text).Pairwise (fun t u => t.offset < u.offset ∧ t.stop ≤ u.offset) ∧
      (∀ before after, tokenize text = before ++ after →
        let gap := segment text.toList (lastStop 0 before) (firstOffset text.length after)
        Blank gap ∨ after = [] ∧ ∃ g, Blank g ∧ gap = g ++ ['"']) ∧
      (∀ t ∈ tokenize text,
        tokenize (String.ofList (t.source text.toList)) = [{ t with offset := 0 }]) ∧
      ∀ t ∈ tokenize text, Unquoted (t.source text.toList) →
        t.stop = text.length ∨
          ∃ c, text.toList[t.stop]? = some c ∧ (c = ' ' ∨ c = '(' ∨ c = ')') :=
  ⟨fun _ => span_tokenize, pairwise_tokenize text, fun _ _ => gap_tokenize,
    fun _ => tokenize_source, fun _ => unquoted_tokenize⟩

end Lexer
end SearchQuery

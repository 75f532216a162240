import Mathlib.Data.Nat.Init
import Mathlib.Tactic.SplitIfs
import SearchQuery.Proofs.Text.Word
import SearchQuery.Toml.Reader
import SearchQuery.Toml.Writer

/-! Quoted texts are read back as they were written, in each of the four styles. An escape stands for
the code point it was made for; between tripled quotes never more than two quotes follow one another
without an escape, so that three of them close the text, also when the text ends with quotes. -/

namespace SearchQuery.Toml

/-- What comes of reading from the front of a text, the bound left aside. -/
def Yields {α : Type} {n : Nat} (r : Option (Front α n)) (v : α) (rest : List Char) : Prop :=
  ∃ le, r = some ⟨v, rest, le⟩

/-- What is put behind a backslash for a code point. It is no end of a line. -/
def Escapes (e : List Char) (c : Char) : Prop :=
  ∀ r, joined? (e ++ r) = none ∧ ∀ n h, Yields (escape? n (e ++ r) h) c r

/-- What is written for a text begins with at most `k` quotes, and it is nothing but quotes only if
the text is. -/
def QuotesFirst (q : Char) (k : Nat) (s written : List Char) : Prop :=
  ∃ j, j ≤ k ∧ ((s = List.replicate j q ∧ written = List.replicate j q) ∨
    ∃ c r, c ≠ q ∧ written = List.replicate j q ++ c :: r)

variable {n k : Nat} {c q : Char} {done : String} {e r s w rest : List Char}

theorem Yields.map {α β : Type} {x : Option (Front α n)} {v : α} (h : Yields x v rest) (f : α → β) :
    Yields (x.map (·.map f)) (f v) rest := by
  obtain ⟨le, rfl⟩ := h
  exact ⟨le, rfl⟩

theorem escapes_plain {l : Char} (h : plainEscape? l = some c) : Escapes [l] c := by
  unfold plainEscape? at h
  split at h <;> cases h <;> exact fun r => ⟨rfl, fun n h => ⟨_, rfl⟩⟩

theorem hexValue?_upperHexDigit : ∀ d < 16, hexValue? (upperHexDigit d) = some d := by decide

theorem hexChar?_upper (h : c.toNat < 256) :
    hexChar? ['0', '0', upperHexDigit (c.toNat / 16), upperHexDigit (c.toNat % 16)] = some c := by
  have hzero : hexValue? '0' = some 0 := rfl
  have hhigh := hexValue?_upperHexDigit (c.toNat / 16) (by omega)
  have hlow := hexValue?_upperHexDigit (c.toNat % 16) (by omega)
  have hnumber : c.toNat / 16 * 16 + c.toNat % 16 = c.toNat := by omega
  have hvalid : c.toNat.isValidChar := c.valid
  simp only [hexChar?, List.foldlM_cons, List.foldlM_nil, hzero, hhigh, hlow, Option.bind_eq_bind,
    Option.bind_some, Option.pure_def, Nat.zero_mul, Nat.zero_add, hnumber, hvalid, if_true,
    Char.ofNat_toNat]

theorem escapes_hex (h : c.toNat < 256) :
    Escapes ['u', '0', '0', upperHexDigit (c.toNat / 16), upperHexDigit (c.toNat % 16)] c := by
  refine fun r => ⟨rfl, fun n hn => ⟨Nat.le_trans (Nat.le_add_right _ 5) hn, ?_⟩⟩
  simp [escape?, hexChar?_upper h]

theorem allowed_of_not_control (h : isControl c = false) : isAllowed c = true ∨ c = '\n' := by
  by_cases htab : c = '\t'
  · exact .inl (htab ▸ rfl)
  by_cases hline : c = '\n'
  · exact .inr hline
  left
  rw [← Bool.not_eq_true] at h
  simp only [isControl, Bool.or_eq_true, Bool.and_eq_true, decide_eq_true_eq, bne_iff_ne, htab,
    hline, beq_iff_eq, ne_eq, not_false_eq_true, and_true] at h
  simp only [isAllowed, Bool.or_eq_true, Bool.and_eq_true, decide_eq_true_eq, bne_iff_ne]
  omega

theorem lt_of_control (h : isControl c = true) : c.toNat < 256 := by
  simp only [isControl, Bool.or_eq_true, Bool.and_eq_true, decide_eq_true_eq, beq_iff_eq] at h
  omega

/-- A code point other than the quote stands as it is or behind a backslash. -/
theorem escapedChar_cases (hq : c ≠ '"') :
    (escapedChar c = [c] ∧ c ≠ '\\' ∧ (isAllowed c = true ∨ c = '\n')) ∨
      ∃ e, escapedChar c = '\\' :: e ∧ Escapes e c := by
  unfold escapedChar
  split
  · exact .inr ⟨['b'], rfl, escapes_plain rfl⟩
  · exact .inr ⟨['t'], rfl, escapes_plain rfl⟩
  · exact .inr ⟨['f'], rfl, escapes_plain rfl⟩
  · exact .inr ⟨['r'], rfl, escapes_plain rfl⟩
  · exact .inr ⟨['\\'], rfl, escapes_plain rfl⟩
  next hslash =>
    cases hc : isControl c with
    | true => exact .inr ⟨_, rfl, escapes_hex (lt_of_control hc)⟩
    | false => exact .inl ⟨rfl, hslash, allowed_of_not_control hc⟩

theorem escaped_cons {room left : Nat} (hq : c ≠ '"') :
    escaped room left (c :: s) = escapedChar c ++ escaped room room s := by
  rw [escaped]
  exact hq

/-! ### One line -/

theorem basic_close (h : ('"' :: r).length ≤ n) : Yields (basic n done ('"' :: r) h) done r := by
  rw [basic]
  exact ⟨_, rfl⟩

theorem basic_plain (hq : c ≠ '"') (hb : c ≠ '\\') (ha : isAllowed c = true)
    (h : (c :: r).length ≤ n) :
    basic n done (c :: r) h = basic n (done.push c) r (Nat.le_of_succ_le h) := by
  rw [basic, if_pos ha]
  · exact hq
  · exact hb

theorem basic_escape (done : String) (he : Escapes e c) (h : ('\\' :: (e ++ r)).length ≤ n) :
    ∃ h', basic n done ('\\' :: (e ++ r)) h = basic n (done.push c) r h' := by
  obtain ⟨le, hread⟩ := (he r).2 (e ++ r).length (Nat.le_refl _)
  refine ⟨Nat.le_trans le (Nat.le_of_succ_le h), ?_⟩
  rw [basic, hread]
  rfl

/-- A text without a newline. -/
theorem basic_escaped (hs : ∀ c ∈ s, c ≠ '\n') (h : (escaped 0 0 s ++ '"' :: rest).length ≤ n) :
    Yields (basic n done (escaped 0 0 s ++ '"' :: rest) h) (done ++ String.ofList s) rest := by
  induction s generalizing done with
  | nil =>
    rw [String.ofList_nil, String.append_empty]
    exact basic_close h
  | cons c s ih =>
    obtain ⟨hc, hs'⟩ := List.forall_mem_cons.1 hs
    rw [← push_append]
    by_cases hq : c = '"'
    · subst hq
      obtain ⟨h', hstep⟩ := basic_escape done (escapes_plain (l := '"') rfl) h
      exact hstep ▸ ih hs' h'
    · rcases escapedChar_cases hq with ⟨hw, hb, ha⟩ | ⟨e, hw, he⟩
      · simp only [escaped_cons hq, hw, List.cons_append] at h ⊢
        rw [basic_plain hq hb (ha.resolve_right hc)]
        exact ih hs' _
      · simp only [escaped_cons hq, hw, List.cons_append, List.append_assoc] at h ⊢
        obtain ⟨h', hstep⟩ := basic_escape done he h
        exact hstep ▸ ih hs' h'

theorem literal_close (h : ('\x27' :: r).length ≤ n) : Yields (literal n done ('\x27' :: r) h) done r := by
  rw [literal]
  exact ⟨_, rfl⟩

theorem literal_plain (done : String) (hq : c ≠ '\x27') (ha : isAllowed c = true)
    (h : (c :: r).length ≤ n) :
    literal n done (c :: r) h = literal n (done.push c) r (Nat.le_of_succ_le h) := by
  rw [literal, if_pos ha]
  exact hq

theorem literal_verbatim (hs : ∀ c ∈ s, c ≠ '\x27' ∧ isAllowed c = true)
    (h : (s ++ '\x27' :: rest).length ≤ n) :
    Yields (literal n done (s ++ '\x27' :: rest) h) (done ++ String.ofList s) rest := by
  induction s generalizing done with
  | nil =>
    rw [String.ofList_nil, String.append_empty]
    exact literal_close h
  | cons c s ih =>
    obtain ⟨⟨hq, ha⟩, hs⟩ := List.forall_mem_cons.1 hs
    rw [← push_append]
    have hstep := literal_plain done (r := s ++ '\x27' :: rest) hq ha h
    exact hstep ▸ ih hs _

/-! ### Several lines -/

theorem closing?_end (hk : k ≤ 2) (hrest : rest.head? ≠ some q)
    (h : (List.replicate k q ++ q :: q :: q :: rest).length ≤ n) :
    Yields (closing? q n (List.replicate k q ++ q :: q :: q :: rest) h) k rest := by
  refine ⟨by simp only [List.length_append, List.length_cons] at h; omega, ?_⟩
  have hcases : k = 0 ∨ k = 1 ∨ k = 2 := by omega
  rcases hcases with rfl | rfl | rfl <;> rcases rest with _ | ⟨d, _ | ⟨e, r⟩⟩ <;>
    simp_all [closing?, List.replicate]

theorem closing?_none (hk : k ≤ 1) (hc : c ≠ q)
    (h : (q :: (List.replicate k q ++ c :: r)).length ≤ n) :
    closing? q n (q :: (List.replicate k q ++ c :: r)) h = none := by
  have hcases : k = 0 ∨ k = 1 := by omega
  rcases hcases with rfl | rfl <;> rcases r with _ | ⟨d, _ | ⟨e, _ | ⟨f, r⟩⟩⟩ <;>
    simp_all [closing?, List.replicate]

/-- Behind a quote of the text either the text ends, and the closing quotes are found, or there
are not quotes enough to close it. -/
theorem closing?_cases (hk : k ≤ 1) (hw : QuotesFirst q k s w) (hrest : rest.head? ≠ some q)
    (h : (q :: (w ++ q :: q :: q :: rest)).length ≤ n) :
    (∃ j, q :: s = List.replicate j q ∧ Yields (closing? q n (q :: (w ++ q :: q :: q :: rest)) h) j rest) ∨
      closing? q n (q :: (w ++ q :: q :: q :: rest)) h = none := by
  obtain ⟨j, hj, ⟨rfl, rfl⟩ | ⟨c, r, hc, rfl⟩⟩ := hw
  · exact .inl ⟨j + 1, rfl, closing?_end (k := j + 1) (by omega) hrest h⟩
  · right
    simp only [List.append_assoc, List.cons_append] at h ⊢
    exact closing?_none (by omega) hc h

theorem escaped_first (room left : Nat) (s : List Char) :
    QuotesFirst '"' left s (escaped room left s) := by
  induction s generalizing left with
  | nil => exact ⟨0, Nat.zero_le _, .inl ⟨rfl, rfl⟩⟩
  | cons c s ih =>
    by_cases hq : c = '"'
    · subst hq
      cases left with
      | zero => exact ⟨0, Nat.le_refl _, .inr ⟨'\\', _, by decide, rfl⟩⟩
      | succ left =>
        obtain ⟨j, hj, ⟨hs, hw⟩ | ⟨c, r, hc, hw⟩⟩ := ih left
        · exact ⟨j + 1, by omega, .inl ⟨congrArg _ hs, congrArg _ hw⟩⟩
        · exact ⟨j + 1, by omega, .inr ⟨c, r, hc, congrArg _ hw⟩⟩
    · refine ⟨0, Nat.zero_le _, .inr ?_⟩
      rw [escaped_cons hq]
      rcases escapedChar_cases hq with ⟨hw, -, -⟩ | ⟨e, hw, -⟩
      · exact ⟨c, _, hq, by rw [hw]; rfl⟩
      · exact ⟨'\\', _, by decide, by rw [hw]; rfl⟩

theorem basicLines_plain (hq : c ≠ '"') (hb : c ≠ '\\') (hc : mayStand c r = true)
    (h : (c :: r).length ≤ n) :
    basicLines n done (c :: r) h = basicLines n (done.push c) r (Nat.le_of_succ_le h) := by
  rw [basicLines, if_pos hc]
  · exact hq
  · exact hb

theorem basicLines_escape (done : String) (he : Escapes e c) (h : ('\\' :: (e ++ r)).length ≤ n) :
    ∃ h', basicLines n done ('\\' :: (e ++ r)) h = basicLines n (done.push c) r h' := by
  obtain ⟨le, hread⟩ := (he r).2 (e ++ r).length (Nat.le_refl _)
  refine ⟨Nat.le_trans le (Nat.le_of_succ_le h), ?_⟩
  rw [basicLines]
  split
  · next hjoined =>
    rw [(he r).1] at hjoined
    cases hjoined
  · rw [hread]
    rfl

theorem basicLines_quote (done : String) (h : ('"' :: r).length ≤ n)
    (hnone : closing? '"' n ('"' :: r) h = none) :
    basicLines n done ('"' :: r) h = basicLines n (done.push '"') r (Nat.le_of_succ_le h) := by
  rw [basicLines, hnone]

theorem basicLines_close (done : String) (h : ('"' :: r).length ≤ n)
    (hclose : Yields (closing? '"' n ('"' :: r) h) k rest) :
    Yields (basicLines n done ('"' :: r) h) (done ++ String.ofList (List.replicate k '"')) rest := by
  obtain ⟨le, hclose⟩ := hclose
  rw [basicLines, hclose]
  exact ⟨le, rfl⟩

theorem mayStand_of_allowed (hc : isAllowed c = true ∨ c = '\n') : mayStand c r = true := by
  rcases hc with hc | rfl
  · simp [mayStand, hc]
  · rfl

theorem basicLines_escaped {left : Nat} (hleft : left ≤ 2) (hrest : rest.head? ≠ some '"')
    (h : (escaped 2 left s ++ '"' :: '"' :: '"' :: rest).length ≤ n) :
    Yields (basicLines n done (escaped 2 left s ++ '"' :: '"' :: '"' :: rest) h)
      (done ++ String.ofList s) rest := by
  induction s generalizing done left with
  | nil => exact basicLines_close done h (closing?_end (k := 0) (by omega) hrest h)
  | cons c s ih =>
    by_cases hq : c = '"'
    · subst hq
      cases left with
      | zero =>
        obtain ⟨h', hstep⟩ := basicLines_escape done (escapes_plain (l := '"') rfl) h
        rw [← push_append]
        exact hstep ▸ ih (Nat.le_refl 2) h'
      | succ left =>
        rcases closing?_cases (by omega) (escaped_first 2 left s) hrest h with ⟨j, hs, hclose⟩ | hnone
        · have hread := basicLines_close done h hclose
          rwa [← hs] at hread
        · rw [← push_append]
          have hstep := basicLines_quote done h hnone
          exact hstep ▸ ih (by omega) _
    · rw [← push_append]
      rcases escapedChar_cases hq with ⟨hw, hb, ha⟩ | ⟨e, hw, he⟩
      · simp only [escaped_cons hq, hw, List.cons_append] at h ⊢
        rw [basicLines_plain hq hb (mayStand_of_allowed ha)]
        exact ih (Nat.le_refl 2) _
      · simp only [escaped_cons hq, hw, List.cons_append, List.append_assoc] at h ⊢
        obtain ⟨h', hstep⟩ := basicLines_escape done he h
        exact hstep ▸ ih (Nat.le_refl 2) h'

theorem longestRun_first {run : Nat} (h : longestRun q run s ≤ 2) :
    run ≤ 2 ∧ QuotesFirst q (2 - run) s s := by
  induction s generalizing run with
  | nil => exact ⟨h, 0, Nat.zero_le _, .inl ⟨rfl, rfl⟩⟩
  | cons c s ih =>
    by_cases hq : c = q
    · subst hq
      rw [longestRun, if_pos rfl] at h
      obtain ⟨hrun, j, hj, ⟨hs, hw⟩ | ⟨d, r, hd, hw⟩⟩ := ih h
      · exact ⟨by omega, j + 1, by omega, .inl ⟨congrArg _ hs, congrArg _ hw⟩⟩
      · exact ⟨by omega, j + 1, by omega, .inr ⟨d, r, hd, congrArg _ hw⟩⟩
    · rw [longestRun, if_neg hq] at h
      exact ⟨by omega, 0, Nat.zero_le _, .inr ⟨c, s, hq, rfl⟩⟩

theorem literalLines_plain (done : String) (hq : c ≠ '\x27') (hc : mayStand c r = true)
    (h : (c :: r).length ≤ n) :
    literalLines n done (c :: r) h = literalLines n (done.push c) r (Nat.le_of_succ_le h) := by
  rw [literalLines, if_pos hc]
  exact hq

theorem literalLines_quote (done : String) (h : ('\x27' :: r).length ≤ n)
    (hnone : closing? '\x27' n ('\x27' :: r) h = none) :
    literalLines n done ('\x27' :: r) h =
      literalLines n (done.push '\x27') r (Nat.le_of_succ_le h) := by
  rw [literalLines, hnone]

theorem literalLines_close (done : String) (h : ('\x27' :: r).length ≤ n)
    (hclose : Yields (closing? '\x27' n ('\x27' :: r) h) k rest) :
    Yields (literalLines n done ('\x27' :: r) h)
      (done ++ String.ofList (List.replicate k '\x27')) rest := by
  obtain ⟨le, hclose⟩ := hclose
  rw [literalLines, hclose]
  exact ⟨le, rfl⟩

theorem literalLines_verbatim {run : Nat} (hrun : longestRun '\x27' run s ≤ 2)
    (hs : ∀ c ∈ s, isControl c = false) (hrest : rest.head? ≠ some '\x27')
    (h : (s ++ '\x27' :: '\x27' :: '\x27' :: rest).length ≤ n) :
    Yields (literalLines n done (s ++ '\x27' :: '\x27' :: '\x27' :: rest) h)
      (done ++ String.ofList s) rest := by
  induction s generalizing done run with
  | nil => exact literalLines_close done h (closing?_end (k := 0) (by omega) hrest h)
  | cons c s ih =>
    obtain ⟨hc, hs'⟩ := List.forall_mem_cons.1 hs
    by_cases hq : c = '\x27'
    · subst hq
      rw [longestRun, if_pos rfl] at hrun
      rcases closing?_cases (by omega) (longestRun_first hrun).2 hrest h with ⟨j, hj, hclose⟩ | hnone
      · have hread := literalLines_close done h hclose
        rwa [← hj] at hread
      · rw [← push_append]
        have hstep := literalLines_quote done h hnone
        exact hstep ▸ ih hrun hs' _
    · rw [longestRun, if_neg hq] at hrun
      rw [← push_append]
      have hstand := mayStand_of_allowed (r := s ++ '\x27' :: '\x27' :: '\x27' :: rest)
        (allowed_of_not_control hc)
      have hstep := literalLines_plain done hq hstand h
      have hnone : longestRun '\x27' 0 s ≤ 2 := by omega
      exact hstep ▸ ih hnone hs' _

/-! ### Every style -/

/-- What a text has to be like to be written in a style. -/
def QuoteStyle.Holds (s : List Char) : QuoteStyle → Prop
  | .basic => ∀ c ∈ s, c ≠ '\n'
  | .literal => ∀ c ∈ s, c ≠ '\x27' ∧ isAllowed c = true
  | .basicLines => True
  | .literalLines => longestRun '\x27' 0 s ≤ 2 ∧ ∀ c ∈ s, isControl c = false

theorem ne_of_contains (h : s.contains q = false) : ∀ c ∈ s, c ≠ q := by
  rintro c hc rfl
  rw [List.contains_eq_mem, decide_eq_false_iff_not] at h
  exact h hc

theorem not_control_of_any (h : s.any isControl = false) : ∀ c ∈ s, isControl c = false :=
  fun c hc => Bool.not_eq_true _ ▸ List.any_eq_false.1 h c hc

theorem quoteStyle_holds (s : List Char) : (quoteStyle s).Holds s := by
  unfold quoteStyle
  dsimp only
  split_ifs with hbasic hliteral hlines hverbatim hline
  · simp only [Bool.and_eq_true, Bool.not_eq_true'] at hbasic
    exact ne_of_contains hbasic.2
  · simp only [Bool.and_eq_true, Bool.not_eq_true'] at hliteral
    obtain ⟨⟨hcontrol, hquote⟩, hline⟩ := hliteral
    intro c hc
    have hallowed := allowed_of_not_control (not_control_of_any hcontrol c hc)
    exact ⟨ne_of_contains hquote c hc, hallowed.resolve_right (ne_of_contains hline c hc)⟩
  · trivial
  · simp only [Bool.and_eq_true, Bool.not_eq_true', decide_eq_true_eq] at hverbatim
    exact ⟨hverbatim.2, not_control_of_any hverbatim.1⟩
  · trivial
  · rw [Bool.not_eq_true] at hline
    exact ne_of_contains hline

/-- The newline behind the opening quotes is the one that is dropped, and where there is none the
text does not begin with one. -/
theorem dropNewline_openLines (hr : w.head? ≠ some '\r') (hn : w.head? = some '\n' → '\n' ∈ s) :
    dropNewline (openLines s ++ w) = w := by
  unfold openLines
  by_cases hs : '\n' ∈ s
  · simp [hs, dropNewline]
  · rw [if_neg (by simpa using hs), List.nil_append]
    rw [dropNewline]
    · rintro r rfl
      exact hs (hn rfl)
    · rintro r rfl
      exact hr rfl

theorem escaped_head (room left : Nat) (s tail : List Char) :
    (escaped room left s ++ '"' :: tail).head? ≠ some '\r' ∧
      ((escaped room left s ++ '"' :: tail).head? = some '\n' → '\n' ∈ s) := by
  cases s with
  | nil => simp [escaped]
  | cons c s =>
    by_cases hq : c = '"'
    · subst hq
      cases left <;> simp [escaped]
    · rw [escaped_cons hq]
      rcases escapedChar_cases hq with ⟨hw, -, ha⟩ | ⟨e, hw, -⟩
      · rw [hw]
        refine ⟨?_, ?_⟩
        · rintro hc
          obtain rfl : c = '\r' := Option.some.inj hc
          rcases ha with ha | ha <;> cases ha
        · intro hc
          obtain rfl : c = '\n' := Option.some.inj hc
          exact List.mem_cons_self
      · rw [hw]
        simp

theorem leaf_basic (hw : ∀ r, w ≠ '"' :: '"' :: r) (h : ('"' :: w).length ≤ n) :
    leaf n ('"' :: w) h = (basic n "" w (Nat.le_of_succ_le h)).map (·.map Value.text) := by
  rw [leaf]
  exact fun r _ _ hr => hw r hr

theorem leaf_literal (hw : ∀ r, w ≠ '\x27' :: '\x27' :: r) (h : ('\x27' :: w).length ≤ n) :
    leaf n ('\x27' :: w) h = (literal n "" w (Nat.le_of_succ_le h)).map (·.map Value.text) := by
  rw [leaf]
  exact fun r _ _ hr => hw r hr

/-- Where no quote of the text comes first, the quotes are not those that open several lines. -/
theorem QuotesFirst.ne_tripled (hw : QuotesFirst q 0 s w) (hrest : rest.head? ≠ some q)
    (r : List Char) : w ++ q :: rest ≠ q :: q :: r := by
  obtain ⟨j, hj, hw⟩ := hw
  obtain rfl : j = 0 := by omega
  intro heq
  rcases hw with ⟨-, rfl⟩ | ⟨c, t, hc, rfl⟩
  · rw [(List.cons.inj heq).2] at hrest
    exact hrest rfl
  · exact hc (List.cons.inj heq).1

/-- Every text comes back from the style that it is written in. -/
theorem leaf_quotedIn {style : QuoteStyle} (hs : style.Holds s) (hbasic : rest.head? ≠ some '"')
    (hliteral : rest.head? ≠ some '\x27') (h : (quotedIn s style ++ rest).length ≤ n) :
    Yields (leaf n (quotedIn s style ++ rest) h) (.text (String.ofList s)) rest := by
  rw [← String.empty_append (s := String.ofList s)]
  cases style with
  | basic =>
    simp only [quotedIn, List.cons_append, List.append_assoc, List.nil_append] at h ⊢
    rw [leaf_basic ((escaped_first 0 0 s).ne_tripled hbasic)]
    exact (basic_escaped hs _).map Value.text
  | literal =>
    have hfirst : QuotesFirst '\x27' 0 s s := by
      cases s with
      | nil => exact ⟨0, Nat.le_refl _, .inl ⟨rfl, rfl⟩⟩
      | cons c s => exact ⟨0, Nat.le_refl _, .inr ⟨c, s, (hs c List.mem_cons_self).1, rfl⟩⟩
    simp only [quotedIn, List.cons_append, List.append_assoc, List.nil_append] at h ⊢
    rw [leaf_literal (hfirst.ne_tripled hliteral)]
    exact (literal_verbatim hs _).map Value.text
  | basicLines =>
    obtain ⟨hr, hn⟩ := escaped_head 2 2 s ('"' :: '"' :: rest)
    have hdrop := dropNewline_openLines hr hn
    simp only [quotedIn, List.cons_append, List.append_assoc, List.nil_append] at h ⊢
    rw [leaf]
    simp only [hdrop]
    exact (basicLines_escaped (Nat.le_refl 2) hbasic _).map Value.text
  | literalLines =>
    obtain ⟨hrun, hs⟩ := hs
    have hdrop : dropNewline (openLines s ++ (s ++ '\x27' :: '\x27' :: '\x27' :: rest)) =
        s ++ '\x27' :: '\x27' :: '\x27' :: rest := by
      cases s with
      | nil => rfl
      | cons c s =>
        refine dropNewline_openLines (fun hc => ?_) fun hc => ?_
        · obtain rfl : c = '\r' := Option.some.inj hc
          cases hs '\r' List.mem_cons_self
        · obtain rfl : c = '\n' := Option.some.inj hc
          exact List.mem_cons_self
    simp only [quotedIn, List.cons_append, List.append_assoc, List.nil_append] at h ⊢
    rw [leaf]
    simp only [hdrop]
    exact (literalLines_verbatim hrun hs hliteral _).map Value.text

end SearchQuery.Toml

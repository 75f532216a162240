import SearchQuery.Proofs.Toml.Scalar

/-! The statements of a plain document, one rule for each: a blank line and a comment say nothing, a header
in plain letters heads a table, and a key in plain letters gets the value behind its sign of equality. -/

namespace SearchQuery.Toml

/-- A key without quotes. -/
structure IsBare (name : List Char) : Prop where
  ne_nil : name ≠ []
  isKeyChar : ∀ c ∈ name, isKeyChar c = true

instance (name : List Char) : Decidable (IsBare name) :=
  decidable_of_iff (name ≠ [] ∧ name.all Toml.isKeyChar = true)
    ⟨fun h => ⟨h.1, List.all_eq_true.1 h.2⟩, fun h => ⟨h.ne_nil, List.all_eq_true.2 h.isKeyChar⟩⟩

variable {n : Nat} {c : Char} {name rest r s t : List Char} {d d' : Draft} {v : Value}

/-! ### Keys -/

theorem skipBlank_of_head (h : ∀ c ∈ s.head?, isBlank c = false) : skipBlank s = s := by
  cases s with
  | nil => rfl
  | cons c s => rw [skipBlank, List.dropWhile_cons, h c rfl, if_neg Bool.false_ne_true]

theorem not_blank_of_isKeyChar (h : isKeyChar c = true) : isBlank c = false := by
  rw [← Bool.not_eq_true]
  intro hc
  simp only [isBlank, Bool.or_eq_true, beq_iff_eq] at hc
  rcases hc with rfl | rfl <;> revert h <;> decide

theorem IsBare.skipBlank_append (h : IsBare name) (rest : List Char) :
    skipBlank (name ++ rest) = name ++ rest := by
  obtain ⟨c, r, rfl⟩ := List.exists_cons_of_ne_nil h.ne_nil
  refine skipBlank_of_head fun d hd => ?_
  obtain rfl : c = d := Option.some.inj hd
  exact not_blank_of_isKeyChar (h.isKeyChar _ List.mem_cons_self)

theorem keyPart_bare (rest : List Char) (hname : IsBare name) (hrest : ∀ c ∈ rest.head?, isKeyChar c = false)
    (h : (name ++ rest).length ≤ n) :
    Yields (keyPart n (name ++ rest) h) (String.ofList name) rest := by
  obtain ⟨htake, hdrop⟩ := split_word hname.isKeyChar hrest
  have hempty : name.isEmpty = false := List.isEmpty_eq_false_iff.2 hname.ne_nil
  refine ⟨by simp only [List.length_append] at h; omega, ?_⟩
  obtain ⟨c, r, rfl⟩ := List.exists_cons_of_ne_nil hname.ne_nil
  have hc := hname.isKeyChar c List.mem_cons_self
  rw [keyPart]
  · simp only [htake, hdrop, hempty, if_neg Bool.false_ne_true]
  · rintro r' - heq -
    cases heq
    cases hc
  · rintro r' - heq -
    cases heq
    cases hc

theorem key_bare (rest : List Char) (hname : IsBare name) (hrest : ∀ c ∈ rest.head?, isKeyChar c = false)
    (hdot : (skipBlank rest).head? ≠ some '.') (h : (name ++ rest).length ≤ n) :
    Yields (key n [] (name ++ rest) h) [String.ofList name] (skipBlank rest) := by
  refine ⟨?_, ?_⟩
  · have := skipBlank_length rest
    simp only [List.length_append] at h
    omega
  obtain ⟨le, hpart⟩ := keyPart_bare (n := (name ++ rest).length) rest hname hrest (Nat.le_refl _)
  rw [key]
  simp only [hname.skipBlank_append, hpart, Option.bind_eq_bind, Option.bind_some]
  rw [if_neg (by decide)]
  split
  · next heq => exact absurd (heq ▸ rfl) hdot
  · rfl

theorem keyEquals_bare (hname : IsBare name) (ht : ∀ c ∈ t.head?, isBlank c = false)
    (h : (name ++ ' ' :: '=' :: ' ' :: t).length ≤ n + 1) :
    Yields (keyEquals n false (name ++ ' ' :: '=' :: ' ' :: t) h) [String.ofList name] t := by
  have hfirst : spacing false (skipBlank (' ' :: '=' :: ' ' :: t)) = some ('=' :: ' ' :: t) := rfl
  have hsecond : spacing false (' ' :: t) = some t := congrArg some (skipBlank_of_head ht)
  have hsign : (skipBlank (' ' :: '=' :: ' ' :: t)).head? = some '=' := rfl
  obtain ⟨le, hkey⟩ := key_bare (n := (name ++ ' ' :: '=' :: ' ' :: t).length)
    (' ' :: '=' :: ' ' :: t) hname (by simp [isKeyChar]) (by rw [hsign]; decide) (Nat.le_refl _)
  refine ⟨by simp only [List.length_append, List.length_cons] at h; omega, ?_⟩
  rw [keyEquals]
  simp only [hkey, Option.bind_eq_bind, Option.bind_some]
  split
  · next r heq =>
    obtain rfl : r = ' ' :: t := (List.cons.inj (Option.some.inj (heq.symm.trans hfirst))).2
    split
    · next heq' =>
      cases heq'.symm.trans hsecond
      rfl
    · next heq' => cases heq'.symm.trans hsecond
  · next hno => exact absurd hfirst (hno _)

/-! ### Values -/

theorem value_of_head {depth : Nat} (hlist : s.head? ≠ some '[') (htable : s.head? ≠ some '\x7b')
    (h : s.length ≤ n) : value n depth s h = leaf n s h := by
  cases s with
  | nil => rw [value]
  | cons c s =>
    have hc : c ≠ '[' := fun hc => hlist (congrArg some hc)
    have hc' : c ≠ '\x7b' := fun hc => htable (congrArg some hc)
    rw [value, if_neg hc, if_neg hc']

theorem leaf_of_head (hbasic : s.head? ≠ some '"') (hliteral : s.head? ≠ some '\x27')
    (h : s.length ≤ n) : leaf n s h = bare n s h := by
  rw [leaf]
  all_goals
    rintro r - rfl -
    first
    | exact hbasic rfl
    | exact hliteral rfl

theorem head_toDigits (n : Nat) (rest : List Char) (hc : c.isDigit = false) :
    (Nat.toDigits 10 n ++ rest).head? ≠ some c := by
  intro hhead
  obtain ⟨d, r, hcons⟩ := List.exists_cons_of_ne_nil (Nat.toDigits_ne_nil (n := n) (b := 10))
  have hd := isDigit_toDigits n d (hcons ▸ List.mem_cons_self)
  rw [hcons] at hhead
  obtain rfl : d = c := Option.some.inj hhead
  rw [hc] at hd
  cases hd

theorem head_quotedIn (s : List Char) (style : QuoteStyle) (rest : List Char) :
    (quotedIn s style ++ rest).head? = some '"' ∨ (quotedIn s style ++ rest).head? = some '\x27' := by
  cases style with
  | basic => exact .inl rfl
  | literal => exact .inr rfl
  | basicLines => exact .inl rfl
  | literalLines => exact .inr rfl

theorem value_toDigits {m depth : Nat} (h : (Nat.toDigits 10 n ++ '\n' :: rest).length ≤ m) :
    Yields (value m depth (Nat.toDigits 10 n ++ '\n' :: rest) h) (.integer n) ('\n' :: rest) := by
  rw [value_of_head (head_toDigits _ _ rfl) (head_toDigits _ _ rfl),
    leaf_of_head (head_toDigits _ _ rfl) (head_toDigits _ _ rfl)]
  exact bare_toDigits n h

theorem value_quotedIn {depth : Nat} {style : QuoteStyle} (hs : style.Holds s)
    (h : (quotedIn s style ++ '\n' :: rest).length ≤ n) :
    Yields (value n depth (quotedIn s style ++ '\n' :: rest) h) (.text (String.ofList s))
      ('\n' :: rest) := by
  rw [value_of_head]
  · exact leaf_quotedIn hs (by simp) (by simp) h
  all_goals rcases head_quotedIn s style ('\n' :: rest) with hhead | hhead <;> rw [hhead] <;> decide

/-! ### Statements -/

theorem header_bare (rest : List Char) (hname : IsBare name) (h : (name ++ ']' :: rest).length ≤ n) :
    Yields (header n (name ++ ']' :: rest) h) (false, [String.ofList name]) rest := by
  have hclose : (skipBlank (']' :: rest)).head? = some ']' := rfl
  obtain ⟨le, hkey⟩ := key_bare (n := n) (']' :: rest) hname (by simp [isKeyChar])
    (by rw [hclose]; decide) h
  refine ⟨by simp only [List.length_append, List.length_cons] at h; omega, ?_⟩
  obtain ⟨c, r, rfl⟩ := List.exists_cons_of_ne_nil hname.ne_nil
  rw [header]
  · simp only [hkey, Option.bind_eq_bind, Option.bind_some]
    rfl
  · rintro r' - heq -
    cases heq
    cases hname.isKeyChar '[' List.mem_cons_self

theorem statement_header (hname : IsBare name) (hd : d.head [String.ofList name] = some d')
    (h : ('[' :: (name ++ ']' :: '\n' :: rest)).length ≤ n + 1) :
    Yields (statement n d ('[' :: (name ++ ']' :: '\n' :: rest)) h) d' rest := by
  obtain ⟨le, hhead⟩ := header_bare ('\n' :: rest) hname (Nat.le_of_succ_le_succ h)
  refine ⟨by simp only [List.length_append, List.length_cons] at h; omega, ?_⟩
  rw [statement]
  simp only [hhead, Option.bind_eq_bind, Option.bind_some, hd]
  rfl

theorem statement_setting (hname : IsBare name) (ht : ∀ c ∈ t.head?, isBlank c = false)
    (hv : ∀ h, Yields (value n 0 t h) v ('\n' :: rest))
    (hd : d.assign [String.ofList name] v = some d')
    (h : (name ++ ' ' :: '=' :: ' ' :: t).length ≤ n + 1) :
    Yields (statement n d (name ++ ' ' :: '=' :: ' ' :: t) h) d' rest := by
  obtain ⟨le, hkey⟩ := keyEquals_bare hname ht h
  obtain ⟨le', hv⟩ := hv le
  refine ⟨Nat.le_of_succ_le le', ?_⟩
  obtain ⟨c, r, rfl⟩ := List.exists_cons_of_ne_nil hname.ne_nil
  rw [statement]
  · simp only [hkey, hv, Option.bind_eq_bind, Option.bind_some, hd]
    rfl
  · rintro r' - heq -
    cases heq
    cases hname.isKeyChar '[' List.mem_cons_self

/-! ### Documents -/

/-- The equation of `statements`, its match without the fact that only termination asks for. -/
theorem statements_eq (d : Draft) (s : List Char) : statements d s =
    match filler false s with
    | none => none
    | some [] => some d
    | some (c :: r) =>
      (statement r.length d (c :: r) (Nat.le_refl _)).bind fun d => statements d.value d.rest := by
  rw [statements]
  split
  · next hs => rw [hs]
  · next hs => rw [hs]
  · next c r hs =>
    rw [hs]
    change _ = (statement r.length d (c :: r) (Nat.le_refl _)).bind _
    cases statement r.length d (c :: r) (Nat.le_refl _)
    · rfl
    · rfl

theorem statements_of_filler (h : filler false s = filler false t) :
    statements d s = statements d t := by
  rw [statements_eq, h, ← statements_eq]

/-- A document goes on behind each of its statements. -/
theorem statements_of_statement (hs : filler false s = some s) (hne : s ≠ [])
    (h : ∀ n hn, Yields (statement n d s hn) d' rest) : statements d s = statements d' rest := by
  obtain ⟨c, r, rfl⟩ := List.exists_cons_of_ne_nil hne
  obtain ⟨le, h⟩ := h r.length (Nat.le_refl _)
  simp only [statements_eq d, hs, h, Option.bind_some]

theorem filler_bare (hname : IsBare name) : filler false (name ++ rest) = some (name ++ rest) := by
  obtain ⟨c, r, rfl⟩ := List.exists_cons_of_ne_nil hname.ne_nil
  have hc := hname.isKeyChar c List.mem_cons_self
  rw [List.cons_append, filler]
  · rw [if_neg Bool.false_ne_true, not_blank_of_isKeyChar hc, if_neg Bool.false_ne_true, if_neg]
    rintro rfl
    cases hc
  · rintro rfl
    cases hc
  · rintro r rfl
    cases hc

theorem statements_header (hname : IsBare name) (hd : d.head [String.ofList name] = some d') :
    statements d ('[' :: (name ++ ']' :: '\n' :: rest)) = statements d' rest :=
  statements_of_statement rfl (List.cons_ne_nil _ _) fun _ => statement_header hname hd

/-- A setting in its plainest spelling. -/
theorem statements_setting (hname : IsBare name) (ht : ∀ c ∈ t.head?, isBlank c = false)
    (hv : ∀ n h, Yields (value n 0 t h) v ('\n' :: rest))
    (hd : d.assign [String.ofList name] v = some d') :
    statements d (name ++ ' ' :: '=' :: ' ' :: t) = statements d' rest :=
  statements_of_statement (filler_bare hname) (by simp) fun n =>
    statement_setting hname ht (hv n) hd

theorem statements_number {k : Nat} (hname : IsBare name)
    (hd : d.assign [String.ofList name] (.integer k) = some d') :
    statements d (name ++ ' ' :: '=' :: ' ' :: (Nat.toDigits 10 k ++ '\n' :: rest)) =
      statements d' rest := by
  refine statements_setting hname (fun c hc => ?_) (fun _ _ => value_toDigits _) hd
  rw [← Bool.not_eq_true]
  intro hblank
  refine head_toDigits k _ ?_ hc
  rw [← Bool.not_eq_true]
  exact fun hdigit => Bool.false_ne_true ((not_isBlank hdigit).symm.trans hblank)

theorem statements_text {text : String} (hname : IsBare name)
    (hd : d.assign [String.ofList name] (.text text) = some d') :
    statements d (name ++ ' ' :: '=' :: ' ' :: ((writeText text).toList ++ '\n' :: rest)) =
      statements d' rest := by
  rw [writeText, String.toList_ofList]
  have hstyle := quoteStyle_holds text.toList
  rw [← String.ofList_toList (s := text)] at hd
  refine statements_setting hname (fun c hc => ?_) (fun _ _ => value_quotedIn hstyle _) hd
  -- What is quoted begins with a quote, so that nothing of it is lost with the blanks in front.
  rcases head_quotedIn text.toList (quoteStyle text.toList) ('\n' :: rest) with hhead | hhead
  · cases hhead.symm.trans hc
    rfl
  · cases hhead.symm.trans hc
    rfl

theorem statements_blank : statements d ('\n' :: s) = statements d s := statements_of_filler rfl

theorem statements_end : statements d [] = some d := by
  rw [statements_eq]
  rfl

theorem isAllowed_ne {c : Char} (h : isAllowed c = true) : c ≠ '\n' ∧ c ≠ '\r' := by
  constructor
  all_goals
    rintro rfl
    cases h

theorem filler_comment {line : List Char} (h : ∀ c ∈ line, isAllowed c = true) (rest : List Char) :
    filler true (line ++ '\n' :: rest) = filler false rest := by
  induction line with
  | nil => rfl
  | cons c line ih =>
    have hc := h c List.mem_cons_self
    rw [List.cons_append, filler, if_pos rfl, if_pos hc,
      ih fun c hc => h c (List.mem_cons_of_mem _ hc)]
    · exact fun hn => (isAllowed_ne hc).1 hn
    · exact fun _ hr => absurd hr (isAllowed_ne hc).2

/-- A document without statements has no entries, and no mark stands in front of it. -/
theorem read_of_filler {text : String} (h : filler false text.toList = some []) :
    read text = some [] := by
  have hdrop : dropByteOrderMark text.toList = text.toList := by
    rw [dropByteOrderMark]
    rintro r heq
    rw [heq] at h
    cases h
  rw [read, hdrop, statements_eq, h]
  rfl

end SearchQuery.Toml

import SearchQuery.Proofs.Parser.Leaves

/-! What a mark of the end does that is not the last token. Where an expression may end, the parser stops at
the mark and nothing behind it counts. Where an operand or the argument of a sign is due, it lets the mark
pass as it does a dangling operator, and reads on.

Both are one simulation: tokens that differ only in what the parser does not tell apart, `Alike`, are read to
the same value and leave tokens that are alike again. -/

namespace SearchQuery.Parser

/-- What the parser is to read next. -/
inductive Due where
  | operand
  /-- The argument of a sign. -/
  | argument
  /-- An operator, or more words; the expression may end here. -/
  | operator
  deriving DecidableEq

namespace Due

def next : Due → Token.Kind → Due
  | _, .prefixAnd | _, .prefixAndNot => argument
  | operand, _ => operator
  | argument, _ => operand
  | operator, .word => operator
  | operator, _ => operand

def behind (d : Due) (ts : List Token) : Due := ts.foldl (fun d t => d.next t.kind) d

variable {d : Due} {k : Token.Kind}

theorem next_sign (hk : k.isSign = true) : d.next k = argument := by
  cases d <;> cases k <;> first | rfl | cases hk

end Due

/-- Tokens that come to the same where `d` is due: nothing counts behind a `(`, nor behind a mark of the end
where the expression may end, and elsewhere such a mark passes for an infix operator. -/
inductive Alike : Due → List Token → List Token → Prop
  | refl (d : Due) (ts : List Token) : Alike d ts ts
  | cons {d : Due} {t : Token} {ts us : List Token} (h : Alike (d.next t.kind) ts us) :
      Alike d (t :: ts) (t :: us)
  | refused {d : Due} {t : Token} {ts us : List Token} (ht : t.kind = .leftParen) :
      Alike d (t :: ts) (t :: us)
  | stopped {t : Token} {ts : List Token} (ht : t.kind = .eof) : Alike .operator (t :: ts) []
  | passed {d : Due} {t u : Token} {ts : List Token} (hd : d ≠ .operator) (ht : t.kind = .eof)
      (hu : u.kind = .infixAnd) : Alike d (t :: ts) (u :: ts)
  | ended {d : Due} {u : Token} (hd : d ≠ .operator) (hu : u.kind = .infixAnd) : Alike d [] [u]

inductive Leaves {α : Type} (d : Due) : Front α → Front α → Prop
  | alike (value : α) (ids : TermIds) (ts us : List Token) (h : Alike d ts us) :
      Leaves d ⟨value, ids, ts⟩ ⟨value, ids, us⟩

/-- What is read from tokens that are alike. -/
abbrev Agree {α : Type} (d : Due) : Except Refusal (Front α) → Except Refusal (Front α) → Prop :=
  Together Eq (Leaves d)

variable {α : Type} {d : Due} {ids : TermIds} {ts us : List Token}

theorem Alike.append {taken : List Token} (h : Alike (d.behind taken) ts us) :
    Alike d (taken ++ ts) (taken ++ us) := by
  induction taken generalizing d with
  | nil => exact h
  | cons t taken ih => exact .cons (ih h)

theorem Alike.append_of_leftParen {taken : List Token} (h : ∃ t ∈ taken, t.kind = .leftParen) :
    Alike d (taken ++ ts) (taken ++ us) := by
  induction taken generalizing d with
  | nil =>
    obtain ⟨t, ht, -⟩ := h
    cases ht
  | cons t taken ih =>
    by_cases ht : t.kind = .leftParen
    · exact .refused ht
    · obtain ⟨u, hu, hk⟩ := h
      rcases List.mem_cons.1 hu with rfl | hu
      · exact absurd hk ht
      · exact .cons (ih ⟨u, hu, hk⟩)

theorem Agree.refl (d : Due) (x : Except Refusal (Front α)) : Agree d x x := by
  cases x with
  | error r => exact .failed rfl
  | ok f => exact .done (.alike _ _ _ _ (.refl d f.rest))

theorem Agree.after {x y : Except Refusal (Front (List Expr))} (h : Agree d x y) (done : List Expr) :
    Agree d (x.map (Front.after done)) (y.map (Front.after done)) := by
  refine h.map ?_
  rintro _ _ ⟨value, ids, ts, us, h⟩
  exact .alike (done ++ value) ids ts us h

theorem agree_readArgument (h : Alike .argument ts us) (negated : Bool) (ids : TermIds) :
    Agree .operand (readArgument negated ids ts) (readArgument negated ids us) := by
  generalize hd : Due.argument = d at h
  induction h generalizing negated with
  | refl _ ts => exact .refl _ _
  | @cons d t ts us h ih =>
    subst hd
    rw [readArgument_cons, readArgument_cons]
    cases ht : t.kind <;> rw [ht] at h ih
    case prefixAnd | prefixAndNot => exact ih _ rfl
    case leftParen => exact .failed rfl
    all_goals exact .done (.alike _ _ _ _ h)
  | refused ht =>
    rw [readArgument_cons, readArgument_cons, ht]
    exact .failed rfl
  | stopped _ => cases hd
  | passed _ ht hu =>
    rw [readArgument_cons, readArgument_cons, ht, hu]
    exact .refl _ _
  | ended _ hu =>
    rw [readArgument_cons, hu]
    exact .refl _ _

theorem agree_readArguments {ts us : List Token} (h : Alike .argument ts us) (kind : Token.Kind)
    (ids : TermIds) : Agree .operand (readArguments kind ids ts) (readArguments kind ids us) := by
  rw [readArguments_eq, readArguments_eq]
  refine (agree_readArgument h false ids).bind ?_
  rintro _ _ harg - ⟨value, ids', rest, rest', hrest⟩
  cases hrest with
  | refl => exact Agree.refl _ _
  | @cons _ t us us' h =>
    have hlt : us.length < ts.length := (readArgument_takes harg).length_le
    by_cases ht : t.kind.isSign = true
    · rw [Due.next_sign ht] at h
      simp only [ht, if_true]
      exact (agree_readArguments h t.kind ids').after _
    · simp only [ht]
      exact .done (.alike _ _ _ _ (.cons h))
  | refused ht =>
    simp only [ht]
    exact .done (.alike _ _ _ _ (.refused ht))
  | passed hd ht hu =>
    simp only [ht, hu]
    exact .done (.alike _ _ _ _ (.passed hd ht hu))
  | ended hd hu =>
    simp only [hu]
    exact .done (.alike _ _ _ _ (.ended hd hu))
termination_by ts.length

mutual

theorem agree_readExpr {ts us : List Token} (h : Alike .operand ts us) (min : Nat) (ids : TermIds) :
    Agree .operator (readExpr min ids ts) (readExpr min ids us) := by
  match ts, us, h with
  | _, _, .refl _ _ => exact .refl _ _
  | t :: ts, _ :: us, .cons h =>
    rw [readExpr_cons, readExpr_cons]
    cases ht : t.kind with
    | word =>
      rw [ht] at h
      exact agree_readOn h min _ _
    | prefixAnd | prefixAndNot =>
      rw [ht] at h
      refine (agree_readArguments h _ ids).bind ?_
      rintro _ _ hargs - ⟨args, ids', rest, rest', h⟩
      have hle : rest.length ≤ ts.length := (readsArguments_of_ok hargs).takes.length_le
      refine (agree_readExpr h _ ids').bind ?_
      rintro _ _ hlast - ⟨value, ids'', last, last', h⟩
      have hle' : last.length ≤ rest.length := (reads_of_readExpr hlast).takes.length_le
      exact agree_readOn h min _ _
    | leftParen => exact .failed rfl
    | rightParen | infixAnd | infixOr | eof =>
      rw [ht] at h
      exact agree_readOn h min _ _
  | _ :: _, _ :: _, .refused ht =>
    rw [readExpr_cons, readExpr_cons, ht]
    exact .failed rfl
  | _ :: _, _ :: _, .passed _ ht hu =>
    rw [readExpr_cons, readExpr_cons, ht, hu]
    exact .refl _ _
  | [], [_], .ended _ hu =>
    rw [readExpr_nil, readExpr_cons, hu]
    simp only [readOn_nil]
    exact .refl _ _
termination_by ts.length

theorem agree_readOn {ts us : List Token} (h : Alike .operator ts us) (min : Nat) (left : Expr)
    (ids : TermIds) : Agree .operator (readOn min left ids ts) (readOn min left ids us) := by
  match ts, us, h with
  | _, _, .refl _ _ => exact .refl _ _
  | t :: ts, _ :: us, .cons h =>
    by_cases hb : min < t.kind.bindingPower
    · rw [readOn_cons, readOn_cons, if_pos hb, if_pos hb]
      have hstop := Alike.cons h
      cases ht : t.kind with
      | word =>
        rw [ht] at h
        exact agree_readOn h min _ _
      | infixAnd | infixOr =>
        rw [ht] at h
        refine (agree_readExpr h _ ids).bind ?_
        rintro _ _ hright - ⟨right, ids', rest, rest', h⟩
        have hle : rest.length ≤ ts.length := (reads_of_readExpr hright).takes.length_le
        exact agree_readOn h min _ _
      | prefixAnd | prefixAndNot =>
        rw [ht] at h
        refine (agree_readArgument h false ids).bind ?_
        rintro _ _ harg - ⟨arg, ids', rest, rest', h⟩
        have hle : rest.length ≤ ts.length := (readArgument_takes harg).length_le
        refine (agree_readExpr h _ ids').bind ?_
        rintro _ _ hlast - ⟨value, ids'', last, last', h⟩
        have hle' : last.length ≤ rest.length := (reads_of_readExpr hlast).takes.length_le
        exact agree_readOn h min _ _
      | leftParen | rightParen | eof => exact .done (.alike _ _ _ _ hstop)
    · rw [readOn_cons, readOn_cons, if_neg hb, if_neg hb]
      exact .done (.alike _ _ _ _ (.cons h))
  | t :: _, _ :: _, .refused ht =>
    have hb : ¬ min < t.kind.bindingPower := by simp [ht, Token.Kind.bindingPower]
    rw [readOn_cons, readOn_cons, if_neg hb, if_neg hb]
    exact .done (.alike _ _ _ _ (.refused ht))
  | t :: _, [], .stopped ht =>
    have hb : ¬ min < t.kind.bindingPower := by simp [ht, Token.Kind.bindingPower]
    rw [readOn_cons, readOn_nil, if_neg hb]
    exact .done (.alike _ _ _ _ (.stopped ht))
  | _, _, .passed hd _ _ => exact absurd rfl hd
  | _, _, .ended hd _ => exact absurd rfl hd
termination_by ts.length

end

theorem resume_of_alike {ts us : List Token} (h : Alike .operator ts us) (e : Expr) (ids : TermIds)
    (skipped : Array Nat) : resume e ids skipped ts = resume e ids skipped us := by
  match ts, us, h with
  | _, _, .refl _ _ => rfl
  | t :: ts, _ :: us, .cons h =>
    rw [resume_cons, resume_cons]
    cases ht : t.kind with
    | rightParen =>
      rw [ht] at h
      rcases (agree_readExpr h 0 ids).dichotomy with
        ⟨r, _, hx, hy, rfl⟩ | ⟨_, _, hx, hy, ⟨value, ids', rest, rest', hrest⟩⟩ <;> rw [hx, hy]
      have hle : rest.length ≤ ts.length := (reads_of_readExpr hx).takes.length_le
      exact resume_of_alike hrest _ _ _
    | _ => rfl
  | t :: _, _ :: _, .refused ht => rw [resume_cons, resume_cons, ht]
  | t :: _, [], .stopped ht => rw [resume_cons, resume_nil, ht]
  | _, _, .passed hd _ _ => exact absurd rfl hd
  | _, _, .ended hd _ => exact absurd rfl hd
termination_by ts.length

theorem parse_of_alike (h : Alike .operand (dropEnding ts) (dropEnding us)) (ids : TermIds) :
    parse ids ts = parse ids us := by
  rw [parse_eq, parse_eq]
  rcases (agree_readExpr h 0 ids).dichotomy with
    ⟨r, _, hx, hy, rfl⟩ | ⟨_, _, hx, hy, ⟨value, ids', rest, rest', hrest⟩⟩ <;> rw [hx, hy]
  exact resume_of_alike hrest value ids' #[]

theorem dropEnding_append (ts : List Token) (hus : us ≠ []) :
    dropEnding (ts ++ us) = ts ++ dropEnding us := by
  unfold dropEnding
  rw [List.getLast?_append_of_ne_nil _ hus, List.dropLast_append_of_ne_nil hus]
  split_ifs <;> rfl

/-- A mark of the end with nothing behind it is left out; any other stays, with what it has behind it. -/
theorem dropEnding_mark (ts us : List Token) {t : Token} (ht : t.kind = .eof) :
    us = [] ∧ dropEnding (ts ++ t :: us) = ts ∨
      us ≠ [] ∧ dropEnding (ts ++ t :: us) = ts ++ t :: dropEnding us := by
  rw [dropEnding_append ts (List.cons_ne_nil t us)]
  by_cases hus : us = []
  · subst hus
    refine .inl ⟨rfl, ?_⟩
    simp [dropEnding, ht]
  · refine .inr ⟨hus, ?_⟩
    rw [← List.singleton_append, dropEnding_append [t] hus, List.singleton_append]

/-- Behind an operand, and behind a `(`, it makes no difference what follows a mark of the end. -/
theorem parse_stopped (hts : ∀ u ∈ ts, u.kind ≠ .eof) {t : Token} (ht : t.kind = .eof)
    (h : (∃ u ∈ ts, u.kind = .leftParen) ∨ Due.operand.behind ts = .operator) (ids : TermIds)
    (us : List Token) : parse ids (ts ++ t :: us) = parse ids ts := by
  apply parse_of_alike
  rw [dropEnding_of_unmarked hts]
  rcases dropEnding_mark ts us ht with ⟨-, hending⟩ | ⟨-, hending⟩ <;> rw [hending]
  · exact .refl _ _
  · nth_rewrite 2 [← List.append_nil ts]
    rcases h with hparen | hdue
    · exact .append_of_leftParen hparen
    · exact .append (hdue ▸ .stopped ht)

/-- Where something is due, a mark of the end is what an infix operator is in its place. -/
theorem parse_passed {t a : Token} (ht : t.kind = .eof) (ha : a.kind = .infixAnd)
    (hdue : Due.operand.behind ts ≠ .operator) (ids : TermIds) (us : List Token) :
    parse ids (ts ++ t :: us) = parse ids (ts ++ a :: us) := by
  apply parse_of_alike
  rw [dropEnding_append ts (List.cons_ne_nil a us)]
  rcases dropEnding_mark ts us ht with ⟨rfl, hending⟩ | ⟨hus, hending⟩ <;> rw [hending]
  · have hone : dropEnding [a] = [a] := by simp [dropEnding, ha]
    nth_rewrite 1 [← List.append_nil ts]
    rw [hone]
    exact .append (.ended hdue ha)
  · have hmore : dropEnding (a :: us) = a :: dropEnding us := dropEnding_append [a] hus
    rw [hmore]
    exact .append (.passed hdue ht ha)

theorem ids_parse (hparen : ∀ t ∈ ts, t.kind ≠ .leftParen) (heof : ∀ t ∈ ts, t.kind ≠ .eof)
    (ids : TermIds) : (parse ids ts).ids = ids.skip (Token.words ts).length := by
  obtain ⟨e, rest, -, hparses⟩ := exists_parses hparen ids
  obtain rfl : rest = [] := hparses.rest_eq_nil fun t ht => heof t (List.dropLast_subset ts ht)
  obtain ⟨taken, htaken, hids, -⟩ := hparses.takes
  rw [← words_dropEnding, htaken, List.append_nil]
  exact hids

/-- A mark of the end ends the query, whatever is behind it, exactly where an expression may end; there is
also nothing to end behind a `(`, which is refused. Everywhere else it passes for a dangling operator. -/
theorem ending_parse (ids : TermIds) (ts : List Token) (hts : ∀ u ∈ ts, u.kind ≠ .eof) (t : Token)
    (ht : t.kind = .eof) :
    ((∀ us, (parse ids (ts ++ t :: us)).result = (parse ids ts).result ∧
        (parse ids (ts ++ t :: us)).ids = (parse ids ts).ids) ↔
      (∃ u ∈ ts, u.kind = .leftParen) ∨ Due.operand.behind ts = .operator) ∧
    (Due.operand.behind ts ≠ .operator → ∀ a us, a.kind = .infixAnd →
      parse ids (ts ++ t :: us) = parse ids (ts ++ a :: us)) := by
  refine ⟨⟨fun hall => ?_, fun h us => ?_⟩, fun hdue a us ha => parse_passed ht ha hdue ids us⟩
  · by_contra hwaits
    rw [not_or] at hwaits
    obtain ⟨hparen, hdue⟩ := hwaits
    have hparen : ∀ u ∈ ts, u.kind ≠ .leftParen := fun u hu hk => hparen ⟨u, hu, hk⟩
    -- a word behind the mark takes one more number
    have hmore := (hall [⟨.word, "w", 0, 1⟩]).2
    rw [parse_passed ht (rfl : Token.kind ⟨.infixAnd, "&", 0, 1⟩ = .infixAnd) hdue, ids_parse hparen hts,
      ids_parse (by simpa [or_imp, forall_and] using hparen) (by simpa [or_imp, forall_and] using hts),
      Token.words_append, List.length_append] at hmore
    exact ids.skip_succ_ne _ hmore
  · rw [parse_stopped hts ht h]
    exact ⟨rfl, rfl⟩

/-- A mark behind the word `a` ends the query. One behind `a &` does not, and the word behind it becomes the
right operand. -/
theorem ending_parse_dangling :
    let a : Token := ⟨.word, "a", 0, 1⟩
    let and : Token := ⟨.infixAnd, "&", 2, 1⟩
    let mark : Token := ⟨.eof, "", 4, 0⟩
    let b : Token := ⟨.word, "b", 6, 1⟩
    (parse ⟨0⟩ [a, mark, and, b]).result = (parse ⟨0⟩ [a]).result ∧
      parse ⟨0⟩ [a, and, mark, b] = parse ⟨0⟩ [a, and, and, b] ∧
      (parse ⟨0⟩ [a, and, mark, b]).result =
        .ok (.node .and [.run [⟨0, "a", none⟩], .run [⟨1, "b", none⟩]]) ∧
      (parse ⟨0⟩ [a, and]).result = .ok (.node .boost [.run [⟨0, "a", none⟩]]) := by
  intro a and mark b
  have hstops := (ending_parse ⟨0⟩ [a] (by decide) mark rfl).1.2 (.inr rfl)
  have hpasses := (ending_parse ⟨0⟩ [a, and] (by decide) mark rfl).2 (by decide)
  exact ⟨(hstops [and, b]).1, hpasses and [b] rfl, by decide +kernel, by decide +kernel⟩

end SearchQuery.Parser

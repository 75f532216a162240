import SearchQuery.Proofs.Parser.Leaves

/-! Words joined by infix operators. An operand is read in full as long as nothing that binds tighter
stands behind it, whatever else does; operands of one strength, joined by the operator of that strength,
make an operand of every lower strength. Runs of words are joined to disjunctions that way, and these to
a conjunction, and since joining flattens, no further nesting comes of it. -/

namespace SearchQuery

namespace Expr

/-- Runs that are alternatives; one alone is just itself. -/
def anyOf : List (List Term) → Expr
  | [ws] => .run ws
  | runs => .node .or (runs.map .run)

/-- Groups of alternatives that are all required. A run that makes up the whole is boosted. -/
def allOf : List (List (List Term)) → Expr
  | [[ws]] => .node .boost [.run ws]
  | [runs] => anyOf runs
  | groups => .node .and (groups.map anyOf)

/-- Neither empty nor flattened away under `op`. -/
def Stays (op : Operator) (e : Expr) : Prop := e.operator ≠ op ∧ e.isNoop = false

variable {op : Operator} {e : Expr} {es cs : List Expr}

theorem combine_node (he : e.Stays op) (cs : List Expr) :
    combine op (.node op cs) e = .node op (cs ++ [e]) := by
  have hop : (node op cs).operator = op := rfl
  rw [combine, if_pos hop, if_neg he.1, he.2]
  rfl

theorem foldl_combine_node (hes : ∀ e ∈ es, e.Stays op) (cs : List Expr) :
    es.foldl (combine op) (.node op cs) = .node op (cs ++ es) := by
  induction es generalizing cs with
  | nil => simp
  | cons e es ih =>
    obtain ⟨he, hes⟩ := List.forall_mem_cons.1 hes
    rw [List.foldl_cons, combine_node he, ih hes, List.append_assoc, List.singleton_append]

theorem foldl_combine (he : e.Stays op) (hes : ∀ e ∈ es, e.Stays op) (hne : es ≠ []) :
    es.foldl (combine op) e = .node op (e :: es) := by
  obtain ⟨d, ds, rfl⟩ := List.exists_cons_of_ne_nil hne
  obtain ⟨hd, hds⟩ := List.forall_mem_cons.1 hes
  have hpair : combine op e d = .node op [e, d] := by
    simp [combine, node?, he.1, he.2, hd.1, hd.2]
  rw [List.foldl_cons, hpair, foldl_combine_node hds]
  rfl

theorem wrap_anyOf (runs : List (List Term)) : (anyOf runs).wrap = allOf [runs] := by
  rcases runs with _ | ⟨ws, _ | ⟨us, runs⟩⟩ <;> rfl

theorem stays_anyOf {runs : List (List Term)} : (anyOf runs).Stays .and := by
  unfold anyOf
  split <;> exact ⟨nofun, rfl⟩

end Expr

namespace Parser

/-- Parts one behind the other, with a token of kind `k` between each two. -/
inductive Joined (k : Token.Kind) : List (List Token) → List Token → Prop
  | one (part : List Token) : Joined k [part] part
  | more (t : Token) (ht : t.kind = k) (part : List Token) {parts : List (List Token)}
      {ts : List Token} (h : Joined k parts ts) : Joined k (part :: parts) (part ++ t :: ts)

theorem Joined.forall_mem {k : Token.Kind} {parts : List (List Token)} {ts : List Token}
    {P : Token → Prop} (h : Joined k parts ts) (hk : ∀ t, t.kind = k → P t)
    (hparts : ∀ part ∈ parts, ∀ t ∈ part, P t) : ∀ t ∈ ts, P t := by
  induction h with
  | one part => exact hparts part List.mem_cons_self
  | more u hu part _ ih =>
    obtain ⟨hpart, hparts⟩ := List.forall_mem_cons.1 hparts
    intro t ht
    rcases List.mem_append.1 ht with ht | ht
    · exact hpart t ht
    · rcases List.mem_cons.1 ht with rfl | ht
      · exact hk _ hu
      · exact ih hparts t ht

theorem forall_mem_pieces {k : Token.Kind} {groups : List (List (List Token))}
    {pieces : List (List Token)} {P : Token → Prop} (h : List.Forall₂ (Joined k) groups pieces)
    (hk : ∀ t, t.kind = k → P t) (hgroups : ∀ group ∈ groups, ∀ row ∈ group, ∀ t ∈ row, P t) :
    ∀ piece ∈ pieces, ∀ t ∈ piece, P t := by
  induction h with
  | nil => exact nofun
  | cons hjoined _ ih =>
    obtain ⟨hgroup, hgroups⟩ := List.forall_mem_cons.1 hgroups
    exact List.forall_mem_cons.2 ⟨hjoined.forall_mem hk hgroup, ih hgroups⟩

/-- The tokens are read as `e`, whatever stands behind them that does not bind tighter. -/
def Operand (power : Nat) (ids : TermIds) (ts : List Token) (e : Expr) (ids' : TermIds) : Prop :=
  ∀ rest : List Token, (∀ t ∈ rest.head?, t.kind.bindingPower ≤ power) →
    Reads power .start ids (ts ++ rest) ⟨e, ids', rest⟩

inductive Operands (power : Nat) : TermIds → List (List Token) → List Expr → TermIds → Prop
  | nil (ids : TermIds) : Operands power ids [] [] ids
  | cons {ids ids' ids'' : TermIds} {part : List Token} {e : Expr} {parts : List (List Token)}
      {es : List Expr} (h : Operand power ids part e ids') (hs : Operands power ids' parts es ids'') :
      Operands power ids (part :: parts) (e :: es) ids''

variable {k : Token.Kind} {op : Operator} {min power : Nat} {ids ids' : TermIds} {e left : Expr}
  {es : List Expr} {part ts : List Token} {parts : List (List Token)}

theorem Operand.lower (h : Operand power ids ts e ids') (hmin : min ≤ power) :
    Operand min ids ts e ids' := by
  intro rest hrest
  have hread := h rest fun t ht => Nat.le_trans (hrest t ht) hmin
  exact hread.resume hmin (.stop hrest)

theorem Operands.reads (hk : k.joins? = some op) (hmin : min < k.bindingPower)
    (hjoined : Joined k parts ts) (h : Operands k.bindingPower ids parts es ids')
    (hes : ∀ e ∈ es, e.Stays op) {rest : List Token}
    (hrest : ∀ t ∈ rest.head?, t.kind.bindingPower ≤ min) {t : Token} (ht : t.kind = k) :
    Reads min (.after left) ids (t :: (ts ++ rest)) ⟨es.foldl (Expr.combine op) left, ids', rest⟩ := by
  induction hjoined generalizing t left ids es with
  | one part =>
    subst ht
    cases h with
    | @cons _ _ _ _ e _ _ h hs =>
      cases hs
      have hkept : joinRight (Expr.combine op) left e = Expr.combine op left e := by
        simp [joinRight, (hes e (by simp)).2]
      have hright := h rest fun t ht => Nat.le_trans (hrest t ht) (Nat.le_of_lt hmin)
      refine .join hmin hk hright ?_
      rw [hkept]
      exact .stop hrest
  | more u hu part _ ih =>
    subst ht
    cases h with
    | @cons _ _ _ _ e _ _ h hs =>
      obtain ⟨he, hes⟩ := List.forall_mem_cons.1 hes
      have hkept : joinRight (Expr.combine op) left e = Expr.combine op left e := by
        simp [joinRight, he.2]
      rw [List.append_assoc, List.cons_append]
      -- the next operand ends at an operator of its own strength: that one does not bind tighter
      refine .join hmin hk (h _ ?_) ?_
      · simp [hu]
      · rw [hkept]
        exact ih hs hes hu

/-- Operands joined by the operator of their strength make an operand of every lower strength. -/
theorem Operands.joined (hk : k.joins? = some op) (hmin : min < k.bindingPower)
    (hjoined : Joined k parts ts) (h : Operands k.bindingPower ids parts (e :: es) ids')
    (hes : ∀ e ∈ es, e.Stays op) : Operand min ids ts (es.foldl (Expr.combine op) e) ids' := by
  cases hjoined with
  | one part =>
    cases h with
    | cons h hs =>
      cases hs
      exact h.lower (Nat.le_of_lt hmin)
  | more t ht part hjoined =>
    cases h with
    | cons h hs =>
      intro rest hrest
      rw [List.append_assoc, List.cons_append]
      refine (h _ ?_).resume (Nat.le_of_lt hmin) (hs.reads hk hmin hjoined hes hrest ht)
      simp [ht]

theorem reads_words {ws : List Token} (hws : ∀ t ∈ ws, t.kind = .word) (hmin : min < 80)
    (done : List Term) (ids : TermIds) {rest : List Token}
    (hrest : ∀ t ∈ rest.head?, t.kind.bindingPower ≤ min) :
    Reads min (.after (.run done)) ids (ws ++ rest)
      ⟨.run (done ++ (ids.issueAll (ws.map Token.text)).1), ids.skip ws.length, rest⟩ := by
  induction ws generalizing done ids with
  | nil =>
    simp only [List.map_nil, TermIds.issueAll, List.append_nil, List.length_nil, TermIds.skip_zero]
    exact .stop hrest
  | cons t ws ih =>
    obtain ⟨ht, hws⟩ := List.forall_mem_cons.1 hws
    have hread := ih hws (done ++ [(ids.issue t.text).1]) (ids.issue t.text).2
    rw [List.append_assoc, TermIds.issue_snd, TermIds.skip_skip, Nat.add_comm] at hread
    exact .word (by rw [ht]; exact hmin) ht hread

/-- A row of words is a run, at every strength but that of words. -/
theorem operand_run {ws : List Token} (hne : ws ≠ []) (hws : ∀ t ∈ ws, t.kind = .word)
    (hmin : min < 80) (ids : TermIds) :
    Operand min ids ws (.run (ids.issueAll (ws.map Token.text)).1) (ids.skip ws.length) := by
  intro rest hrest
  obtain ⟨t, ws, rfl⟩ := List.exists_cons_of_ne_nil hne
  obtain ⟨ht, hws⟩ := List.forall_mem_cons.1 hws
  have hread := reads_words hws hmin [(ids.issue t.text).1] (ids.issue t.text).2 hrest
  rw [TermIds.issue_snd, TermIds.skip_skip, Nat.add_comm] at hread
  exact .first ht hread

theorem exists_runs {rows : List (List Token)}
    (hrows : ∀ row ∈ rows, row ≠ [] ∧ ∀ t ∈ row, t.kind = .word) (hmin : min < 80) (ids : TermIds) :
    ∃ runs : List (List Term),
      runs.map List.length = rows.map List.length ∧
      runs.flatten = (ids.issueAll (rows.flatten.map Token.text)).1 ∧
      Operands min ids rows (runs.map .run) (ids.skip rows.flatten.length) := by
  induction rows generalizing ids with
  | nil => exact ⟨[], rfl, rfl, by simpa using Operands.nil ids⟩
  | cons row rows ih =>
    obtain ⟨⟨hne, hwords⟩, hrows⟩ := List.forall_mem_cons.1 hrows
    obtain ⟨runs, hlengths, hterms, hruns⟩ := ih hrows (ids.skip row.length)
    refine ⟨(ids.issueAll (row.map Token.text)).1 :: runs, ?_, ?_, ?_⟩
    · simp [hlengths, TermIds.issueAll_fst]
    · simp [hterms, TermIds.issueAll_append]
    · rw [TermIds.skip_skip, ← List.length_append, ← List.flatten_cons] at hruns
      exact .cons (operand_run hne hwords hmin ids) hruns

theorem operand_anyOf {rows : List (List Token)} {runs : List (List Term)}
    (hjoined : Joined .infixOr rows ts) (h : Operands 20 ids rows (runs.map .run) ids') :
    Operand 10 ids ts (Expr.anyOf runs) ids' := by
  have hstays : ∀ e ∈ runs.map Expr.run, e.Stays .or := by
    intro e he
    obtain ⟨ws, -, rfl⟩ := List.mem_map.1 he
    exact ⟨nofun, rfl⟩
  cases runs with
  | nil =>
    cases h
    cases hjoined
  | cons ws runs =>
    obtain ⟨hfirst, hrest⟩ := List.forall_mem_cons.1 hstays
    have hor : Token.Kind.joins? .infixOr = some .or := rfl
    have hread := Operands.joined hor (show 10 < 20 by decide) hjoined h hrest
    -- a run alone is no disjunction of one
    cases runs with
    | nil => exact hread
    | cons us runs =>
      rw [Expr.foldl_combine hfirst hrest nofun] at hread
      exact hread

theorem exists_groups {groups : List (List (List Token))} {pieces : List (List Token)}
    (hor : List.Forall₂ (Joined .infixOr) groups pieces)
    (hwords : ∀ group ∈ groups, ∀ row ∈ group, row ≠ [] ∧ ∀ t ∈ row, t.kind = .word)
    (ids : TermIds) :
    ∃ numbered : List (List (List Term)),
      numbered.map (·.map List.length) = groups.map (·.map List.length) ∧
      numbered.flatten.flatten = (ids.issueAll (groups.flatten.flatten.map Token.text)).1 ∧
      Operands 10 ids pieces (numbered.map Expr.anyOf) (ids.skip groups.flatten.flatten.length) := by
  induction hor generalizing ids with
  | nil => exact ⟨[], rfl, rfl, by simpa using Operands.nil ids⟩
  | @cons group piece groups pieces hjoined _ ih =>
    obtain ⟨hgroup, hwords⟩ := List.forall_mem_cons.1 hwords
    obtain ⟨runs, hlengths, hterms, hruns⟩ := exists_runs hgroup (show 20 < 80 by decide) ids
    obtain ⟨numbered, hshape, hnumbers, hpieces⟩ := ih hwords (ids.skip group.flatten.length)
    refine ⟨runs :: numbered, ?_, ?_, ?_⟩
    · simp only [List.map_cons, hlengths, hshape]
    · rw [List.flatten_cons, List.flatten_append, hterms, hnumbers, List.flatten_cons,
        List.flatten_append, List.map_append, TermIds.issueAll_append, List.length_map]
    · rw [TermIds.skip_skip, ← List.length_append, ← List.flatten_append,
        ← List.flatten_cons] at hpieces
      exact .cons (operand_anyOf hjoined hruns) hpieces

theorem operand_pieces {pieces : List (List Token)} {numbered : List (List (List Term))}
    (hjoined : Joined .infixAnd pieces ts)
    (h : Operands 10 ids pieces (numbered.map Expr.anyOf) ids') :
    ∃ e, Operand 0 ids ts e ids' ∧ e.wrap = Expr.allOf numbered := by
  have hstays : ∀ e ∈ numbered.map Expr.anyOf, e.Stays .and := by
    intro e he
    obtain ⟨runs, -, rfl⟩ := List.mem_map.1 he
    exact Expr.stays_anyOf
  cases numbered with
  | nil =>
    cases h
    cases hjoined
  | cons runs numbered =>
    obtain ⟨hfirst, hrest⟩ := List.forall_mem_cons.1 hstays
    have hand : Token.Kind.joins? .infixAnd = some .and := rfl
    refine ⟨_, Operands.joined hand (show 0 < 10 by decide) hjoined h hrest, ?_⟩
    cases numbered with
    | nil => exact Expr.wrap_anyOf runs
    | cons runs' numbered =>
      rw [Expr.foldl_combine hfirst hrest nofun]
      simp only [Expr.allOf, Expr.wrap, List.map_cons]

theorem parse_of_reads (hending : dropEnding ts = ts) (h : Reads 0 .start ids ts ⟨e, ids', []⟩) :
    (parse ids ts).result = .ok e.wrap := by
  have hparses : Parses ids (dropEnding ts) ⟨e.wrap, ids', []⟩ := by
    rw [hending]
    exact ⟨_, h, .stop nofun, nofun⟩
  exact hparses.run_eq.1

/-- The tokens of a conjunction of disjunctions of runs are parsed as that, whatever its size; the words are
numbered in their order. -/
theorem parse_joined {groups : List (List (List Token))} {pieces : List (List Token)}
    (hwords : ∀ group ∈ groups, ∀ row ∈ group, row ≠ [] ∧ ∀ t ∈ row, t.kind = .word)
    (hor : List.Forall₂ (Joined .infixOr) groups pieces) (hand : Joined .infixAnd pieces ts)
    (ids : TermIds) :
    ∃ numbered : List (List (List Term)),
      (parse ids ts).result = .ok (Expr.allOf numbered) ∧
      numbered.map (·.map List.length) = groups.map (·.map List.length) ∧
      numbered.flatten.flatten = groups.flatten.flatten.mapIdx fun i t =>
        ⟨ids.issued + UInt32.ofNat i, t.text, none⟩ := by
  obtain ⟨numbered, hshape, hterms, hpieces⟩ := exists_groups hor hwords ids
  obtain ⟨e, hoperand, hwrap⟩ := operand_pieces hand hpieces
  have heof : ∀ t ∈ ts, t.kind ≠ .eof := by
    apply hand.forall_mem (P := fun t => t.kind ≠ .eof)
    · intro t ht
      simp [ht]
    · apply forall_mem_pieces (P := fun t => t.kind ≠ .eof) hor
      · intro t ht
        simp [ht]
      · intro group hgroup row hrow t ht
        simp [(hwords group hgroup row hrow).2 t ht]
  have hreads := hoperand [] nofun
  rw [List.append_nil] at hreads
  refine ⟨numbered, ?_, hshape, ?_⟩
  · rw [← hwrap]
    exact parse_of_reads (dropEnding_of_unmarked heof) hreads
  · generalize groups.flatten.flatten = ws at hterms ⊢
    rw [hterms, TermIds.issueAll_fst]
    exact List.ext_getElem (by simp) fun i _ _ => by simp [TermIds.skip]

/-- Groups of two, one, one and three runs, numbered from seven. -/
theorem parse_joined_groups :
    let w := fun v => (⟨.word, v, 0, 1⟩ : Token)
    let or : Token := ⟨.infixOr, "|", 0, 1⟩
    let and : Token := ⟨.infixAnd, "&", 0, 1⟩
    ∃ numbered : List (List (List Term)),
      (parse ⟨7⟩ [w "a", w "b", or, w "c", and, w "d", and, w "e", and, w "f", or, w "g", or, w "h",
        w "i"]).result = .ok (Expr.allOf numbered) ∧
      numbered.map (·.map List.length) = [[2, 1], [1], [1], [1, 1, 2]] ∧
      numbered.flatten.flatten = [⟨7, "a", none⟩, ⟨8, "b", none⟩, ⟨9, "c", none⟩, ⟨10, "d", none⟩,
        ⟨11, "e", none⟩, ⟨12, "f", none⟩, ⟨13, "g", none⟩, ⟨14, "h", none⟩, ⟨15, "i", none⟩] := by
  intro w or and
  have hor : List.Forall₂ (Joined .infixOr)
      [[[w "a", w "b"], [w "c"]], [[w "d"]], [[w "e"]], [[w "f"], [w "g"], [w "h", w "i"]]]
      [[w "a", w "b", or, w "c"], [w "d"], [w "e"], [w "f", or, w "g", or, w "h", w "i"]] := by
    refine .cons (.more or rfl _ (.one _)) (.cons (.one _) (.cons (.one _) (.cons ?_ .nil)))
    exact .more or rfl [w "f"] (.more or rfl [w "g"] (.one _))
  have hand : Joined .infixAnd
      [[w "a", w "b", or, w "c"], [w "d"], [w "e"], [w "f", or, w "g", or, w "h", w "i"]]
      [w "a", w "b", or, w "c", and, w "d", and, w "e", and, w "f", or, w "g", or, w "h", w "i"] :=
    .more and rfl _ (.more and rfl [w "d"] (.more and rfl [w "e"] (.one _)))
  exact parse_joined (by decide) hor hand ⟨7⟩

end Parser
end SearchQuery

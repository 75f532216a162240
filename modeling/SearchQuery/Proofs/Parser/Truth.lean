import SearchQuery.Proofs.Expr.Truth
import SearchQuery.Proofs.Parser.Leaves

/-! What a query of words and signs alone says. The stretches of its tokens are all demanded, with one
exception: where the query opens with a plain stretch and a signed word, the row of signed words that
follows directly, up to and with the plain stretch that ends it, is an alternative to the opening. The
parser reads that row as one expression, and behind words an expression that is no run is joined with
`or`; behind the conjunction that the first sign leaves, every later row is joined with `and`. -/

namespace SearchQuery

namespace Stretch

/-- Signed words in a row and the plain stretch that ends the row. -/
def row : List Stretch → List Stretch
  | [] => []
  | s :: ss => if s.isSigned then s :: row ss else [s]

def behindRow : List Stretch → List Stretch
  | [] => []
  | s :: ss => if s.isSigned then behindRow ss else ss

/-- All of the stretches, of which there must be one. -/
def allHold (v : Term → Bool) (ss : List Stretch) : Bool :=
  !ss.isEmpty && ss.all fun s => s.expr.holds v

/-- What the stretches of a query of words and signs demand. -/
def demand (v : Term → Bool) : List Stretch → Bool
  | .plain ws :: s :: ss =>
    s.expr.holds v && (ws.any v || allHold v (row ss)) && (behindRow ss).all fun s => s.expr.holds v
  | ss => allHold v ss

variable {ss rs : List Stretch}

theorem holds_signed {v : Term → Bool} {excluded : Bool} {w : Term} :
    (signed excluded w).expr.holds v = true ↔ v w = !excluded := by
  cases excluded with
  | false => simp [expr, Expr.term, Expr.holds_run]
  | true =>
    show (Expr.node .not [.run [w]]).holds v = true ↔ _
    simp [Expr.holds, Expr.someHolds]

theorem row_append_behindRow (ss : List Stretch) : row ss ++ behindRow ss = ss := by
  induction ss with
  | nil => rfl
  | cons s ss ih =>
    unfold row behindRow
    split_ifs
    · rw [List.cons_append, ih]
    · rfl

theorem all_row (p : Stretch → Bool) (ss : List Stretch) :
    ((row ss).all p && (behindRow ss).all p) = ss.all p := by
  rw [← List.all_append, row_append_behindRow]

theorem row_append (h : ∀ s ∈ ss, s.isSigned = true) : row (ss ++ rs) = ss ++ row rs := by
  induction ss with
  | nil => rfl
  | cons s ss ih =>
    obtain ⟨hs, hss⟩ := List.forall_mem_cons.1 h
    rw [List.cons_append, row, if_pos hs, ih hss, List.cons_append]

theorem behindRow_append (h : ∀ s ∈ ss, s.isSigned = true) :
    behindRow (ss ++ rs) = behindRow rs := by
  induction ss with
  | nil => rfl
  | cons s ss ih =>
    obtain ⟨hs, hss⟩ := List.forall_mem_cons.1 h
    rw [List.cons_append, behindRow, if_pos hs, ih hss]

theorem demand_of_signed {s : Stretch} (h : s.isSigned = true) (v : Term → Bool)
    (ss : List Stretch) : demand v (s :: ss) = allHold v (s :: ss) := by
  cases s with
  | plain ws => cases h
  | signed excluded w => rfl

/-- The expression is empty for no stretches, and says all of them otherwise. -/
structure Says (e : Expr) (ss : List Stretch) : Prop where
  wellFormed : e.WellFormed
  isNoop : e.isNoop = ss.isEmpty
  holds : ∀ v, e.holds v = allHold v ss

theorem Says.of_empty {e : Expr} (h : e.WellFormed) (hn : e.isNoop = true) : Says e [] :=
  ⟨h, hn, fun v => h.holds_of_isNoop hn v⟩

theorem says_run {ws : List Term} (h : ws ≠ []) : Says (.run ws) [.plain ws] :=
  ⟨.run h, rfl, fun v => by simp [allHold, expr, Expr.holds_run]⟩

theorem Says.conjunct {e : Expr} (h : Says e ss) (v : Term → Bool) :
    (e.isNoop || e.holds v) = ss.all fun s => s.expr.holds v := by
  rw [h.isNoop, h.holds v]
  cases ss with
  | nil => rfl
  | cons s ss => rfl

end Stretch

namespace Parser

open Stretch

variable {ids : TermIds} {ts : List Token}

theorem says_conjoin {ss os : List Stretch} {rest : Expr} (hss : ∀ s ∈ ss, s.isSigned = true)
    (h : Says rest os) : Says (conjoin (ss.map expr) rest) (ss ++ os) := by
  cases ss with
  | nil => exact h
  | cons s ss =>
    refine ⟨conjoin_wellFormed (map_expr_wellFormed hss) h.wellFormed, ?_, fun v => ?_⟩
    · rw [conjoin_signed hss h.wellFormed]
      rfl
    · rw [conjoin_signed hss h.wellFormed, Expr.holds_and_node, List.all_append,
        Expr.all_parts h.wellFormed.wrap, Expr.isNoop_wrap, Expr.holds_wrap, h.conjunct v]
      simp [allHold, List.all_map, Function.comp_def, Bool.and_assoc]

/-- A sign in front of something makes a conjunction, if it has a word or stands in front of one. -/
theorem says_applySign {kind : Token.Kind} {arg : Option Expr} {ss : List Stretch} {around : Expr}
    (harg : signedArgument kind arg = ss.map expr) (hss : ∀ s ∈ ss, s.isSigned = true)
    (haround : around.WellFormed) (hn : around.isNoop = false)
    (hand : around.operator = .and ∨ ss ≠ []) :
    (applySign kind arg around).operator = .and ∧ ∀ v, (applySign kind arg around).holds v =
      ((ss.all fun s => s.expr.holds v) && around.holds v) := by
  cases arg with
  | none =>
    obtain rfl : ss = [] := List.map_eq_nil_iff.1 harg.symm
    exact ⟨hand.resolve_right (fun h => h rfl), fun v => rfl⟩
  | some a =>
    obtain ⟨s, rfl, hs⟩ := List.map_eq_singleton_iff.1 harg.symm
    have hsigned := hss s List.mem_cons_self
    rw [applySign, ← hs]
    constructor
    · rw [Expr.and_eq (expr_wellFormed hsigned) haround.wrap (signed_expr_operator hsigned).2]
      rfl
    · intro v
      rw [Expr.holds_and (expr_wellFormed hsigned) haround.wrap (signed_expr_operator hsigned).2,
        Expr.isNoop_wrap, hn, Expr.holds_wrap]
      simp

theorem Reads.words {ws : List Term} {f : Front Expr} (h : Reads 50 (.after (.run ws)) ids ts f)
    (hws : ws ≠ []) : ∃ ws', ws' ≠ [] ∧ f.value = .run ws' ∧
      cutFrom [] ws ids ts = .plain ws' :: cut f.ids f.rest := by
  generalize hmin : 50 = min, hstage : Stage.after (.run ws) = stage at h
  induction h generalizing ws with
  | none | first | signs | dangling => cases hstage
  | stop hend =>
    cases hstage
    subst hmin
    refine ⟨ws, hws, rfl, ?_⟩
    rw [cutFrom_nil _ _ _ (ne_word_of_bindingPower (by decide) hend), ended_of_ne_nil hws]
    rfl
  | word hb ht h ih =>
    cases hstage
    rw [cutFrom_word ws _ ht]
    exact ih (by simp) hmin rfl
  | join hb ht _ _ _ _ =>
    subst hmin
    exact absurd (Token.Kind.eq_word_of_bindingPower hb)
      (Token.Kind.ne_word_of_dangles (Token.Kind.dangles_of_joins ht))
  | sign hb ht _ _ _ _ _ =>
    subst hmin
    exact absurd (Token.Kind.eq_word_of_bindingPower hb) (Token.Kind.ne_word_of_isSign ht)

theorem Reads.eq_of_ne_word {left : Expr} {f : Front Expr} (h : Reads 50 (.after left) ids ts f)
    (hword : ∀ t ∈ ts.head?, t.kind ≠ .word) : f = ⟨left, ids, ts⟩ := by
  cases h with
  | stop _ => rfl
  | word hb _ _ | join hb _ _ _ | sign hb _ _ _ _ =>
    exact absurd (Token.Kind.eq_word_of_bindingPower hb) (hword _ rfl)

/-- Words and signs alone: nothing between two words joins them. -/
def Unjoined (ts : List Token) : Prop := ∀ t ∈ ts, t.kind = .word ∨ t.kind.isSign = true

theorem Unjoined.suffix {us : List Token} (h : Unjoined ts) (hus : us <:+ ts) : Unjoined us :=
  fun t ht => h t (hus.subset ht)

theorem Unjoined.tail {t : Token} (h : Unjoined (t :: ts)) : Unjoined ts :=
  h.suffix (List.suffix_cons t ts)

theorem Unjoined.not_dangles {t : Token} (h : Unjoined (t :: ts)) : ¬ t.kind.dangles = true := by
  intro hd
  rcases h t List.mem_cons_self with hw | hs
  · exact Token.Kind.ne_word_of_dangles hd hw
  · rw [Token.Kind.isSign_of_dangles hd] at hs
    cases hs

theorem Unjoined.eq_nil (h : Unjoined ts) (hend : ∀ t ∈ ts.head?, t.kind.bindingPower ≤ 0) :
    ts = [] := by
  cases ts with
  | nil => rfl
  | cons t ts =>
    have hb := hend t rfl
    rcases h t List.mem_cons_self with hw | hs
    · rw [hw] at hb
      exact absurd hb (by decide)
    · rw [Token.Kind.bindingPower_of_isSign hs] at hb
      exact absurd hb (by decide)

/-- Only the end of the query leaves signs without a word. -/
theorem Unjoined.argument {negated : Bool} {arg : Front (Option Expr)} (hts : Unjoined ts)
    (h : readArgument negated ids ts = .ok arg) (hnone : arg.value = none) : arg.rest = [] := by
  induction ts generalizing negated with
  | nil =>
    cases h
    rfl
  | cons t ts ih =>
    rw [readArgument_cons] at h
    cases hk : t.kind with
    | word =>
      simp only [hk] at h
      cases h
      cases hnone
    | prefixAnd | prefixAndNot =>
      simp only [hk] at h
      exact ih hts.tail h
    | leftParen => simp [hk] at h
    | rightParen | infixAnd | infixOr | eof => exact absurd (by rw [hk]; rfl) hts.not_dangles

/-- What is read behind a sign is the next row of stretches, all demanded. -/
theorem Reads.says_row {f : Front Expr} (h : Reads 50 .start ids ts f) (hts : Unjoined ts) :
    Says f.value (row (cut ids ts)) ∧ cut f.ids f.rest = behindRow (cut ids ts) := by
  generalize hmin : 50 = min, hstage : Stage.start = stage at h
  induction h with
  | none => exact ⟨.of_empty .noop rfl, rfl⟩
  | first ht h _ =>
    subst hmin
    obtain ⟨ws, hws, hv, hcut⟩ := h.words (List.cons_ne_nil _ [])
    rw [cut_word _ ht, hcut, hv]
    exact ⟨says_run hws, rfl⟩
  | signs ht hargs hrest h ihrest _ =>
    subst hmin
    obtain ⟨ss, hv, hss, hcut⟩ := hargs.cut
    obtain ⟨hrow, hbehind⟩ := ihrest (hts.tail.suffix hargs.takes.suffix) rfl rfl
    rw [h.eq_of_ne_word (hrest.ne_word (by decide)), hv, cut_sign _ ht, hcut, row_append hss,
      behindRow_append hss]
    exact ⟨says_conjoin hss hrow, hbehind⟩
  | dangling ht _ _ => exact absurd ht hts.not_dangles
  | _ => cases hstage

theorem Reads.holds_and {left : Expr} {f : Front Expr} (h : Reads 0 (.after left) ids ts f)
    (hts : Unjoined ts) (hleft : left.WellFormed) (hand : left.operator = .and)
    (hword : ∀ t ∈ ts.head?, t.kind ≠ .word) :
    f.rest = [] ∧ ∀ v, f.value.holds v =
      (left.holds v && (cut ids ts).all fun s => s.expr.holds v) := by
  generalize hmin : 0 = min, hstage : Stage.after left = stage at h
  induction h generalizing left with
  | none | first | signs | dangling => cases hstage
  | stop hend =>
    cases hstage
    subst hmin
    obtain rfl := hts.eq_nil hend
    exact ⟨rfl, fun v => by simp [cut, cutFrom]⟩
  | word _ ht _ _ => exact absurd ht (hword _ rfl)
  | join _ ht _ _ _ _ => exact absurd (Token.Kind.dangles_of_joins ht) hts.not_dangles
  | @sign _ left ids t ts arg rest f _ ht harg hrest _ _ ih =>
    cases hstage
    subst hmin
    obtain ⟨ss, hv, hss, hcut⟩ := signedArgument_cut t.kind harg
    have htail := hts.tail.suffix (readArgument_takes harg).suffix
    obtain ⟨hrow, hbehind⟩ := hrest.says_row htail
    have hargWf := signedArgument_wellFormed t.kind harg
    have hnoop := Expr.isNoop_eq_false hand (by decide)
    have haround : left.extend rest.value = left.and rest.value := Expr.extend_of_and hand
    have hop : (left.extend rest.value).operator = .and := by
      rw [haround, Expr.and_eq hleft hrow.wellFormed hnoop]
      rfl
    have hwf := hleft.extend hrow.wellFormed
    obtain ⟨hop', hholds⟩ := says_applySign hv hss hwf (Expr.isNoop_eq_false hop (by decide))
      (.inl hop)
    obtain ⟨hend, hall⟩ := ih (htail.suffix hrest.takes.suffix) (applySign_wellFormed hargWf hwf)
      hop' (hrest.ne_word (by decide)) rfl rfl
    refine ⟨hend, fun v => ?_⟩
    have hsplit := all_row (fun s => s.expr.holds v) (cut arg.ids arg.rest)
    rw [hall v, hholds v, haround, Expr.holds_and hleft hrow.wellFormed hnoop, hrow.conjunct v,
      hbehind, cut_sign _ ht, hcut, List.all_append, ← hsplit]
    ac_rfl

/-- Signs that the query ends with leave what is before them as it is. -/
theorem Reads.dangling_sign {kind : Token.Kind} {left : Expr} {arg : Front (Option Expr)}
    {rest f : Front Expr}
    (h : Reads 0 (.after (applySign kind arg.value (left.extend rest.value))) rest.ids rest.rest f)
    (harg : readArgument false ids ts = .ok arg) (hnone : arg.value = .none) (hts : Unjoined ts)
    (hrest : Reads 50 .start arg.ids arg.rest rest) :
    f.rest = [] ∧ f.value = left ∧ cutFrom [kind] [] ids ts = [] := by
  obtain ⟨ss, hv, -, hcut⟩ := signedArgument_cut kind harg
  obtain rfl : ss = [] := by simpa [signedArgument, hnone] using hv.symm
  obtain ⟨value, ids', us⟩ := arg
  obtain rfl : us = [] := hts.argument harg hnone
  cases hnone
  cases hrest
  cases h with
  | stop _ => exact ⟨rfl, rfl, hcut⟩

/-- Behind words that open the query, what the first sign leaves is a conjunction. -/
theorem Reads.holds_opening {ws : List Term} {f : Front Expr}
    (h : Reads 0 (.after (.run ws)) ids ts f) (hts : Unjoined ts) (hws : ws ≠ []) :
    f.rest = [] ∧ ∀ v, f.value.holds v = demand v (cutFrom [] ws ids ts) := by
  generalize hmin : 0 = min, hstage : Stage.after (.run ws) = stage at h
  induction h generalizing ws with
  | none | first | signs | dangling => cases hstage
  | stop hend =>
    cases hstage
    subst hmin
    obtain rfl := hts.eq_nil hend
    refine ⟨rfl, fun v => ?_⟩
    rw [cutFrom, ended_of_ne_nil hws]
    exact (says_run hws).holds v
  | word _ ht _ ih =>
    cases hstage
    rw [cutFrom_word ws _ ht]
    exact ih hts.tail (by simp) hmin rfl
  | join _ ht _ _ _ _ => exact absurd (Token.Kind.dangles_of_joins ht) hts.not_dangles
  | @sign _ ws' ids t ts arg rest f _ ht harg hrest h _ _ =>
    cases hstage
    subst hmin
    rw [cutFrom_sign [] ws ids ht, ended_of_ne_nil hws]
    cases hval : arg.value with
    | none =>
      obtain ⟨hend, hvalue, hcut⟩ := h.dangling_sign harg hval hts.tail hrest
      rw [hvalue, hcut]
      exact ⟨hend, fun v => (says_run hws).holds v⟩
    | some a =>
      obtain ⟨ss, hv, hss, hcut⟩ := signedArgument_cut t.kind harg
      obtain ⟨s, rfl⟩ : ∃ s, ss = [s] := by
        rw [hval] at hv
        obtain ⟨s, hs, -⟩ := List.map_eq_singleton_iff.1 hv.symm
        exact ⟨s, hs⟩
      have htail := hts.tail.suffix (readArgument_takes harg).suffix
      obtain ⟨hrow, hbehind⟩ := hrest.says_row htail
      have hwf := Expr.WellFormed.extend (.run hws) hrow.wellFormed
      obtain ⟨hop, hholds⟩ := says_applySign hv hss hwf (Expr.isNoop_extend_run hws hrow.wellFormed)
        (.inr (List.cons_ne_nil _ _))
      obtain ⟨hend, hall⟩ := h.holds_and (htail.suffix hrest.takes.suffix)
        (applySign_wellFormed (signedArgument_wellFormed t.kind harg) hwf) hop
        (hrest.ne_word (by decide))
      refine ⟨hend, fun v => ?_⟩
      rw [hall v, hholds v, Expr.holds_extend_run hws hrow.wellFormed, hrow.holds v, hbehind, hcut]
      simp [demand]

theorem Unjoined.arguments {kind : Token.Kind} {args : Front (List Expr)} (hts : Unjoined ts)
    (h : ReadsArguments kind ids ts args) (hnone : args.value = []) : args.rest = [] := by
  have hvalue : ∀ arg : Option Expr, signedArgument kind arg = [] → arg = none := by
    intro arg h
    simpa [signedArgument] using h
  cases h with
  | last harg _ => exact hts.argument harg (hvalue _ hnone)
  | more harg hrest _ _ =>
    have hend := hts.argument harg (hvalue _ (List.append_eq_nil_iff.1 hnone).1)
    rw [hend] at hrest
    cases hrest

theorem Reads.holds_eq {f : Front Expr} (h : Reads 0 .start ids ts f) (hts : Unjoined ts) :
    f.rest = [] ∧ ∀ v, f.value.holds v = demand v (cut ids ts) := by
  cases h with
  | none => exact ⟨rfl, fun v => rfl⟩
  | first ht h =>
    rw [cut_word _ ht]
    exact h.holds_opening hts.tail (List.cons_ne_nil _ [])
  | @signs _ _ _ _ args rest _ ht hargs hrest h =>
    obtain ⟨ss, hv, hss, hcut⟩ := hargs.cut
    have htail := hts.tail.suffix hargs.takes.suffix
    obtain ⟨hrow, hbehind⟩ := hrest.says_row htail
    rw [cut_sign _ ht, hcut]
    cases ss with
    | nil =>
      obtain ⟨value, ids', us⟩ := args
      obtain rfl : us = [] := hts.tail.arguments hargs hv
      obtain rfl : value = [] := hv
      cases hrest
      cases h with
      | stop _ => exact ⟨rfl, fun v => rfl⟩
    | cons s ss =>
      have hconjoin := says_conjoin hss hrow
      rw [hv] at h
      obtain ⟨hend, hall⟩ := h.holds_and (htail.suffix hrest.takes.suffix) hconjoin.wellFormed
        (by rw [conjoin_signed hss hrow.wellFormed]; rfl) (hrest.ne_word (by decide))
      refine ⟨hend, fun v => ?_⟩
      rw [hall v, hconjoin.holds v, hbehind, List.cons_append, List.cons_append,
        demand_of_signed (hss s List.mem_cons_self)]
      have hsplit := all_row (fun s => s.expr.holds v) (cut args.ids args.rest)
      simp only [allHold, List.isEmpty_cons, Bool.not_false, Bool.true_and, List.all_cons,
        List.all_append, ← hsplit]
      ac_rfl
  | dangling ht _ => exact absurd ht hts.not_dangles

theorem Resumes.eq_of_nil {e : Expr} {f : Front Expr} (h : Resumes e ids [] f) :
    f = ⟨e.wrap, ids, []⟩ := by
  cases h with
  | stop _ => rfl

/-- What a query of words and signs alone says, for every assignment of truth to its words. -/
theorem holds_parse (ids : TermIds) {ts : List Token} (hts : Unjoined ts) :
    ∃ e, (parse ids ts).result = .ok e ∧ ∀ v, e.holds v = demand v (cut ids ts) := by
  have hparen : ∀ t ∈ ts, t.kind ≠ .leftParen := by
    intro t ht hk
    rcases hts t ht with hw | hs
    · rw [hk] at hw
      cases hw
    · rw [hk] at hs
      cases hs
  obtain ⟨e, rest, he, first, hfirst, hrest, -⟩ := exists_parses hparen ids
  have htail : Unjoined (dropEnding ts) := fun t ht => hts t (dropEnding_subset ts ht)
  obtain ⟨hend, hholds⟩ := hfirst.holds_eq htail
  refine ⟨e, he, fun v => ?_⟩
  rw [hend] at hrest
  obtain rfl : e = first.value.wrap := congrArg Front.value hrest.eq_of_nil
  rw [← cut_dropEnding, ← hholds v, Expr.holds_wrap]

end Parser
end SearchQuery

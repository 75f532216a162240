import SearchQuery.Proofs.Expr.Boosts
import SearchQuery.Proofs.Parser.Truth

/-! Which words of a query of words and signs alone are boosted. The signed ones never are. A plain stretch
is, where it ends what the parser reads as one expression; but what is joined to something larger is joined as
it is, and so two kinds of plain stretches go without: one that opens the query and has two signed words in a
row behind it, and one behind a single signed word that itself follows a plain stretch, other than the one
that opens the query. -/

namespace SearchQuery

namespace Stretch

/-- Whether a plain stretch gets no boost, from the stretches before it, the nearest first, and those
behind it. -/
def bare : List Stretch → List Stretch → Bool
  | [], .signed _ _ :: .signed _ _ :: _ => true
  | .signed _ _ :: .plain _ :: _ :: _, _ => true
  | _, _ => false

/-- The terms of a stretch, and whether they are below a boost: a signed word is not in any case. -/
def marked (boosted : Bool) (s : Stretch) : Bool × List Term := (boosted && !s.isSigned, s.terms)

/-- The boosts of stretches that have `before` in front of them. -/
def boostsFrom (before : List Stretch) : List Stretch → List (Bool × List Term)
  | [] => []
  | s :: ss => marked (!bare before ss) s :: boostsFrom (s :: before) ss

def boosts (ss : List Stretch) : List (Bool × List Term) := boostsFrom [] ss

/-- A plain stretch comes nearest, and something before it. -/
def BehindPlain (before : List Stretch) : Prop := ∃ ws s ss, before = .plain ws :: s :: ss

variable {before ss rs : List Stretch} {s : Stretch}

theorem behindPlain_ended {ws : List Term} (hws : ws ≠ []) (hne : before ≠ []) :
    BehindPlain (ended ws ++ before) := by
  obtain ⟨s, ss, rfl⟩ := List.exists_cons_of_ne_nil hne
  rw [ended_of_ne_nil hws]
  exact ⟨ws, s, ss, rfl⟩

theorem marked_signed (hs : s.isSigned = true) (boosted : Bool) : marked boosted s = (false, s.terms) := by
  rw [marked, hs, Bool.not_true, Bool.and_false]

theorem signed_reverse (h : ∀ s ∈ ss, s.isSigned = true) : ∀ s ∈ ss.reverse, s.isSigned = true :=
  fun s hs => h s (List.mem_reverse.1 hs)

theorem boostsFrom_signed (h : ∀ s ∈ ss, s.isSigned = true) (before rs : List Stretch) :
    boostsFrom before (ss ++ rs) = ss.map (marked true) ++ boostsFrom (ss.reverse ++ before) rs := by
  induction ss generalizing before with
  | nil => rfl
  | cons s ss ih =>
    obtain ⟨hs, hss⟩ := List.forall_mem_cons.1 h
    rw [List.cons_append, boostsFrom, ih hss, marked_signed hs, List.map_cons, marked_signed hs,
      List.reverse_cons, List.append_assoc, List.singleton_append, List.cons_append]

theorem boostsFrom_ended (before : List Stretch) (ws : List Term) (rs : List Stretch) :
    boostsFrom before (ended ws ++ rs) =
      (ended ws).map (marked (!bare before rs)) ++ boostsFrom (ended ws ++ before) rs := by
  cases ws <;> rfl

theorem bare_of_signed (hs : s.isSigned = true) (h : ∀ u ∈ before.head?, u.isSigned = true)
    (behind : List Stretch) : bare (s :: before) behind = false := by
  rcases s with ws | ⟨excluded, w⟩
  · cases hs
  · rcases before with _ | ⟨_ | _, before⟩
    · rfl
    · cases h _ rfl
    · rfl

theorem bare_first (h : ∀ s ∈ ss, s.isSigned = true) (hne : ss ≠ []) (behind : List Stretch) :
    bare ss behind = false := by
  obtain ⟨s, ss, rfl⟩ := List.exists_cons_of_ne_nil hne
  obtain ⟨hs, hss⟩ := List.forall_mem_cons.1 h
  exact bare_of_signed hs (fun u hu => hss u (List.mem_of_mem_head? hu)) behind

theorem bare_row (h : ∀ s ∈ ss, s.isSigned = true) (hne : ss ≠ []) (hs : s.isSigned = true)
    (before behind : List Stretch) : bare (ss ++ s :: before) behind = false := by
  obtain ⟨u, us, rfl⟩ := List.exists_cons_of_ne_nil hne
  obtain ⟨hu, hus⟩ := List.forall_mem_cons.1 h
  refine bare_of_signed hu ?_ behind
  cases us with
  | nil => simpa using hs
  | cons v vs => simpa using hus v List.mem_cons_self

/-- Behind the first row of signed words a plain stretch is boosted, also where words open the query. -/
theorem bare_second (h : ∀ s ∈ ss, s.isSigned = true) (hs : s.isSigned = true) (ws : List Term)
    (behind : List Stretch) : bare (ss ++ [s, .plain ws]) behind = false := by
  by_cases hne : ss = []
  · subst hne
    cases s with
    | plain us => cases hs
    | signed excluded w => rfl
  · exact bare_row h hne hs _ behind

/-- Words that open the query are boosted, unless two signed words in a row stand behind them. -/
theorem bare_opening (hs : s.isSigned = true) (hss : ∀ u ∈ ss, u.isSigned = true) {ws : List Term}
    (hend : ws = [] → rs = []) : bare [] (s :: (ss ++ (ended ws ++ rs))) = !ss.isEmpty := by
  rcases s with _ | ⟨excluded, w⟩
  · cases hs
  · rcases ss with _ | ⟨_ | _, ss⟩
    · cases ws with
      | nil => rw [hend rfl]; rfl
      | cons w ws => rfl
    · cases hss _ List.mem_cons_self
    · rfl

theorem boostsFrom_row (hs : s.isSigned = true) (hss : ∀ u ∈ ss, u.isSigned = true)
    (before : List Stretch) (ws : List Term) (rs : List Stretch) :
    boostsFrom before (s :: (ss ++ (ended ws ++ rs))) = marked true s ::
      (ss.map (marked true) ++ ((ended ws).map (marked (!bare (ss.reverse ++ s :: before) rs)) ++
        boostsFrom (ended ws ++ (ss.reverse ++ s :: before)) rs)) := by
  rw [boostsFrom, boostsFrom_signed hss, boostsFrom_ended, marked_signed hs, marked_signed hs]

theorem boosts_opened (hs : s.isSigned = true) (hss : ∀ u ∈ ss, u.isSigned = true) (us : List Term)
    {ws : List Term} (hend : ws = [] → rs = []) :
    boosts (.plain us :: s :: (ss ++ (ended ws ++ rs))) = marked ss.isEmpty (.plain us) :: marked true s ::
      ((ss ++ ended ws).map (marked true) ++
        boostsFrom (ended ws ++ (ss.reverse ++ [s, .plain us])) rs) := by
  rw [boosts, boostsFrom, bare_opening hs hss hend, Bool.not_not, boostsFrom_row hs hss,
    bare_second (signed_reverse hss) hs, Bool.not_false, List.map_append, List.append_assoc]

theorem boostedRuns_terms (above : Bool) (ws : List Term) :
    (Expr.terms ws).boostedRuns above = (ended ws).map (marked above) := by
  cases ws with
  | nil => exact Expr.boostedRuns_noop above
  | cons w ws =>
    show (Expr.run (w :: ws)).boostedRuns above = [(above && true, w :: ws)]
    rw [Expr.boostedRuns_run, Bool.and_true]

theorem boostedRuns_wrap_terms (ws : List Term) :
    (Expr.terms ws).wrap.boostedRuns false = (ended ws).map (marked true) := by
  cases ws with
  | nil => exact Expr.boostedRuns_noop false
  | cons w ws => exact Expr.boostedRuns_wrap_run false (w :: ws)

theorem boostedRuns_expr (hs : s.isSigned = true) : s.expr.boostedRuns false = [marked true s] := by
  rw [marked_signed hs]
  rcases s with ws | ⟨_ | _, w⟩
  · cases hs
  · exact Expr.boostedRuns_run false [w]
  · show (Expr.node .not [.run [w]]).boostedRuns false = _
    rw [Expr.boostedRuns_node false (by decide), List.flatMap_singleton, Expr.boostedRuns_run]
    rfl

theorem boostedRuns_signed (h : ∀ s ∈ ss, s.isSigned = true) :
    (ss.map expr).flatMap (Expr.boostedRuns false) = ss.map (marked true) := by
  rw [List.flatMap_map, List.map_eq_flatMap]
  exact List.flatMap_congr fun s hs => boostedRuns_expr (h s hs)

end Stretch

namespace Parser

open Stretch

variable {ids : TermIds} {ts : List Token}

theorem boostedRuns_conjoin {ss : List Stretch} (h : ∀ s ∈ ss, s.isSigned = true) (hne : ss ≠ [])
    (ws : List Term) : (conjoin (ss.map expr) (.terms ws)).boostedRuns false =
      (ss ++ ended ws).map (marked true) := by
  obtain ⟨s, ss, rfl⟩ := List.exists_cons_of_ne_nil hne
  have hlast : (Expr.parts .and (Expr.terms ws).wrap).flatMap (Expr.boostedRuns false) =
      (ended ws).map (marked true) := by
    rw [← boostedRuns_wrap_terms]
    exact Expr.flatMap_parts (.inl rfl) (Expr.boostedRuns_node false (by decide))
      (Expr.boostedRuns_noop false) (Expr.WellFormed.terms ws).wrap
  rw [conjoin_signed h (.terms ws), Expr.boostedRuns_node false (by decide), List.flatMap_append,
    boostedRuns_signed h, hlast, List.map_append]

theorem Reads.plain {f : Front Expr} (h : Reads 50 .start ids ts f) (hts : Unjoined ts)
    (hsign : ∀ t ∈ ts.head?, t.kind.isSign = false) : ∃ ws, f.value = .terms ws ∧
      cut ids ts = ended ws ++ cut f.ids f.rest ∧ (ws = [] → f.rest = []) := by
  cases h with
  | none => exact ⟨[], rfl, rfl, fun _ => rfl⟩
  | first ht h =>
    obtain ⟨ws, hws, hv, hcut⟩ := h.words (List.cons_ne_nil _ [])
    rw [← Expr.terms_of_ne_nil hws] at hv
    refine ⟨ws, hv, ?_, fun hnil => absurd hnil hws⟩
    rw [cut_word _ ht, hcut, ended_of_ne_nil hws, List.singleton_append]
  | signs ht _ _ _ =>
    rw [hsign _ rfl] at ht
    cases ht
  | dangling ht _ => exact absurd ht hts.not_dangles

theorem ReadsArguments.row {kind : Token.Kind} {args : Front (List Expr)} {rest : Front Expr}
    (h : ReadsArguments kind ids ts args) (hrest : Reads 50 .start args.ids args.rest rest)
    (hts : Unjoined ts) : ∃ ss ws, (∀ s ∈ ss, s.isSigned = true) ∧
      conjoin args.value rest.value = conjoin (ss.map expr) (.terms ws) ∧
      cutFrom [kind] [] ids ts = ss ++ (ended ws ++ Stretch.cut rest.ids rest.rest) ∧
      (ss = [] ∨ ws = [] → rest.rest = []) := by
  obtain ⟨ss, hv, hss, hcut⟩ := h.cut
  obtain ⟨ws, hlast, hcutLast, hend⟩ := hrest.plain (hts.suffix h.takes.suffix) h.ends
  refine ⟨ss, ws, hss, by rw [hv, hlast], by rw [hcut, hcutLast], ?_⟩
  rintro (rfl | hws)
  · have hnil := hts.arguments h hv
    rw [hnil] at hrest
    cases hrest
    rfl
  · exact hend hws

/-- What is read behind a sign is the next row: signed words and the plain stretch that ends the row. -/
theorem Reads.row {f : Front Expr} (h : Reads 50 .start ids ts f) (hts : Unjoined ts) :
    ∃ ss ws, (∀ s ∈ ss, s.isSigned = true) ∧ f.value = conjoin (ss.map expr) (.terms ws) ∧
      cut ids ts = ss ++ (ended ws ++ cut f.ids f.rest) ∧ (ws = [] → f.rest = []) := by
  have hplain (hsign : ∀ t ∈ ts.head?, t.kind.isSign = false) := h.plain hts hsign
  cases h with
  | signs ht hargs hrest h =>
    obtain ⟨ss, ws, hss, hv, hcut, hend⟩ := hargs.row hrest hts.tail
    rw [h.eq_of_ne_word (hrest.ne_word (by decide)), cut_sign _ ht]
    exact ⟨ss, ws, hss, hv, hcut, fun hws => hend (.inr hws)⟩
  | none =>
    obtain ⟨ws, hplain⟩ := hplain nofun
    exact ⟨[], ws, nofun, hplain⟩
  | first ht _ =>
    obtain ⟨ws, hplain⟩ := hplain (by simp [ht, Token.Kind.isSign])
    exact ⟨[], ws, nofun, hplain⟩
  | dangling ht _ => exact absurd ht hts.not_dangles

/-- Behind a conjunction what is left of a row keeps its boost, if the row has two signed words. -/
theorem boostedRuns_row {s : Stretch} {ss before : List Stretch} (hs : s.isSigned = true)
    (hss : ∀ u ∈ ss, u.isSigned = true) (hbefore : BehindPlain before)
    (ws : List Term) (behind : List Stretch) :
    (conjoin (ss.map expr) (.terms ws)).boostedRuns false = ss.map (marked true) ++
      (ended ws).map (marked (!bare (ss.reverse ++ s :: before) behind)) := by
  by_cases hne : ss = []
  · obtain ⟨us, u, us', rfl⟩ := hbefore
    subst hne
    cases s with
    | plain ws => cases hs
    | signed excluded w => exact boostedRuns_terms false ws
  · rw [bare_row (signed_reverse hss) (by simpa using hne) hs, boostedRuns_conjoin hss hne, List.map_append]
    rfl

/-- Behind words that open the query a plain stretch that is a row by itself is grouped with them, and any
other row is an alternative to them. -/
theorem boostedRuns_extend_run {us : List Term} {ss : List Stretch} (hus : us ≠ [])
    (hss : ∀ s ∈ ss, s.isSigned = true) (ws : List Term) :
    ((Expr.run us).extend (conjoin (ss.map expr) (.terms ws))).wrap.boostedRuns false =
      marked ss.isEmpty (.plain us) :: (ss ++ ended ws).map (marked true) := by
  cases ss with
  | nil =>
    cases ws with
    | nil => exact Expr.boostedRuns_wrap_run false us
    | cons w ws =>
      show (Expr.node .boost [.run us, .run (w :: ws)]).boostedRuns false = _
      simp [Expr.boostedRuns_boost, Expr.boostedRuns_run, ended, marked, isSigned, terms]
  | cons s ss =>
    have hne := List.cons_ne_nil s ss
    have hwf : (conjoin ((s :: ss).map expr) (.terms ws)).WellFormed :=
      conjoin_wellFormed (map_expr_wellFormed hss) (.terms ws)
    have hextend : (Expr.run us).extend (conjoin ((s :: ss).map expr) (.terms ws)) =
        (Expr.run us).or (conjoin ((s :: ss).map expr) (.terms ws)) := by
      rw [conjoin_signed hss (.terms ws)]
      rfl
    have hop : ((Expr.run us).or (conjoin ((s :: ss).map expr) (.terms ws))).operator = .or :=
      Expr.operator_combine (.inr rfl) (.run hus) hwf (.inl rfl)
    rw [hextend, Expr.wrap_of_absorbs (.inr hop), Expr.or,
      Expr.boostedRuns_combine false (.inr rfl) (.run hus) hwf, boostedRuns_conjoin hss hne,
      Expr.boostedRuns_run]
    rfl

theorem sign_row (kind : Token.Kind) {arg : Front (Option Expr)} {rest : Front Expr}
    (harg : readArgument false ids ts = .ok arg) (hrest : Reads 50 .start arg.ids arg.rest rest)
    (hts : Unjoined ts) :
    arg.value = none ∨
      ∃ s ss ws, s.isSigned = true ∧ (∀ u ∈ ss, u.isSigned = true) ∧
        (∀ around, applySign kind arg.value around = s.expr.and around.wrap) ∧
        rest.value = conjoin (ss.map expr) (.terms ws) ∧
        cutFrom [kind] [] ids ts = s :: (ss ++ (ended ws ++ cut rest.ids rest.rest)) ∧
        (ws = [] → rest.rest = []) := by
  cases hval : arg.value with
  | none => exact .inl rfl
  | some a =>
    obtain ⟨os, hv, hos, hcut⟩ := signedArgument_cut kind harg
    rw [hval] at hv
    obtain ⟨s, rfl, hs⟩ := List.map_eq_singleton_iff.1 hv.symm
    obtain ⟨ss, ws, hss, hrow, hcutRow, hend⟩ := hrest.row (hts.suffix (readArgument_takes harg).suffix)
    refine .inr ⟨s, ss, ws, hos s List.mem_cons_self, hss, fun around => by rw [applySign, hs], hrow, ?_, hend⟩
    rw [hcut, hcutRow, List.singleton_append]

theorem boostedRuns_signed_and {s : Stretch} (hs : s.isSigned = true) {around : Expr}
    (haround : around.WellFormed) :
    (s.expr.and around).boostedRuns false = marked true s :: around.boostedRuns false := by
  rw [Expr.and, Expr.boostedRuns_combine false (.inl rfl) (expr_wellFormed hs) haround, boostedRuns_expr hs,
    List.singleton_append]

/-- A sign behind a conjunction keeps the conjunction, and what stands behind the sign is joined to it. -/
theorem boostedRuns_signed_extend {s : Stretch} {left rest : Expr} (hs : s.isSigned = true)
    (hleft : left.WellFormed) (hand : left.operator = .and) (hrest : rest.WellFormed) :
    (s.expr.and (left.extend rest).wrap).boostedRuns false =
      marked true s :: (left.boostedRuns false ++ rest.boostedRuns false) := by
  have hop : (left.and rest).operator = .and :=
    Expr.operator_combine (.inl rfl) hleft hrest (.inl (Expr.isNoop_eq_false hand (by decide)))
  rw [Expr.extend_of_and hand, Expr.wrap_of_absorbs (.inl hop),
    boostedRuns_signed_and hs (hleft.and hrest)]
  exact congrArg (marked true s :: ·) (Expr.boostedRuns_combine false (.inl rfl) hleft hrest)

/-- Behind a conjunction the signed words and rows are joined one by one; a plain stretch that is a row by
itself is joined without a boost. -/
theorem Reads.boosts_and {left : Expr} {f : Front Expr} (h : Reads 0 (.after left) ids ts f)
    (before : List Stretch) (hts : Unjoined ts) (hleft : left.WellFormed)
    (hand : left.operator = .and) (hword : ∀ t ∈ ts.head?, t.kind ≠ .word)
    (hbefore : ts ≠ [] → BehindPlain before) :
    f.rest = [] ∧ (f.value.wrap.boostedRuns false).Perm
      (left.boostedRuns false ++ boostsFrom before (cut ids ts)) := by
  generalize hmin : 0 = min, hstage : Stage.after left = stage at h
  induction h generalizing left before with
  | none | first | signs | dangling => cases hstage
  | stop hend =>
    cases hstage
    subst hmin
    obtain rfl := hts.eq_nil hend
    rw [Expr.wrap_of_absorbs (.inl hand)]
    exact ⟨rfl, List.Perm.of_eq (List.append_nil _).symm⟩
  | word _ ht _ _ => exact absurd ht (hword _ rfl)
  | join _ ht _ _ _ _ => exact absurd (Token.Kind.dangles_of_joins ht) hts.not_dangles
  | @sign _ left ids t ts arg rest f _ ht harg hrest h _ ih =>
    cases hstage
    subst hmin
    rw [cut_sign _ ht]
    rcases sign_row t.kind harg hrest hts.tail with hval | ⟨s, ss, ws, hs, hss, happly, hrow, hcut, hend⟩
    · obtain ⟨hnil, hvalue, hcut⟩ := h.dangling_sign harg hval hts.tail hrest
      rw [hvalue, hcut, Expr.wrap_of_absorbs (.inl hand)]
      exact ⟨hnil, List.Perm.of_eq (List.append_nil _).symm⟩
    · have hrestWf := hrest.wellFormed trivial
      have haround := (hleft.extend hrestWf).wrap
      rw [happly] at ih
      -- the row is behind the plain stretch that ends it, unless the query ends there
      obtain ⟨hnil, hperm⟩ := ih (ended ws ++ (ss.reverse ++ s :: before))
        (hts.tail.suffix ((readArgument_takes harg).trans hrest.takes).suffix)
        ((expr_wellFormed hs).and haround) (signed_and_operator hs haround) (hrest.ne_word (by decide))
        (fun hne => behindPlain_ended (fun hws => hne (hend hws)) (by simp)) rfl rfl
      refine ⟨hnil, hperm.trans ?_⟩
      rw [boostedRuns_signed_extend hs hleft hand hrestWf, hcut, boostsFrom_row hs hss, hrow,
        boostedRuns_row hs hss (hbefore (List.cons_ne_nil t ts)) ws (cut rest.ids rest.rest)]
      simpa only [List.cons_append, List.append_assoc] using List.perm_middle.symm

/-- Behind words that open the query the first sign leaves a conjunction, with them below it. -/
theorem Reads.boosts_opening {us : List Term} {f : Front Expr} (h : Reads 0 (.after (.run us)) ids ts f)
    (hts : Unjoined ts) (hus : us ≠ []) : f.rest = [] ∧
      (f.value.wrap.boostedRuns false).Perm (boosts (cutFrom [] us ids ts)) := by
  generalize hmin : 0 = min, hstage : Stage.after (.run us) = stage at h
  induction h generalizing us with
  | none | first | signs | dangling => cases hstage
  | stop hend =>
    cases hstage
    subst hmin
    obtain rfl := hts.eq_nil hend
    refine ⟨rfl, List.Perm.of_eq ?_⟩
    rw [cutFrom, ended_of_ne_nil hus]
    exact Expr.boostedRuns_wrap_run false us
  | word _ ht _ ih =>
    cases hstage
    rw [cutFrom_word us _ ht]
    exact ih hts.tail (by simp) hmin rfl
  | join _ ht _ _ _ _ => exact absurd (Token.Kind.dangles_of_joins ht) hts.not_dangles
  | @sign _ us ids t ts arg rest f _ ht harg hrest h _ _ =>
    cases hstage
    subst hmin
    rw [cutFrom_sign [] _ ids ht, ended_of_ne_nil hus]
    rcases sign_row t.kind harg hrest hts.tail with hval | ⟨s, ss, ws, hs, hss, happly, hrow, hcut, hend⟩
    · obtain ⟨hnil, hvalue, hcut⟩ := h.dangling_sign harg hval hts.tail hrest
      rw [hvalue, hcut]
      exact ⟨hnil, List.Perm.of_eq (Expr.boostedRuns_wrap_run false us)⟩
    · have haround := (Expr.WellFormed.extend (.run hus) (hrest.wellFormed trivial)).wrap
      rw [happly] at h
      obtain ⟨hnil, hperm⟩ := h.boosts_and (ended ws ++ (ss.reverse ++ [s, .plain us]))
        (hts.tail.suffix ((readArgument_takes harg).trans hrest.takes).suffix)
        ((expr_wellFormed hs).and haround) (signed_and_operator hs haround) (hrest.ne_word (by decide))
        (fun hne => behindPlain_ended (fun hws => hne (hend hws)) (by simp))
      refine ⟨hnil, hperm.trans ?_⟩
      rw [boostedRuns_signed_and hs haround, hrow, boostedRuns_extend_run hus hss, hcut,
        List.singleton_append,
        boosts_opened hs hss us fun hws => by rw [hend hws]; rfl]
      simpa only [List.cons_append, List.append_assoc] using List.Perm.swap _ _ _

theorem Reads.boosts_eq {f : Front Expr} (h : Reads 0 .start ids ts f) (hts : Unjoined ts) :
    f.rest = [] ∧ (f.value.wrap.boostedRuns false).Perm (boosts (cut ids ts)) := by
  cases h with
  | none => exact ⟨rfl, List.Perm.refl _⟩
  | first ht h =>
    rw [cut_word _ ht]
    exact h.boosts_opening hts.tail (List.cons_ne_nil _ [])
  | @signs _ _ _ _ args rest _ ht hargs hrest h =>
    obtain ⟨ss, ws, hss, hv, hcut, hend⟩ := hargs.row hrest hts.tail
    have htail := hts.tail.suffix (hargs.takes.trans hrest.takes).suffix
    rw [hv] at h
    rw [cut_sign _ ht, hcut]
    by_cases hne : ss = []
    · subst hne
      rw [hend (.inl rfl)] at h ⊢
      cases h with
      | stop _ =>
        refine ⟨rfl, List.Perm.of_eq ((boostedRuns_wrap_terms ws).trans ?_)⟩
        cases ws <;> rfl
    · have hop : (conjoin (ss.map expr) (.terms ws)).operator = .and := by
        obtain ⟨s, ss, rfl⟩ := List.exists_cons_of_ne_nil hne
        rw [conjoin_signed hss (.terms ws)]
        rfl
      obtain ⟨hnil, hperm⟩ := h.boosts_and (ended ws ++ (ss.reverse ++ [])) htail
        (conjoin_wellFormed (map_expr_wellFormed hss) (.terms ws)) hop (hrest.ne_word (by decide))
        (fun hrest => behindPlain_ended (fun hws => hrest (hend (.inr hws))) (by simpa using hne))
      refine ⟨hnil, hperm.trans (List.Perm.of_eq ?_)⟩
      rw [boostedRuns_conjoin hss hne, boosts, boostsFrom_signed hss, boostsFrom_ended, List.append_nil,
        bare_first (signed_reverse hss) (by simpa using hne), List.map_append, List.append_assoc]
      rfl
  | dangling ht _ => exact absurd ht hts.not_dangles

theorem Unjoined.ne_leftParen (h : Unjoined ts) : ∀ t ∈ ts, t.kind ≠ .leftParen := by
  intro t ht hk
  rcases h t ht with hw | hs
  · rw [hk] at hw
    cases hw
  · rw [hk] at hs
    cases hs

/-- A query of words and signs alone is parsed, and its stretches say which of its words are boosted. -/
theorem boosts_parse (ids : TermIds) (ts : List Token)
    (hts : ∀ t ∈ ts, t.kind = .word ∨ t.kind.isSign = true) :
    ∃ e, (parse ids ts).result = .ok e ∧ (e.boostedRuns false).Perm (boosts (cut ids ts)) := by
  have hunjoined : Unjoined ts := hts
  obtain ⟨e, rest, he, first, hfirst, hrest, -⟩ := exists_parses hunjoined.ne_leftParen ids
  have htail : Unjoined (dropEnding ts) := fun t ht => hts t (dropEnding_subset ts ht)
  obtain ⟨hend, hperm⟩ := hfirst.boosts_eq htail
  refine ⟨e, he, ?_⟩
  rw [hend] at hrest
  obtain rfl : e = first.value.wrap := congrArg Front.value hrest.eq_of_nil
  rw [← cut_dropEnding]
  exact hperm

/-- In `+a b +c d` the word `b` is boosted and `d` is not. -/
theorem boosts_parse_second_row :
    ∃ e, (parse ⟨0⟩ [⟨.prefixAnd, "+", 0, 1⟩, ⟨.word, "a", 1, 1⟩, ⟨.word, "b", 3, 1⟩,
        ⟨.prefixAnd, "+", 5, 1⟩, ⟨.word, "c", 6, 1⟩, ⟨.word, "d", 8, 1⟩]).result = .ok e ∧
      (e.boostedRuns false).Perm [(false, [⟨0, "a", none⟩]), (true, [⟨1, "b", none⟩]),
        (false, [⟨2, "c", none⟩]), (false, [⟨3, "d", none⟩])] := by
  refine boosts_parse ⟨0⟩ [⟨.prefixAnd, "+", 0, 1⟩, ⟨.word, "a", 1, 1⟩, ⟨.word, "b", 3, 1⟩,
    ⟨.prefixAnd, "+", 5, 1⟩, ⟨.word, "c", 6, 1⟩, ⟨.word, "d", 8, 1⟩] ?_
  decide

end Parser
end SearchQuery

import SearchQuery.Proofs.Expr.Additive
import SearchQuery.Proofs.Parser.Operands

/-! Nothing is lost between the tokens and the expression. What the parser has built, together with
what the tokens ahead will give, stays the same in every step, up to order and for every additive
collection: the stretches of the tokens, each as the expression it stands for. A word joins the run
before it only where no token stands between them, because the parser goes on with a run until no
word follows. -/

namespace SearchQuery.Parser

open Stretch
open SearchQuery.Expr (Additive)

variable {α : Type} {μ : Expr → List α}

theorem conjoin_additive (hμ : Additive μ) {args : List Expr} {rest : Expr}
    (hargs : ∀ a ∈ args, a.WellFormed) (hrest : rest.WellFormed) :
    μ (conjoin args rest) = args.flatMap μ ++ μ rest := by
  unfold conjoin
  split_ifs with h
  · simp [List.isEmpty_iff.1 h]
  · rw [hμ.and (Expr.WellFormed.compound (by decide) (by decide) hargs) hrest.wrap, hμ.compound_and hargs, hμ.wrap]

theorem applySign_additive (hμ : Additive μ) {kind : Token.Kind} {arg : Option Expr} {around : Expr}
    (harg : ∀ a ∈ signedArgument kind arg, a.WellFormed) (haround : around.WellFormed) :
    μ (applySign kind arg around) = (signedArgument kind arg).flatMap μ ++ μ around := by
  cases arg with
  | none => rfl
  | some a =>
    simp only [signedArgument, Option.map_some, Option.toList_some, List.mem_singleton,
      forall_eq] at harg
    simp [applySign, signedArgument, hμ.and harg haround.wrap, hμ.wrap]

theorem joinRight_additive (hμ : Additive μ) {op : Operator} {left right : Expr}
    (hop : Expr.Absorbs op) (hleft : left.WellFormed) (hright : right.WellFormed) :
    μ (joinRight (Expr.combine op) left right) = μ left ++ μ right := by
  unfold joinRight
  split_ifs with hn
  · rw [hμ.of_isNoop hright hn, List.append_nil]
  · exact hμ.combine hop hleft hright

/-- What the words of some tokens come to, each stretch by itself. -/
def ahead (μ : Expr → List α) (ss : List Stretch) : List α := ss.flatMap fun s => μ s.expr

theorem ahead_append (ss ss' : List Stretch) : ahead μ (ss ++ ss') = ahead μ ss ++ ahead μ ss' := by
  simp [ahead]

theorem flatMap_map_expr (ss : List Stretch) : (ss.map expr).flatMap μ = ahead μ ss := by
  simp [ahead, List.flatMap_map]

/-- What has been read with what is ahead. Words ahead join a run that has been read. -/
def Stage.total (μ : Expr → List α) (ids : TermIds) (ts : List Token) : Stage → List α
  | .start => ahead μ (cut ids ts)
  | .after (.run ws) => ahead μ (cutFrom [] ws ids ts)
  | .after left => μ left ++ ahead μ (cut ids ts)

/-- Where the parser can be: in front of a word it has read a run or nothing. -/
def Stage.Fits (ts : List Token) : Stage → Prop
  | .start => True
  | .after left => left.WellFormed ∧
      (left.isRun = true ∨ left.isNoop = true ∨ ∀ t ∈ ts.head?, t.kind ≠ .word)

theorem total_after_of_ne_word {left : Expr} (hleft : left.WellFormed)
    (ids : TermIds) {ts : List Token} (h : ∀ t ∈ ts.head?, t.kind ≠ .word) :
    Stage.total μ ids ts (.after left) = μ left ++ ahead μ (cut ids ts) := by
  cases hleft with
  | run hws =>
    simp only [Stage.total]
    rw [cutFrom_nil _ _ _ h, ended_of_ne_nil hws, ahead_append]
    simp [ahead, expr]
  | _ => rfl

theorem total_after_noop (hμ : Additive μ) (ids : TermIds) (ts : List Token) :
    Stage.total μ ids ts (.after .noop) = ahead μ (cut ids ts) := by
  show μ Expr.noop ++ _ = _
  rw [hμ.noop, List.nil_append]

theorem total_after_cons {left : Expr} (hleft : left.WellFormed) {t : Token}
    (ht : t.kind ≠ .word) (ids : TermIds) (ts : List Token) :
    Stage.total μ ids (t :: ts) (.after left) = μ left ++ ahead μ (cut ids (t :: ts)) :=
  total_after_of_ne_word hleft ids (by simpa using ht)

theorem ne_word_of_bindingPower {min : Nat} (hmin : min < 80) {ts : List Token}
    (hend : ∀ t ∈ ts.head?, t.kind.bindingPower ≤ min) : ∀ t ∈ ts.head?, t.kind ≠ .word := by
  intro t ht hw
  have hb := hend t ht
  rw [hw, Token.Kind.bindingPower] at hb
  omega

/-- Behind a run of the parser stands no word. -/
theorem Reads.ne_word {min : Nat} {stage : Stage} {ids : TermIds} {ts : List Token}
    {f : Front Expr} (h : Reads min stage ids ts f) (hmin : min < 80) :
    ∀ t ∈ f.rest.head?, t.kind ≠ .word :=
  ne_word_of_bindingPower hmin h.stops

theorem cut_dangles (ids : TermIds) {t : Token} (ht : t.kind.dangles = true) (ts : List Token) :
    cut ids (t :: ts) = cut ids ts :=
  cut_other ids (Token.Kind.ne_word_of_dangles ht) (Token.Kind.isSign_of_dangles ht) ts

theorem appendTerm_isRun {left : Expr} (h : left.isRun = true ∨ left.isNoop = true) (w : Term) :
    (left.appendTerm w).isRun = true := by
  cases left with
  | run ws => rfl
  | node op cs =>
    have hn : (Expr.node op cs).isNoop = true := h.resolve_left (by simp [Expr.isRun])
    simp [Expr.appendTerm, hn, Expr.term, Expr.isRun]

theorem total_after_word (hμ : Additive μ) {left : Expr} (hleft : left.WellFormed) {t : Token}
    (hfits : left.isRun = true ∨ left.isNoop = true) (ht : t.kind = .word) (ids : TermIds)
    (ts : List Token) :
    Stage.total μ ids (t :: ts) (.after left) =
      Stage.total μ (ids.issue t.text).2 ts (.after (left.appendTerm (ids.issue t.text).1)) := by
  cases left with
  | run ws => simp only [Stage.total, Expr.appendTerm, cutFrom_word ws ids ht]
  | node op cs =>
    obtain hn := hfits.resolve_left (by simp [Expr.isRun])
    rw [hleft.eq_noop hn]
    simp only [Stage.total, Expr.noop, cut_word ids ht]
    rw [← Expr.noop, hμ.noop]
    rfl

section

variable {ids : TermIds} {t : Token} {ts : List Token} {left : Expr} {op : Operator}
variable {arg : Front (Option Expr)} {args : Front (List Expr)} {right rest : Front Expr}

/-- What a word finds in front of it takes it into a run. -/
theorem Stage.Fits.opens (h : Stage.Fits (t :: ts) (.after left)) (ht : t.kind = .word) :
    left.isRun = true ∨ left.isNoop = true := by
  rcases h.2 with hrun | hnoop | hword
  · exact .inl hrun
  · exact .inr hnoop
  · exact absurd ht (hword t rfl)

theorem Stage.Fits.word (h : Stage.Fits (t :: ts) (.after left)) (ht : t.kind = .word) (w : Term) :
    Stage.Fits ts (.after (left.appendTerm w)) :=
  ⟨h.1.appendTerm w, .inl (appendTerm_isRun (h.opens ht) w)⟩

theorem fits_signs (hargs : ReadsArguments t.kind ids ts args)
    (hrest : Reads 50 .start args.ids args.rest rest) :
    Stage.Fits rest.rest (.after (conjoin args.value rest.value)) :=
  ⟨conjoin_wellFormed hargs.wellFormed (hrest.wellFormed trivial),
    .inr (.inr (hrest.ne_word (by decide)))⟩

theorem Stage.Fits.join (h : Stage.Fits (t :: ts) (.after left)) (ht : t.kind.joins? = some op)
    (hright : Reads t.kind.bindingPower .start ids ts right) :
    Stage.Fits right.rest (.after (joinRight (Expr.combine op) left right.value)) := by
  have hpower := Token.Kind.bindingPower_lt_of_dangles (Token.Kind.dangles_of_joins ht)
  have hwell := joinRight_wellFormed (joins_absorbs ht) h.1 (hright.wellFormed trivial)
  exact ⟨hwell, .inr (.inr (hright.ne_word hpower))⟩

theorem Stage.Fits.sign (h : Stage.Fits (t :: ts) (.after left)) (harg : readArgument false ids ts = .ok arg)
    (hrest : Reads 50 .start arg.ids arg.rest rest) :
    Stage.Fits rest.rest (.after (applySign t.kind arg.value (left.extend rest.value))) := by
  have haround := h.1.extend (hrest.wellFormed trivial)
  have hwell := applySign_wellFormed (signedArgument_wellFormed t.kind harg) haround
  exact ⟨hwell, .inr (.inr (hrest.ne_word (by decide)))⟩

theorem total_signs (hμ : Additive μ) (ht : t.kind.isSign = true)
    (hargs : ReadsArguments t.kind ids ts args) (hrest : Reads 50 .start args.ids args.rest rest)
    (htotal : (μ rest.value ++ ahead μ (cut rest.ids rest.rest)).Perm
      (ahead μ (cut args.ids args.rest))) :
    (Stage.total μ rest.ids rest.rest (.after (conjoin args.value rest.value))).Perm
      (ahead μ (cut ids (t :: ts))) := by
  obtain ⟨ss, hv, -, hcut⟩ := hargs.cut
  have hfits := fits_signs hargs hrest
  rw [total_after_of_ne_word hfits.1 _ (hrest.ne_word (by decide)),
    conjoin_additive hμ hargs.wellFormed (hrest.wellFormed trivial), hv, flatMap_map_expr,
    List.append_assoc, cut_sign ids ht, hcut, ahead_append]
  exact htotal.append_left _

theorem total_join (hμ : Additive μ) (hfits : Stage.Fits (t :: ts) (.after left))
    (ht : t.kind.joins? = some op) (hright : Reads t.kind.bindingPower .start ids ts right)
    (htotal : (μ right.value ++ ahead μ (cut right.ids right.rest)).Perm (ahead μ (cut ids ts))) :
    (Stage.total μ right.ids right.rest (.after (joinRight (Expr.combine op) left right.value))).Perm
      (Stage.total μ ids (t :: ts) (.after left)) := by
  have hdangles := Token.Kind.dangles_of_joins ht
  have hword := hright.ne_word (Token.Kind.bindingPower_lt_of_dangles hdangles)
  rw [total_after_of_ne_word (hfits.join ht hright).1 _ hword,
    joinRight_additive hμ (joins_absorbs ht) hfits.1 (hright.wellFormed trivial), List.append_assoc,
    total_after_cons hfits.1 (Token.Kind.ne_word_of_dangles hdangles), cut_dangles ids hdangles]
  exact htotal.append_left _

/-- The argument comes to stand in front of what was read before it. -/
theorem total_sign (hμ : Additive μ) (hfits : Stage.Fits (t :: ts) (.after left))
    (ht : t.kind.isSign = true) (harg : readArgument false ids ts = .ok arg)
    (hrest : Reads 50 .start arg.ids arg.rest rest)
    (htotal : (μ rest.value ++ ahead μ (cut rest.ids rest.rest)).Perm
      (ahead μ (cut arg.ids arg.rest))) :
    (Stage.total μ rest.ids rest.rest
        (.after (applySign t.kind arg.value (left.extend rest.value)))).Perm
      (Stage.total μ ids (t :: ts) (.after left)) := by
  obtain ⟨ss, hv, -, hcut⟩ := signedArgument_cut t.kind harg
  have hrestWf := hrest.wellFormed trivial
  rw [total_after_of_ne_word (hfits.sign harg hrest).1 _ (hrest.ne_word (by decide)),
    applySign_additive hμ (signedArgument_wellFormed t.kind harg) (hfits.1.extend hrestWf), hv,
    flatMap_map_expr, hμ.extend hfits.1 hrestWf,
    total_after_cons hfits.1 (Token.Kind.ne_word_of_isSign ht), cut_sign ids ht, hcut, ahead_append]
  calc
    (ahead μ ss ++ (μ left ++ μ rest.value) ++ ahead μ (cut rest.ids rest.rest)).Perm
        (ahead μ ss ++ (μ left ++ (μ rest.value ++ ahead μ (cut rest.ids rest.rest)))) :=
      .of_eq (by simp)
    List.Perm _ (ahead μ ss ++ (μ left ++ ahead μ (cut arg.ids arg.rest))) :=
      (htotal.append_left _).append_left _
    List.Perm _ (μ left ++ (ahead μ ss ++ ahead μ (cut arg.ids arg.rest))) :=
      List.perm_append_comm_assoc _ _ _

end

theorem Reads.total_eq (hμ : Additive μ) {min : Nat} {stage : Stage} {ids : TermIds}
    {ts : List Token} {f : Front Expr} (h : Reads min stage ids ts f) (hmin : min < 80)
    (hfits : stage.Fits ts) :
    (μ f.value ++ ahead μ (cut f.ids f.rest)).Perm (stage.total μ ids ts) := by
  induction h with
  | none => simp [hμ.noop, Stage.total]
  | @first _ ids t ts f ht _ ih =>
    rw [Stage.total, cut_word ids ht]
    exact ih hmin ⟨.term _, .inl rfl⟩
  | signs ht hargs hrest _ ihrest ih =>
    exact (ih hmin (fits_signs hargs hrest)).trans
      (total_signs hμ ht hargs hrest (ihrest (by decide) trivial))
  | @dangling _ ids t ts f ht _ ih =>
    have hend := ih hmin ⟨.noop, .inr (.inl rfl)⟩
    rwa [total_after_noop hμ, ← cut_dangles ids ht] at hend
  | @stop min left ids ts hend =>
    rw [total_after_of_ne_word hfits.1 _ (ne_word_of_bindingPower hmin hend)]
  | word _ ht _ ih =>
    rw [total_after_word hμ hfits.1 (hfits.opens ht) ht]
    exact ih hmin (hfits.word ht _)
  | join _ ht hright _ ihright ih =>
    have hpower := Token.Kind.bindingPower_lt_of_dangles (Token.Kind.dangles_of_joins ht)
    exact (ih hmin (hfits.join ht hright)).trans
      (total_join hμ hfits ht hright (ihright hpower trivial))
  | sign _ ht harg hrest _ ihrest ih =>
    exact (ih hmin (hfits.sign harg hrest)).trans
      (total_sign hμ hfits ht harg hrest (ihrest (by decide) trivial))

theorem Resumes.total_eq (hμ : Additive μ) {e : Expr} {ids : TermIds} {ts : List Token}
    {f : Front Expr} (h : Resumes e ids ts f) (he : e.WellFormed) :
    (μ f.value ++ ahead μ (cut f.ids f.rest)).Perm (μ e ++ ahead μ (cut ids ts)) := by
  induction h with
  | stop _ => rw [hμ.wrap]
  | @skip e ids t ts next f ht hnext _ ih =>
    have hwf := hnext.wellFormed trivial
    have hend := ih (he.extend hwf)
    rw [hμ.extend he hwf, List.append_assoc] at hend
    rw [cut_dangles ids (by rw [ht]; rfl)]
    exact hend.trans ((hnext.total_eq hμ (by decide) trivial).append_left _)

theorem Parses.total_eq (hμ : Additive μ) {ids : TermIds} {ts : List Token} {f : Front Expr}
    (h : Parses ids ts f) :
    (μ f.value ++ ahead μ (cut f.ids f.rest)).Perm (ahead μ (cut ids ts)) := by
  obtain ⟨first, hfirst, hrest, -⟩ := h
  exact (hrest.total_eq hμ (hfirst.wellFormed trivial)).trans (hfirst.total_eq hμ (by decide) trivial)

end SearchQuery.Parser

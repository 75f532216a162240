import SearchQuery.Proofs.Expr.Depth
import SearchQuery.Proofs.Parser.Grouping
import SearchQuery.Proofs.Parser.Precedence
import SearchQuery.Proofs.Parser.Truth

/-! How deep a parsed query is nested. Signs, disjunctions and conjunctions come in this order inside an
expression, and each kind flattens, so all of them together make a bounded number of levels. Words that
follow a boost are the one thing that nests without end: they come behind a stray `)` or behind a sign
that has no word, and each of these puts one more boost around everything before it. -/

namespace SearchQuery

namespace Token

/-- How often the parser may begin anew behind what it has read: at a closing parenthesis, and at a sign
whose next token cannot be signed. -/
def restarts : List Token → Nat
  | [] => 0
  | t :: ts =>
    if t.kind = .rightParen ∨ (t.kind.isSign = true ∧ ts.head?.any (·.kind.dangles) = true) then
      restarts ts + 1
    else restarts ts

variable {t : Token} {ts us : List Token}

theorem restarts_le_cons (t : Token) (ts : List Token) : restarts ts ≤ restarts (t :: ts) := by
  rw [restarts]
  split_ifs <;> omega

theorem restarts_le_of_suffix (h : us <:+ ts) : restarts us ≤ restarts ts := by
  obtain ⟨taken, rfl⟩ := h
  induction taken with
  | nil => exact Nat.le_refl _
  | cons t taken ih => exact Nat.le_trans ih (restarts_le_cons t _)

theorem restarts_append_le (ts us : List Token) : restarts ts ≤ restarts (ts ++ us) := by
  induction ts with
  | nil => exact Nat.zero_le _
  | cons t ts ih =>
    rw [List.cons_append, restarts, restarts]
    have hhead : ts.head?.any (·.kind.dangles) = true → (ts ++ us).head?.any (·.kind.dangles) = true := by
      cases ts with
      | nil => exact nofun
      | cons u ts => exact id
    by_cases h : t.kind = .rightParen ∨ (t.kind.isSign = true ∧ ts.head?.any (·.kind.dangles) = true)
    · rw [if_pos h, if_pos (h.imp_right (And.imp_right hhead))]
      exact Nat.succ_le_succ ih
    · rw [if_neg h]
      split_ifs <;> omega

theorem restarts_rightParen (ht : t.kind = .rightParen) (ts : List Token) :
    restarts (t :: ts) = restarts ts + 1 :=
  if_pos (.inl ht)

end Token

namespace Parser

open Token (restarts)
open Stretch

variable {ids : TermIds} {ts : List Token}

/-- A sign without a word begins anew, unless the query ends there. -/
theorem restarts_argument {negated : Bool} {arg : Front (Option Expr)}
    (h : readArgument negated ids ts = .ok arg) (hnone : arg.value = none) (hrest : arg.rest ≠ [])
    {t : Token} (ht : t.kind.isSign = true) : restarts arg.rest + 1 ≤ restarts (t :: ts) := by
  induction ts generalizing negated t with
  | nil =>
    cases h
    exact absurd rfl hrest
  | cons u us ih =>
    rw [readArgument_cons] at h
    cases hu : u.kind with
    | word =>
      simp only [hu] at h
      cases h
      cases hnone
    | prefixAnd | prefixAndNot =>
      simp only [hu] at h
      exact Nat.le_trans (ih h (by rw [hu]; rfl)) (Token.restarts_le_cons t _)
    | leftParen => simp [hu] at h
    | rightParen | infixAnd | infixOr | eof =>
      simp only [hu] at h
      cases h
      have hdangles : u.kind.dangles = true := by rw [hu]; rfl
      rw [restarts, if_pos (.inr ⟨ht, hdangles⟩)]
      exact Nat.succ_le_succ (Token.restarts_le_cons u us)

/-- What is read at the strength of a sign: nothing, words, or signed words with a boost behind them. -/
def Flat (e : Expr) : Prop :=
  e = .noop ∨ e.isRun = true ∨ (e.operator = .and ∧ e.depth ≤ 3)

theorem depth_of_isRun {e : Expr} (h : e.isRun = true) : e.depth = 1 := by
  cases e with
  | run ts => exact Expr.depth_run ts
  | node op cs => cases h

theorem depth_expr_le {s : Stretch} (h : s.isSigned = true) : s.expr.depth ≤ 2 := by
  rcases s with ws | ⟨_ | _, w⟩
  · cases h
  · exact Nat.le_of_lt (by decide : 1 < 2)
  · exact Nat.le_refl 2

theorem depthUnder_expr_le {s : Stretch} (h : s.isSigned = true) : s.expr.depthUnder .and ≤ 3 :=
  Nat.le_trans (s.expr.depthUnder_le .and) (Nat.succ_le_succ (depth_expr_le h))

theorem Flat.depthUnder_wrap {e : Expr} (h : Flat e) : e.wrap.depthUnder .and ≤ 3 := by
  rcases h with rfl | hrun | ⟨hop, hdepth⟩
  · decide
  · cases e with
    | run ws => exact Nat.le_refl 3
    | node op cs => cases hrun
  · cases e with
    | run ws => cases hop
    | node op cs => exact Nat.le_trans (Nat.le_of_eq (Expr.depthUnder_eq hop)) hdepth

theorem flat_conjoin {ss : List Stretch} (h : ∀ s ∈ ss, s.isSigned = true) {rest : Expr}
    (hwell : rest.WellFormed) (hrest : Flat rest) : Flat (conjoin (ss.map expr) rest) := by
  cases ss with
  | nil => exact hrest
  | cons s ss =>
    have hsigned : Expr.depthOf ((s :: ss).map expr) ≤ 2 := by
      apply Expr.depthOf_le
      intro e he
      obtain ⟨a, ha, rfl⟩ := List.mem_map.1 he
      exact depth_expr_le (h a ha)
    have hparts := Expr.depthOf_parts .and rest.wrap
    have hwrap := hrest.depthUnder_wrap
    refine .inr (.inr ?_)
    rw [conjoin_signed h hwell, Expr.depth_node, Expr.depthOf_append]
    exact ⟨rfl, by omega⟩

/-- Behind nothing at all the parser takes words, if it reads at the strength of a sign. -/
theorem Reads.flat_after_noop {f : Front Expr} (h : Reads 50 (.after .noop) ids ts f) :
    Flat f.value := by
  cases h with
  | stop _ => exact .inl rfl
  | @word _ _ _ t us _ _ _ h =>
    have h : Reads 50 (.after (.run [(ids.issue t.text).1])) (ids.issue t.text).2 us f := h
    obtain ⟨ws, -, hv, -⟩ := h.words (List.cons_ne_nil _ [])
    exact .inr (.inl (by rw [hv]; rfl))
  | join hb ht _ _ =>
    exact absurd (Token.Kind.eq_word_of_bindingPower hb)
      (Token.Kind.ne_word_of_dangles (Token.Kind.dangles_of_joins ht))
  | sign hb ht _ _ _ =>
    exact absurd (Token.Kind.eq_word_of_bindingPower hb) (Token.Kind.ne_word_of_isSign ht)

theorem Reads.flat {f : Front Expr} (h : Reads 50 .start ids ts f) : Flat f.value := by
  generalize hmin : 50 = min, hstage : Stage.start = stage at h
  induction h with
  | none => exact .inl rfl
  | first _ h _ =>
    subst hmin
    obtain ⟨ws, -, hv, -⟩ := h.words (List.cons_ne_nil _ [])
    exact .inr (.inl (by rw [hv]; rfl))
  | signs _ hargs hrest h ihrest _ =>
    subst hmin
    obtain ⟨ss, hv, hss, -⟩ := hargs.cut
    rw [h.eq_of_ne_word (hrest.ne_word (by decide)), hv]
    exact flat_conjoin hss (hrest.wellFormed trivial) (ihrest rfl rfl)
  | dangling _ h _ =>
    subst hmin
    exact h.flat_after_noop
  | _ => cases hstage

/-- Levels above the first that an operator may come with, as long as only words and signs are read. -/
def allowance : Operator → Nat
  | .and => 4
  | .or => 3
  | _ => 0

theorem allowance_le (op : Operator) : allowance op ≤ 4 := by
  cases op <;> decide

theorem Flat.depth_le {e : Expr} (h : Flat e) : e.depth ≤ 1 + allowance e.operator := by
  rcases h with rfl | hrun | ⟨hop, hdepth⟩
  · exact Nat.le_refl 1
  · rw [depth_of_isRun hrun]
    exact Nat.le_add_right 1 _
  · rw [hop]
    exact Nat.le_trans hdepth (by decide)

theorem Flat.depth_le_three {e : Expr} (h : Flat e) : e.depth ≤ 3 := by
  rcases h with rfl | hrun | ⟨-, hdepth⟩
  · decide
  · rw [depth_of_isRun hrun]
    decide
  · exact hdepth

theorem allowance_of_leads {e : Expr} (h : Expr.Leads e) : allowance e.operator = 0 := by
  rcases h with h | h | h
  · cases e with
    | run ws => rfl
    | node op cs => cases h
  · rw [h]
    rfl
  · rw [h]
    rfl

variable {n : Nat} {l r : Expr}

/-- Behind what leads a boost words nest it once more, and everything else is an alternative to it. -/
theorem depth_extend_leads (hl : l.WellFormed) (hr : r.WellFormed) (hlead : Expr.Leads l)
    (hln : l.isNoop = false) (hrn : r.isNoop = false) (hdepth : l.depth ≤ n + 1) (hflat : r.depth ≤ 3) :
    (l.extend r).depth ≤ n + 1 + allowance (l.extend r).operator ∨
      (r.isRun = true ∧ (l.extend r).operator = .boost ∧ (l.extend r).depth ≤ n + 2) := by
  cases hrun : r.isRun with
  | true =>
    cases r with
    | node op cs => cases hrun
    | run ws =>
      refine .inr ⟨rfl, ?_⟩
      rw [Expr.extend_run hlead ws, Expr.depth_boost, Expr.depth_run]
      exact ⟨rfl, by omega⟩
  | false =>
    have hop : (l.or r).operator = .or := Expr.operator_combine (.inr rfl) hl hr (.inl hln)
    have hjoin : (l.or r).depth ≤ _ := Expr.depth_combine_le (.inr rfl) hl hr
    have hleft := l.depthUnder_le .or
    have hright := r.depthUnder_le .or
    rw [Expr.extend_of_leads hlead hrn hrun, hop]
    show (l.or r).depth ≤ n + 1 + 3 ∨ _
    exact .inl (by omega)

/-- A disjunction and a conjunction take in what follows. -/
theorem depth_extend_absorbs (hl : l.WellFormed) (hr : r.WellFormed)
    (hop : Expr.Absorbs l.operator) (hln : l.isNoop = false) (hrn : r.isNoop = false)
    (hdepth : l.depth ≤ n + 1 + allowance l.operator) (hflat : r.depth ≤ 3) :
    (l.extend r).depth ≤ n + 1 + allowance (l.extend r).operator := by
  have hself := Expr.operator_combine hop hl hr (.inl hln)
  have hjoin := Expr.depth_combine_le hop hl hr
  have hright := r.depthUnder_le l.operator
  have hroom : 3 ≤ allowance l.operator := by
    rcases hop with h | h <;> rw [h] <;> decide
  rw [Expr.depthUnder_eq rfl] at hjoin
  rw [Expr.extend_of_absorbs hop hrn, hself]
  omega

/-- Words and signs keep to their allowance, but for the words that are grouped with what leads them. -/
theorem depth_extend_flat (hl : l.WellFormed) (hr : r.WellFormed)
    (hdepth : l.depth ≤ n + 1 + allowance l.operator) (hflat : Flat r) :
    (l.extend r).depth ≤ n + 1 + allowance (l.extend r).operator ∨
      (r.isRun = true ∧ (l.extend r).operator = .boost ∧ (l.extend r).depth ≤ n + 2) := by
  by_cases hrn : r.isNoop = true
  · rw [hr.eq_noop hrn]
    exact .inl hdepth
  by_cases hln : l.isNoop = true
  · have hfirst : l.extend r = r := by
      rw [hl.eq_noop hln]
      exact if_neg hrn
    have hback := hflat.depth_le
    rw [hfirst]
    exact .inl (by omega)
  rw [Bool.not_eq_true] at hrn hln
  rcases Expr.leads_or_absorbs hl hln with hlead | hop
  · rw [allowance_of_leads hlead] at hdepth
    exact depth_extend_leads hl hr hlead hln hrn hdepth hflat.depth_le_three
  · exact .inl (depth_extend_absorbs hl hr hop hln hrn hdepth hflat.depth_le_three)

/-- The argument in front makes a conjunction of whatever it is put in front of. -/
theorem depth_signed_and {s : Stretch} {around : Expr} (hs : s.isSigned = true)
    (haround : around.WellFormed) (hdepth : around.wrap.depthUnder .and ≤ n + 5) :
    (s.expr.and around.wrap).operator = .and ∧ (s.expr.and around.wrap).depth ≤ n + 5 := by
  have hwell := expr_wellFormed hs
  have hjoin : (s.expr.and around.wrap).depth ≤ _ :=
    Expr.depth_combine_le (.inl rfl) hwell haround.wrap
  have hfirst := depthUnder_expr_le hs
  exact ⟨signed_and_operator hs haround.wrap, by omega⟩

theorem depthUnder_wrap_le {e : Expr} (h : e.depth ≤ n + 1 + allowance e.operator ∨
    (e.operator = .boost ∧ e.depth ≤ n + 2)) : e.wrap.depthUnder .and ≤ n + 5 := by
  cases e with
  | run ws =>
    show Expr.depthUnder .and (.node .boost [.run ws]) ≤ n + 5
    exact Nat.le_trans (by decide : 3 ≤ 5) (Nat.le_add_left 5 n)
  | node op cs =>
    show Expr.depthUnder .and (.node op cs) ≤ n + 5
    have hunder := (Expr.node op cs).depthUnder_le .and
    rcases h with h | ⟨-, h⟩
    · by_cases hop : op = .and
      · subst hop
        exact Nat.le_trans (Nat.le_of_eq (Expr.depthUnder_eq rfl)) h
      · have hallow : allowance op ≤ 3 := by cases op <;> first | decide | exact absurd rfl hop
        have h : (Expr.node op cs).depth ≤ n + 1 + allowance op := h
        omega
    · omega

/-- How deep the left side may be with `n` restarts behind it: it has words and signs alone, or it has been
joined to a disjunction, or to a conjunction, and then nothing that binds tighter comes behind it. -/
inductive Shallow (min n : Nat) (ts : List Token) (left : Expr) : Prop
  | signs (h : left.depth ≤ n + 1 + allowance left.operator)
  | or (hmin : min < 20) (h : left.depthUnder .or ≤ n + 6)
      (hend : ∀ t ∈ ts.head?, t.kind.bindingPower ≤ 20)
  | and (hmin : min < 10) (h : left.depthUnder .and ≤ n + 7)
      (hend : ∀ t ∈ ts.head?, t.kind.bindingPower ≤ 10)

def Stage.Shallow (min n : Nat) (ts : List Token) : Stage → Prop
  | .start => True
  | .after left => Parser.Shallow min n ts left

/-- Levels of an expression whose tokens bind tighter than `min`, without a restart. -/
def levels (min : Nat) : Nat := if min < 10 then 7 else if min < 20 then 6 else 5

theorem Shallow.depth_le {min : Nat} {left : Expr} (h : Shallow min n ts left) :
    left.depth ≤ n + levels min := by
  unfold levels
  cases h with
  | signs h =>
    have hallow := allowance_le left.operator
    split_ifs <;> omega
  | or hmin h _ =>
    have hunder := left.le_depthUnder .or
    rw [if_pos hmin]
    split_ifs <;> omega
  | and hmin h _ =>
    have hunder := left.le_depthUnder .and
    rw [if_pos hmin]
    omega

theorem Shallow.depthUnder_or {min : Nat} {left : Expr} {t : Token}
    (h : Shallow min n (t :: ts) left) (ht : t.kind = .infixOr) : left.depthUnder .or ≤ n + 6 := by
  cases h with
  | signs h =>
    have hallow := allowance_le left.operator
    have hunder := left.depthUnder_le .or
    omega
  | or _ h _ => exact h
  | and _ _ hend =>
    have hb := hend t rfl
    rw [ht] at hb
    exact absurd hb (by decide)

theorem Shallow.depthUnder_and {min : Nat} {left : Expr} (h : Shallow min n ts left) :
    left.depthUnder .and ≤ n + 7 := by
  have hunder := left.depthUnder_le .and
  cases h with
  | signs h =>
    have hallow := allowance_le left.operator
    omega
  | or _ h _ =>
    have hself := left.le_depthUnder .or
    omega
  | and _ h _ => exact h

theorem Shallow.of_sign {min : Nat} {left : Expr} {t : Token} (h : Shallow min n (t :: ts) left)
    (ht : t.kind.isSign = true) : left.depth ≤ n + 1 + allowance left.operator := by
  have hpower := Token.Kind.bindingPower_of_isSign ht
  cases h with
  | signs h => exact h
  | or _ _ hend | and _ _ hend =>
    have hb := hend t rfl
    omega

theorem depthUnder_joinRight_le {op : Operator} (hop : Expr.Absorbs op) (hl : l.WellFormed)
    (hr : r.WellFormed) :
    (joinRight (Expr.combine op) l r).depthUnder op ≤ max (l.depthUnder op) (r.depthUnder op) := by
  unfold joinRight
  split_ifs with hrn
  · exact Nat.le_max_left _ _
  · rw [Bool.not_eq_true] at hrn
    rw [Expr.depthUnder_eq (Expr.operator_combine hop hl hr (.inr hrn))]
    exact Expr.depth_combine_le hop hl hr

/-- An infix operator takes the left side to the next kind of operand, or leaves it there. -/
theorem shallow_joinRight {min k : Nat} {op : Operator} {t : Token} {us : List Token}
    (h : Shallow min n (t :: ts) l) (hb : min < t.kind.bindingPower) (ht : t.kind.joins? = some op)
    (hl : l.WellFormed) (hr : r.WellFormed) (hdepth : r.depth ≤ k + levels t.kind.bindingPower)
    (hend : ∀ u ∈ us.head?, u.kind.bindingPower ≤ t.kind.bindingPower) :
    Shallow min (n + k) us (joinRight (Expr.combine op) l r) := by
  have hjoin := depthUnder_joinRight_le (joins_absorbs ht) hl hr
  have hright := r.depthUnder_le op
  cases hkind : t.kind <;> rw [hkind] at ht hb hdepth hend <;> cases ht
  · have hleft := h.depthUnder_and
    have hdepth : r.depth ≤ k + 6 := hdepth
    exact .and hb (by omega) hend
  · have hleft := h.depthUnder_or hkind
    have hdepth : r.depth ≤ k + 5 := hdepth
    exact .or hb (by omega) hend

theorem exists_restarts_eq {us : List Token} (h : us <:+ ts) :
    ∃ k, restarts ts = k + restarts us := by
  have hle := Token.restarts_le_of_suffix h
  exact ⟨restarts ts - restarts us, by omega⟩

/-- A sign keeps the left side shallow; a sign without a word in front of words has cost a restart. -/
theorem shallow_applySign {min m : Nat} {kind : Token.Kind} {arg : Front (Option Expr)}
    {us : List Token} (harg : readArgument false ids ts = .ok arg) (hl : l.WellFormed)
    (hr : r.WellFormed) (hdepth : l.depth ≤ n + 1 + allowance l.operator) (hflat : Flat r)
    (hle : n ≤ m) (hrestart : arg.value = none → r.isRun = true → n + 1 ≤ m) :
    Shallow min m us (applySign kind arg.value (l.extend r)) := by
  obtain ⟨ss, hss, hsigned, -⟩ := signedArgument_cut kind harg
  have haround := depth_extend_flat hl hr hdepth hflat
  cases hval : arg.value with
  | none =>
    refine .signs ?_
    show (l.extend r).depth ≤ m + 1 + allowance (l.extend r).operator
    rcases haround with h | ⟨hrun, hop, h⟩
    · omega
    · have hm := hrestart hval hrun
      omega
  | some a =>
    rw [hval] at hss
    obtain ⟨s, rfl, hs⟩ := List.map_eq_singleton_iff.1 hss.symm
    have hunder := depthUnder_wrap_le (haround.imp_right And.right)
    have hjoin := depth_signed_and (hsigned s List.mem_cons_self) (hl.extend hr) hunder
    refine .signs ?_
    rw [applySign, ← hs, hjoin.1]
    have hd := hjoin.2
    show (s.expr.and (l.extend r).wrap).depth ≤ m + 1 + 4
    omega

section

variable {min : Nat} {left : Expr} {t : Token} {op : Operator}
variable {arg : Front (Option Expr)} {args : Front (List Expr)} {right rest : Front Expr}

theorem shallow_conjoin (hargs : ReadsArguments t.kind ids ts args)
    (hrest : Reads 50 .start args.ids args.rest rest) :
    Shallow min n rest.rest (conjoin args.value rest.value) := by
  obtain ⟨ss, hv, hss, -⟩ := hargs.cut
  have hflat := flat_conjoin hss (hrest.wellFormed trivial) hrest.flat
  rw [← hv] at hflat
  exact .signs (Nat.le_trans hflat.depth_le (by omega))

/-- The left side may get deeper by the restarts that the right operand takes up. -/
theorem exists_shallow_join (hfits : Stage.Fits (t :: ts) (.after left))
    (hshallow : Shallow min n (t :: ts) left) (hb : min < t.kind.bindingPower)
    (ht : t.kind.joins? = some op) (hright : Reads t.kind.bindingPower .start ids ts right)
    (hdepth : right.value.depth + restarts right.rest ≤ restarts ts + levels t.kind.bindingPower) :
    ∃ k, restarts ts = k + restarts right.rest ∧
      Shallow min (n + k) right.rest (joinRight (Expr.combine op) left right.value) := by
  obtain ⟨k, hk⟩ := exists_restarts_eq hright.takes.suffix
  exact ⟨k, hk, shallow_joinRight hshallow hb ht hfits.1 (hright.wellFormed trivial) (by omega)
    hright.stops⟩

/-- A sign without a word that has words behind it has begun anew. -/
theorem restarts_lt_of_none (ht : t.kind.isSign = true) (harg : readArgument false ids ts = .ok arg)
    (hrest : Reads 50 .start arg.ids arg.rest rest) (hnone : arg.value = none)
    (hrun : rest.value.isRun = true) : restarts rest.rest < restarts (t :: ts) := by
  have hne : arg.rest ≠ [] := by
    intro hnil
    rw [hnil] at hrest
    cases hrest
    cases hrun
  have hone := restarts_argument harg hnone hne ht
  exact Nat.lt_of_le_of_lt (Token.restarts_le_of_suffix hrest.takes.suffix) hone

theorem exists_shallow_sign (hfits : Stage.Fits (t :: ts) (.after left))
    (hshallow : Shallow min n (t :: ts) left) (ht : t.kind.isSign = true)
    (harg : readArgument false ids ts = .ok arg) (hrest : Reads 50 .start arg.ids arg.rest rest) :
    ∃ k, restarts (t :: ts) = k + restarts rest.rest ∧
      Shallow min (n + k) rest.rest (applySign t.kind arg.value (left.extend rest.value)) := by
  obtain ⟨k, hk⟩ := exists_restarts_eq
    (Takes.sign ht ((readArgument_takes harg).trans hrest.takes)).suffix
  refine ⟨k, hk, shallow_applySign harg hfits.1 (hrest.wellFormed trivial) (hshallow.of_sign ht)
    hrest.flat (Nat.le_add_right n k) fun hnone hrun => ?_⟩
  have hlt := restarts_lt_of_none ht harg hrest hnone hrun
  omega

end

theorem levels_pos (min : Nat) : 1 ≤ levels min := by
  unfold levels
  split_ifs <;> decide

theorem Reads.depth_le {min : Nat} {stage : Stage} {f : Front Expr} (h : Reads min stage ids ts f)
    (hfits : stage.Fits ts) (hshallow : stage.Shallow min n ts) :
    f.value.depth + restarts f.rest ≤ n + restarts ts + levels min := by
  induction h generalizing n with
  | @none min _ =>
    have hpos := levels_pos min
    show Expr.noop.depth + 0 ≤ n + 0 + levels min
    rw [Expr.depth_noop]
    omega
  | @first _ _ t ts f ht _ ih =>
    have hend := ih (n := n) ⟨.term _, .inl rfl⟩ (.signs (by rw [Expr.term, Expr.depth_run]; omega))
    have hle := Token.restarts_le_cons t ts
    omega
  | signs ht hargs hrest _ _ ih =>
    have hend := ih (n := n) (fits_signs hargs hrest) (shallow_conjoin hargs hrest)
    have hle := Token.restarts_le_of_suffix (Takes.sign ht (hargs.takes.trans hrest.takes)).suffix
    omega
  | @dangling _ _ t ts f ht _ ih =>
    have hend := ih (n := n) ⟨.noop, .inr (.inl rfl)⟩ (.signs (by rw [Expr.depth_noop]; omega))
    have hle := Token.restarts_le_cons t ts
    omega
  | @stop min left ids ts _ =>
    have hdepth := Parser.Shallow.depth_le hshallow
    show left.depth + restarts ts ≤ n + restarts ts + levels min
    omega
  | @word _ left ids t ts f _ ht _ ih =>
    have hrun := appendTerm_isRun (hfits.opens ht) (ids.issue t.text).1
    have hend := ih (n := n) (hfits.word ht _) (.signs (by rw [depth_of_isRun hrun]; omega))
    have hle := Token.restarts_le_cons t ts
    omega
  | @join min left ids t ts op right f hb ht hright _ ihright ih =>
    have hdepth := ihright (n := 0) trivial trivial
    rw [Nat.zero_add] at hdepth
    obtain ⟨k, hk, hnext⟩ := exists_shallow_join hfits hshallow hb ht hright hdepth
    have hend := ih (hfits.join ht hright) hnext
    have hle := Token.restarts_le_cons t ts
    omega
  | sign _ ht harg hrest _ _ ih =>
    obtain ⟨k, hk, hnext⟩ := exists_shallow_sign hfits hshallow ht harg hrest
    have hend := ih (hfits.sign harg hrest) hnext
    omega

theorem Resumes.depth_le {e : Expr} {f : Front Expr} (h : Resumes e ids ts f) (he : e.WellFormed)
    (hdepth : e.depth ≤ n + 7) : f.value.depth + restarts f.rest ≤ n + restarts ts + 7 := by
  induction h generalizing n with
  | @stop e ids ts _ =>
    have hwrap := e.depth_wrap_le
    show e.wrap.depth + restarts ts ≤ n + restarts ts + 7
    omega
  | @skip e _ t ts next _ ht hnext _ ih =>
    have hwell := hnext.wellFormed trivial
    have hnextDepth : next.value.depth + restarts next.rest ≤ 0 + restarts ts + 7 :=
      hnext.depth_le trivial trivial
    have hextend := Expr.depth_extend_le he hwell
    obtain ⟨k, hk⟩ := exists_restarts_eq hnext.takes.suffix
    have hend := ih (n := n + k + 1) (he.extend hwell) (by omega)
    rw [Token.restarts_rightParen ht]
    omega

theorem Parses.depth_le {f : Front Expr} (h : Parses ids ts f) : f.value.depth ≤ restarts ts + 7 := by
  obtain ⟨first, hfirst, hrest, -⟩ := h
  have hopening : first.value.depth + restarts first.rest ≤ 0 + restarts ts + 7 :=
    hfirst.depth_le trivial trivial
  obtain ⟨k, hk⟩ := exists_restarts_eq hfirst.takes.suffix
  have hend := hrest.depth_le (n := k) (hfirst.wellFormed trivial) (by omega)
  omega

/-- Words with a stray `)` between each two. -/
def strayed (paren word : Token) : Nat → List Token
  | 0 => [word]
  | n + 1 => word :: paren :: strayed paren word n

variable {paren word : Token}

theorem kind_of_mem_strayed (hparen : paren.kind = .rightParen) (hword : word.kind = .word) {t : Token}
    (ht : t ∈ strayed paren word n) : t.kind = .word ∨ t.kind = .rightParen := by
  induction n with
  | zero =>
    rw [List.mem_singleton.1 ht]
    exact .inl hword
  | succ n ih =>
    rcases List.mem_cons.1 ht with rfl | ht
    · exact .inl hword
    · rcases List.mem_cons.1 ht with rfl | ht
      · exact .inr hparen
      · exact ih ht

theorem restarts_strayed (hparen : paren.kind = .rightParen) (hword : word.kind = .word) (n : Nat) :
    restarts (strayed paren word n) = n := by
  have hplain (ts : List Token) : restarts (word :: ts) = restarts ts :=
    if_neg (by simp [hword, Token.Kind.isSign])
  induction n with
  | zero => exact hplain []
  | succ n ih => rw [strayed, hplain, Token.restarts_rightParen hparen, ih]

/-- A word is read up to the stray `)` behind it. -/
theorem reads_word_strayed (hparen : paren.kind = .rightParen) (hword : word.kind = .word) (n : Nat)
    (ids : TermIds) : ∃ ws rest, Reads 0 .start ids (strayed paren word n) ⟨.run ws, ids.skip 1, rest⟩ ∧
      (n = 0 ∧ rest = [] ∨ ∃ m, n = m + 1 ∧ rest = paren :: strayed paren word m) := by
  have hone : Operand 0 ids [word] (.run _) (ids.skip 1) :=
    operand_run (List.cons_ne_nil word []) (by simpa using hword) (by decide) ids
  cases n with
  | zero => exact ⟨_, [], hone [] nofun, .inl ⟨rfl, rfl⟩⟩
  | succ m =>
    have hstops : ∀ t ∈ (paren :: strayed paren word m).head?, t.kind.bindingPower ≤ 0 := by
      simp [hparen, Token.Kind.bindingPower]
    exact ⟨_, _, hone _ hstops, .inr ⟨m, rfl, rfl⟩⟩

/-- Each stray `)` puts one more boost around what leads it. -/
theorem exists_resumes_strayed (hparen : paren.kind = .rightParen) (hword : word.kind = .word) (n : Nat)
    {e : Expr} (he : Expr.Leads e) (ids : TermIds) : ∃ e' ids',
      Resumes e ids (paren :: strayed paren word n) ⟨e', ids', []⟩ ∧ e.depth + n < e'.depth := by
  induction n generalizing e ids with
  | zero =>
    obtain ⟨ws, rest, hnext, ⟨-, rfl⟩ | ⟨m, hm, -⟩⟩ := reads_word_strayed hparen hword 0 ids
    · have hboost := Expr.extend_run he ws
      refine ⟨_, _, .skip hparen hnext (.stop nofun), ?_⟩
      rw [hboost]
      show e.depth + 0 < (Expr.node .boost [e, .run ws]).depth
      rw [Expr.depth_boost]
      omega
    · cases hm
  | succ n ih =>
    obtain ⟨ws, rest, hnext, ⟨hm, -⟩ | ⟨m, hm, rfl⟩⟩ := reads_word_strayed hparen hword (n + 1) ids
    · cases hm
    · cases hm
      have hboost := Expr.extend_run he ws
      have hlead : Expr.Leads (.node .boost [e, .run ws]) := .inr (.inr rfl)
      obtain ⟨e', ids', hrest, hdepth⟩ := ih hlead (ids.skip 1)
      rw [Expr.depth_boost] at hdepth
      rw [← hboost] at hrest
      exact ⟨e', ids', .skip hparen hnext hrest, by omega⟩

theorem exists_parses_strayed (hparen : paren.kind = .rightParen) (hword : word.kind = .word) (n : Nat)
    (ids : TermIds) : ∃ e, (parse ids (strayed paren word n)).result = .ok e ∧ n < e.depth := by
  have hending : dropEnding (strayed paren word n) = strayed paren word n := by
    refine dropEnding_of_unmarked fun t ht => ?_
    rcases kind_of_mem_strayed hparen hword ht with h | h <;> rw [h] <;> decide
  obtain ⟨ws, rest, hfirst, ⟨rfl, rfl⟩ | ⟨m, rfl, rfl⟩⟩ := reads_word_strayed hparen hword n ids
  · exact ⟨_, parse_of_reads hending hfirst, Expr.depth_pos _⟩
  · obtain ⟨e, ids', hrest, hdepth⟩ :=
      exists_resumes_strayed hparen hword m (.inl rfl : Expr.Leads (.run ws)) (ids.skip 1)
    have hparses : Parses ids (dropEnding (strayed paren word (m + 1))) ⟨e, ids', []⟩ := by
      rw [hending]
      exact ⟨_, hfirst, hrest, nofun⟩
    rw [Expr.depth_run] at hdepth
    exact ⟨e, hparses.run_eq.1, by omega⟩

/-- Restarts are all that makes a query deep: without one it has seven levels at most, every one adds a level
at most, and a stray `)` between words does add one. -/
theorem depth_parse (ids : TermIds) :
    (∀ ts e, (parse ids ts).result = .ok e → e.depth ≤ restarts ts + 7) ∧
    ∀ n, ∃ ts e, restarts ts = n ∧ (∀ t ∈ ts, t.kind = .word ∨ t.kind = .rightParen) ∧
      (parse ids ts).result = .ok e ∧ n < e.depth := by
  constructor
  · intro ts e h
    obtain ⟨rest, hparses⟩ := parses_of_ok h
    obtain ⟨ending, hending⟩ := dropEnding_prefix ts
    have hle := Token.restarts_append_le (dropEnding ts) ending
    rw [hending] at hle
    exact Nat.le_trans hparses.depth_le (Nat.add_le_add_right hle 7)
  · intro n
    obtain ⟨e, he, hdepth⟩ := exists_parses_strayed
      (rfl : Token.kind ⟨.rightParen, ")", 0, 1⟩ = .rightParen) (rfl : Token.kind ⟨.word, "w", 0, 1⟩ = .word)
      n ids
    exact ⟨_, e, restarts_strayed rfl rfl n, fun t ht => kind_of_mem_strayed rfl rfl ht, he, hdepth⟩

/-- All seven levels are there in `a + b - c d OR e AND f`, which has no restart. -/
theorem depth_parse_seven :
    ∃ ts e, restarts ts = 0 ∧ (parse ⟨0⟩ ts).result = .ok e ∧ e.depth = 7 ∧ e.depth ≤ restarts ts + 7 := by
  let ts : List Token := [⟨.word, "a", 0, 1⟩, ⟨.prefixAnd, "+", 2, 1⟩, ⟨.word, "b", 4, 1⟩,
    ⟨.prefixAndNot, "-", 6, 1⟩, ⟨.word, "c", 8, 1⟩, ⟨.word, "d", 10, 1⟩, ⟨.infixOr, "OR", 12, 2⟩,
    ⟨.word, "e", 15, 1⟩, ⟨.infixAnd, "AND", 19, 3⟩, ⟨.word, "f", 23, 1⟩]
  let behind : Expr := .node .and [.node .not [.run [⟨2, "c", none⟩]], .node .boost [.run [⟨3, "d", none⟩]]]
  let signed : Expr := .node .and [.run [⟨1, "b", none⟩], .node .or [.run [⟨0, "a", none⟩], behind]]
  let e : Expr := .node .and [.node .or [signed, .run [⟨4, "e", none⟩]], .run [⟨5, "f", none⟩]]
  have he : (parse ⟨0⟩ ts).result = .ok e := by decide +kernel
  exact ⟨ts, e, by decide, he, by decide +kernel, (depth_parse ⟨0⟩).1 ts e he⟩

end Parser
end SearchQuery

import Mathlib.Data.List.Nodup
import Mathlib.Tactic.SplitIfs
import SearchQuery.Term
import SearchQuery.Token

/-! The words of a query as the tokens have them, before any parsing: cut into stretches, with the
sign of each word and the number it is due. A plain stretch is a longest row of words without a
sign in front of it. A word with signs directly in front of it stands alone, and the words behind
it begin a plain stretch. -/

namespace SearchQuery

namespace TermIds

/-- The source when `n` more numbers have been given out. -/
def skip (ids : TermIds) (n : Nat) : TermIds := ⟨ids.issued + UInt32.ofNat n⟩

@[simp] theorem skip_zero (ids : TermIds) : ids.skip 0 = ids := by
  simp [skip]

@[simp] theorem skip_skip (ids : TermIds) (m n : Nat) : (ids.skip m).skip n = ids.skip (m + n) := by
  simp [skip, UInt32.ofNat_add, UInt32.add_assoc]

theorem toNat_skip {ids : TermIds} {n : Nat} (h : ids.issued.toNat + n < UInt32.size) :
    (ids.skip n).issued.toNat = ids.issued.toNat + n := by
  have hlt : ids.issued.toNat + n < 4294967296 := h
  simp only [skip, UInt32.toNat_add, UInt32.toNat_ofNat']
  omega

theorem skip_succ_ne (ids : TermIds) (n : Nat) : ids.skip (n + 1) ≠ ids.skip n := by
  rw [← skip_skip]
  simp [skip]

theorem issue_snd (ids : TermIds) (v : String) : (ids.issue v).2 = ids.skip 1 := rfl

theorem issueAll_snd (ids : TermIds) (vs : List String) :
    (ids.issueAll vs).2 = ids.skip vs.length := by
  induction vs generalizing ids with
  | nil => simp [issueAll]
  | cons v vs ih => simp [issueAll, ih, issue_snd, Nat.add_comm]

theorem issueAll_append (ids : TermIds) (vs us : List String) :
    (ids.issueAll (vs ++ us)).1 =
      (ids.issueAll vs).1 ++ ((ids.skip vs.length).issueAll us).1 := by
  induction vs generalizing ids with
  | nil => simp [issueAll]
  | cons v vs ih => simp [issueAll, ih, issue_snd, Nat.add_comm]

theorem issueAll_fst (ids : TermIds) (vs : List String) :
    (ids.issueAll vs).1 = vs.mapIdx fun i v => ⟨(ids.skip i).issued, v, none⟩ := by
  induction vs generalizing ids with
  | nil => rfl
  | cons v vs ih =>
    simp [issueAll, ih, issue_snd, List.mapIdx_cons, Nat.add_comm]
    simp [issue]

/-- As long as the numbers last, the values are numbered in order. -/
theorem issueAll_numbers {ids : TermIds} {vs : List String}
    (h : ids.issued.toNat + vs.length < UInt32.size) :
    (ids.issueAll vs).1.map (fun w => (w.id.toNat, w.value, w.field)) =
      vs.mapIdx fun i v => (ids.issued.toNat + i, v, none) := by
  rw [issueAll_fst]
  apply List.ext_getElem (by simp)
  intro i hi _
  have hlt : i < vs.length := by simpa using hi
  have hskip : (ids.skip i).issued.toNat = ids.issued.toNat + i := toNat_skip (by omega)
  simp [hskip]

theorem issueAll_ids {ids : TermIds} {vs : List String}
    (h : ids.issued.toNat + vs.length < UInt32.size) :
    (ids.issueAll vs).1.map (fun w => w.id.toNat) = List.range' ids.issued.toNat vs.length := by
  have hnumbers := congrArg (List.map Prod.fst) (issueAll_numbers h)
  rw [List.map_map] at hnumbers
  refine hnumbers.trans (List.ext_getElem (by simp) fun i _ _ => ?_)
  simp

theorem issueAll_nodup {ids : TermIds} {vs : List String}
    (h : ids.issued.toNat + vs.length < UInt32.size) : (ids.issueAll vs).1.Nodup := by
  apply List.Nodup.of_map fun w => w.id.toNat
  rw [issueAll_ids h]
  exact List.nodup_range'

end TermIds

namespace Token

/-- The texts of the words, first to last. -/
def words (ts : List Token) : List String := (ts.filter (·.kind == .word)).map Token.text

theorem words_append (ts us : List Token) : words (ts ++ us) = words ts ++ words us := by
  simp [words]

end Token

inductive Stretch where
  | plain (words : List Term)
  /-- The word is excluded, or else required. -/
  | signed (excluded : Bool) (word : Term)
  deriving DecidableEq, Repr

namespace Stretch

def terms : Stretch → List Term
  | plain ws => ws
  | signed _ w => [w]

def isSigned : Stretch → Bool
  | plain _ => false
  | signed _ _ => true

/-- The plain stretch that ends here, if one was under way. -/
def ended (ws : List Term) : List Stretch := if ws.isEmpty then [] else [plain ws]

/-- Whether a row of signs excludes the word behind it: every minus sign turns it round. -/
def excludes (signs : List Token.Kind) : Bool := signs.count .prefixAndNot % 2 == 1

/-- The stretches of tokens that stand directly behind the signs `signs` or the words `ws` of a plain
stretch. -/
def cutFrom (signs : List Token.Kind) (ws : List Term) (ids : TermIds) : List Token → List Stretch
  | [] => ended ws
  | t :: ts =>
    match t.kind with
    | .word =>
      let (w, ids) := ids.issue t.text
      match signs with
      | [] => cutFrom [] (ws ++ [w]) ids ts
      | _ :: _ => ended ws ++ signed (excludes signs) w :: cutFrom [] [] ids ts
    | .prefixAnd | .prefixAndNot => ended ws ++ cutFrom (t.kind :: signs) [] ids ts
    | _ => ended ws ++ cutFrom [] [] ids ts

/-- The stretches of a query whose first word is due the next number. -/
def cut (ids : TermIds) (ts : List Token) : List Stretch := cutFrom [] [] ids ts

@[simp] theorem ended_nil : ended [] = [] := rfl

theorem excludes_prefixAnd (signs : List Token.Kind) :
    excludes (.prefixAnd :: signs) = excludes signs := by
  simp [excludes]

theorem excludes_prefixAndNot (signs : List Token.Kind) :
    excludes (.prefixAndNot :: signs) = !excludes signs := by
  simp only [excludes, List.count_cons_self]
  rcases Nat.mod_two_eq_zero_or_one (signs.count .prefixAndNot) with h | h <;>
    simp [h, Nat.add_mod]

theorem excludes_singleton (k : Token.Kind) : excludes [k] = (k == .prefixAndNot) := by
  cases k <;> rfl

theorem ended_of_ne_nil {ws : List Term} (h : ws ≠ []) : ended ws = [plain ws] := by
  simp [ended, h]

theorem flatMap_ended (ws : List Term) : (ended ws).flatMap terms = ws := by
  cases ws <;> simp [ended, terms]

/-- What is behind a token that is no word has nothing to do with the words before it. -/
theorem cutFrom_nil (ws : List Term) (ids : TermIds) (ts : List Token)
    (h : ∀ t ∈ ts.head?, t.kind ≠ .word) : cutFrom [] ws ids ts = ended ws ++ cut ids ts := by
  cases ts with
  | nil => simp [cutFrom, cut]
  | cons t ts =>
    obtain ⟨kind, text, offset, length⟩ := t
    cases kind with
    | word => simp at h
    | _ => simp [cutFrom, cut]

theorem cutFrom_word (ws : List Term) (ids : TermIds) {t : Token} (ht : t.kind = .word)
    (ts : List Token) : cutFrom [] ws ids (t :: ts) =
      cutFrom [] (ws ++ [(ids.issue t.text).1]) (ids.issue t.text).2 ts := by
  simp [cutFrom, ht]

theorem cutFrom_sign (signs : List Token.Kind) (ws : List Term) (ids : TermIds) {t : Token}
    (ht : t.kind.isSign = true) (ts : List Token) :
    cutFrom signs ws ids (t :: ts) = ended ws ++ cutFrom (t.kind :: signs) [] ids ts := by
  obtain ⟨kind, text, offset, length⟩ := t
  cases kind <;> first | rfl | cases ht

theorem cut_word (ids : TermIds) {t : Token} (ht : t.kind = .word) (ts : List Token) :
    cut ids (t :: ts) = cutFrom [] [(ids.issue t.text).1] (ids.issue t.text).2 ts :=
  cutFrom_word [] ids ht ts

theorem cut_sign (ids : TermIds) {t : Token} (ht : t.kind.isSign = true) (ts : List Token) :
    cut ids (t :: ts) = cutFrom [t.kind] [] ids ts :=
  cutFrom_sign [] [] ids ht ts

/-- A token that is neither a word nor a sign leaves no trace but a cut. -/
theorem cut_other (ids : TermIds) {t : Token} (hw : t.kind ≠ .word) (hs : t.kind.isSign = false)
    (ts : List Token) : cut ids (t :: ts) = cut ids ts := by
  obtain ⟨kind, text, offset, length⟩ := t
  cases kind with
  | word => exact absurd rfl hw
  | prefixAnd | prefixAndNot => cases hs
  | _ => simp [cut, cutFrom]

/-- A mark of the end adds nothing at the end of the tokens. -/
theorem cutFrom_append_eof (signs : List Token.Kind) (ws : List Term) (ids : TermIds) (ts : List Token)
    {t : Token} (ht : t.kind = .eof) : cutFrom signs ws ids (ts ++ [t]) = cutFrom signs ws ids ts := by
  induction ts generalizing signs ws ids with
  | nil => simp [cutFrom, ht]
  | cons u us ih =>
    cases hk : u.kind <;> cases signs <;> simp [cutFrom, hk, ih]

/-- The stretches hold each word once, in order, with the numbers given out in turn. -/
theorem terms_cutFrom (signs : List Token.Kind) (ws : List Term) (ids : TermIds)
    (ts : List Token) : (cutFrom signs ws ids ts).flatMap terms = ws ++ (ids.issueAll (Token.words ts)).1 := by
  induction ts generalizing signs ws ids with
  | nil => simp [cutFrom, flatMap_ended, Token.words, TermIds.issueAll]
  | cons t ts ih =>
    obtain ⟨kind, text, offset, length⟩ := t
    cases kind with
    | word =>
      cases signs <;>
        simp [cutFrom, ih, flatMap_ended, Token.words, TermIds.issueAll, terms]
    | _ => simp [cutFrom, ih, flatMap_ended, Token.words]

theorem terms_ne_nil {signs : List Token.Kind} {ws : List Term} {ids : TermIds} {ts : List Token}
    {s : Stretch} (h : s ∈ cutFrom signs ws ids ts) : s.terms ≠ [] := by
  have hended (ws : List Term) (hs : s ∈ ended ws) : s.terms ≠ [] := by
    unfold ended at hs
    split_ifs at hs with hws
    · cases hs
    · rw [List.mem_singleton.1 hs]
      exact fun h => hws (List.isEmpty_iff.2 h)
  induction ts generalizing signs ws ids with
  | nil => exact hended ws h
  | cons t ts ih =>
    obtain ⟨kind, text, offset, length⟩ := t
    cases kind with
    | word =>
      cases signs with
      | nil => exact ih h
      | cons k ks =>
        rcases List.mem_append.1 h with h | h
        · exact hended ws h
        · rcases List.mem_cons.1 h with rfl | h
          · simp [terms]
          · exact ih h
    | _ =>
      rcases List.mem_append.1 h with h | h
      · exact hended ws h
      · exact ih h

theorem terms_cut (ids : TermIds) (ts : List Token) :
    (cut ids ts).flatMap terms = (ids.issueAll (Token.words ts)).1 := by
  rw [cut, terms_cutFrom, List.nil_append]

end Stretch
end SearchQuery

import SearchQuery.Proofs.Parser.Front
import SearchQuery.Proofs.Token.Stretch

/-! Every successful run of the parser has a derivation: `Reads` has one rule for each thing the
parser can do with the next token, so that a law of the parser is proved by one case for each rule.
Two such laws stand here: a run stops only where nothing binds tightly enough, and it takes tokens
from the front, no `(` among them, and a number for each word. -/

namespace SearchQuery

namespace Token.Kind

/-- Tokens that cannot begin an expression and are let pass. -/
def dangles : Kind → Bool
  | rightParen | infixAnd | infixOr | eof => true
  | _ => false

/-- What an infix operator joins its operands with. -/
def joins? : Kind → Option Operator
  | infixAnd => some .and
  | infixOr => some .or
  | _ => none

variable {k : Kind}

theorem dangles_of_joins {op : Operator} (h : k.joins? = some op) : k.dangles = true := by
  cases k <;> first | rfl | cases h

theorem ne_word_of_isSign (h : k.isSign = true) : k ≠ .word := by
  rintro rfl
  cases h

theorem ne_word_of_dangles (h : k.dangles = true) : k ≠ .word := by
  rintro rfl
  cases h

theorem isSign_of_dangles (h : k.dangles = true) : k.isSign = false := by
  cases k <;> first | rfl | cases h

theorem bindingPower_of_isSign (h : k.isSign = true) : k.bindingPower = 50 := by
  cases k <;> first | rfl | cases h

theorem bindingPower_lt_of_dangles (h : k.dangles = true) : k.bindingPower < 80 := by
  cases k <;> first | decide | cases h

theorem eq_word_of_bindingPower (h : 50 < k.bindingPower) : k = .word := by
  cases k <;> simp [bindingPower] at h ⊢

end Token.Kind

namespace Parser

theorem bind_ok {ε α β : Type} {x : Except ε α} {k : α → Except ε β} {b : β}
    (h : (x >>= k) = .ok b) : ∃ a, x = .ok a ∧ k a = .ok b := by
  cases x with
  | error e => cases h
  | ok a => exact ⟨a, rfl, h⟩

/-- Two runs that both succeed, with results that `R` relates, or both fail in the way of `E`. -/
inductive Together {ε ε' α α' : Type} (E : ε → ε' → Prop) (R : α → α' → Prop) :
    Except ε α → Except ε' α' → Prop
  | failed {e : ε} {e' : ε'} (h : E e e') : Together E R (.error e) (.error e')
  | done {a : α} {a' : α'} (h : R a a') : Together E R (.ok a) (.ok a')

namespace Together

variable {ε ε' α α' β β' : Type} {E : ε → ε' → Prop} {R : α → α' → Prop} {S : β → β' → Prop}
variable {x : Except ε α} {y : Except ε' α'}

theorem bind {k : α → Except ε β} {l : α' → Except ε' β'} (h : Together E R x y)
    (hk : ∀ a a', x = .ok a → y = .ok a' → R a a' → Together E S (k a) (l a')) :
    Together E S (x >>= k) (y >>= l) := by
  cases h with
  | failed h => exact .failed h
  | done h => exact hk _ _ rfl rfl h

theorem map {f : α → β} {g : α' → β'} (h : Together E R x y) (hf : ∀ a a', R a a' → S (f a) (g a')) :
    Together E S (x.map f) (y.map g) := by
  cases h with
  | failed h => exact .failed h
  | done h => exact .done (hf _ _ h)

theorem dichotomy (h : Together E R x y) : (∃ e e', x = .error e ∧ y = .error e' ∧ E e e') ∨
    ∃ a a', x = .ok a ∧ y = .ok a' ∧ R a a' := by
  cases h with
  | failed h => exact .inl ⟨_, _, rfl, rfl, h⟩
  | done h => exact .inr ⟨_, _, rfl, rfl, h⟩

end Together

/-- Where the parser is in an expression. -/
inductive Stage where
  | start
  /-- This much has been read. -/
  | after (left : Expr)

inductive ReadsArguments : Token.Kind → TermIds → List Token → Front (List Expr) → Prop
  | last {kind ids ts arg} (harg : readArgument false ids ts = .ok arg)
      (hend : ∀ t ∈ arg.rest.head?, t.kind.isSign = false) :
      ReadsArguments kind ids ts ⟨signedArgument kind arg.value, arg.ids, arg.rest⟩
  | more {kind ids ts arg t us args} (harg : readArgument false ids ts = .ok arg)
      (hrest : arg.rest = t :: us) (ht : t.kind.isSign = true)
      (hmore : ReadsArguments t.kind arg.ids us args) :
      ReadsArguments kind ids ts (args.after (signedArgument kind arg.value))

inductive Reads : Nat → Stage → TermIds → List Token → Front Expr → Prop
  | none {min ids} : Reads min .start ids [] ⟨.noop, ids, []⟩
  | first {min ids t ts f} (ht : t.kind = .word)
      (h : Reads min (.after (.term (ids.issue t.text).1)) (ids.issue t.text).2 ts f) :
      Reads min .start ids (t :: ts) f
  | signs {min ids t ts args rest f} (ht : t.kind.isSign = true)
      (hargs : ReadsArguments t.kind ids ts args)
      (hrest : Reads 50 .start args.ids args.rest rest)
      (h : Reads min (.after (conjoin args.value rest.value)) rest.ids rest.rest f) :
      Reads min .start ids (t :: ts) f
  | dangling {min ids t ts f} (ht : t.kind.dangles = true)
      (h : Reads min (.after .noop) ids ts f) : Reads min .start ids (t :: ts) f
  | stop {min left ids ts} (hend : ∀ t ∈ ts.head?, t.kind.bindingPower ≤ min) :
      Reads min (.after left) ids ts ⟨left, ids, ts⟩
  | word {min left ids t ts f} (hb : min < t.kind.bindingPower) (ht : t.kind = .word)
      (h : Reads min (.after (left.appendTerm (ids.issue t.text).1)) (ids.issue t.text).2 ts f) :
      Reads min (.after left) ids (t :: ts) f
  | join {min left ids t ts op right f} (hb : min < t.kind.bindingPower)
      (ht : t.kind.joins? = some op)
      (hright : Reads t.kind.bindingPower .start ids ts right)
      (h : Reads min (.after (joinRight (Expr.combine op) left right.value)) right.ids right.rest f) :
      Reads min (.after left) ids (t :: ts) f
  | sign {min left ids t ts arg rest f} (hb : min < t.kind.bindingPower)
      (ht : t.kind.isSign = true)
      (harg : readArgument false ids ts = .ok arg)
      (hrest : Reads 50 .start arg.ids arg.rest rest)
      (h : Reads min (.after (applySign t.kind arg.value (left.extend rest.value))) rest.ids
        rest.rest f) :
      Reads min (.after left) ids (t :: ts) f

/-- From some tokens and numbers to the ones left: tokens go from the front, no `(` among them, and
every word among them has taken the next number. -/
def Takes (ids : TermIds) (ts : List Token) (ids' : TermIds) (rest : List Token) : Prop :=
  ∃ taken, ts = taken ++ rest ∧ ids' = ids.skip (Token.words taken).length ∧
    ∀ t ∈ taken, t.kind ≠ .leftParen

namespace Takes

variable {ids ids' ids'' : TermIds} {t : Token} {ts us vs : List Token}

theorem refl (ids : TermIds) (ts : List Token) : Takes ids ts ids ts :=
  ⟨[], by simp [Token.words]⟩

theorem trans (h : Takes ids ts ids' us) (h' : Takes ids' us ids'' vs) : Takes ids ts ids'' vs := by
  obtain ⟨a, rfl, rfl, ha⟩ := h
  obtain ⟨b, rfl, rfl, hb⟩ := h'
  refine ⟨a ++ b, by simp, by simp [Token.words_append], fun t ht => ?_⟩
  rcases List.mem_append.1 ht with ht | ht
  · exact ha t ht
  · exact hb t ht

theorem word (ht : t.kind = .word) (h : Takes (ids.issue t.text).2 ts ids' us) :
    Takes ids (t :: ts) ids' us :=
  trans ⟨[t], rfl, by simp [Token.words, ht, TermIds.issue_snd], by simp [ht]⟩ h

theorem other (hw : t.kind ≠ .word) (hp : t.kind ≠ .leftParen) (h : Takes ids ts ids' us) :
    Takes ids (t :: ts) ids' us :=
  trans ⟨[t], rfl, by simp [Token.words, hw], by simp [hp]⟩ h

theorem sign (ht : t.kind.isSign = true) (h : Takes ids ts ids' us) : Takes ids (t :: ts) ids' us :=
  other (Token.Kind.ne_word_of_isSign ht) (by rintro hk; simp [hk, Token.Kind.isSign] at ht) h

theorem dangling (ht : t.kind.dangles = true) (h : Takes ids ts ids' us) :
    Takes ids (t :: ts) ids' us :=
  other (Token.Kind.ne_word_of_dangles ht) (by rintro hk; simp [hk, Token.Kind.dangles] at ht) h

theorem suffix (h : Takes ids ts ids' us) : us <:+ ts := by
  obtain ⟨taken, rfl, -⟩ := h
  exact List.suffix_append _ _

theorem length_le (h : Takes ids ts ids' us) : us.length ≤ ts.length := h.suffix.length_le

end Takes

theorem readArgument_takes {negated : Bool} {ids : TermIds} {ts : List Token}
    {f : Front (Option Expr)} (h : readArgument negated ids ts = .ok f) :
    Takes ids ts f.ids f.rest := by
  induction ts generalizing negated with
  | nil =>
    cases h
    exact Takes.refl _ _
  | cons t ts ih =>
    rw [readArgument_cons] at h
    cases ht : t.kind with
    | word =>
      simp only [ht] at h
      cases h
      exact Takes.word ht (Takes.refl _ _)
    | prefixAnd | prefixAndNot => exact Takes.sign (by rw [ht]; rfl) (ih (by simpa only [ht] using h))
    | leftParen => simp [ht] at h
    | _ =>
      simp only [ht] at h
      cases h
      exact Takes.dangling (by rw [ht]; rfl) (Takes.refl _ _)

theorem ReadsArguments.takes {kind : Token.Kind} {ids : TermIds} {ts : List Token}
    {f : Front (List Expr)} (h : ReadsArguments kind ids ts f) : Takes ids ts f.ids f.rest := by
  induction h with
  | last harg _ => exact readArgument_takes harg
  | more harg hrest ht _ ih =>
    have hnext := readArgument_takes harg
    rw [hrest] at hnext
    exact hnext.trans (Takes.sign ht ih)

/-- Signs in a row are read to the last of them. -/
theorem ReadsArguments.ends {kind : Token.Kind} {ids : TermIds} {ts : List Token}
    {f : Front (List Expr)} (h : ReadsArguments kind ids ts f) :
    ∀ t ∈ f.rest.head?, t.kind.isSign = false := by
  induction h with
  | last _ hend => exact hend
  | more _ _ _ _ ih => exact ih

theorem Reads.takes {min : Nat} {stage : Stage} {ids : TermIds} {ts : List Token}
    {f : Front Expr} (h : Reads min stage ids ts f) : Takes ids ts f.ids f.rest := by
  induction h with
  | none => exact Takes.refl _ _
  | first ht _ ih => exact Takes.word ht ih
  | signs ht hargs _ _ ihrest ih => exact Takes.sign ht (hargs.takes.trans (ihrest.trans ih))
  | dangling ht _ ih => exact Takes.dangling ht ih
  | stop _ => exact Takes.refl _ _
  | word _ ht _ ih => exact Takes.word ht ih
  | join _ ht _ _ ihright ih =>
    exact Takes.dangling (Token.Kind.dangles_of_joins ht) (ihright.trans ih)
  | sign _ ht harg _ _ ihrest ih =>
    exact Takes.sign ht ((readArgument_takes harg).trans (ihrest.trans ih))

/-- A run stops only where the next token does not bind tighter than `min`. -/
theorem Reads.stops {min : Nat} {stage : Stage} {ids : TermIds} {ts : List Token}
    {f : Front Expr} (h : Reads min stage ids ts f) :
    ∀ t ∈ f.rest.head?, t.kind.bindingPower ≤ min := by
  induction h with
  | none => simp
  | stop hend => exact hend
  | _ => assumption

theorem readsArguments_of_ok {kind : Token.Kind} {ids : TermIds} {ts : List Token}
    {f : Front (List Expr)} (h : readArguments kind ids ts = .ok f) :
    ReadsArguments kind ids ts f := by
  rw [readArguments_eq] at h
  obtain ⟨⟨value, ids', rest⟩, harg, h⟩ := bind_ok h
  cases rest with
  | nil =>
    cases h
    exact .last harg (by simp)
  | cons t us =>
    by_cases ht : t.kind.isSign
    · simp only [ht, if_true] at h
      have hlt : us.length < ts.length := (readArgument_takes harg).length_le
      cases hmore : readArguments t.kind ids' us with
      | error r => simp [hmore, Except.map] at h
      | ok args =>
        simp only [hmore, Except.map] at h
        cases h
        exact .more harg rfl ht (readsArguments_of_ok hmore)
    · simp only [ht] at h
      cases h
      exact .last harg (by simpa using ht)
termination_by ts.length

mutual

theorem reads_of_readExpr {min : Nat} {ids : TermIds} {ts : List Token} {f : Front Expr}
    (h : readExpr min ids ts = .ok f) : Reads min .start ids ts f := by
  match ts with
  | [] =>
    rw [readExpr_nil] at h
    cases h
    exact .none
  | t :: ts =>
    rw [readExpr_cons] at h
    cases ht : t.kind with
    | word =>
      simp only [ht] at h
      exact .first ht (reads_of_readOn h)
    | prefixAnd | prefixAndNot =>
      simp only [ht] at h
      obtain ⟨args, hargs, h⟩ := bind_ok h
      obtain ⟨rest, hrest, h⟩ := bind_ok h
      have hargs := readsArguments_of_ok hargs
      have hle := hargs.takes.length_le
      have hrest := reads_of_readExpr hrest
      have hle' := hrest.takes.length_le
      exact .signs (by rw [ht]; rfl) (by rwa [ht]) hrest (reads_of_readOn h)
    | leftParen => simp [ht] at h
    | rightParen | infixAnd | infixOr | eof =>
      simp only [ht] at h
      exact .dangling (by rw [ht]; rfl) (reads_of_readOn h)
termination_by ts.length

theorem reads_of_readOn {min : Nat} {left : Expr} {ids : TermIds} {ts : List Token} {f : Front Expr}
    (h : readOn min left ids ts = .ok f) : Reads min (.after left) ids ts f := by
  match ts with
  | [] =>
    rw [readOn_nil] at h
    cases h
    exact .stop (by simp)
  | t :: ts =>
    rw [readOn_cons] at h
    by_cases hb : min < t.kind.bindingPower
    · rw [if_pos hb] at h
      cases ht : t.kind with
      | word =>
        simp only [ht] at h
        exact .word hb ht (reads_of_readOn h)
      | infixAnd | infixOr =>
        simp only [ht] at h
        obtain ⟨right, hright, h⟩ := bind_ok h
        have hright := reads_of_readExpr hright
        have hle := hright.takes.length_le
        exact .join hb (by rw [ht]; rfl) (by rwa [ht]) (reads_of_readOn h)
      | prefixAnd | prefixAndNot =>
        simp only [ht] at h
        obtain ⟨arg, harg, h⟩ := bind_ok h
        obtain ⟨rest, hrest, h⟩ := bind_ok h
        have hle := (readArgument_takes harg).length_le
        have hrest := reads_of_readExpr hrest
        have hle' := hrest.takes.length_le
        exact .sign hb (by rw [ht]; rfl) harg hrest (by rw [ht]; exact reads_of_readOn h)
      | leftParen | rightParen | eof => simp [ht, Token.Kind.bindingPower] at hb
    · rw [if_neg hb] at h
      cases h
      exact .stop (by simpa using hb)
termination_by ts.length

end

theorem ReadsArguments.run_eq {kind : Token.Kind} {ids : TermIds} {ts : List Token}
    {f : Front (List Expr)} (h : ReadsArguments kind ids ts f) : readArguments kind ids ts = .ok f := by
  induction h with
  | @last kind ids ts arg harg hend =>
    obtain ⟨value, ids', rest⟩ := arg
    rw [readArguments_eq, harg]
    cases rest with
    | nil => rfl
    | cons t us =>
      have ht : t.kind.isSign = false := hend t rfl
      simp [bind, Except.bind, ht]
  | more harg hrest ht _ ih =>
    rw [readArguments_eq, harg]
    simp [bind, Except.bind, hrest, ht, ih, Except.map]

/-- The function that reads on from a stage. -/
def Stage.run (min : Nat) (ids : TermIds) (ts : List Token) : Stage → Except Refusal (Front Expr)
  | .start => readExpr min ids ts
  | .after left => readOn min left ids ts

/-- A derivation is what the parser does, so that there is only one. -/
theorem Reads.run_eq {min : Nat} {stage : Stage} {ids : TermIds} {ts : List Token} {f : Front Expr}
    (h : Reads min stage ids ts f) : stage.run min ids ts = .ok f := by
  induction h with
  | none => exact readExpr_nil _ _
  | first ht _ ih =>
    rw [Stage.run, readExpr_cons, ht]
    exact ih
  | signs ht hargs _ _ ihrest ih =>
    simp only [Stage.run] at ihrest ih ⊢
    rw [readExpr_sign _ _ ht, hargs.run_eq]
    show (readExpr 50 _ _ >>= _) = _
    rw [ihrest]
    exact ih
  | @dangling min ids t ts f ht _ ih =>
    rw [Stage.run, readExpr_cons]
    cases hk : t.kind <;> first | exact ih | simp [hk, Token.Kind.dangles] at ht
  | stop hend => exact readOn_of_stops hend
  | word hb ht _ ih =>
    rw [Stage.run, readOn_cons, if_pos hb, ht]
    exact ih
  | @join min left ids t ts op right f hb ht _ _ ihright ih =>
    simp only [Stage.run] at ihright ih ⊢
    rw [readOn_cons, if_pos hb, ihright]
    cases hk : t.kind <;> rw [hk] at ht <;> cases ht <;> exact ih
  | sign hb ht harg _ _ ihrest ih =>
    simp only [Stage.run] at ihrest ih ⊢
    rw [readOn_sign _ _ hb ht, harg]
    show (readExpr 50 _ _ >>= _) = _
    rw [ihrest]
    exact ih

/-- Reading at one strength and going on at a lower one is reading at the lower one. -/
theorem Reads.resume {min power : Nat} {stage : Stage} {ids : TermIds} {ts : List Token}
    {f g : Front Expr} (h : Reads power stage ids ts f) (hmin : min ≤ power)
    (hg : Reads min (.after f.value) f.ids f.rest g) : Reads min stage ids ts g := by
  induction h with
  | none =>
    cases hg
    exact .none
  | first ht _ ih => exact .first ht (ih hmin hg)
  | signs ht hargs hrest _ _ ih => exact .signs ht hargs hrest (ih hmin hg)
  | dangling ht _ ih => exact .dangling ht (ih hmin hg)
  | stop _ => exact hg
  | word hb ht _ ih => exact .word (Nat.lt_of_le_of_lt hmin hb) ht (ih hmin hg)
  | join hb ht hright _ _ ih => exact .join (Nat.lt_of_le_of_lt hmin hb) ht hright (ih hmin hg)
  | sign hb ht harg hrest _ _ ih =>
    exact .sign (Nat.lt_of_le_of_lt hmin hb) ht harg hrest (ih hmin hg)

/-- From an expression that has been read to the end of the query. -/
inductive Resumes : Expr → TermIds → List Token → Front Expr → Prop
  | stop {e ids ts} (hend : ∀ t ∈ ts.head?, t.kind ≠ .rightParen) : Resumes e ids ts ⟨e.wrap, ids, ts⟩
  | skip {e ids t ts next f} (ht : t.kind = .rightParen) (hnext : Reads 0 .start ids ts next)
      (h : Resumes (e.extend next.value) next.ids next.rest f) : Resumes e ids (t :: ts) f

theorem Resumes.takes {e : Expr} {ids : TermIds} {ts : List Token} {f : Front Expr}
    (h : Resumes e ids ts f) : Takes ids ts f.ids f.rest := by
  induction h with
  | stop _ => exact Takes.refl _ _
  | skip ht hnext _ ih => exact Takes.dangling (by rw [ht]; rfl) (hnext.takes.trans ih)

/-- A query ends with its tokens or at a mark of the end. -/
theorem Resumes.ends {e : Expr} {ids : TermIds} {ts : List Token} {f : Front Expr}
    (h : Resumes e ids ts f) (hbp : ∀ t ∈ ts.head?, t.kind.bindingPower ≤ 0)
    (hparen : ∀ t ∈ f.rest.head?, t.kind ≠ .leftParen) : ∀ t ∈ f.rest.head?, t.kind = .eof := by
  induction h with
  | stop hend =>
    intro t ht
    have hpos := hbp t ht
    have hright := hend t ht
    have hleft := hparen t ht
    cases hk : t.kind <;> simp_all [Token.Kind.bindingPower]
  | skip _ hnext _ ih => exact ih hnext.stops hparen

theorem resumes_of_ok {e e' : Expr} {ids : TermIds} {skipped : Array Nat} {ts : List Token}
    (h : (resume e ids skipped ts).result = .ok e') :
    ∃ rest, Resumes e ids ts ⟨e', (resume e ids skipped ts).ids, rest⟩ ∧
      ∀ t ∈ rest.head?, t.kind ≠ .leftParen := by
  match ts with
  | [] =>
    rw [resume_nil] at h ⊢
    cases h
    exact ⟨[], .stop (by simp), by simp⟩
  | t :: ts =>
    rw [resume_cons] at h ⊢
    cases ht : t.kind with
    | rightParen =>
      simp only [ht] at h ⊢
      cases hnext : readExpr 0 ids ts with
      | error r => simp [hnext, Outcome.refused] at h
      | ok next =>
        simp only [hnext] at h ⊢
        have hreads := reads_of_readExpr hnext
        have hle := hreads.takes.length_le
        obtain ⟨rest, hrest, hparen⟩ := resumes_of_ok h
        exact ⟨rest, .skip ht hreads hrest, hparen⟩
    | leftParen => simp [ht, Outcome.refused] at h
    | _ =>
      simp only [ht] at h ⊢
      cases h
      exact ⟨t :: ts, .stop (by simp [ht]), by simp [ht]⟩
termination_by ts.length

/-- The way to the end of a query is what the parser does, unless it stops at a `(`. -/
theorem Resumes.run_eq {e : Expr} {ids : TermIds} {ts : List Token} {f : Front Expr}
    (h : Resumes e ids ts f) (hparen : ∀ t ∈ f.rest.head?, t.kind ≠ .leftParen) (skipped : Array Nat) :
    (resume e ids skipped ts).result = .ok f.value ∧ (resume e ids skipped ts).ids = f.ids := by
  induction h generalizing skipped with
  | @stop e ids ts hend =>
    cases ts with
    | nil =>
      rw [resume_nil]
      exact ⟨rfl, rfl⟩
    | cons t ts =>
      have hright := hend t rfl
      have hleft := hparen t rfl
      rw [resume_cons]
      cases hk : t.kind <;> simp_all
  | skip ht hnext _ ih =>
    have hread : readExpr 0 _ _ = .ok _ := hnext.run_eq
    rw [resume_cons, ht]
    simp only [hread]
    exact ih hparen _

/-- A whole query: an expression and what follows stray closing parentheses. -/
def Parses (ids : TermIds) (ts : List Token) (f : Front Expr) : Prop :=
  ∃ first, Reads 0 .start ids ts first ∧ Resumes first.value first.ids first.rest f ∧
    ∀ t ∈ f.rest.head?, t.kind = .eof

theorem parses_of_ok {ids : TermIds} {ts : List Token} {e : Expr}
    (h : (parse ids ts).result = .ok e) :
    ∃ rest, Parses ids (dropEnding ts) ⟨e, (parse ids ts).ids, rest⟩ := by
  rw [parse_eq] at h ⊢
  cases hfirst : readExpr 0 ids (dropEnding ts) with
  | error r => simp [hfirst, Outcome.refused] at h
  | ok first =>
    simp only [hfirst] at h ⊢
    have hreads := reads_of_readExpr hfirst
    obtain ⟨rest, hrest, hparen⟩ := resumes_of_ok h
    exact ⟨rest, first, hreads, hrest, hrest.ends hreads.stops hparen⟩

theorem Parses.run_eq {ids : TermIds} {ts : List Token} {f : Front Expr}
    (h : Parses ids (dropEnding ts) f) :
    (parse ids ts).result = .ok f.value ∧ (parse ids ts).ids = f.ids := by
  obtain ⟨first, hfirst, hrest, hend⟩ := h
  have hread : readExpr 0 ids (dropEnding ts) = .ok first := hfirst.run_eq
  rw [parse_eq]
  simp only [hread]
  refine hrest.run_eq (fun t ht => ?_) _
  rw [hend t ht]
  decide

theorem Parses.takes {ids : TermIds} {ts : List Token} {f : Front Expr} (h : Parses ids ts f) :
    Takes ids ts f.ids f.rest := by
  obtain ⟨first, hfirst, hrest, -⟩ := h
  exact hfirst.takes.trans hrest.takes

end Parser
end SearchQuery

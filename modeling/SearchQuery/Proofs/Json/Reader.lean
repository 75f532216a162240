import Mathlib.Data.List.TakeWhile
import SearchQuery.Proofs.Json.Scalar
import SearchQuery.Proofs.Json.Text

/-! A reader of JSON, and that it reads a text as a value just when the grammar lets the value be written
so: what it returns has a derivation, and what has a derivation is read, whatever stands behind it that
does not go on with it. So no text is the writing of two values. -/

namespace SearchQuery.Json

def skipBlank (cs : List Char) : List Char := cs.dropWhile isBlank

section

variable {α : Type}

/-- Up to `n` items, commas between them, and the character that closes them. -/
def itemsWithin? (item : Reader α) (close : Char) : Nat → Reader (List α)
  | 0, _ => none
  | n + 1, cs => do
    let (a, rest) ← item cs
    match rest with
    | [] => none
    | c :: rest =>
      if c = close then some ([a], rest)
      else if c = ',' then (itemsWithin? item close n rest).map fun (as, rest) => (a :: as, rest)
      else none

/-- What an opening bracket begins: nothing but blanks, or items. -/
def items? (item : Reader α) (close : Char) : Reader (List α) := fun cs =>
  match skipBlank cs with
  | [] => none
  | c :: rest => if c = close then some ([], rest) else itemsWithin? item close cs.length cs

end

def element? (value : Reader Value) : Reader Value := fun cs =>
  (value (skipBlank cs)).map fun (v, rest) => (v, skipBlank rest)

def member? (value : Reader Value) : Reader (String × Value) := fun cs =>
  match skipBlank cs with
  | '"' :: cs => do
    let (s, rest) ← quoted? cs
    match skipBlank rest with
    | ':' :: rest => (element? value rest).map fun (v, rest) => ((String.ofList s, v), rest)
    | _ => none
  | _ => none

/-- A value nested at most `n` deep. -/
def value? : Nat → Reader Value
  | 0, _ => none
  | _, [] => none
  | n + 1, c :: cs =>
    if c = '"' then (quoted? cs).map fun (s, rest) => (.text (String.ofList s), rest)
    else if c = '[' then
      (items? (element? (value? n)) ']' cs).map fun (vs, rest) => (.list vs, rest)
    else if c = '\x7b' then
      (items? (member? (value? n)) '\x7d' cs).map fun (ms, rest) => (.object ms, rest)
    else
      (scalar? ((c :: cs).takeWhile isScalarChar)).map fun v =>
        (v, (c :: cs).dropWhile isScalarChar)

/-- The value that a text is the writing of. No value is nested deeper than its text is long. -/
def read? (s : String) : Option Value :=
  match element? (value? s.length) s.toList with
  | some (v, []) => some v
  | _ => none

variable {c : Char} {n : Nat} {s cs w rest : List Char} {v : Value} {p : Phrase}

/-! ### What is read has a derivation -/

/-- Whatever is read is written as the phrase that it makes. -/
def Sound {α : Type} (read : Reader α) (p : α → Phrase) : Prop :=
  ∀ {cs rest : List Char} {a : α}, read cs = some (a, rest) → ∃ w, cs = w ++ rest ∧ Written (p a) w

/-- Phrases with a comma between each two. -/
inductive Separated {α : Type} (p : α → Phrase) : List α → List Char → Prop
  | last {a : α} {w : List Char} (h : Written (p a) w) : Separated p [a] w
  | more {a : α} {as : List α} {w v : List Char} (h : Written (p a) w) (hs : Separated p as v) :
    Separated p (a :: as) (w ++ ',' :: v)

theorem Separated.elements {vs : List Value} (h : Separated .element vs w) :
    Written (.elements vs) w := by
  induction h with
  | last h => exact .lastElement h
  | more h _ ih => exact .moreElements h ih

theorem Separated.members {ms : List (String × Value)} (h : Separated .member ms w) :
    Written (.members ms) w := by
  induction h with
  | last h => exact .lastMember h
  | more h _ ih => exact .moreMembers h ih

theorem exists_blank (cs : List Char) : ∃ b, cs = b ++ skipBlank cs ∧ Blank b := by
  refine ⟨cs.takeWhile isBlank, List.takeWhile_append_dropWhile.symm, ?_⟩
  intro c hc
  exact List.mem_takeWhile_imp hc

section

variable {α : Type} {item : Reader α} {close : Char} {f : α → Phrase} {as : List α}

theorem itemsWithin?_sound (hitem : Sound item f)
    (h : itemsWithin? item close n cs = some (as, rest)) :
    ∃ w, cs = w ++ close :: rest ∧ Separated f as w := by
  induction n generalizing cs as with
  | zero => cases h
  | succ n ih =>
    obtain ⟨⟨a, behind⟩, ha, hmore⟩ := Option.bind_eq_some_iff.1 h
    obtain ⟨w, rfl, hw⟩ := hitem ha
    dsimp only at hmore
    split at hmore
    · cases hmore
    split_ifs at hmore with hclose hcomma
    · cases hmore
      subst hclose
      exact ⟨w, rfl, .last hw⟩
    · obtain ⟨⟨as, last⟩, has, hmore⟩ := Option.map_eq_some_iff.1 hmore
      cases hmore
      subst hcomma
      obtain ⟨v, rfl, hv⟩ := ih has
      exact ⟨w ++ ',' :: v, by simp, .more hw hv⟩

theorem items?_sound (hitem : Sound item f) (h : items? item close cs = some (as, rest)) :
    ∃ w, cs = w ++ close :: rest ∧ (as = [] ∧ Blank w ∨ Separated f as w) := by
  unfold items? at h
  split at h
  · cases h
  next c behind hskip =>
    split_ifs at h with hclose
    · obtain ⟨b, hcs, hb⟩ := exists_blank cs
      rw [hskip, hclose] at hcs
      cases h
      exact ⟨b, hcs, .inl ⟨rfl, hb⟩⟩
    · obtain ⟨w, hcs, hw⟩ := itemsWithin?_sound hitem h
      exact ⟨w, hcs, .inr hw⟩

end

theorem element?_sound {value : Reader Value} (h : Sound value .value) :
    Sound (element? value) .element := by
  intro cs rest v hread
  obtain ⟨⟨v, behind⟩, hv, hread⟩ := Option.map_eq_some_iff.1 hread
  cases hread
  -- all the blanks behind a value are its own, so none are left for what follows
  obtain ⟨a, hcs, ha⟩ := exists_blank cs
  obtain ⟨b, hbehind, hb⟩ := exists_blank behind
  obtain ⟨w, hskip, hw⟩ := h hv
  refine ⟨a ++ (w ++ b), ?_, .element ha hw hb⟩
  rw [List.append_assoc, List.append_assoc, ← hbehind, ← hskip, ← hcs]

theorem member?_sound {value : Reader Value} (h : Sound value .value) :
    Sound (member? value) .member := by
  intro cs rest m hread
  unfold member? at hread
  split at hread
  next cs' hskip =>
    obtain ⟨⟨s, behind⟩, hs, hread⟩ := Option.bind_eq_some_iff.1 hread
    dsimp only at hread
    split at hread
    next behind' hcolon =>
      obtain ⟨⟨v, last⟩, hv, hread⟩ := Option.map_eq_some_iff.1 hread
      cases hread
      obtain ⟨a, hcs, ha⟩ := exists_blank cs
      obtain ⟨b, hbehind, hb⟩ := exists_blank behind
      obtain ⟨w, hw, hquoted⟩ := quoted?_eq_some.1 hs
      obtain ⟨u, hu, helement⟩ := element?_sound h hv
      refine ⟨a ++ '"' :: (w ++ (b ++ ':' :: u)), ?_, .member ha hquoted hb helement⟩
      rw [hcs, hskip, hw, hbehind, hcolon, hu]
      simp
    · cases hread
  · cases hread

theorem value?_sound (n : Nat) : Sound (value? n) .value := by
  induction n with
  | zero => exact nofun
  | succ n ih =>
    intro cs rest v h
    cases cs with
    | nil => cases h
    | cons c cs =>
      rw [value?] at h
      split_ifs at h with hquote hlist hobject
      · obtain ⟨⟨s, behind⟩, hs, h⟩ := Option.map_eq_some_iff.1 h
        cases h
        subst hquote
        obtain ⟨w, rfl, hw⟩ := quoted?_eq_some.1 hs
        exact ⟨'"' :: w, rfl, .text hw⟩
      · obtain ⟨⟨vs, behind⟩, hvs, h⟩ := Option.map_eq_some_iff.1 h
        cases h
        subst hlist
        obtain ⟨w, rfl, ⟨rfl, hw⟩ | hw⟩ := items?_sound (element?_sound ih) hvs
        · exact ⟨'[' :: (w ++ [']']), by simp, .emptyList hw⟩
        · exact ⟨'[' :: (w ++ [']']), by simp, .list hw.elements⟩
      · obtain ⟨⟨ms, behind⟩, hms, h⟩ := Option.map_eq_some_iff.1 h
        cases h
        subst hobject
        obtain ⟨w, rfl, ⟨rfl, hw⟩ | hw⟩ := items?_sound (member?_sound ih) hms
        · exact ⟨'\x7b' :: (w ++ ['\x7d']), by simp, .emptyObject hw⟩
        · exact ⟨'\x7b' :: (w ++ ['\x7d']), by simp, .object hw.members⟩
      · obtain ⟨v, hv, h⟩ := Option.map_eq_some_iff.1 h
        cases h
        exact ⟨_, List.takeWhile_append_dropWhile.symm, scalar?_sound hv⟩

/-! ### What has a derivation is read -/

/-- Behind a value: nothing that goes on with a number or a word. -/
def Ends (rest : List Char) : Prop := ∀ c ∈ rest.head?, isScalarChar c = false

def Closing (c : Char) : Prop := c = ']' ∨ c = '\x7d'

/-- Behind an element or a member. -/
def Stops (rest : List Char) : Prop := ∀ c ∈ rest.head?, c = ',' ∨ Closing c

section

variable {α : Type}

/-- An item is found, and its end, by the readers that go deep enough. -/
def FindsItem (item : Nat → Reader α) (a : α) (w : List Char) : Prop :=
  ∀ n rest, w.length ≤ n → Stops rest → item n (w ++ rest) = some (a, rest)

def FindsItems (item : Nat → Reader α) (close : Char) (as : List α) (w : List Char) : Prop :=
  ∀ n m rest, w.length ≤ n → w.length < m →
    itemsWithin? (item n) close m (w ++ close :: rest) = some (as, rest)

end

/-- The reader for a phrase finds this one, and finds its end. -/
def Found : Phrase → List Char → Prop
  | .value v, w => ∀ n rest, w.length ≤ n + 1 → Ends rest → value? (n + 1) (w ++ rest) = some (v, rest)
  | .element v, w => FindsItem (fun n => element? (value? n)) v w
  | .elements vs, w => FindsItems (fun n => element? (value? n)) ']' vs w
  | .member m, w => FindsItem (fun n => member? (value? n)) m w
  | .members ms, w => FindsItems (fun n => member? (value? n)) '\x7d' ms w

variable {a b : List Char}

theorem value?_scalar (hne : w ≠ []) (hall : ∀ c ∈ w, isScalarChar c = true)
    (hw : scalar? w = some v) : Found (.value v) w := by
  intro n rest hn hrest
  obtain ⟨c, cs, rfl⟩ := List.exists_cons_of_ne_nil hne
  obtain ⟨htake, hdrop⟩ := split_word hall hrest
  obtain ⟨-, hquote, ⟨hlist, -⟩, hobject, -⟩ := of_isScalarChar (hall c List.mem_cons_self)
  rw [List.cons_append] at htake hdrop ⊢
  rw [value?, if_neg hquote, if_neg hlist, if_neg hobject, htake, hdrop, hw, Option.map_some]

theorem skipBlank_blank (hb : Blank b) (cs : List Char) : skipBlank (b ++ cs) = skipBlank cs :=
  List.dropWhile_append_of_pos hb

theorem skipBlank_cons (h : isBlank c = false) (cs : List Char) : skipBlank (c :: cs) = c :: cs := by
  simp [skipBlank, h]

theorem skipBlank_append (h : skipBlank w = c :: cs) (rest : List Char) :
    skipBlank (w ++ rest) = c :: (cs ++ rest) := by
  rw [skipBlank] at h ⊢
  rw [List.dropWhile_append, h]
  rfl

theorem Written.value_head (h : Written (.value v) w) :
    ∃ c cs, w = c :: cs ∧ isBlank c = false ∧ ¬ Closing c := by
  cases h with
  | number h =>
    obtain ⟨c, cs, rfl, -⟩ := h.head
    obtain ⟨hblank, -, ⟨-, hlist⟩, -, hobject⟩ := of_isScalarChar (h.isScalarChar c List.mem_cons_self)
    exact ⟨c, cs, rfl, hblank, not_or.2 ⟨hlist, hobject⟩⟩
  | _ => exact ⟨_, _, rfl, rfl, by unfold Closing; decide⟩

/-- The first thing that stands there is no closing bracket. -/
def Opens (w : List Char) : Prop := ∃ c cs, skipBlank w = c :: cs ∧ ¬ Closing c

theorem Opens.append (h : Opens w) (rest : List Char) : Opens (w ++ rest) := by
  obtain ⟨c, cs, hskip, hc⟩ := h
  exact ⟨c, cs ++ rest, skipBlank_append hskip rest, hc⟩

theorem Written.opens_element (h : Written (.element v) w) : Opens w := by
  cases h with
  | element ha h _ =>
    obtain ⟨c, cs, rfl, hblank, hc⟩ := h.value_head
    exact ⟨c, _, (skipBlank_blank ha _).trans (skipBlank_cons hblank _), hc⟩

theorem Written.opens_elements {vs : List Value} (h : Written (.elements vs) w) : Opens w := by
  cases h with
  | lastElement h => exact h.opens_element
  | moreElements h _ => exact h.opens_element.append _

theorem Written.opens_member {m : String × Value} (h : Written (.member m) w) : Opens w := by
  cases h with
  | member ha _ _ _ =>
    exact ⟨'"', _, (skipBlank_blank ha _).trans (skipBlank_cons rfl _), by unfold Closing; decide⟩

theorem Written.opens_members {ms : List (String × Value)} (h : Written (.members ms) w) :
    Opens w := by
  cases h with
  | lastMember h => exact h.opens_member
  | moreMembers h _ => exact h.opens_member.append _

theorem stops_comma (rest : List Char) : Stops (',' :: rest) := by
  intro c hc
  obtain rfl := Option.some.inj hc
  exact .inl rfl

theorem Closing.stops (h : Closing c) (rest : List Char) : Stops (c :: rest) := by
  intro d hd
  obtain rfl := Option.some.inj hd
  exact .inr h

theorem Closing.ne_comma (h : Closing c) : c ≠ ',' := by
  rcases h with rfl | rfl <;> decide

theorem Stops.skipBlank_eq (h : Stops rest) : skipBlank rest = rest := by
  cases rest with
  | nil => rfl
  | cons c rest =>
    apply skipBlank_cons
    rcases h c rfl with rfl | rfl | rfl <;> rfl

theorem Stops.ends (h : Stops rest) (hb : Blank b) : Ends (b ++ rest) := by
  intro c hc
  cases b with
  | nil => rcases h c hc with rfl | rfl | rfl <;> rfl
  | cons d b =>
    obtain rfl := Option.some.inj hc
    cases hscalar : isScalarChar d with
    | false => rfl
    | true =>
      obtain ⟨hblank, -⟩ := of_isScalarChar hscalar
      rw [hb d List.mem_cons_self] at hblank
      cases hblank

section

variable {α : Type} {item : Nat → Reader α} {close : Char} {x : α} {xs : List α} {u : List Char}

theorem FindsItem.last (h : FindsItem item x w) (hclose : Closing close) :
    FindsItems item close [x] w := by
  intro n m rest hn hm
  obtain ⟨m, rfl⟩ := Nat.exists_eq_succ_of_ne_zero (Nat.ne_zero_of_lt hm)
  rw [itemsWithin?, h n _ hn (hclose.stops rest)]
  simp

theorem FindsItem.more (h : FindsItem item x w) (hs : FindsItems item close xs u)
    (hclose : Closing close) : FindsItems item close (x :: xs) (w ++ ',' :: u) := by
  intro n m rest hn hm
  obtain ⟨m, rfl⟩ := Nat.exists_eq_succ_of_ne_zero (Nat.ne_zero_of_lt hm)
  simp only [List.length_append, List.length_cons] at hn hm
  have hmore := hs n m rest (by omega) (by omega)
  rw [List.append_assoc, List.cons_append, itemsWithin?, h n _ (by omega) (stops_comma _)]
  simp [hclose.ne_comma.symm, hmore]

theorem items?_blank (hb : Blank b) (hclose : Closing close) (item : Reader α) (rest : List Char) :
    items? item close (b ++ [close] ++ rest) = some ([], rest) := by
  have hblank : isBlank close = false := by
    rcases hclose with rfl | rfl <;> rfl
  simp [items?, skipBlank_blank hb, skipBlank_cons hblank]

theorem FindsItems.items? {n : Nat} (h : FindsItems item close xs w) (hw : Opens w)
    (hclose : Closing close) (hn : w.length ≤ n) (rest : List Char) :
    items? (item n) close (w ++ [close] ++ rest) = some (xs, rest) := by
  obtain ⟨c, cs, hskip, hc⟩ := hw
  -- otherwise the list would be taken for an empty one
  have hne : c ≠ close := by
    rintro rfl
    exact hc hclose
  have hread := h n (w ++ close :: rest).length rest hn (by simp)
  rw [List.append_assoc, List.singleton_append, Json.items?, skipBlank_append hskip]
  dsimp only
  rw [if_neg hne, hread]

end

theorem Found.element (ha : Blank a) (hw : Written (.value v) w) (h : Found (.value v) w)
    (hb : Blank b) : Found (.element v) (a ++ (w ++ b)) := by
  intro n rest hn hrest
  obtain ⟨c, cs, rfl, hblank, -⟩ := hw.value_head
  simp only [List.length_append, List.length_cons] at hn
  -- no value is empty, so the bound lets one be read
  obtain ⟨n, rfl⟩ := Nat.exists_eq_succ_of_ne_zero (show n ≠ 0 by omega)
  have hread := h n (b ++ rest) (by simp only [List.length_cons]; omega) (hrest.ends hb)
  change element? (value? (n + 1)) _ = _
  rw [List.append_assoc, List.append_assoc, element?, skipBlank_blank ha, List.cons_append,
    skipBlank_cons hblank, ← List.cons_append, hread, Option.map_some]
  dsimp only
  rw [skipBlank_blank hb, hrest.skipBlank_eq]

theorem Found.member {u : List Char} (ha : Blank a) (hw : Quoted s w) (hb : Blank b)
    (h : Found (.element v) u) :
    Found (.member (String.ofList s, v)) (a ++ '"' :: (w ++ (b ++ ':' :: u))) := by
  intro n rest hn hrest
  have hlength : u.length ≤ n := by
    simp only [List.length_append, List.length_cons] at hn
    omega
  have hsplit : a ++ '"' :: (w ++ (b ++ ':' :: u)) ++ rest =
      a ++ '"' :: (w ++ (b ++ ':' :: (u ++ rest))) := by
    simp
  change member? (value? n) _ = _
  rw [hsplit, member?, skipBlank_blank ha, skipBlank_cons rfl]
  change (quoted? _).bind _ = _
  rw [quoted?_eq_some.2 ⟨w, rfl, hw⟩, Option.bind_some]
  dsimp only
  rw [skipBlank_blank hb, skipBlank_cons rfl]
  have hread : element? (value? n) (u ++ rest) = some (v, rest) := h n rest hlength hrest
  change (element? _ _).map _ = _
  rw [hread, Option.map_some]

theorem value?_list {n : Nat} {vs : List Value}
    (h : items? (element? (value? n)) ']' cs = some (vs, rest)) :
    value? (n + 1) ('[' :: cs) = some (.list vs, rest) := by
  rw [value?, if_neg (by decide), if_pos rfl, h, Option.map_some]

theorem value?_object {n : Nat} {ms : List (String × Value)}
    (h : items? (member? (value? n)) '\x7d' cs = some (ms, rest)) :
    value? (n + 1) ('\x7b' :: cs) = some (.object ms, rest) := by
  rw [value?, if_neg (by decide), if_neg (by decide), if_pos rfl, h, Option.map_some]

theorem length_le_of_brackets {n : Nat} {left right : Char}
    (h : (left :: (w ++ [right])).length ≤ n + 1) : w.length ≤ n := by
  simp only [List.length_cons, List.length_append] at h
  omega

theorem Written.found (h : Written p w) : Found p w := by
  have hlist : Closing ']' := .inl rfl
  have hobject : Closing '\x7d' := .inr rfl
  induction h with
  | null => exact value?_scalar nofun (List.all_eq_true.1 rfl) rfl
  | yes => exact value?_scalar nofun (List.all_eq_true.1 rfl) rfl
  | no => exact value?_scalar nofun (List.all_eq_true.1 rfl) rfl
  | number h =>
    obtain ⟨c, cs, rfl, -⟩ := h.head
    exact value?_scalar nofun h.isScalarChar (scalar?_number h)
  | text h =>
    intro n rest _ _
    rw [List.cons_append, value?, if_pos rfl, quoted?_eq_some.2 ⟨_, rfl, h⟩, Option.map_some]
  | emptyList hb =>
    intro n rest _ _
    exact value?_list (items?_blank hb hlist _ rest)
  | list h ih =>
    intro n rest hn _
    exact value?_list (ih.items? h.opens_elements hlist (length_le_of_brackets hn) rest)
  | emptyObject hb =>
    intro n rest _ _
    exact value?_object (items?_blank hb hobject _ rest)
  | object h ih =>
    intro n rest hn _
    exact value?_object (ih.items? h.opens_members hobject (length_le_of_brackets hn) rest)
  | element ha h hb ih => exact Found.element ha h ih hb
  | lastElement _ ih => exact ih.last hlist
  | moreElements _ _ ih ihs => exact ih.more ihs hlist
  | member ha hs hb _ ih => exact Found.member ha hs hb ih
  | lastMember _ ih => exact ih.last hobject
  | moreMembers _ _ ih ihs => exact ih.more ihs hobject

theorem read?_eq_some {text : String} : read? text = some v ↔ Written (.element v) text.toList := by
  constructor
  · intro h
    unfold read? at h
    split at h
    next v hread =>
      cases h
      obtain ⟨w, hw, h⟩ := element?_sound (value?_sound _) hread
      rw [hw, List.append_nil]
      exact h
    · cases h
  · intro h
    have hread := h.found text.length [] (Nat.le_of_eq String.length_toList) nofun
    rw [List.append_nil] at hread
    change element? (value? text.length) text.toList = some (v, []) at hread
    rw [read?, hread]

end SearchQuery.Json

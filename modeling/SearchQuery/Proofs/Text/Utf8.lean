import Mathlib.Data.List.Basic
import Mathlib.Tactic.SplitIfs
import SearchQuery.Proofs.Text.Word
import SearchQuery.Text.Utf8

/-! UTF-8 from both sides: what a code point is spelled with is read back as that code point, and
nothing else is. A lead byte announces just as many bytes as the spelling has, so that the decoder goes
through any bytes sequence by sequence. -/

namespace SearchQuery.Utf8

/-- The beginning of a sequence: fewer bytes than its lead byte announces. -/
inductive CutShort : List UInt8 → Prop
  | intro {b : UInt8} {bs : List UInt8} {w : Nat} (hw : width? b = some w) (h : bs.length + 1 < w) :
      CutShort (b :: bs)

/-- Bytes that are no code point: one that leads no sequence, or a sequence that spells nothing
although it has all the bytes that its lead byte announces. -/
inductive Malformed : List UInt8 → Prop
  | lead {b : UInt8} (hw : width? b = none) : Malformed [b]
  | sequence {b : UInt8} {bs : List UInt8} (hw : width? b = some (bs.length + 1))
      (h : ∀ c, encodeChar c ≠ b :: bs) : Malformed (b :: bs)

/-- What a decoder makes of bytes in turn, and where it stands behind them. -/
def Decoder.run (d : Decoder) : List UInt8 → List Piece × Decoder
  | [] => ([], d)
  | b :: bs => ((d.step b).1.toList ++ ((d.step b).2.run bs).1, ((d.step b).2.run bs).2)

variable {b : UInt8} {bs : List UInt8} {c : Char} {n k least : Nat}

theorem toNat_toUInt8 (h : n < 256) : n.toUInt8.toNat = n := by
  simp only [Nat.toUInt8, UInt8.toNat_ofNat']
  omega

theorem toUInt8_eq (h : n = b.toNat) : n.toUInt8 = b := by
  rw [h]
  exact UInt8.ofNat_toNat

theorem payload?_tail (h : k < 64) : payload? (0x80 + k).toUInt8 = some k := by
  have hbyte : (0x80 + k).toUInt8.toNat = 0x80 + k := toNat_toUInt8 (by omega)
  rw [payload?, hbyte, if_pos (by omega), Nat.add_sub_cancel_left]

theorem toNat_of_payload? (h : payload? b = some k) : b.toNat = 0x80 + k ∧ k < 64 := by
  unfold payload? at h
  split at h
  · obtain rfl := Option.some.inj h
    omega
  · cases h

theorem scalar?_toNat (hn : n = c.toNat) (h : least ≤ n) : scalar? least n = some c := by
  subst hn
  rw [scalar?, if_pos ⟨h, c.valid⟩, Char.ofNat_toNat]

theorem toNat_of_scalar? (h : scalar? least n = some c) : least ≤ n ∧ c.toNat = n := by
  unfold scalar? at h
  split at h
  next hn =>
    obtain rfl := Option.some.inj h
    refine ⟨hn.1, ?_⟩
    rw [Char.ofNat, dif_pos hn.2]
    rfl
  · cases h

theorem toNat_lt (c : Char) : c.toNat < 0x110000 := by
  rcases c.valid with h | ⟨-, h⟩
  · exact Nat.lt_trans h (by decide)
  · exact h

theorem decodeSequence?_encodeChar (c : Char) : decodeSequence? (encodeChar c) = some c := by
  have hlt := toNat_lt c
  unfold encodeChar
  generalize hn : c.toNat = n at *
  dsimp only
  split_ifs with h1 h2 h3
  · rw [decodeSequence?, toNat_toUInt8 (by omega)]
    exact scalar?_toNat hn.symm (Nat.zero_le n)
  · rw [decodeSequence?, payload?_tail (by omega), toNat_toUInt8 (by omega), Option.bind_eq_bind,
      Option.bind_some]
    exact scalar?_toNat (by omega) (by omega)
  · rw [decodeSequence?, payload?_tail (by omega), payload?_tail (by omega),
      toNat_toUInt8 (by omega), Option.bind_eq_bind, Option.bind_some, Option.bind_some]
    exact scalar?_toNat (by omega) (by omega)
  · rw [decodeSequence?, payload?_tail (by omega), payload?_tail (by omega),
      payload?_tail (by omega), toNat_toUInt8 (by omega), Option.bind_eq_bind, Option.bind_some,
      Option.bind_some, Option.bind_some]
    exact scalar?_toNat (by omega) (by omega)

theorem width?_encodeChar (c : Char) :
    ∃ b bs, encodeChar c = b :: bs ∧ width? b = some (bs.length + 1) := by
  have hlt := toNat_lt c
  unfold encodeChar
  generalize c.toNat = n at *
  dsimp only
  split_ifs with h1 h2 h3
  · refine ⟨_, _, rfl, ?_⟩
    rw [width?, toNat_toUInt8 (by omega), if_pos h1]
    rfl
  · refine ⟨_, _, rfl, ?_⟩
    rw [width?, toNat_toUInt8 (by omega), if_neg (by omega), if_neg (by omega), if_pos (by omega)]
    rfl
  · refine ⟨_, _, rfl, ?_⟩
    rw [width?, toNat_toUInt8 (by omega), if_neg (by omega), if_neg (by omega), if_neg (by omega),
      if_pos (by omega)]
    rfl
  · refine ⟨_, _, rfl, ?_⟩
    rw [width?, toNat_toUInt8 (by omega), if_neg (by omega), if_neg (by omega), if_neg (by omega),
      if_neg (by omega), if_pos (by omega)]
    rfl

theorem lead_of_width? (h : width? b = some n) :
    n = 1 ∧ b.toNat < 0x80 ∨ n = 2 ∧ 0xC2 ≤ b.toNat ∧ b.toNat < 0xE0 ∨
      n = 3 ∧ 0xE0 ≤ b.toNat ∧ b.toNat < 0xF0 ∨ n = 4 ∧ 0xF0 ≤ b.toNat ∧ b.toNat < 0xF5 := by
  unfold width? at h
  dsimp only at h
  split_ifs at h <;> cases h <;> omega

theorem exists_width? (h : width? b = some n) : ∃ k, n = k + 1 := by
  refine Nat.exists_eq_add_one.2 ?_
  rcases lead_of_width? h with h | h | h | h <;> omega

/-- A sequence of the length that its lead byte announces is read as no code point but the one
that it spells. -/
theorem encodeChar_of_decodeSequence? (hw : width? b = some (bs.length + 1))
    (h : decodeSequence? (b :: bs) = some c) : encodeChar c = b :: bs := by
  have hlead := lead_of_width? hw
  match bs with
  | [] =>
    obtain ⟨-, hc⟩ := toNat_of_scalar? h
    have hb : b.toNat < 0x80 := by simpa using hlead
    unfold encodeChar
    rw [hc, if_pos hb, toUInt8_eq rfl]
  | [x] =>
    simp only [decodeSequence?, Option.bind_eq_bind, Option.bind_eq_some_iff] at h
    obtain ⟨y, hy, h⟩ := h
    obtain ⟨hleast, hc⟩ := toNat_of_scalar? h
    obtain ⟨hx, hy⟩ := toNat_of_payload? hy
    have hb : 0xC2 ≤ b.toNat ∧ b.toNat < 0xE0 := by simpa using hlead
    unfold encodeChar
    rw [hc, if_neg (by omega), if_pos (by omega), toUInt8_eq (b := b) (by omega),
      toUInt8_eq (b := x) (by omega)]
  | [x, x'] =>
    simp only [decodeSequence?, Option.bind_eq_bind, Option.bind_eq_some_iff] at h
    obtain ⟨y, hy, y', hy', h⟩ := h
    obtain ⟨hleast, hc⟩ := toNat_of_scalar? h
    obtain ⟨hx, hy⟩ := toNat_of_payload? hy
    obtain ⟨hx', hy'⟩ := toNat_of_payload? hy'
    have hb : 0xE0 ≤ b.toNat ∧ b.toNat < 0xF0 := by simpa using hlead
    unfold encodeChar
    rw [hc, if_neg (by omega), if_neg (by omega), if_pos (by omega), toUInt8_eq (b := b) (by omega),
      toUInt8_eq (b := x) (by omega), toUInt8_eq (b := x') (by omega)]
  | [x, x', x''] =>
    simp only [decodeSequence?, Option.bind_eq_bind, Option.bind_eq_some_iff] at h
    obtain ⟨y, hy, y', hy', y'', hy'', h⟩ := h
    obtain ⟨hleast, hc⟩ := toNat_of_scalar? h
    obtain ⟨hx, hy⟩ := toNat_of_payload? hy
    obtain ⟨hx', hy'⟩ := toNat_of_payload? hy'
    obtain ⟨hx'', hy''⟩ := toNat_of_payload? hy''
    have hb : 0xF0 ≤ b.toNat ∧ b.toNat < 0xF5 := by simpa using hlead
    have hlt := toNat_lt c
    unfold encodeChar
    rw [hc, if_neg (by omega), if_neg (by omega), if_neg (by omega), toUInt8_eq (b := b) (by omega),
      toUInt8_eq (b := x) (by omega), toUInt8_eq (b := x') (by omega),
      toUInt8_eq (b := x'') (by omega)]
  | _ :: _ :: _ :: _ :: _ => cases h

theorem encode_cons (c : Char) (text : String) :
    encode (String.ofList (c :: text.toList)) = encodeChar c ++ encode text := by
  simp [encode]

/-- Bytes are a text as far as they go, and behind it the end, a sequence that the end cuts short,
or malformed bytes. -/
theorem exists_encode_append (bytes : List UInt8) :
    ∃ text rest, bytes = encode text ++ rest ∧
      (rest = [] ∨ CutShort rest ∨ ∃ m more, rest = m ++ more ∧ Malformed m) := by
  induction hlen : bytes.length using Nat.strongRecOn generalizing bytes with
  | ind len ih =>
    match bytes with
    | [] => exact ⟨"", [], rfl, .inl rfl⟩
    | b :: bs =>
      cases hw : width? b with
      | none => exact ⟨"", b :: bs, rfl, .inr (.inr ⟨[b], bs, rfl, .lead hw⟩)⟩
      | some w =>
        by_cases hshort : bs.length + 1 < w
        · exact ⟨"", b :: bs, rfl, .inr (.inl ⟨hw, hshort⟩)⟩
        obtain ⟨k, rfl⟩ := exists_width? hw
        have hsplit : b :: bs = (b :: bs.take k) ++ bs.drop k := by
          rw [List.cons_append, List.take_append_drop]
        have htake : (bs.take k).length = k := List.length_take_of_le (by omega)
        by_cases hspells : ∃ c, encodeChar c = b :: bs.take k
        · obtain ⟨c, hc⟩ := hspells
          have hshorter : (bs.drop k).length < len := by
            rw [← hlen, List.length_drop, List.length_cons]
            omega
          obtain ⟨text, rest, hrest, h⟩ := ih _ hshorter (bs.drop k) rfl
          refine ⟨String.ofList (c :: text.toList), rest, ?_, h⟩
          rw [hsplit, hrest, ← hc, encode_cons, List.append_assoc]
        · have hm : Malformed (b :: bs.take k) :=
            .sequence (by rw [hw, htake]) fun c hc => hspells ⟨c, hc⟩
          exact ⟨"", b :: bs, rfl, .inr (.inr ⟨b :: bs.take k, bs.drop k, hsplit, hm⟩)⟩

namespace Decoder

/-- Whatever completes a sequence leaves the decoder between two. -/
theorem idle_of_step {d d' : Decoder} {p : Piece} (h : d.step b = (some p, d')) : d' = .idle := by
  cases d with
  | idle =>
    unfold step at h
    dsimp only at h
    split at h
    · exact (Prod.mk.inj h).2.symm
    · cases (Prod.mk.inj h).1
    · exact (Prod.mk.inj h).2.symm
  | within taken lacking =>
    cases lacking with
    | zero => exact (Prod.mk.inj h).2.symm
    | succ n => cases (Prod.mk.inj h).1

theorem run_append (d : Decoder) (bs more : List UInt8) : d.run (bs ++ more) =
    ((d.run bs).1 ++ ((d.run bs).2.run more).1, ((d.run bs).2.run more).2) := by
  induction bs generalizing d with
  | nil => rfl
  | cons b bs ih => simp [run, ih]

/-- Inside a sequence bytes are kept as long as another is lacking. -/
theorem run_within (taken : List UInt8) (h : bs.length ≤ n) :
    (within taken n).run bs = ([], .within (taken ++ bs) (n - bs.length)) := by
  induction bs generalizing taken n with
  | nil => simp [run]
  | cons b bs ih =>
    obtain ⟨n, rfl⟩ : ∃ m, n = m + 1 := Nat.exists_eq_add_one.2 (by simp at h; omega)
    have hrest := ih (taken ++ [b]) (by simpa using h)
    rw [List.append_assoc] at hrest
    simp [run, step, hrest]

theorem step_lead (hw : width? b = some (n + 2)) : idle.step b = (none, .within [b] n) := by
  simp [step, hw]

/-- A sequence is judged with its last byte, and not before. -/
theorem run_sequence (hw : width? b = some (bs.length + 1)) :
    idle.run (b :: bs) = ([judge (b :: bs)], .idle) := by
  rcases List.eq_nil_or_concat' bs with rfl | ⟨init, last, rfl⟩
  · simp [run, step, hw]
  · rw [List.length_append] at hw
    rw [run, step_lead hw, run_append, run_within [b] (Nat.le_refl _), Nat.sub_self]
    rfl

theorem run_encodeChar (c : Char) : idle.run (encodeChar c) = ([.code c], .idle) := by
  obtain ⟨b, bs, hc, hw⟩ := width?_encodeChar c
  have hjudge : judge (b :: bs) = .code c := by
    rw [judge, ← hc, decodeSequence?_encodeChar]
  rw [hc, run_sequence hw, hjudge]

theorem run_encode (text : String) :
    idle.run (encode text) = (text.toList.map .code, .idle) := by
  unfold encode
  induction text.toList with
  | nil => rfl
  | cons c cs ih => rw [List.flatMap_cons, run_append, run_encodeChar, ih]; rfl

theorem run_malformed {m : List UInt8} (h : Malformed m) : idle.run m = ([.malformed], .idle) := by
  cases h with
  | lead hw => simp [run, step, hw]
  | @sequence b bs hw h =>
    have hjudge : judge (b :: bs) = .malformed := by
      unfold judge
      cases hd : decodeSequence? (b :: bs) with
      | none => rfl
      | some c => exact absurd (encodeChar_of_decodeSequence? hw hd) (h c)
    rw [run_sequence hw, hjudge]

theorem run_cutShort {t : List UInt8} (h : CutShort t) :
    ∃ taken lacking, idle.run t = ([], .within taken lacking) := by
  obtain @⟨b, bs, w, hw, hshort⟩ := h
  obtain ⟨k, rfl⟩ : ∃ k, w = k + 2 := Nat.exists_eq_add_of_le' (by omega)
  rw [run, step_lead hw, run_within [b] (by omega)]
  exact ⟨_, _, rfl⟩

end Decoder

theorem decodeFrom_of_run {d : Decoder} {codes : List Char} (done : String)
    (h : d.run bs = (codes.map .code, .idle)) :
    decodeFrom d done bs = some (done ++ String.ofList codes) := by
  induction bs generalizing d codes done with
  | nil =>
    rw [Decoder.run, Prod.mk.injEq] at h
    obtain ⟨hcodes, rfl⟩ := h
    rw [List.map_eq_nil_iff.1 hcodes.symm, String.ofList_nil, String.append_empty]
    rfl
  | cons b bs ih =>
    obtain ⟨hpieces, hidle⟩ := Prod.mk.inj h
    rw [decodeFrom]
    rcases hstep : d.step b with ⟨_ | piece, d'⟩
    · rw [hstep] at hpieces hidle
      exact ih done (Prod.ext hpieces hidle)
    · rw [hstep] at hpieces hidle
      cases codes with
      | nil => cases hpieces
      | cons c codes =>
        obtain ⟨rfl, hpieces⟩ := List.cons.inj hpieces
        rw [← push_append]
        exact ih (done.push c) (Prod.ext hpieces hidle)

/-- A text comes back from its bytes. -/
theorem decode?_encode (text : String) : decode? (encode text) = some text := by
  rw [decode?, decodeFrom_of_run "" (Decoder.run_encode text), String.empty_append,
    String.ofList_toList]

/-! ### Bytes with mistakes in them -/

theorem mayFollow_of_payload? {x : UInt8} (hx : payload? x = some k)
    (hE0 : b.toNat = 0xE0 → 0x20 ≤ k) (hED : b.toNat = 0xED → k < 0x20)
    (hF0 : b.toNat = 0xF0 → 0x10 ≤ k) (hF4 : b.toNat = 0xF4 → k < 0x10) : mayFollow b x = true := by
  obtain ⟨hbyte, hlt⟩ := toNat_of_payload? hx
  unfold mayFollow
  simp only [beq_iff_eq, ← UInt8.toNat_inj, hx, Option.isSome_some]
  split_ifs with h1 h2 h3 h4 <;> simp only [Bool.and_eq_true, decide_eq_true_eq]
  · have hk := hE0 h1
    omega
  · have hk := hED h2
    omega
  · have hk := hF0 h3
    omega
  · have hk := hF4 h4
    omega

/-- What is behind the lead byte of a sequence that spells a code point. -/
theorem follows_of_decodeSequence? {x : UInt8} (hw : width? b = some (bs.length + 2))
    (h : decodeSequence? (b :: x :: bs) = some c) :
    mayFollow b x = true ∧ ∀ y ∈ bs, (payload? y).isSome = true := by
  have hlead := lead_of_width? hw
  -- the surrogates, and what is beyond the last code point, are not excluded by the lead byte alone
  have hvalid : c.toNat < 0xD800 ∨ 0xDFFF < c.toNat ∧ c.toNat < 0x110000 := c.valid
  match bs with
  | [] =>
    simp only [decodeSequence?, Option.bind_eq_bind, Option.bind_eq_some_iff] at h
    obtain ⟨y, hy, h⟩ := h
    have hb : 0xC2 ≤ b.toNat ∧ b.toNat < 0xE0 := by simpa using hlead
    exact ⟨mayFollow_of_payload? hy (by omega) (by omega) (by omega) (by omega), nofun⟩
  | [x'] =>
    simp only [decodeSequence?, Option.bind_eq_bind, Option.bind_eq_some_iff] at h
    obtain ⟨y, hy, y', hy', h⟩ := h
    obtain ⟨hleast, hc⟩ := toNat_of_scalar? h
    obtain ⟨-, hlt⟩ := toNat_of_payload? hy
    obtain ⟨-, hlt'⟩ := toNat_of_payload? hy'
    have hb : 0xE0 ≤ b.toNat ∧ b.toNat < 0xF0 := by simpa using hlead
    exact ⟨mayFollow_of_payload? hy (by omega) (by omega) (by omega) (by omega), by simp [hy']⟩
  | [x', x''] =>
    simp only [decodeSequence?, Option.bind_eq_bind, Option.bind_eq_some_iff] at h
    obtain ⟨y, hy, y', hy', y'', hy'', h⟩ := h
    obtain ⟨hleast, hc⟩ := toNat_of_scalar? h
    obtain ⟨-, hlt⟩ := toNat_of_payload? hy
    obtain ⟨-, hlt'⟩ := toNat_of_payload? hy'
    obtain ⟨-, hlt''⟩ := toNat_of_payload? hy''
    have hb : 0xF0 ≤ b.toNat ∧ b.toNat < 0xF5 := by simpa using hlead
    exact ⟨mayFollow_of_payload? hy (by omega) (by omega) (by omega) (by omega), by simp [hy', hy'']⟩
  | _ :: _ :: _ :: _ => cases h

theorem repairFrom_sequence (done : String) (hw : width? b = some (bs.length + 1))
    (h : decodeSequence? (b :: bs) = some c) (rest : List UInt8) :
    repairFrom .idle done (b :: bs ++ rest) = repairFrom .idle (done.push c) rest := by
  match bs with
  | [] =>
    obtain ⟨-, hc⟩ := toNat_of_scalar? h
    simp only [List.singleton_append, repairFrom, repairLead, hw, List.length_nil]
    rw [← hc, Char.ofNat_toNat]
  | [x] =>
    obtain ⟨hx, -⟩ := follows_of_decodeSequence? hw h
    simp [repairFrom, repairLead, hw, hx, h]
  | [x, x'] =>
    obtain ⟨hx, hmore⟩ := follows_of_decodeSequence? hw h
    simp [repairFrom, repairLead, hw, hx, h, hmore x' (by simp)]
  | [x, x', x''] =>
    obtain ⟨hx, hmore⟩ := follows_of_decodeSequence? hw h
    simp [repairFrom, repairLead, hw, hx, h, hmore x' (by simp), hmore x'' (by simp)]
  | _ :: _ :: _ :: _ :: _ => cases h

theorem repairFrom_encodeChar (done : String) (c : Char) (rest : List UInt8) :
    repairFrom .idle done (encodeChar c ++ rest) = repairFrom .idle (done.push c) rest := by
  obtain ⟨b, bs, hc, hw⟩ := width?_encodeChar c
  rw [hc]
  exact repairFrom_sequence done hw (hc ▸ decodeSequence?_encodeChar c) rest

/-- A text at the front of any bytes is shown as it is, and repairs begin behind it. -/
theorem decodeLossy_encode_append (text : String) (rest : List UInt8) :
    decodeLossy (encode text ++ rest) = repairFrom .idle text rest := by
  have hfront (cs : List Char) (done : String) : repairFrom .idle done (cs.flatMap encodeChar ++ rest) =
      repairFrom .idle (done ++ String.ofList cs) rest := by
    induction cs generalizing done with
    | nil =>
      rw [String.ofList_nil, String.append_empty]
      rfl
    | cons c cs ih =>
      rw [List.flatMap_cons, List.append_assoc, repairFrom_encodeChar, ih, push_append]
  rw [decodeLossy, encode, hfront, String.empty_append, String.ofList_toList]

end SearchQuery.Utf8

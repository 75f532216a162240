import SearchQuery.Proofs.Reading

/-! A source is read as text if and only if its bytes are UTF-8 as the standard has it. Otherwise all
that the bytes spell before their first mistake comes out, then the mistake, and there are never more
code points and mistakes in all than there are bytes. -/

namespace SearchQuery

namespace Utf8

/-- The bytes of a code point are those of the standard. -/
theorem encodeChar_eq (c : Char) : encodeChar c = String.utf8EncodeChar c := by
  have hlt := toNat_lt c
  unfold encodeChar String.utf8EncodeChar
  generalize hn : c.toNat = n at *
  have hval : c.val.toNat = n := hn
  have hle (k : Nat) : (n ≤ k) = (n < k + 1) := propext Nat.lt_succ_iff.symm
  simp only [hval, hle, Nat.reduceAdd]
  split_ifs with h1 h2 h3
  · rfl
  · have hlead : n / 64 % 32 = n / 64 := Nat.mod_eq_of_lt (by omega)
    rw [hlead, Nat.add_comm 0xC0, Nat.add_comm 0x80]
  · have hlead : n / 4096 % 16 = n / 4096 := Nat.mod_eq_of_lt (by omega)
    rw [hlead, Nat.add_comm 0xE0, Nat.add_comm 0x80, Nat.add_comm 0x80]
  · have hlead : n / 262144 % 8 = n / 262144 := Nat.mod_eq_of_lt (by omega)
    rw [hlead, Nat.add_comm 0xF0, Nat.add_comm 0x80, Nat.add_comm 0x80, Nat.add_comm 0x80]

/-- What code points are spelled with in the standard. -/
def spelling (cs : List Char) : List UInt8 := cs.flatMap String.utf8EncodeChar

theorem encode_eq (text : String) : encode text = spelling text.toList := by
  unfold encode spelling
  rw [funext encodeChar_eq]

theorem spelling_eq (cs : List Char) : spelling cs = encode (String.ofList cs) := by
  rw [encode_eq, String.toList_ofList]

end Utf8

open Utf8

variable {script : List ReadStep} {bytes : List UInt8} {cs ds : List Char}

/-- What a source yields: code points and mistakes in turn, up to its end. -/
def yielded (script : List ReadStep) : List (Except ReadError Char) :=
  (readCodes script).items.toList.map (·.value)

theorem yielded_eq (h : Delivers script bytes) : yielded script = codes .idle (bytes.map .byte) := by
  rw [yielded, values_readCodes, h.events_eq]

theorem codes_spelling (cs : List Char) (bytes : List UInt8) :
    codes .idle ((spelling cs ++ bytes).map .byte) =
      cs.map .ok ++ codes .idle (bytes.map .byte) := by
  have hcodes := codes_encode (String.ofList cs) bytes []
  rwa [← spelling_eq, String.toList_ofList, List.append_nil, List.append_nil] at hcodes

theorem codes_of_spelling (cs : List Char) : codes .idle ((spelling cs).map .byte) = cs.map .ok := by
  have hcodes := codes_spelling cs []
  rw [List.append_nil] at hcodes
  exact hcodes.trans (List.append_nil _)

/-- What comes out has the bytes that it is spelled with behind it; the last mistake may be that
bytes are lacking. -/
theorem codes_length_le (d : Decoder) (bytes : List UInt8) :
    (codes d (bytes.map .byte)).length ≤ bytes.length + if d = .idle then 0 else 1 := by
  induction bytes generalizing d with
  | nil => cases d <;> simp [codes, Decoder.finish]
  | cons b bs ih =>
    rcases hstep : d.step b with ⟨_ | p, d'⟩
    · have hrest := ih d'
      have hmore : (if d' = .idle then 0 else 1) ≤ 1 := by split <;> omega
      simp only [List.map_cons, codes, hstep, Option.toList_none, List.map_nil, List.nil_append,
        List.length_cons]
      omega
    · obtain rfl := Decoder.idle_of_step hstep
      have hrest := ih .idle
      rw [if_pos rfl] at hrest
      simp only [List.map_cons, codes, hstep, Option.toList_some, List.map_nil, List.cons_append,
        List.nil_append, List.length_cons]
      omega

/-- Bytes that spell no text: a text, and then a mistake. -/
theorem exists_mistake (h : ∀ cs, bytes ≠ spelling cs) :
    ∃ cs later, spelling cs <+: bytes ∧
      codes .idle (bytes.map .byte) = cs.map .ok ++ .error .malformed :: later := by
  obtain ⟨text, rest, rfl, hrest⟩ := exists_encode_append bytes
  have hprefix : spelling text.toList <+: encode text ++ rest := by
    rw [encode_eq]
    exact List.prefix_append _ _
  rw [encode_eq, codes_spelling, ← encode_eq]
  rcases hrest with rfl | hrest | ⟨m, more, rfl, hm⟩
  · exact absurd (by rw [List.append_nil, encode_eq]) (h text.toList)
  · obtain ⟨taken, lacking, hcodes⟩ := codes_cutShort hrest []
    rw [List.append_nil] at hcodes
    rw [hcodes]
    exact ⟨_, [], hprefix, rfl⟩
  · rw [List.map_append, codes_malformed hm]
    exact ⟨_, _, hprefix, rfl⟩

/-- Code points that come out before a mistake are all that come out. -/
theorem prefix_of_map_ok {items later : List (Except ReadError Char)} {e : ReadError}
    (h : ds.map .ok ++ items = cs.map .ok ++ .error e :: later) : ds <+: cs := by
  induction ds generalizing cs with
  | nil => exact List.nil_prefix
  | cons d ds ih =>
    cases cs with
    | nil => cases (List.cons.inj h).1
    | cons c cs =>
      obtain ⟨hhead, hrest⟩ := List.cons.inj h
      obtain rfl := Except.ok.inj hhead
      exact List.cons_prefix_cons.2 ⟨rfl, ih hrest⟩

theorem error_notMem_map_ok (e : ReadError) (cs : List Char) : .error e ∉ cs.map Except.ok := by
  simp

theorem eq_spelling_of_codes (h : codes .idle (bytes.map .byte) = cs.map .ok) :
    bytes = spelling cs := by
  by_cases htext : ∃ ds, bytes = spelling ds
  · obtain ⟨ds, rfl⟩ := htext
    rw [codes_of_spelling] at h
    rw [List.map_injective_iff.2 (fun _ _ => Except.ok.inj) h]
  · obtain ⟨ds, later, -, hcodes⟩ := exists_mistake (not_exists.1 htext)
    apply absurd _ (error_notMem_map_ok .malformed cs)
    rw [← h, hcodes]
    simp

theorem CodeReader.ended_finish (r : CodeReader) (reads : Nat) :
    (r.finish reads).ended.isSome = true := by
  unfold finish
  split
  · assumption
  · cases r.decoder <;> rfl

/-- The bytes may come in any pieces. They are read without a mistake just if they are the standard's
spelling of what comes out. If not, the longest part in front that spells something comes out before
the first mistake. In either case the reading ends. -/
theorem yielded_exact (h : Delivers script bytes) :
    (∀ cs, yielded script = cs.map .ok ↔ bytes = spelling cs) ∧
      ((∀ cs, bytes ≠ spelling cs) → ∃ cs e later,
        yielded script = cs.map .ok ++ .error e :: later ∧ e.failure = .invalidData ∧
          spelling cs <+: bytes ∧ ∀ ds, spelling ds <+: bytes → spelling ds <+: spelling cs) ∧
      (readCodes script).ended.isSome = true ∧ (yielded script).length ≤ bytes.length := by
  refine ⟨?_, ?_, CodeReader.ended_finish _ _, ?_⟩
  · intro cs
    rw [yielded_eq h]
    constructor
    · exact eq_spelling_of_codes
    · intro hbytes
      rw [hbytes, codes_of_spelling]
  · intro hnone
    obtain ⟨cs, later, hprefix, hcodes⟩ := exists_mistake hnone
    refine ⟨cs, .malformed, later, (yielded_eq h).trans hcodes, rfl, hprefix, ?_⟩
    -- whatever else the bytes begin with comes out as well, so before the mistake
    rintro ds ⟨rest, rfl⟩
    rw [codes_spelling] at hcodes
    obtain ⟨more, rfl⟩ := prefix_of_map_ok hcodes
    rw [spelling, spelling, List.flatMap_append]
    exact List.prefix_append _ _
  · have hle := codes_length_le .idle bytes
    rwa [if_pos rfl, ← yielded_eq h] at hle

/-- A surrogate between two letters, cut inside, with a read in the middle that is tried again. -/
theorem yielded_exact_surrogate :
    let script : List ReadStep :=
      [.bytes [0x61, 0xED], .fail ⟨.interrupted, "again"⟩, .bytes [0xA0, 0x80, 0x62]]
    let bytes : List UInt8 := [0x61, 0xED, 0xA0, 0x80, 0x62]
    (∀ cs, bytes ≠ spelling cs) ∧ yielded script = [.ok 'a', .error .malformed, .ok 'b'] ∧
      (∀ ds, spelling ds <+: bytes → spelling ds <+: [0x61]) ∧
      (readCodes script).ended.isSome = true ∧ (yielded script).length ≤ bytes.length := by
  intro script bytes
  have hback : Delivers [.bytes [0xA0, 0x80, 0x62]] ([0xA0, 0x80, 0x62] ++ []) :=
    .chunk (by decide) .nil
  have hdelivers : Delivers script ([0x61, 0xED] ++ [0xA0, 0x80, 0x62]) :=
    .chunk (by decide) (.again rfl hback)
  obtain ⟨hexact, hmistake, hended, hlength⟩ := yielded_exact hdelivers
  have hyielded : yielded script = [.ok 'a', .error .malformed, .ok 'b'] := by decide
  have hnone (cs : List Char) : bytes ≠ spelling cs := by
    intro hbytes
    apply absurd _ (error_notMem_map_ok .malformed cs)
    rw [← (hexact cs).2 hbytes, hyielded]
    decide
  refine ⟨hnone, hyielded, ?_, hended, hlength⟩
  obtain ⟨cs, e, later, hcodes, -, -, hlongest⟩ := hmistake hnone
  obtain rfl : cs = ['a'] := by
    rw [hyielded] at hcodes
    match cs with
    | [] => cases (List.cons.inj hcodes).1
    | [c] => rw [Except.ok.inj (List.cons.inj hcodes).1]
    | c :: d :: cs => cases (List.cons.inj (List.cons.inj hcodes).2).1
  exact hlongest

end SearchQuery

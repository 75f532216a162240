import SearchQuery.Proofs.Text.Utf8
import SearchQuery.Reading

/-! What a source delivers, however its bytes are cut into reads and however often a read has to be
tried again. A source delivers a text, or it fails first: because a read fails, because bytes are
malformed, or because it ends inside a code point. -/

namespace SearchQuery

/-- Reads up to some point, and the bytes that they bring: none of them meets an end, and if one
fails it can be tried again. -/
inductive Delivers : List ReadStep → List UInt8 → Prop
  | nil : Delivers [] []
  | chunk {data bytes : List UInt8} {steps : List ReadStep} (hdata : data ≠ [])
      (h : Delivers steps bytes) : Delivers (.bytes data :: steps) (data ++ bytes)
  | again {e : ReadError} {bytes : List UInt8} {steps : List ReadStep}
      (he : e.failure = .interrupted) (h : Delivers steps bytes) : Delivers (.fail e :: steps) bytes

/-- The end of a source: its reads are over, or one of them brings nothing. -/
inductive Ends : List ReadStep → Prop
  | exhausted : Ends []
  | pause (more : List ReadStep) : Ends (.bytes [] :: more)

/-- What comes of a source: its text, or else the first failure. A sequence of several bytes is
judged when all of them are there, so that a read which fails among them comes first. -/
inductive Arrives : List ReadStep → Except ReadError String → Prop
  | text {text : String} {steps after : List ReadStep} (h : Delivers steps (Utf8.encode text))
      (hend : Ends after) : Arrives (steps ++ after) (.ok text)
  | failure {text : String} {t : List UInt8} {steps after : List ReadStep} {e : ReadError}
      (h : Delivers steps (Utf8.encode text ++ t)) (ht : t = [] ∨ Utf8.CutShort t)
      (he : e.failure ≠ .interrupted) : Arrives (steps ++ .fail e :: after) (.error e)
  | malformed {text : String} {m more : List UInt8} {steps after : List ReadStep}
      (h : Delivers steps (Utf8.encode text ++ (m ++ more))) (hm : Utf8.Malformed m) :
      Arrives (steps ++ after) (.error .malformed)
  | cutShort {text : String} {t : List UInt8} {steps after : List ReadStep}
      (h : Delivers steps (Utf8.encode text ++ t)) (ht : Utf8.CutShort t) (hend : Ends after) :
      Arrives (steps ++ after) (.error .malformed)

/-- What a completed sequence is to whoever asked for a code point. -/
def Utf8.Piece.value : Utf8.Piece → Except ReadError Char
  | .code c => .ok c
  | .malformed => .error .malformed

/-- The code points and failures of a source up to its first end, whenever they came. -/
def codes (d : Utf8.Decoder) : List ReadEvent → List (Except ReadError Char)
  | [] => d.finish.toList.map Utf8.Piece.value
  | .byte b :: es => (d.step b).1.toList.map Utf8.Piece.value ++ codes (d.step b).2 es
  | .failure e :: es => .error e :: codes .idle es
  | .lull :: es => match d.finish with
    | none => []
    | some p => p.value :: codes .idle es

variable {script steps after : List ReadStep} {bytes : List UInt8}

namespace CodeReader

/-- What has come out of a reader, with what these events still add to it. -/
def allValues (r : CodeReader) (events : List ReadEvent) : List (Except ReadError Char) :=
  r.items.toList.map (·.value) ++ if r.ended.isSome then [] else codes r.decoder events

/-- An event that is taken has what came of it among the values. -/
theorem allValues_next (r : CodeReader) (event : Stamped ReadEvent) (events : List ReadEvent) :
    (r.next event).allValues events = r.allValues (event.value :: events) := by
  obtain ⟨d, items, _ | n⟩ := r
  case some =>
    have hnext : next ⟨d, items, some n⟩ event = ⟨d, items, some n⟩ := rfl
    rw [hnext]
    rfl
  obtain ⟨value, stamp⟩ := event
  cases value with
  | byte b =>
    rcases hstep : d.step b with ⟨_ | p, d'⟩
    · simp [next, allValues, codes, hstep]
    · obtain rfl := Utf8.Decoder.idle_of_step hstep
      cases p <;> simp [next, put, allValues, codes, hstep, Utf8.Piece.value]
  | failure e => simp [next, put, allValues, codes]
  | lull =>
    cases d <;> simp [next, pause, put, allValues, codes, Utf8.Decoder.finish, Utf8.Piece.value]

theorem allValues_finish (r : CodeReader) (reads : Nat) :
    (r.finish reads).items.toList.map (·.value) = r.allValues [] := by
  obtain ⟨d, items, _ | n⟩ := r
  · cases d <;> simp [finish, put, allValues, codes, Utf8.Decoder.finish, Utf8.Piece.value]
  · simp [finish, allValues]

theorem values_finish (r : CodeReader) (events : List (Stamped ReadEvent)) (reads : Nat) :
    ((events.foldl next r).finish reads).items.toList.map (·.value) =
      r.allValues (events.map (·.value)) := by
  induction events generalizing r with
  | nil => exact allValues_finish r reads
  | cons event events ih => rw [List.foldl_cons, ih, allValues_next, List.map_cons]

end CodeReader

theorem values_eventsFrom (n : Nat) (script : List ReadStep) :
    (ReadStep.eventsFrom n script).map (·.value) = script.flatMap ReadStep.events := by
  induction script generalizing n with
  | nil => rfl
  | cons s ss ih =>
    have hstamp : s.events.map ((·.value) ∘ (Stamped.mk · n)) = s.events := List.map_id _
    rw [ReadStep.eventsFrom, List.map_append, List.map_map, hstamp, ih, List.flatMap_cons]

theorem values_readCodes (script : List ReadStep) :
    (readCodes script).items.toList.map (·.value) =
      codes .idle (script.flatMap ReadStep.events) := by
  rw [readCodes, CodeReader.values_finish, values_eventsFrom]
  rfl

theorem codes_bytes (d : Utf8.Decoder) (bytes : List UInt8) (events : List ReadEvent) :
    codes d (bytes.map .byte ++ events) =
      (d.run bytes).1.map Utf8.Piece.value ++ codes (d.run bytes).2 events := by
  induction bytes generalizing d with
  | nil => rfl
  | cons b bs ih => simp [codes, Utf8.Decoder.run, ih]

theorem codes_encode (text : String) (bytes : List UInt8) (events : List ReadEvent) :
    codes .idle ((Utf8.encode text ++ bytes).map .byte ++ events) =
      text.toList.map .ok ++ codes .idle (bytes.map .byte ++ events) := by
  rw [List.map_append, List.append_assoc, codes_bytes, Utf8.Decoder.run_encode, List.map_map]
  rfl

theorem codes_malformed {m : List UInt8} (h : Utf8.Malformed m) (events : List ReadEvent) :
    codes .idle (m.map .byte ++ events) = .error .malformed :: codes .idle events := by
  rw [codes_bytes, Utf8.Decoder.run_malformed h]
  rfl

theorem codes_cutShort {t : List UInt8} (h : Utf8.CutShort t) (events : List ReadEvent) :
    ∃ taken lacking, codes .idle (t.map .byte ++ events) = codes (.within taken lacking) events := by
  obtain ⟨taken, lacking, hrun⟩ := Utf8.Decoder.run_cutShort h
  exact ⟨taken, lacking, by rw [codes_bytes, hrun]; rfl⟩

theorem Delivers.events_eq (h : Delivers steps bytes) :
    steps.flatMap ReadStep.events = bytes.map .byte := by
  induction h with
  | nil => rfl
  | @chunk data bytes steps hdata _ ih =>
    have hevents : ReadStep.events (.bytes data) = data.map .byte := by
      cases data with
      | nil => exact absurd rfl hdata
      | cons => rfl
    rw [List.flatMap_cons, hevents, ih, List.map_append]
  | again he _ ih => simpa [ReadStep.events, he] using ih

/-- Every source delivers some bytes, and then meets an end or a failure to stay. -/
theorem exists_delivers (script : List ReadStep) :
    ∃ steps bytes after, script = steps ++ after ∧ Delivers steps bytes ∧
      (Ends after ∨ ∃ e more, after = .fail e :: more ∧ e.failure ≠ .interrupted) := by
  induction script with
  | nil => exact ⟨[], [], [], rfl, .nil, .inl .exhausted⟩
  | cons step script ih =>
    obtain ⟨steps, bytes, after, rfl, h, hafter⟩ := ih
    match step with
    | .bytes [] => exact ⟨[], [], _, rfl, .nil, .inl (.pause _)⟩
    | .bytes (b :: data) =>
      exact ⟨_, _, after, rfl, .chunk (List.cons_ne_nil b data) h, hafter⟩
    | .fail e =>
      by_cases he : e.failure = .interrupted
      · exact ⟨_, bytes, after, rfl, .again he h, hafter⟩
      · exact ⟨[], [], _, rfl, .nil, .inr ⟨e, _, rfl, he⟩⟩

theorem exists_arrives (script : List ReadStep) : ∃ outcome, Arrives script outcome := by
  obtain ⟨steps, bytes, after, rfl, h, hafter⟩ := exists_delivers script
  obtain ⟨text, rest, rfl, hrest⟩ := Utf8.exists_encode_append bytes
  rcases hrest with rfl | hrest | ⟨m, more, rfl, hm⟩
  · rcases hafter with hend | ⟨e, more, rfl, he⟩
    · rw [List.append_nil] at h
      exact ⟨_, .text h hend⟩
    · exact ⟨_, .failure h (.inl rfl) he⟩
  · rcases hafter with hend | ⟨e, more, rfl, he⟩
    · exact ⟨_, .cutShort h hrest hend⟩
    · exact ⟨_, .failure h (.inr hrest) he⟩
  · exact ⟨_, .malformed h hm⟩

theorem codes_of_delivers (h : Delivers steps bytes) (after : List ReadStep) :
    codes .idle ((steps ++ after).flatMap ReadStep.events) =
      codes .idle (bytes.map .byte ++ after.flatMap ReadStep.events) := by
  rw [List.flatMap_append, h.events_eq]

theorem codes_of_text {text : String} (h : Arrives script (.ok text)) :
    codes .idle (script.flatMap ReadStep.events) = text.toList.map .ok := by
  obtain @⟨_, steps, after, h, hend⟩ := h
  rw [codes_of_delivers h, ← List.append_nil (Utf8.encode text), codes_encode]
  cases hend <;> simp [codes, ReadStep.events, Utf8.Decoder.finish]

/-- Before the first failure a text has come. -/
theorem codes_of_error {e : ReadError} (h : Arrives script (.error e)) :
    ∃ (text : String) (later : _), codes .idle (script.flatMap ReadStep.events) =
      text.toList.map .ok ++ .error e :: later := by
  cases h with
  | @failure text t steps after e h ht he =>
    have hfail : (ReadStep.fail e :: after).flatMap ReadStep.events =
        .failure e :: after.flatMap ReadStep.events := by
      simp [ReadStep.events, he]
    rw [codes_of_delivers h, codes_encode, hfail]
    refine ⟨text, codes .idle (after.flatMap ReadStep.events), ?_⟩
    rcases ht with rfl | ht
    · rfl
    · obtain ⟨taken, lacking, hcodes⟩ := codes_cutShort ht (.failure e :: _)
      rw [hcodes]
      rfl
  | @malformed text m more steps after h hm =>
    rw [codes_of_delivers h, codes_encode, List.map_append, List.append_assoc, codes_malformed hm]
    exact ⟨text, _, rfl⟩
  | @cutShort text t steps after h ht hend =>
    obtain ⟨taken, lacking, hcodes⟩ := codes_cutShort ht (after.flatMap ReadStep.events)
    rw [codes_of_delivers h, codes_encode, hcodes]
    cases hend with
    | exhausted => exact ⟨text, [], rfl⟩
    | pause more => exact ⟨text, codes .idle (more.flatMap ReadStep.events), rfl⟩

end SearchQuery

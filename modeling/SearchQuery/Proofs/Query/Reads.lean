import SearchQuery.Proofs.Parser.Leaves
import SearchQuery.Proofs.Reading
import SearchQuery.Proofs.Token.Lexer
import SearchQuery.Proofs.Token.Stream
import SearchQuery.Query

/-! A query that is still arriving is the query of the text that arrives, or its first failure. -/

namespace SearchQuery

variable {script : List ReadStep} {ts : List Token} {e : ReadError}

namespace TokenStream

variable {s : TokenStream}

theorem mapM_map_ok {α : Type} (as : List α) (items : List (Except ReadError α)) :
    (as.map Except.ok ++ items).mapM id = (items.mapM id).map (as ++ ·) := by
  induction as with
  | nil =>
    rw [List.map_nil, List.nil_append]
    cases items.mapM id <;> rfl
  | cons a as ih =>
    rw [List.map_cons, List.cons_append, List.mapM_cons, ih]
    cases items.mapM id <;> rfl

theorem allTokens_eq (s : TokenStream) : s.allTokens = s.values.mapM id := by
  rw [allTokens, values, List.mapM_map]
  rfl

theorem allTokens_of_ok (h : s.values = ts.map .ok) : s.allTokens = .ok ts := by
  rw [allTokens_eq, h, ← List.append_nil (ts.map _), mapM_map_ok, List.mapM_nil]
  exact congrArg Except.ok (List.append_nil ts)

theorem allTokens_of_error (h : s.values = ts.map .ok ++ [.error e]) : s.allTokens = .error e := by
  rw [allTokens_eq, h, mapM_map_ok]
  rfl

end TokenStream

theorem values_tokenStream (script : List ReadStep) : (tokenStream script).values =
    TokenStream.yields .start (codes .idle (script.flatMap ReadStep.events)) := by
  rw [tokenStream, ← Array.foldl_toList, TokenStream.values_finish, TokenStream.allValues_start,
    values_readCodes]

namespace Parser

theorem dropEnding_concat_ending (ts : List Token) (size : Nat) :
    dropEnding (ts ++ [Token.ending size]) = ts := by
  simp [dropEnding, Token.ending]

/-- The mark of the end changes nothing. -/
theorem parse_ending (ids : TermIds) (h : Lexer.Unmarked ts) (size : Nat) :
    parse ids (ts ++ [Token.ending size]) = parse ids ts := by
  rw [parse_eq, parse_eq, dropEnding_concat_ending, dropEnding_of_unmarked h]

end Parser

namespace Query

theorem values_of_text {text : String} (h : Arrives script (.ok text)) :
    (tokenStream script).values =
      (tokenize text ++ [Token.ending text.length]).map .ok := by
  rw [values_tokenStream, codes_of_text h, TokenStream.yields_text]

theorem ofReads_of_text {text : String} (h : Arrives script (.ok text)) :
    ofReads script = (ofText text).mapError .parse := by
  unfold ofReads
  rw [TokenStream.allTokens_of_ok (values_of_text h)]
  show (ofTokens (tokenize text ++ [Token.ending text.length])).mapError QueryError.parse = _
  rw [ofTokens, Parser.parse_ending _ (Lexer.unmarked_tokenize text)]
  rfl

theorem ofReads_of_error (h : Arrives script (.error e)) : ofReads script = .error (.read e) := by
  obtain ⟨text, later, hcodes⟩ := codes_of_error h
  have hvalues : (tokenStream script).values =
      (Lexer.start.feed text.toList).1.map .ok ++ [.error e] := by
    rw [values_tokenStream, hcodes, TokenStream.yields_map_ok]
    rfl
  unfold ofReads
  rw [TokenStream.allTokens_of_error hvalues]
  rfl

/-- A query that arrives in pieces is the query of its text: the pieces give the tokens of the text
and the mark of the end, and nothing else. A source that fails before its end gives its first failure,
also where the text before that would be refused. There is no third case. -/
theorem ofReads_eq (script : List ReadStep) :
    (∃ outcome, Arrives script outcome) ∧
      (∀ text, Arrives script (.ok text) →
        (tokenStream script).values =
            (tokenize text ++ [Token.ending text.length]).map .ok ∧
          ofReads script = (ofText text).mapError .parse) ∧
      ∀ e, Arrives script (.error e) → ofReads script = .error (.read e) :=
  ⟨exists_arrives script, fun _ h => ⟨values_of_text h, ofReads_of_text h⟩,
    fun _ => ofReads_of_error⟩

/-- Bytes that begin no text stand before a read that fails, and the failure is what is told: the
first of them announces three bytes, and the third is what the read should have brought. -/
theorem failure_among_malformed :
    let pipe : ReadError := ⟨.brokenPipe, "pipe closed"⟩
    (∀ text more, Utf8.encode text ≠ 0xE2 :: 0x28 :: more) ∧
      ofReads [.bytes [0xE2, 0x28], .fail pipe] = .error (.read pipe) ∧ pipe ≠ .malformed := by
  refine ⟨fun text more h => ?_, by rfl, by decide⟩
  have hrun := Utf8.Decoder.run_encode text
  rw [h] at hrun
  cases more with
  | nil => cases (Prod.mk.inj hrun).2
  | cons b more =>
    -- whatever the third byte is, the three of them are malformed
    have hpieces : .malformed :: (Utf8.Decoder.idle.run more).1 =
        text.toList.map Utf8.Piece.code := (Prod.mk.inj hrun).1
    have hmem : Utf8.Piece.malformed ∈ text.toList.map Utf8.Piece.code :=
      hpieces ▸ List.mem_cons_self
    simp at hmem

end Query
end SearchQuery

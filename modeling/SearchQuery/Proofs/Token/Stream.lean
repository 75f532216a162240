import SearchQuery.Proofs.Token.Scan
import SearchQuery.Reading

/-! A stream of tokens without its stamps. What comes out depends on the code points and failures
that come in, and on nothing else: the tokens that the code points settle, then the failure if there
was one, or else what the end of the text settles and the mark of the end. -/

namespace SearchQuery.TokenStream

/-- The items of a stream, whenever they came. -/
def values (s : TokenStream) : List (Except ReadError Token) := s.items.toList.map (·.value)

/-- What a lexer makes of code points and failures in turn. -/
def yields (l : Lexer) : List (Except ReadError Char) → List (Except ReadError Token)
  | [] => (l.finish ++ [Token.ending l.position]).map .ok
  | .ok c :: cs => (l.step c).1.map .ok ++ yields (l.step c).2 cs
  | .error e :: _ => [.error e]

/-- What has come out of a stream, with what these items still add to it. -/
def allValues (s : TokenStream) (items : List (Except ReadError Char)) :
    List (Except ReadError Token) :=
  s.values ++ if s.failed then [] else yields s.lexer items

theorem values_put (s : TokenStream) (ts : List Token) (reads : Nat) :
    (s.put ts reads).values = s.values ++ ts.map .ok := by
  simp [values, put]

/-- An item that is taken has what came of it among the values. -/
theorem allValues_next (s : TokenStream) (item : Stamped (Except ReadError Char))
    (items : List (Except ReadError Char)) :
    (s.next item).allValues items = s.allValues (item.value :: items) := by
  cases hfailed : s.failed with
  | true =>
    have hnext : s.next item = s := by simp [next, hfailed]
    rw [hnext]
    simp [allValues, hfailed]
  | false =>
    obtain ⟨value, stamp⟩ := item
    cases value with
    | error e =>
      have hnext : s.next ⟨.error e, stamp⟩ =
          { s with items := s.items.push ⟨.error e, stamp⟩, failed := true } := by
        simp [next, hfailed]
      rw [hnext]
      simp [allValues, values, yields, hfailed]
    | ok c =>
      have hnext : s.next ⟨.ok c, stamp⟩ =
          { s with lexer := (s.lexer.step c).2 }.put (s.lexer.step c).1 stamp := by
        simp [next, hfailed]
      rw [hnext, allValues, values_put, List.append_assoc]
      simp [allValues, values, put, yields, hfailed]

theorem allValues_finish (s : TokenStream) (reads : Nat) :
    (s.finish reads).values = s.allValues [] := by
  cases hfailed : s.failed with
  | true => simp [finish, allValues, hfailed]
  | false =>
    have hfinish : s.finish reads =
        s.put (s.lexer.finish ++ [Token.ending s.lexer.position]) reads := by
      simp [finish, hfailed]
    rw [hfinish, values_put]
    simp [allValues, yields, hfailed]

theorem values_finish (s : TokenStream) (items : List (Stamped (Except ReadError Char)))
    (reads : Nat) :
    ((items.foldl next s).finish reads).values = s.allValues (items.map (·.value)) := by
  induction items generalizing s with
  | nil => exact allValues_finish s reads
  | cons item items ih => rw [List.foldl_cons, ih, allValues_next, List.map_cons]

theorem allValues_start (items : List (Except ReadError Char)) :
    start.allValues items = yields .start items := rfl

theorem yields_map_ok (l : Lexer) (cs : List Char) (items : List (Except ReadError Char)) :
    yields l (cs.map .ok ++ items) = (l.feed cs).1.map .ok ++ yields (l.feed cs).2 items := by
  induction cs generalizing l with
  | nil => rfl
  | cons c cs ih => simp [yields, Lexer.feed, ih]

/-- A text that arrives without a failure gives its tokens and the mark of the end. -/
theorem yields_text (text : String) : yields .start (text.toList.map .ok) =
    (tokenize text ++ [Token.ending text.length]).map .ok := by
  have hposition : (Lexer.start.feed text.toList).2.position = text.length := by
    rw [Lexer.position_start, String.length_toList]
  rw [← List.append_nil (text.toList.map _), yields_map_ok, Lexer.tokenize_eq, yields, hposition]
  simp

end SearchQuery.TokenStream

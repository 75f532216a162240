import Mathlib.Data.List.TakeWhile
import SearchQuery.Proofs.Query.Refused
import SearchQuery.Proofs.Text.Word
import SearchQuery.Report

/-! What the report on a refused query shows. The search for the line of an offset keeps the line that it
is on and what is before that line, and the line is then cut where it ends. The code point at the offset
is in what is left, unless it belongs to the end of the line itself. -/

namespace SearchQuery.Report

/-- Before a line there is nothing, or the newline of another line. -/
def LineStart (before : List Char) : Prop := before = [] ∨ before.getLast? = some '\n'

/-- Behind a line there is nothing, a newline, or a carriage return and a newline. -/
inductive LineEnd (line : List Char) : List Char → Prop
  | text : LineEnd line []
  | newline (rest : List Char) (h : line.getLast? ≠ some '\r') : LineEnd line ('\n' :: rest)
  | carriageReturn (rest : List Char) : LineEnd line ('\r' :: '\n' :: rest)

/-- A line of a text, without what ends it, and the text before it. -/
structure IsLine (text before line : List Char) : Prop where
  starts : LineStart before
  unbroken : '\n' ∉ line
  ends : ∃ rest, text = before ++ line ++ rest ∧ LineEnd line rest

/-- The line of an offset is found, with the code point at the offset in its column. -/
def Shown (text : String) (offset : Nat) (c : Char) : Prop :=
  ∃ before, IsLine text.toList before (lineAt text offset).1.toList ∧
    (lineAt text offset).1.toList[(lineAt text offset).2]? = some c ∧
    before.length + (lineAt text offset).2 = offset

variable {text : String} {before cur rest after line : List Char} {offset n : Nat} {c : Char}
  {e : ParseError}

/-- The search goes on from a place in a line, `cur` behind its start, over `n` code points. -/
theorem seek_eq (hstart : LineStart before) (hcur : '\n' ∉ cur) (hn : n ≤ rest.length) :
    ∃ before' cur', before' ++ cur' = before ++ cur ++ rest.take n ∧ LineStart before' ∧
      '\n' ∉ cur' ∧ seek (cur ++ rest) cur.length n rest = (cur' ++ rest.drop n, cur'.length) := by
  induction n generalizing before cur rest with
  | zero => exact ⟨before, cur, by simp, hstart, hcur, by simp [seek]⟩
  | succ n ih =>
    match rest with
    | [] => simp at hn
    | c :: rest =>
      have hn' : n ≤ rest.length := Nat.le_of_succ_le_succ hn
      rw [seek]
      by_cases hc : c = '\n'
      · -- the next line begins, and all that was passed is before it
        subst hc
        have hstart' : LineStart (before ++ cur ++ ['\n']) := .inr (by simp)
        obtain ⟨before', cur', happend, hfound⟩ := ih hstart' List.not_mem_nil hn'
        exact ⟨before', cur', by simpa using happend, hfound⟩
      · have hcur' : '\n' ∉ cur ++ [c] := by simp [hcur, Ne.symm hc]
        obtain ⟨before', cur', happend, hstart', hnone, hseek⟩ := ih hstart hcur' hn'
        refine ⟨before', cur', by simpa using happend, hstart', hnone, ?_⟩
        rw [if_neg hc]
        simpa using hseek

theorem lineEnd_dropReturn (hline : '\n' ∉ line) (rest : List Char) : '\n' ∉ dropReturn line ∧
    ∃ more, line ++ '\n' :: rest = dropReturn line ++ more ∧ LineEnd (dropReturn line) more := by
  unfold dropReturn
  split_ifs with hlast
  · have hsplit : line.dropLast ++ ['\r'] = line := List.dropLast_append_getLast? '\r' hlast
    refine ⟨fun h => hline (List.dropLast_subset line h), _, ?_, .carriageReturn rest⟩
    conv_lhs => rw [← hsplit]
    simp
  · exact ⟨hline, _, rfl, .newline rest hlast⟩

theorem firstLine_ends (text : List Char) : '\n' ∉ firstLine text ∧
    ∃ rest, text = firstLine text ++ rest ∧ LineEnd (firstLine text) rest := by
  have hline : '\n' ∉ text.takeWhile (· ≠ '\n') := fun h => by simpa using List.mem_takeWhile_imp h
  have hsplit : text.takeWhile (· ≠ '\n') ++ text.dropWhile (· ≠ '\n') = text :=
    List.takeWhile_append_dropWhile
  have hnewline := List.head?_dropWhile_not (· ≠ '\n') text
  rw [firstLine]
  generalize text.takeWhile (· ≠ '\n') = line at hline hsplit ⊢
  cases hrest : text.dropWhile (· ≠ '\n') with
  | nil =>
    rw [hrest, List.append_nil] at hsplit
    subst hsplit
    rw [if_neg (Nat.lt_irrefl _)]
    exact ⟨hline, [], (List.append_nil line).symm, .text⟩
  | cons c rest =>
    rw [hrest] at hsplit hnewline
    obtain rfl : c = '\n' := by simpa using hnewline
    have hlt : line.length < text.length := by
      rw [← hsplit, List.length_append, List.length_cons]
      omega
    rw [if_pos hlt, ← hsplit]
    exact lineEnd_dropReturn hline rest

theorem LineEnd.not_reached (h : LineEnd line (cur ++ c :: after)) (hcur : '\n' ∉ cur) (hc : c ≠ '\n')
    (hreturn : ¬ (c = '\r' ∧ after.head? = some '\n')) : False := by
  generalize hall : cur ++ c :: after = rest at h
  cases h with
  | text => simp at hall
  | newline rest hlast =>
    match cur with
    | [] => exact hc (List.cons.inj hall).1
    | d :: cur =>
      obtain ⟨rfl, -⟩ := List.cons.inj hall
      exact hcur List.mem_cons_self
  | carriageReturn rest =>
    match cur with
    | [] =>
      obtain ⟨rfl, rfl⟩ := List.cons.inj hall
      exact hreturn ⟨rfl, rfl⟩
    | [d] => exact hc (List.cons.inj (List.cons.inj hall).2).1
    | d :: d' :: cur =>
      obtain ⟨rfl, -⟩ := List.cons.inj (List.cons.inj hall).2
      exact hcur (by simp)

theorem getElem?_firstLine (hcur : '\n' ∉ cur) (hc : c ≠ '\n')
    (hreturn : ¬ (c = '\r' ∧ after.head? = some '\n')) :
    (firstLine (cur ++ c :: after))[cur.length]? = some c := by
  obtain ⟨-, rest, hsplit, hend⟩ := firstLine_ends (cur ++ c :: after)
  generalize firstLine (cur ++ c :: after) = line at hsplit hend ⊢
  rcases List.append_eq_append_iff.1 hsplit with ⟨more, rfl, hrest⟩ | ⟨more, rfl, hrest⟩
  · cases more with
    | nil =>
      obtain rfl : c :: after = rest := hrest
      exact absurd hend fun h => h.not_reached List.not_mem_nil hc hreturn
    | cons d more =>
      obtain ⟨rfl, -⟩ := List.cons.inj hrest
      simp
  · subst hrest
    have hmore : '\n' ∉ more := fun h => hcur (List.mem_append_right line h)
    exact absurd hend fun h => h.not_reached hmore hc hreturn

theorem lineAt_eq (h : offset ≤ text.length) :
    ∃ before cur, text.toList.take offset = before ++ cur ∧ LineStart before ∧ '\n' ∉ cur ∧
      lineAt text offset =
        (String.ofList (firstLine (cur ++ text.toList.drop offset)), cur.length) := by
  obtain ⟨before, cur, happend, hstart, hcur, hseek⟩ :=
    seek_eq (.inl rfl) List.not_mem_nil (String.length_toList ▸ h)
  have hfound : seek text.toList 0 offset text.toList = (cur ++ text.toList.drop offset, cur.length) := hseek
  refine ⟨before, cur, happend.symm, hstart, hcur, ?_⟩
  rw [lineAt, hfound]

theorem shown_of_getElem? (h : text.toList[offset]? = some c) (hc : c ≠ '\n')
    (hreturn : ¬ (c = '\r' ∧ text.toList[offset + 1]? = some '\n')) : Shown text offset c := by
  obtain ⟨hlt, hget⟩ := List.getElem?_eq_some_iff.1 h
  have hdrop : text.toList.drop offset = c :: text.toList.drop (offset + 1) := by
    rw [List.drop_eq_getElem_cons hlt, hget]
  obtain ⟨before, cur, htake, hstart, hcur, hline⟩ :=
    lineAt_eq (String.length_toList ▸ Nat.le_of_lt hlt)
  rw [hdrop] at hline
  obtain ⟨hunbroken, rest, hsplit, hend⟩ := firstLine_ends (cur ++ c :: text.toList.drop (offset + 1))
  refine ⟨before, ?_, ?_, ?_⟩
  · rw [hline, String.toList_ofList]
    refine ⟨hstart, hunbroken, rest, ?_, hend⟩
    rw [List.append_assoc, ← hsplit, ← hdrop, ← List.append_assoc, ← htake, List.take_append_drop]
  · rw [hline, String.toList_ofList]
    exact getElem?_firstLine hcur hc (by rwa [List.head?_drop])
  · rw [hline, ← List.length_append, ← htake, List.length_take, Nat.min_eq_left (Nat.le_of_lt hlt)]

theorem newline_not_mem_message (e : ParseError) : '\n' ∉ e.message.toList := by
  obtain ⟨construct, offset⟩ := e
  have hname : '\n' ∉ construct.name.toList := by
    cases construct
    decide
  have hdigits : '\n' ∉ Nat.toDigits 10 offset := fun h => by
    simpa using isDigit_toDigits offset '\n' h
  have hoffset : toString offset = String.ofList (Nat.toDigits 10 offset) := rfl
  simp [ParseError.message, hoffset, hname, hdigits]

theorem newline_not_mem_suggestion (e : ParseError) : '\n' ∉ e.suggestion.toList := by
  obtain ⟨construct, offset⟩ := e
  cases construct
  simp only [ParseError.suggestion]
  decide

/-- The report has four lines, the second with the line at fault and the third with the caret. -/
theorem parseError_lines (hline : '\n' ∉ (lineAt text e.offset).1.toList) :
    (parseError text e).toList.splitOn '\n' =
      [("error: " ++ e.message).toList, ' ' :: ' ' :: (lineAt text e.offset).1.toList,
        List.replicate ((lineAt text e.offset).2 + 2) ' ' ++ ['^'],
        ("hint: " ++ e.suggestion).toList] := by
  rw [← List.splitOn_intercalate '\n' _ (List.cons_ne_nil _ _)]
  · unfold parseError
    simp [List.intercalate, List.replicate_succ]
  · simp [newline_not_mem_message, newline_not_mem_suggestion, hline]

/-- The caret of a report on a refused query is below the parenthesis that is refused. The line above it is
the one in the text that the parenthesis is on, and so it is for any code point that is in a line. -/
theorem caret_exact :
    (∀ (text : String) (offset : Nat) (c : Char), text.toList[offset]? = some c → c ≠ '\n' →
      ¬ (c = '\r' ∧ text.toList[offset + 1]? = some '\n') → Shown text offset c) ∧
      ∀ text e, Query.ofText text = .error e → Shown text e.offset '(' ∧
        ∃ head body column hint,
          (parseError text e).toList.splitOn '\n' =
            [head, body, List.replicate column ' ' ++ ['^'], hint] ∧
          body[column]? = some '(' := by
  refine ⟨fun text offset c => shown_of_getElem?, fun text e h => ?_⟩
  obtain ⟨before, after, htext, hoffset, -⟩ := Query.ofText_refused h
  have hparen : text.toList[e.offset]? = some '(' := by
    rw [htext, hoffset]
    simp
  have hshown : Shown text e.offset '(' := shown_of_getElem? hparen (by decide) (by simp)
  refine ⟨hshown, ?_⟩
  obtain ⟨_, hline, hcolumn, -⟩ := hshown
  refine ⟨_, _, _, _, parseError_lines hline.unbroken, ?_⟩
  rw [List.getElem?_cons_succ, List.getElem?_cons_succ]
  exact hcolumn

/-- A phrase with a newline in it, and behind it a carriage return that ends no line and a parenthesis. -/
theorem caret_exact_behind_phrase :
    let text := "x\r\n\"é\n\\(\" y\r(z\r\n)"
    let e : ParseError := .unsupported .grouping 12
    Shown text 11 '\r' ∧ Query.ofText text = .error e ∧ Shown text e.offset '(' ∧
      ∃ head body column hint,
        (parseError text e).toList.splitOn '\n' =
          [head, body, List.replicate column ' ' ++ ['^'], hint] ∧ body[column]? = some '(' := by
  intro text e
  obtain ⟨hshown, hrefused⟩ := caret_exact
  have hreturn : Shown text 11 '\r' :=
    hshown text 11 '\r' (by decide +kernel) (by decide) (by decide +kernel)
  have h : Query.ofText text = .error e := by decide +kernel
  exact ⟨hreturn, h, hrefused text e h⟩

end SearchQuery.Report

import SearchQuery.Proofs.Json.Pretty
import SearchQuery.Report

/-! What is handed to a program can be had back. Members are looked up by their names, so that their order
does not matter, and everything of a query is found there: its text, how many numbers it has given out, and
its expression down to the field of each term. -/

namespace SearchQuery

namespace Json.Value

/-- The member of a name, if it is there once. -/
def member? (name : String) : Value → Option Value
  | object ms =>
    match ms.filter (·.1 == name) with
    | [(_, v)] => some v
    | _ => none
  | _ => none

def text? : Value → Option String
  | text s => some s
  | _ => none

def natural? : Value → Option Nat
  | number q => if q = q.num.toNat then some q.num.toNat else none
  | _ => none

def natural32? (v : Value) : Option UInt32 := do
  let n ← v.natural?
  if n < UInt32.size then some (UInt32.ofNat n) else none

def list? : Value → Option (List Value)
  | list vs => some vs
  | _ => none

def items? (name : String) (v : Value) : Option (List Value) := do (← v.member? name).list?

variable {name : String} {n : Nat} {v w : Value} {vs : List Value}

@[simp] theorem natural?_number : natural? (number n) = some n := by
  simp [natural?]

@[simp] theorem natural32?_number (n : UInt32) : natural32? (number n.toNat) = some n := by
  have hlt : n.toNat < UInt32.size := n.toNat_lt
  simp [natural32?, hlt]

theorem sizeOf_member? (h : v.member? name = some w) : sizeOf w < sizeOf v := by
  unfold member? at h
  split at h
  next ms =>
    split at h
    next other u hfilter =>
      cases h
      have hmem : (other, w) ∈ ms := by
        apply List.mem_of_mem_filter (p := fun m => m.1 == name)
        rw [hfilter]
        exact List.mem_singleton_self _
      have hlt := List.sizeOf_lt_of_mem hmem
      simp only [Prod.mk.sizeOf_spec, object.sizeOf_spec] at hlt ⊢
      omega
    · cases h
  · cases h

theorem sizeOf_items? (h : v.items? name = some vs) (hw : w ∈ vs) : sizeOf w < sizeOf v := by
  obtain ⟨u, hu, hvs⟩ := Option.bind_eq_some_iff.1 h
  have hmember := sizeOf_member? hu
  cases u with
  | list us =>
    cases hvs
    have hlt := List.sizeOf_lt_of_mem hw
    simp only [list.sizeOf_spec] at hmember
    omega
  | _ => cases hvs

end Json.Value

open Json (Value)

def Token.ofJson? (v : Value) : Option Token := do
  let kind ← Token.Kind.ofName? (← (← v.member? "kind").text?)
  let text ← (← v.member? "text").text?
  let offset ← (← v.member? "offset").natural?
  let length ← (← v.member? "length").natural?
  return ⟨kind, text, offset, length⟩

def Term.ofJson? (v : Value) : Option Term := do
  let id ← (← v.member? "id").natural32?
  let value ← (← v.member? "value").text?
  match v.member? "field" with
  | none => some ⟨id, value, none⟩
  | some f => f.text?.map fun f => ⟨id, value, some f⟩

/-- A run has terms, and a node has an operator and children. -/
def Expr.ofJson? (v : Value) : Option Expr :=
  match v.items? "terms" with
  | some ts => (ts.mapM Term.ofJson?).map .run
  | none =>
    match hcs : v.items? "children" with
    | some cs => do
      let op ← Operator.ofName? (← (← v.member? "operator").text?)
      let es ← cs.attach.mapM fun c =>
        have := Value.sizeOf_items? hcs c.2
        Expr.ofJson? c.1
      some (.node op es)
    | none => none
termination_by sizeOf v

def Query.ofJson? (v : Value) : Option (String × Query) := do
  let text ← (← v.member? "query").text?
  let issued ← (← v.member? "terms_allocated").natural32?
  let e ← Expr.ofJson? (← v.member? "expression")
  return (text, ⟨e, ⟨issued⟩⟩)

/-- The tokens of a list of them. -/
def Token.listOfJson? (v : Value) : Option (List Token) := do (← v.list?).mapM Token.ofJson?

theorem mapM_map_some {α β : Type} {f : α → β} {g : β → Option α} {as : List α}
    (h : ∀ a ∈ as, g (f a) = some a) : (as.map f).mapM g = some as := by
  induction as with
  | nil => rfl
  | cons a as ih =>
    obtain ⟨ha, has⟩ := List.forall_mem_cons.1 h
    rw [List.map_cons, List.mapM_cons, ha, ih has]
    rfl

theorem Token.Kind.ofName?_name (k : Token.Kind) : Token.Kind.ofName? k.name = some k := by
  cases k <;> decide

theorem Operator.ofName?_name (op : Operator) : Operator.ofName? op.name = some op := by
  cases op <;> decide

theorem Token.ofJson?_value (t : Token) : Token.ofJson? t.json.value = some t := by
  simp [Token.json, Json.value, Json.valuesOf, Token.ofJson?, Value.member?, Value.text?,
    Token.Kind.ofName?_name]

theorem Term.ofJson?_value (t : Term) : Term.ofJson? t.json.value = some t := by
  obtain ⟨id, value, field⟩ := t
  cases field <;>
    simp [Term.json, Json.value, Json.valuesOf, Term.ofJson?, Value.member?, Value.text?]

theorem Expr.jsonAll_eq (cs : List Expr) : Expr.jsonAll cs = cs.map Expr.json := by
  induction cs with
  | nil => rfl
  | cons c cs ih => rw [Expr.jsonAll, ih, List.map_cons]

theorem Expr.ofJson?_run {v : Value} {ts : List Value} (h : v.items? "terms" = some ts) :
    Expr.ofJson? v = (ts.mapM Term.ofJson?).map .run := by
  rw [Expr.ofJson?, h]

theorem Expr.ofJson?_node {v : Value} {cs : List Value} (hterms : v.items? "terms" = none)
    (h : v.items? "children" = some cs) :
    Expr.ofJson? v = (do
      let op ← Operator.ofName? (← (← v.member? "operator").text?)
      let es ← cs.mapM Expr.ofJson?
      some (.node op es)) := by
  rw [Expr.ofJson?, hterms]
  dsimp only
  split
  next cs' hcs =>
    obtain rfl := Option.some.inj (h.symm.trans hcs)
    have hattach : cs.attach.mapM (fun c => Expr.ofJson? c.1) = cs.mapM Expr.ofJson? := by
      rw [List.mapM_subtype fun _ _ => rfl, List.unattach_attach]
    rw [hattach]
  next hcs =>
    rw [h] at hcs
    cases hcs

theorem Expr.ofJson?_value (e : Expr) : Expr.ofJson? e.json.value = some e := by
  induction e using Expr.induct with
  | run ts =>
    have hitems : (Expr.run ts).json.value.items? "terms" =
        some ((ts.map Term.json).map Json.value) := by
      simp [Expr.json, Json.value, Json.valuesOf, Json.values_eq, Value.items?, Value.member?,
        Value.list?]
    have hterms : ((ts.map Term.json).map Json.value).mapM Term.ofJson? = some ts := by
      rw [List.map_map]
      exact mapM_map_some fun t _ => Term.ofJson?_value t
    rw [Expr.ofJson?_run hitems, hterms, Option.map_some]
  | node op cs ih =>
    have hnone : (Expr.node op cs).json.value.items? "terms" = none := by
      simp [Expr.json, Json.value, Json.valuesOf, Value.items?, Value.member?]
    have hitems : (Expr.node op cs).json.value.items? "children" =
        some ((cs.map Expr.json).map Json.value) := by
      simp [Expr.json, Expr.jsonAll_eq, Json.value, Json.valuesOf, Json.values_eq, Value.items?,
        Value.member?, Value.list?]
    have hoperator : (Expr.node op cs).json.value.member? "operator" = some (.text op.name) := by
      simp [Expr.json, Json.value, Json.valuesOf, Value.member?]
    have hcs : ((cs.map Expr.json).map Json.value).mapM Expr.ofJson? = some cs := by
      rw [List.map_map]
      exact mapM_map_some ih
    rw [Expr.ofJson?_node hnone hitems, hoperator, hcs]
    simp [Value.text?, Operator.ofName?_name]

theorem Query.ofJson?_value (text : String) (q : Query) :
    Query.ofJson? (q.json text).value = some (text, q) := by
  have he := Expr.ofJson?_value q.expr
  simp [Query.json, Json.value, Json.valuesOf, Query.ofJson?, Value.member?, Value.text?, he]

theorem Token.listOfJson?_value (ts : List Token) :
    Token.listOfJson? (Json.list (ts.map Token.json)).value = some ts := by
  rw [Json.value, Json.values_eq, List.map_map]
  exact mapM_map_some fun t _ => Token.ofJson?_value t

namespace Report

/-- The reader reads JSON, and from what it reads of a query or of tokens they are had back whole. -/
theorem json_lossless :
    (∀ (s : String) (v : Value), Json.read? s = some v ↔ Json.Written (.element v) s.toList) ∧
      (∀ text q, (Json.read? (query text q .json)).bind Query.ofJson? = some (text, q)) ∧
      (Function.Injective fun p : String × Query => query p.1 p.2 .json) ∧
      ∀ ts, (Json.read? (tokensJson ts)).bind Token.listOfJson? = some ts := by
  have hquery (text : String) (q : Query) :
      (Json.read? (query text q .json)).bind Query.ofJson? = some (text, q) := by
    rw [query, Json.read?_pretty]
    exact Query.ofJson?_value text q
  refine ⟨fun s v => Json.read?_eq_some, hquery, ?_, ?_⟩
  · intro p p' h
    have hback := congrArg (fun s => (Json.read? s).bind Query.ofJson?) h
    dsimp only at hback
    rw [hquery, hquery] at hback
    exact Option.some.inj hback
  · intro ts
    rw [tokensJson, Json.read?_pretty]
    exact Token.listOfJson?_value ts

end Report
end SearchQuery

import SearchQuery.Term

/-! Boolean expressions over runs of terms. Expressions are built with `terms`, `compound` and
the connectives of the module beside this one, which keep the empty expression out of every
node. -/

namespace SearchQuery

inductive Operator where
  /-- Matches nothing and adds nothing. -/
  | noop
  | and
  | or
  | not
  /-- Its children are scored as a unit. -/
  | boost
  /-- The operator of a run. -/
  | terms
  deriving DecidableEq, Repr, Inhabited

namespace Operator

def name : Operator → String
  | noop => "NOOP"
  | and => "AND"
  | or => "OR"
  | not => "NOT"
  | boost => "BOOST"
  | terms => "TERMS"

def all : List Operator := [noop, and, or, not, boost, terms]

def ofName? (name : String) : Option Operator := all.find? (·.name == name)

end Operator

inductive Expr where
  /-- Terms that stand side by side in the query. -/
  | run (terms : List Term)
  | node (operator : Operator) (children : List Expr)
  deriving Repr, Inhabited

namespace Expr

/-- Induction with a hypothesis for every child. -/
theorem induct {motive : Expr → Prop} (run : ∀ ts, motive (.run ts))
    (node : ∀ op cs, (∀ c ∈ cs, motive c) → motive (.node op cs)) : ∀ e, motive e
  | .run ts => run ts
  | .node op cs => node op cs fun c _ => induct run node c

mutual

def decEq : (a b : Expr) → Decidable (a = b)
  | .run ts, .run us =>
    if h : ts = us then isTrue (h ▸ rfl) else isFalse fun e => h (Expr.run.inj e)
  | .run _, .node _ _ => isFalse nofun
  | .node _ _, .run _ => isFalse nofun
  | .node p cs, .node q ds =>
    if h : p = q then
      match decEqList cs ds with
      | isTrue e => isTrue (by rw [h, e])
      | isFalse n => isFalse fun e => n (Expr.node.inj e).2
    else isFalse fun e => h (Expr.node.inj e).1

def decEqList : (as bs : List Expr) → Decidable (as = bs)
  | [], [] => isTrue rfl
  | [], _ :: _ => isFalse nofun
  | _ :: _, [] => isFalse nofun
  | a :: as, b :: bs =>
    match decEq a b, decEqList as bs with
    | isTrue h, isTrue k => isTrue (by rw [h, k])
    | isFalse n, _ => isFalse fun e => n (List.cons.inj e).1
    | _, isFalse n => isFalse fun e => n (List.cons.inj e).2

end

instance : DecidableEq Expr := decEq

def noop : Expr := .node .noop []

def operator : Expr → Operator
  | .run _ => .terms
  | .node op _ => op

def isNoop (e : Expr) : Bool := e.operator == .noop

def isRun : Expr → Bool
  | .run _ => true
  | .node _ _ => false

def children : Expr → List Expr
  | .run _ => []
  | .node _ cs => cs

def term (t : Term) : Expr := .run [t]

/-- A run, or the empty expression where there are no terms. -/
def terms (ts : List Term) : Expr := if ts.isEmpty then noop else .run ts

/-! ### On one line, and as an indented outline -/

mutual

def compact : Expr → String
  | .run ts => "[" ++ " ".intercalate (ts.map Term.display) ++ "]"
  | .node op cs => op.name ++ "(" ++ ", ".intercalate (compactAll cs) ++ ")"

def compactAll : List Expr → List String
  | [] => []
  | c :: cs => compact c :: compactAll cs

end

def indented (depth : Nat) (text : String) : String :=
  String.ofList (List.replicate (2 * depth) ' ') ++ text

mutual

/-- The lines of the outline, each one level below the node that holds it. -/
def outline (depth : Nat) : Expr → List String
  | .run ts => indented depth "Terms" :: ts.map fun t => indented (depth + 1) t.display
  | .node op cs => indented depth op.name :: outlineAll (depth + 1) cs

def outlineAll (depth : Nat) : List Expr → List String
  | [] => []
  | c :: cs => outline depth c ++ outlineAll depth cs

end

def tree (e : Expr) : String := String.join ((outline 0 e).map (· ++ "\n"))

end Expr
end SearchQuery

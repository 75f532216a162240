import SearchQuery.Expr.Basic

/-! The operations that grow an expression. Empty operands disappear, a connective absorbs
children of its own kind, and a double negation cancels. -/

namespace SearchQuery.Expr

def node? (op : Operator) (cs : List Expr) : Expr :=
  if cs.isEmpty then noop else .node op cs

/-- Shared rule of `and` and `or`: operands that carry `op` already lend their children. -/
def combine (op : Operator) (l r : Expr) : Expr :=
  if l.operator = op then
    if r.operator = op then .node op (l.children ++ r.children)
    else if r.isNoop then .node op l.children
    else .node op (l.children ++ [r])
  else if r.operator = op then
    if l.isNoop then .node op r.children else .node op (l :: r.children)
  else node? op ([l, r].filter fun e => !e.isNoop)

def and (l r : Expr) : Expr := combine .and l r

def or (l r : Expr) : Expr := combine .or l r

def appendTerm (e : Expr) (t : Term) : Expr :=
  match e with
  | .run ts => .run (ts ++ [t])
  | e => if e.isNoop then term t else e.or (term t)

def splice (e child : Expr) : Expr :=
  match child with
  | .run ts => ts.foldl appendTerm e
  | c => e.or c

/-- An operator over any children. The operator of a run splices its children; the empty
operator has none. -/
def compound (op : Operator) (cs : List Expr) : Expr :=
  let kept := cs.filter fun e => !e.isNoop
  match op with
  | .noop => noop
  | .terms => kept.foldl splice noop
  | op => node? op kept

def not (e : Expr) : Expr :=
  match e with
  | .node .not [c] => c
  | e => if e.isNoop then e else .node .not [e]

def wrap (e : Expr) : Expr :=
  match e with
  | .run ts => .node .boost [.run ts]
  | e => e

/-- Continues a query with what follows it. A disjunction and a conjunction go on as such, and
anything else is grouped with a run that follows and is an alternative to what is no run. -/
def extend (e rest : Expr) : Expr :=
  if rest.isNoop then e
  else match e.operator with
    | .or => e.or rest
    | .and => e.and rest
    | .noop => rest
    | .not | .boost | .terms => if rest.isRun then .node .boost [e, rest] else e.or rest

/-! ### The runs of an expression, in reading order -/

mutual

def runs : Expr → List (List Term)
  | .run ts => [ts]
  | .node _ cs => runsOf cs

def runsOf : List Expr → List (List Term)
  | [] => []
  | c :: cs => runs c ++ runsOf cs

end

variable {m : Type → Type} [Monad m]

mutual

/-- Replaces each run, first to last, by what `f` makes of it. -/
def mapRunsM (f : List Term → m Expr) : Expr → m Expr
  | .run ts => f ts
  | .node op cs => do
    let cs ← mapRunsOfM f cs
    return compound op cs

def mapRunsOfM (f : List Term → m Expr) : List Expr → m (List Expr)
  | [] => return []
  | c :: cs => do
    let c ← mapRunsM f c
    let cs ← mapRunsOfM f cs
    return c :: cs

end

def mapRuns (f : List Term → Expr) (e : Expr) : Expr := Id.run (mapRunsM (fun ts => pure (f ts)) e)

end SearchQuery.Expr

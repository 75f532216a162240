import SearchQuery.Query.Parser
import SearchQuery.Reading
import SearchQuery.Shingle

/-! Query texts to expressions. -/

namespace SearchQuery

/-- An expression with the source of its term numbers, so that it can be given more terms. -/
structure Query where
  expr : Expr
  ids : TermIds
  deriving DecidableEq, Repr

namespace Query

def ofTokens (ts : List Token) : Except ParseError Query :=
  let outcome := Parser.parse .start ts
  outcome.result.map fun e => ⟨e, outcome.ids⟩

def ofText (text : String) : Except ParseError Query := ofTokens (tokenize text)

/-- Reads a query to its end before parsing it, so a failed read wins over a parenthesis. -/
def ofReads (script : List ReadStep) : Except QueryError Query := do
  let ts ← (tokenStream script).allTokens.mapError .read
  (ofTokens ts).mapError .parse

def shingle (opts : Shingle.Options) (q : Query) : Query :=
  let (e, ids) := (q.expr.mapRunsM (Shingle.expand opts)).run q.ids
  ⟨e, ids⟩

end Query
end SearchQuery

import SearchQuery.Query

/-! Log records, and what is logged about a query on its way from text to expression. The records
follow from the results, so nothing that computes them has to know of a log. -/

namespace SearchQuery

namespace Log

inductive Level where
  | debug
  | trace
  deriving DecidableEq, Repr

def Level.name : Level → String
  | debug => "DEBUG"
  | trace => "TRACE"

/-- How often verbosity has to be asked for before records of a level show. -/
def Level.verbosity : Level → Nat
  | debug => 1
  | trace => 2

structure Record where
  level : Level
  /-- The part of the program that speaks. -/
  source : String
  text : String
  deriving DecidableEq, Repr

def indentLines (text : String) : String :=
  String.ofList (text.toList.flatMap fun c => if c = '\n' then '\n' :: List.replicate 4 ' ' else [c])

def Record.line (r : Record) : String :=
  "[" ++ r.level.name ++ " " ++ r.source ++ "] " ++ indentLines r.text ++ "\n"

end Log

namespace Trace

open Log (Record)

def lexer : String := "parceq::lexer"
def parser : String := "parceq::parser"
def term : String := "parceq::term"
def shingles : String := "parceq::shingle"
def query : String := "parceq::query"

/-- Each token as it is found, the mark of the end included, and how many there were. -/
def tokens (text : String) (ts : List Token) : List Record :=
  let size := text.length
  (ts ++ [Token.ending size]).map (fun t => ⟨.trace, lexer, "token " ++ t.display⟩) ++
    [⟨.debug, lexer, "tokenized " ++ toString size ++ " code points into " ++ toString ts.length
      ++ " tokens"⟩]

def parsing (outcome : Parser.Outcome) : List Record :=
  outcome.skipped.map (fun o =>
      ⟨.debug, parser, "skipping unmatched ')' at offset " ++ toString o⟩) ++
    match outcome.result with
    | .ok e => [⟨.debug, parser, "parsed expression " ++ e.compact⟩]
    | .error _ => []

def order (n : Nat) (run : List Term) : List Record :=
  run.map fun t => ⟨.trace, term,
    "derived term #" ++ toString t.id.toNat ++ " from " ++ toString n ++ " source terms"⟩

def expansion (opts : Shingle.Options) (ts : List Term) (ids : TermIds) : List Record × TermIds :=
  let orders := Shingle.orders opts.maxOrder.toNat ts.length
  let (extra, ids) := Shingle.runs opts.separator ts ids orders
  let summary : List Record := if extra.isEmpty then [] else [⟨.trace, shingles,
    "shingled " ++ toString ts.length ++ " terms into " ++ toString extra.length
      ++ " extra orders"⟩]
  ((List.zipWith order orders extra).flatten ++ summary, ids)

def shingling (opts : Shingle.Options) (q : Query) : List Record :=
  let (records, ids) := q.expr.runs.foldl (fun (records, ids) ts =>
    let (more, ids) := expansion opts ts ids
    (records ++ more, ids)) (([] : List Record), q.ids)
  records ++ [⟨.debug, query, "shingled query to order " ++ toString opts.maxOrder.toNat ++ ": "
    ++ toString ids.issued.toNat ++ " terms allocated"⟩]

end Trace
end SearchQuery

/-! Why a query text cannot be used. Almost every text is some query: only parentheses are
refused, and a text can fail to arrive. -/

namespace SearchQuery

/-- Constructs that are recognised and refused. -/
inductive Construct where
  | grouping
  deriving DecidableEq, Repr

def Construct.name : Construct → String
  | grouping => "parenthesized grouping"

inductive ParseError where
  /-- The offset is that of the refused token. -/
  | unsupported (construct : Construct) (offset : Nat)
  deriving DecidableEq, Repr

namespace ParseError

def construct : ParseError → Construct
  | unsupported c _ => c

def offset : ParseError → Nat
  | unsupported _ o => o

def message : ParseError → String
  | unsupported c o => c.name ++ " is not supported (at offset " ++ toString o ++ ")"

def suggestion : ParseError → String
  | unsupported .grouping _ =>
    "escape the parenthesis (\\() or quote the term to search for it literally"

end ParseError

inductive ReadFailure where
  | other
  | brokenPipe
  | unexpectedEof
  | timedOut
  /-- The read was broken off and can simply be tried again. -/
  | interrupted
  /-- The bytes that arrived are not UTF-8. -/
  | invalidData
  deriving DecidableEq, Repr

structure ReadError where
  failure : ReadFailure
  /-- What the source says about it. -/
  text : String
  deriving DecidableEq, Repr

namespace ReadError

def message (e : ReadError) : String := "failed to read query text: " ++ e.text

def malformed : ReadError := ⟨.invalidData, "query text is not valid UTF-8"⟩

end ReadError

inductive QueryError where
  | read (e : ReadError)
  | parse (e : ParseError)
  deriving DecidableEq, Repr

end SearchQuery

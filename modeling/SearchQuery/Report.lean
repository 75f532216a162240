import SearchQuery.Json
import SearchQuery.Query
import SearchQuery.Settings
import SearchQuery.Text.Columns

/-! Tokens, queries and refusals as they are shown to a person or handed to a program. -/

namespace SearchQuery

def Token.json (t : Token) : Json :=
  .object [("kind", .text t.kind.name), ("text", .text t.text), ("offset", .number t.offset),
    ("length", .number t.length)]

def Term.json (t : Term) : Json :=
  let field := match t.field with
    | some f => [("field", .text f)]
    | none => []
  .object ([("id", .number t.id.toNat), ("value", .text t.value)] ++ field)

namespace Expr

mutual

def json : Expr → Json
  | .run ts => .object [("terms", .list (ts.map Term.json))]
  | .node op cs => .object [("operator", .text op.name), ("children", .list (jsonAll cs))]

def jsonAll : List Expr → List Json
  | [] => []
  | c :: cs => json c :: jsonAll cs

end

end Expr

def Query.json (text : String) (q : Query) : Json :=
  .object [("query", .text text), ("terms_allocated", .number q.ids.issued.toNat),
    ("expression", q.expr.json)]

/-! ### Tables

A column is as wide as its widest cell, and cells have a space on both sides. -/

namespace Table

def widths (rows : List (List String)) : List Nat :=
  rows.foldl (fun ws row => List.zipWith max ws (row.map columns))
    (rows.headD [] |>.map fun _ => 0)

def pad (width : Nat) (text : String) : String :=
  text ++ String.ofList (List.replicate (width - columns text) ' ')

def rule (left fill joint right : Char) (ws : List Nat) : String :=
  left.toString
    ++ joint.toString.intercalate (ws.map fun w => String.ofList (List.replicate (w + 2) fill))
    ++ right.toString

def row (ws : List Nat) (cells : List String) : String :=
  "│ " ++ " ┆ ".intercalate (List.zipWith pad ws cells) ++ " │"

def lines (header : List String) (rows : List (List String)) : List String :=
  let ws := widths (header :: rows)
  [rule '┌' '─' '┬' '┐' ws, row ws header, rule '╞' '═' '╪' '╡' ws]
    ++ rows.map (row ws) ++ [rule '└' '─' '┴' '┘' ws]

def render (header : List String) (rows : List (List String)) : String :=
  "\n".intercalate (lines header rows)

end Table

namespace Report

def tokensJson (ts : List Token) : String := (Json.list (ts.map Token.json)).pretty

def tokenTable (ts : List Token) : String :=
  Table.render ["Kind", "Text", "Offset", "Length"]
    (ts.map fun t => [t.kind.name, quoted t.text, toString t.offset, toString t.length])

/-- An outline without the end of its last line. -/
def outline (e : Expr) : String := "\n".intercalate (e.outline 0)

def query (text : String) (q : Query) : OutputFormat → String
  | .tree => outline q.expr
  | .compact => q.expr.compact
  | .json => (q.json text).pretty

/-! ### Refusals

The line at fault is shown with a caret under the place. -/

/-- Splits off the line that code point number `offset` is on: the text from the start of that
line on, and how many code points of the line come before the offset. `line` is the text from
the start of the line reached so far, `column` how far into it `rest` begins. -/
def seek (line : List Char) (column : Nat) (offset : Nat) (rest : List Char) : List Char × Nat :=
  match offset, rest with
  | 0, _ => (line, column)
  | _ + 1, [] => (line, column)
  | n + 1, c :: rest => if c = '\n' then seek rest 0 n rest else seek line (column + 1) n rest

def dropReturn (line : List Char) : List Char :=
  if line.getLast? = some '\r' then line.dropLast else line

/-- The first line of a text, without the newline or the carriage return and newline that end
it. -/
def firstLine (text : List Char) : List Char :=
  let line := text.takeWhile (· ≠ '\n')
  if line.length < text.length then dropReturn line else line

def lineAt (text : String) (offset : Nat) : String × Nat :=
  let (line, column) := seek text.toList 0 offset text.toList
  (String.ofList (firstLine line), column)

def parseError (text : String) (e : ParseError) : String :=
  let (line, column) := lineAt text e.offset
  "error: " ++ e.message ++ "\n  " ++ line ++ "\n  "
    ++ String.ofList (List.replicate column ' ') ++ "^\nhint: " ++ e.suggestion

end Report
end SearchQuery

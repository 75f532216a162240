import SearchQuery.Query.Error
import SearchQuery.Text.Utf8
import SearchQuery.Token.Lexer

/-! Text that arrives in pieces. A source is the list of what its reads bring; every byte and
every failure that comes of it is stamped with the number of reads it took, so that what a
consumer waits for can be told from what it gets. -/

namespace SearchQuery

/-- What one read brings. Bytes that a buffer has no room for are kept for later, which
nothing here can notice. -/
inductive ReadStep where
  | bytes (data : List UInt8)
  | fail (error : ReadError)
  deriving DecidableEq, Repr

/-- Something together with how many reads had been begun when it was there. -/
structure Stamped (α : Type) where
  value : α
  reads : Nat
  deriving DecidableEq, Repr

inductive ReadEvent where
  | byte (b : UInt8)
  | failure (error : ReadError)
  /-- A read brought nothing, which means the end of the text to whoever asked. -/
  | lull
  deriving DecidableEq, Repr

namespace ReadStep

/-- An interrupted read is tried again and leaves no trace but its count. -/
def events : ReadStep → List ReadEvent
  | .bytes [] => [.lull]
  | .bytes data => data.map .byte
  | .fail e => if e.failure = .interrupted then [] else [.failure e]

def eventsFrom (n : Nat) : List ReadStep → List (Stamped ReadEvent)
  | [] => []
  | s :: ss => s.events.map (⟨·, n⟩) ++ eventsFrom (n + 1) ss

end ReadStep

structure CodeReader where
  decoder : Utf8.Decoder
  /-- What has come out so far. -/
  items : Array (Stamped (Except ReadError Char))
  /-- Set when the end was met: the number of reads begun by then. -/
  ended : Option Nat

namespace CodeReader

def start : CodeReader := ⟨.idle, #[], none⟩

def put (r : CodeReader) (item : Except ReadError Char) (reads : Nat) : CodeReader :=
  ⟨.idle, r.items.push ⟨item, reads⟩, r.ended⟩

/-- An end where a code point could begin ends the text; inside a code point it is an error. -/
def pause (r : CodeReader) (reads : Nat) : CodeReader :=
  match r.decoder with
  | .idle => ⟨.idle, r.items, some reads⟩
  | .within .. => r.put (.error .malformed) reads

def next (r : CodeReader) (e : Stamped ReadEvent) : CodeReader :=
  if r.ended.isSome then r
  else match e.value with
    | .byte b =>
      match r.decoder.step b with
      | (none, d) => ⟨d, r.items, none⟩
      | (some (.code c), _) => r.put (.ok c) e.reads
      -- whatever went wrong, the next byte is tried as the first of a code point
      | (some .malformed, _) => r.put (.error .malformed) e.reads
    | .failure err => r.put (.error err) e.reads
    | .lull => r.pause e.reads

def finish (r : CodeReader) (reads : Nat) : CodeReader :=
  if r.ended.isSome then r
  else match r.decoder with
    | .idle => ⟨.idle, r.items, some reads⟩
    -- a code point cut short is an error first
    | .within .. => { r.put (.error .malformed) reads with ended := some reads }

end CodeReader

def readCodes (script : List ReadStep) : CodeReader :=
  ((ReadStep.eventsFrom 1 script).foldl CodeReader.next .start).finish script.length

/-! ### The tokens of such a text

Each token is stamped with the number of reads it took. A failed read ends the stream, and a token
under way is lost with it. -/

structure TokenStream where
  lexer : Lexer
  items : Array (Stamped (Except ReadError Token))
  failed : Bool

namespace TokenStream

def start : TokenStream := ⟨.start, #[], false⟩

def put (s : TokenStream) (tokens : List Token) (reads : Nat) : TokenStream :=
  { s with items := tokens.foldl (fun items t => items.push ⟨.ok t, reads⟩) s.items }

def next (s : TokenStream) (item : Stamped (Except ReadError Char)) : TokenStream :=
  if s.failed then s
  else match item.value with
    | .error e => { s with items := s.items.push ⟨.error e, item.reads⟩, failed := true }
    | .ok c =>
      let (tokens, lexer) := s.lexer.step c
      { s with lexer := lexer }.put tokens item.reads

def finish (s : TokenStream) (reads : Nat) : TokenStream :=
  if s.failed then s
  else s.put (s.lexer.finish ++ [Token.ending s.lexer.position]) reads

def allTokens (s : TokenStream) : Except ReadError (List Token) := s.items.toList.mapM (·.value)

end TokenStream

def tokenStream (script : List ReadStep) : TokenStream :=
  let codes := readCodes script
  (codes.items.foldl TokenStream.next .start).finish (codes.ended.getD script.length)

end SearchQuery

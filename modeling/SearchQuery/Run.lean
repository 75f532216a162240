import SearchQuery.CommandLine
import SearchQuery.Report
import SearchQuery.Settings.Search
import SearchQuery.Trace

/-! The commands, as functions of the files they find and the text they are given. -/

namespace SearchQuery

structure Place where
  tree : FileTree
  cwd : Path
  home : Path
  /-- How the root of the files is written. -/
  root : String
  input : List UInt8

inductive Note where
  | log (r : Log.Record)
  | line (text : String)
  deriving DecidableEq, Repr

structure Outcome where
  code : Nat
  output : String
  notes : List Note
  tree : FileTree

namespace Outcome

/-- The error output. What is logged depends on the verbosity, what is reported does not. -/
def errorOutput (o : Outcome) (verbosity : Nat) : String :=
  String.join (o.notes.map fun
    | .log r => if r.level.verbosity ≤ verbosity then r.line else ""
    | .line text => text ++ "\n")

def after (o : Outcome) (records : List Log.Record) : Outcome :=
  { o with notes := records.map .log ++ o.notes }

end Outcome

namespace Place

def context : String := "parceq_cli::cli::context"
def shared : String := "parceq_cli::cli::commands::shared"
def tokensCommand : String := "parceq_cli::cli::commands::tokens"
def discovery : String := "parceq_config::discovery"

def succeed (p : Place) (output : String) : Outcome := ⟨0, output, [], p.tree⟩

def fail (p : Place) (text : String) : Outcome := ⟨1, "", [.line text], p.tree⟩

def display (p : Place) (path : Path) : String := path.display p.root

/-- Leaves the line ends at the end of a text away: only spaces separate words, so they would
become part of the last one. -/
def dropLineEnds (text : String) : String :=
  String.ofList (text.toList.reverse.dropWhile fun c => c == '\n' || c == '\r').reverse

def withText (p : Place) (query : Option String) (next : String → Outcome) : Outcome :=
  match query with
  | some text => next text
  | none =>
    match Utf8.decode? p.input with
    | none =>
      p.fail ("error: " ++ (ReadError.mk .invalidData FileError.notText.message).message)
    | some text =>
      let text := dropLineEnds text
      (next text).after [⟨.debug, shared,
        "read " ++ toString text.utf8ByteSize ++ " bytes of query text from stdin"⟩]

def withConfig (p : Place) (next : Config Path → Outcome) : Outcome :=
  let found := Settings.search p.tree p.cwd p.home
  let closing : List Log.Record := found.closedBy.toList.map fun dir =>
    ⟨.debug, discovery, "configuration search closed by " ++ p.display dir⟩
  match Settings.loadFiles p.tree found.files with
  | .error e =>
    (p.fail ("error: failed to load configuration: " ++ e.message p.root)).after closing
  | .ok config =>
    let loaded := if config.sources.isEmpty then "no configuration files found, using defaults"
      else "loaded configuration from ["
        ++ ", ".intercalate (config.sources.map fun path => quotedName (p.display path)) ++ "]"
    (next config).after (closing ++ [⟨.debug, context, loaded⟩])

def tokens (p : Place) (query : Option String) (json : Bool) : Outcome :=
  p.withText query fun text =>
    let ts := tokenize text
    let shown := if json then Report.tokensJson ts
      else if ts.isEmpty then "(no tokens)"
      else Report.tokenTable ts
    (p.succeed (shown ++ "\n")).after (Trace.tokens text ts ++
      [⟨.debug, tokensCommand, "lexed " ++ toString ts.length ++ " tokens"⟩])

def parse (p : Place) (query : Option String) (opts : Shingle.Options) (format : OutputFormat) :
    Outcome :=
  p.withText query fun text =>
    let ts := tokenize text
    let outcome := Parser.parse .start ts
    let records := Trace.tokens text ts ++ Trace.parsing outcome
    match outcome.result with
    | .error e => (p.fail (Report.parseError text e)).after records
    | .ok e =>
      let q : Query := ⟨e, outcome.ids⟩
      if 1 < opts.maxOrder then
        (p.succeed (Report.query text (q.shingle opts) format ++ "\n")).after
          (records ++ Trace.shingling opts q)
      else (p.succeed (Report.query text q format ++ "\n")).after records

def config (p : Place) (c : Config Path) : Outcome :=
  let origin := if c.sources.isEmpty then "# no configuration files found, showing defaults\n"
    else String.join (c.sources.map fun path => "# from " ++ p.display path ++ "\n")
  p.succeed (origin ++ c.settings.toToml)

/-- Writes a settings file to start from. In the home directory it is the user's own. -/
def init (p : Place) (everywhere force : Bool) : Outcome :=
  let path := Settings.fileIn (if everywhere || p.cwd == p.home then p.home else p.cwd)
  if (p.tree.get? path).isSome && !force then
    p.fail ("error: configuration file already exists: " ++ p.display path
      ++ "\nuse --force to overwrite")
  else match p.tree.write path (Utf8.encode Settings.template) with
    | .error cause => p.fail ("error: failed to write " ++ p.display path ++ ": " ++ cause.message)
    | .ok tree =>
      { p.succeed ("Created " ++ p.display path ++ "\n\n" ++ Settings.template) with tree := tree }

def run (p : Place) : Command → Outcome
  | .tokens query json => p.tokens query json
  | .parse query shingle separator format =>
    p.withConfig fun c =>
      -- what is given as an argument overrides the settings
      p.parse query
        ⟨shingle.getD c.settings.shingle.maxOrder, separator.getD c.settings.shingle.separator⟩
        (format.getD c.settings.format)
  | .config => p.withConfig p.config
  | .init everywhere force => p.init everywhere force

end Place
end SearchQuery

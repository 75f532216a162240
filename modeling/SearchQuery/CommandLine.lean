import SearchQuery.Settings

/-! The command line: what may be asked for, and how the arguments ask for it. An argument
counts when the next one is read, so of two faults the one in front need not win. -/

namespace SearchQuery

inductive Command where
  | tokens (query : Option String) (json : Bool)
  | parse (query : Option String) (shingle : Option UInt64) (separator : Option String)
      (format : Option OutputFormat)
  | config
  | init (everywhere force : Bool)
  deriving DecidableEq, Repr

def Command.usesSettings : Command → Bool
  | parse .. | config => true
  | tokens .. | init .. => false

structure Invocation where
  /-- How much is logged: nothing, the main steps, everything. -/
  verbosity : Nat
  command : Command
  deriving DecidableEq, Repr

inductive UsageError where
  /-- Help was asked for, which is no mistake. -/
  | help
  | noArguments
  | noCommand
  | unknownCommand
  | unknownArgument
  | missingValue
  | repeated
  | unwantedValue
  | badValue (message : String)
  deriving DecidableEq, Repr

def UsageError.code : UsageError → Nat
  | help => 0
  | _ => 2

def UsageError.message : UsageError → String
  | help | noArguments =>
    "usage: parceq [-v] tokens [QUERY] [--json]\n" ++
    "       parceq [-v] parse [QUERY] [-s ORDER] [--separator TEXT] [-f FORMAT]\n" ++
    "       parceq [-v] config\n" ++
    "       parceq [-v] init [--global] [--force]"
  | noCommand => "error: a command is required"
  | unknownCommand => "error: unrecognized command"
  | unknownArgument => "error: unexpected argument"
  | missingValue => "error: a value is required for an option"
  | repeated => "error: an option was given more than once"
  | unwantedValue => "error: unexpected value for a flag"
  | badValue message => "error: invalid value: " ++ message

namespace CommandLine

inductive Flag where
  | verbose
  | help
  | json
  | everywhere
  | force
  deriving DecidableEq, Repr

inductive Valued where
  | shingle
  | separator
  | format
  deriving DecidableEq, Repr

inductive Switch where
  | flag (f : Flag)
  | valued (o : Valued)
  deriving DecidableEq, Repr

structure Accepts where
  long : List (String × Switch)
  short : List (Char × Switch)
  query : Bool

def common : Accepts :=
  ⟨[("verbose", .flag .verbose), ("help", .flag .help)],
    [('v', .flag .verbose), ('h', .flag .help)], false⟩

def forTokens : Accepts := ⟨("json", .flag .json) :: common.long, common.short, true⟩

def forParse : Accepts :=
  ⟨("shingle", .valued .shingle) :: ("separator", .valued .separator)
      :: ("format", .valued .format) :: common.long,
    ('s', .valued .shingle) :: ('f', .valued .format) :: common.short, true⟩

def forInit : Accepts :=
  ⟨("global", .flag .everywhere) :: ("force", .flag .force) :: common.long, common.short, false⟩

structure Given where
  verbosity : Nat
  flags : List Flag
  query : Option String
  shingle : Option UInt64
  separator : Option String
  format : Option OutputFormat

/-- The last argument, as long as the next may still belong to it. -/
inductive Pending where
  | none
  | awaiting (o : Valued)
  | value (o : Valued) (text : String)
  | query (text : String)

structure Progress where
  given : Given
  pending : Pending
  /-- Set by the one argument that is no option. -/
  hasQuery : Bool

def start : Progress := ⟨⟨0, [], none, none, none, none⟩, .none, false⟩

/-- Digits of a number below 2 ^ 64, after those that made `n`. The first digit that is wrong
or too many counts. -/
def countFrom (n : Nat) : List Char → Except String UInt64
  | [] => .ok n.toUInt64
  | c :: r =>
    if !c.isDigit then .error "invalid digit found in string"
    else
      let n := n * 10 + (c.toNat - 0x30)
      if n < 2 ^ 64 then countFrom n r else .error "number too large to fit in target type"

def count (text : List Char) : Except String UInt64 :=
  match text with
  | [] => .error "cannot parse integer from empty string"
  | ['+'] => .error "invalid digit found in string"
  | '+' :: r => countFrom 0 r
  | s => countFrom 0 s

def order (text : String) : Except String UInt64 := do
  let n ← count text.toList
  if n = 0 then .error "shingle order must be at least 1" else return n

def setFlag (f : Flag) (g : Given) : Except UsageError Given :=
  match f with
  | .help => .error .help
  | .verbose => .ok { g with verbosity := min 255 (g.verbosity + 1) }
  | f => if g.flags.contains f then .error .repeated else .ok { g with flags := f :: g.flags }

def setValue (o : Valued) (text : String) (g : Given) : Except UsageError Given :=
  match o with
  | .shingle =>
    if g.shingle.isSome then .error .repeated
    else match order text with
      | .ok n => .ok { g with shingle := some n }
      | .error message => .error (.badValue message)
  | .separator =>
    if g.separator.isSome then .error .repeated else .ok { g with separator := some text }
  | .format =>
    if g.format.isSome then .error .repeated
    else match OutputFormat.ofInput text with
      | .ok f => .ok { g with format := some f }
      | .error e => .error (.badValue e.message)

def settle (p : Progress) : Except UsageError Progress :=
  match p.pending with
  | .none => .ok p
  | .awaiting _ => .error .missingValue
  | .value o text => do return ⟨← setValue o text p.given, .none, p.hasQuery⟩
  | .query text => .ok ⟨{ p.given with query := some text }, .none, p.hasQuery⟩

def takeFlag (f : Flag) (p : Progress) : Except UsageError Progress := do
  let p ← settle p
  return { p with given := ← setFlag f p.given }

def takeValued (o : Valued) (text : Option String) (p : Progress) : Except UsageError Progress := do
  let p ← settle p
  match text with
  | some text => return { p with given := ← setValue o text p.given }
  | none => return { p with pending := .awaiting o }

def takeLong (a : Accepts) (text : List Char) (p : Progress) : Except UsageError Progress :=
  let name := String.ofList (text.takeWhile (· != '='))
  let value := match text.dropWhile (· != '=') with
    | [] => none
    | _ :: r => some (String.ofList r)
  match a.long.lookup name with
  | none => .error .unknownArgument
  | some (.flag f) => if value.isSome then .error .unwantedValue else takeFlag f p
  | some (.valued o) => takeValued o value p

/-- Letters behind one dash: flags, and at the end an option with or without its value. -/
def takeShort (a : Accepts) (p : Progress) : List Char → Except UsageError Progress
  | [] => .ok p
  | c :: r =>
    match a.short.lookup c with
    | none => .error .unknownArgument
    | some (.flag f) => do takeShort a (← takeFlag f p) r
    | some (.valued o) =>
      takeValued o (match r with
        | [] => none
        | '=' :: r => some (String.ofList r)
        | r => some (String.ofList r)) p

def takePlain (a : Accepts) (text : String) (p : Progress) : Except UsageError Progress :=
  if a.query && !p.hasQuery then do return ⟨(← settle p).given, .query text, true⟩
  else .error .unknownArgument

/-- The arguments of a command; behind `--` all stand for themselves. -/
def takeAll (a : Accepts) (literally : Bool) (p : Progress) :
    List String → Except UsageError Progress
  | [] => settle p
  | arg :: rest =>
    if literally then do takeAll a true (← takePlain a arg p) rest
    else match arg.toList with
      | ['-', '-'] => takeAll a true p rest
      | '-' :: '-' :: text => do takeAll a false (← takeLong a text p) rest
      | '-' :: c :: text => do takeAll a false (← takeShort a p (c :: text)) rest
      | _ =>
        match p.pending with
        | .awaiting o => takeAll a false { p with pending := .value o arg } rest
        | _ => do takeAll a false (← takePlain a arg p) rest

def commands : List (String × Accepts × (Given → Command)) :=
  [("tokens", forTokens, fun g => .tokens g.query (g.flags.contains .json)),
    ("parse", forParse, fun g => .parse g.query g.shingle g.separator g.format),
    ("config", common, fun _ => .config),
    ("init", forInit, fun g => .init (g.flags.contains .everywhere) (g.flags.contains .force))]

/-- Help can be asked for as if it were a command, also on a command. -/
def isName (name : String) : Bool := name == "help" || (commands.lookup name).isSome

def help : List String → UsageError
  | [] => .help
  | [name] => if isName name then .help else .unknownCommand
  | _ => .unknownCommand

/-- All arguments, up to the name of the command and on with what the command understands. Of
the flags on both sides of the name the ones behind it count. -/
def takeCommand (literally : Bool) (p : Progress) : List String → Except UsageError Invocation
  | [] => .error (if p.given.verbosity = 0 then .noArguments else .noCommand)
  | arg :: rest =>
    if literally then .error (if isName arg then .unknownArgument else .unknownCommand)
    else if arg = "help" then .error (help rest)
    else match commands.lookup arg with
      | some (accepts, make) => do
        let q ← takeAll accepts false start rest
        let verbosity := if q.given.verbosity = 0 then p.given.verbosity else q.given.verbosity
        return ⟨verbosity, make q.given⟩
      | none =>
        match arg.toList with
        | ['-', '-'] => takeCommand true p rest
        | '-' :: '-' :: text => do takeCommand false (← takeLong common text p) rest
        | '-' :: c :: text => do takeCommand false (← takeShort common p (c :: text)) rest
        | _ => .error .unknownCommand

end CommandLine

def Invocation.ofArgs (args : List String) : Except UsageError Invocation :=
  CommandLine.takeCommand false CommandLine.start args

end SearchQuery

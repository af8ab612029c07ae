import LoxLang.Script
import LoxLang.Session

/-!
# The command line

Arguments are taken from left to right, and the first that asks for help or is refused
decides. Options may stand before and behind the script; each may be given once.
-/

namespace LoxLang.CommandLine

structure Options where
  pretty : Bool := false
  tokens : Bool := false
  verbose : Bool := false

inductive Flag where
  | pretty
  | tokens
  | verbose
  | help
deriving DecidableEq

def Flag.ofLong? : String → Option Flag
  | "pretty-errors" => some .pretty
  | "tokens" => some .tokens
  | "verbose" => some .verbose
  | "help" => some .help
  | _ => none

def Flag.ofShort? : Char → Option Flag
  | 'v' => some .verbose
  | 'h' => some .help
  | _ => none

inductive Request where
  | help
  | refused (argument : String)
  | tooManyScripts (options : Options)
  | interactive (options : Options)
  | script (path : String) (options : Options)

/-- Sets the options of flags in order. `help` ends the command line, and so does a flag
that is unknown or was given before. -/
def Options.setAll (argument : String) : Options → List (Option Flag) → Except Request Options
  | options, [] => .ok options
  | _, some .help :: _ => .error .help
  | options, some .pretty :: rest =>
    if options.pretty then .error (.refused argument)
    else setAll argument { options with pretty := true } rest
  | options, some .tokens :: rest =>
    if options.tokens then .error (.refused argument)
    else setAll argument { options with tokens := true } rest
  | options, some .verbose :: rest =>
    if options.verbose then .error (.refused argument)
    else setAll argument { options with verbose := true } rest
  | _, none :: _ => .error (.refused argument)

def Request.ofScripts (options : Options) : List String → Request
  | [] => .interactive options
  | [path] => .script path options
  | _ => .tooManyScripts options

/-- What is asked for by the arguments behind those that gave `options` and `scripts`. -/
def parseFrom (options : Options) (scripts : List String) : List String → Request
  | [] => .ofScripts options scripts
  | argument :: rest =>
    let go (flags : List (Option Flag)) : Request :=
      match options.setAll argument flags with
      | .ok options => parseFrom options scripts rest
      | .error request => request
    match argument.toList with
    | ['-', '-'] => .ofScripts options (scripts ++ rest)
    | '-' :: '-' :: name => go [Flag.ofLong? (String.ofList name)]
    | '-' :: letter :: letters => go ((letter :: letters).map Flag.ofShort?)
    | _ => parseFrom options (scripts ++ [argument]) rest

def parse (arguments : List String) : Request := parseFrom {} [] arguments

def Options.config (options : Options) : Config where
  style := if options.pretty then .pretty else .plain
  tokensOnly := options.tokens

/-- The machine that starts with a sink. The filter of its log is read from the text given
for it, with warnings about that, or else is what the options ask for. -/
def Options.machine (options : Options) (logText : Option String) (sink : Sink) : Machine :=
  match logText with
  | some text =>
    let (filter, warnings) := Log.Filter.ofText text
    let start : Machine := { sink := sink, filter := filter }
    warnings.foldl
      (fun machine warning => machine.complain s!"warning: {warning.message}, ignoring it\n") start
  | none => { sink := sink, filter := .upTo (if options.verbose then .debug else .warn) }

def helpLines : List String :=
  ["A tree-walking interpreter for the Lox language",
    "",
    "Usage: lox [OPTIONS] [SCRIPT]...",
    "",
    "Arguments:",
    "  [SCRIPT]...  The script file to execute; starts a REPL when omitted",
    "",
    "Options:",
    "      --pretty-errors  Render errors with annotated source excerpts",
    "      --tokens         Print the scanned tokens, one per line, instead of running",
    "  -v, --verbose        Log interpreter internals (overridden by LOX_LOG)",
    "  -h, --help           Print help"]

def help : String := String.join (helpLines.map (· ++ "\n"))

def usage : String := "Usage: lox [script]\n"

def exitRefused : Nat := 2

def exitUsage : Nat := 64

/-- The exit status when a session ended because of its input or output. -/
def exitSession : Nat := 1

/-- What surrounds a program: the filter text for its log, its files, its input and output. -/
structure Surroundings where
  logText : Option String
  readFile : String → Except String (List UInt8)
  input : List UInt8
  sink : Sink

/-- Does what is asked for; the result is the exit status. -/
def Request.perform (rounds : Nat) (around : Surroundings) : Request → Option (Nat × Machine)
  | .help => some (0, { sink := (around.sink.write (Text.Utf8.encode CommandLine.help)).2 })
  | .refused argument =>
    let machine : Machine := { sink := around.sink }
    some (exitRefused, machine.complain s!"error: unexpected argument '{argument}'\n")
  | .tooManyScripts options =>
    let machine := options.machine around.logText around.sink
    some (exitUsage, { machine with sink := (machine.sink.write (Text.Utf8.encode usage)).2 })
  | .interactive options =>
    let machine := options.machine around.logText around.sink
    match Session.run rounds options.config around.input machine with
    | none => none
    | some (.ok (), machine) => some (0, machine)
    | some (.error reason, machine) =>
      some (exitSession, machine.complain s!"Error reading input: {reason}\n")
  | .script path options =>
    let machine := options.machine around.logText around.sink
    runScript rounds options.config path (around.readFile path) machine

end LoxLang.CommandLine

import FlatGraph.Command
import FlatGraph.Text.Cut

/-!
# Arguments

The arguments of the command line are switches and the name of a command, with switches of its
own behind it:

    --schema schema.json flatten --input person.json -t Person -fjson

A switch is given by its name or by its letter. Its value is the next argument, or follows an `=`,
or the letter. Letters of switches without a value may be joined. No switch may be repeated,
except that one of all commands may stand before the command and behind it again, where it counts.

* `Invocation.ofArguments` reads the arguments.
-/

namespace FlatGraph

namespace Arguments

open Text (after? cut?)

/-! ## Switches -/

/-- What a switch takes. -/
inductive Takes where
  | nothing
  /-- A path, which is not empty. -/
  | path
  | text
deriving DecidableEq, Repr

/-- A switch. -/
inductive Switch where
  | schema | config | verbose | input | type | format | help | version
deriving DecidableEq, Repr

namespace Switch

/-- The name of a switch, behind two dashes. -/
def name : Switch → String
  | .schema => "schema"
  | .config => "config"
  | .verbose => "verbose"
  | .input => "input"
  | .type => "type"
  | .format => "format"
  | .help => "help"
  | .version => "version"

/-- The letter of a switch, behind one dash. -/
def letter : Switch → Char
  | .schema => 's'
  | .config => 'c'
  | .verbose => 'v'
  | .input => 'i'
  | .type => 't'
  | .format => 'f'
  | .help => 'h'
  | .version => 'V'

/-- What a switch takes. -/
def takes : Switch → Takes
  | .verbose | .help | .version => .nothing
  | .schema | .config | .input => .path
  | .type | .format => .text

end Switch

/-- The switches of all commands. -/
def shared : List Switch := [.schema, .config, .verbose, .help]

/-- What ends the reading of the arguments, other than their end. -/
inductive Stop where
  /-- The arguments cannot be understood. -/
  | misuse
  /-- The arguments ask for help. -/
  | help
  /-- The arguments ask for the version. -/
  | version
deriving DecidableEq, Repr

/-- The switches that were given, with their values. -/
abbrev Settings := List (Switch × String)

/-- Takes note of a switch and its value. -/
def give (given : Settings) (s : Switch) (value : String) : Except Stop Settings :=
  if s = .help then .error .help
  else if s = .version then .error .version
  else if given.any (·.1 = s) ∨ (s.takes = .path ∧ value = "") then .error .misuse
  else .ok (given ++ [(s, value)])

/-! ## Single arguments -/

/-- Reads a switch that is given by its name; yields it again if it waits for its value. -/
def readName (known : List Switch) (given : Settings) (text : String) :
    Except Stop (Settings × Option Switch) := do
  let (name, value?) := match cut? '=' text with
    | some (name, value) => (name, some value)
    | none => (text, none)
  match known.find? (·.name == name) with
  | none => throw .misuse
  | some s =>
    match s.takes, value? with
    | .nothing, none => pure (← give given s "", none)
    | .nothing, some _ => throw .misuse
    | _, some value => pure (← give given s value, none)
    | _, none => pure (given, some s)

/-- Reads switches that are given by their letters; yields the last one again if it waits for its
value. -/
def readLetters (known : List Switch) (given : Settings) :
    List Char → Except Stop (Settings × Option Switch)
  | [] => pure (given, none)
  | c :: cs => do
    match known.find? (·.letter == c) with
    | none => throw .misuse
    | some s =>
      if s.takes = .nothing then readLetters known (← give given s "") cs
      else match cs with
        | [] => pure (given, some s)
        | '=' :: value => pure (← give given s (.ofList value), none)
        | value => pure (← give given s (.ofList value), none)

/-- Reads an argument that is no value. -/
def readArgument (known : List Switch) (given : Settings) (arg : String) :
    Except Stop (Settings × Option Switch) :=
  match after? "--" arg, after? "-" arg with
  | some text, _ => readName known given text
  | none, some text =>
    if text = "" then .error .misuse else readLetters known given text.toList
  | none, none => .error .misuse

/-- Whether an argument can be the value of the switch before it. -/
def isValue (arg : String) : Bool := arg == "-" || (after? "-" arg).isNone

/-! ## All arguments -/

/-- Reads arguments up to one of `ends`; yields the settings and the arguments from there on. A
switch may wait for its value. Two dashes end the switches. -/
def readUntil (known : List Switch) (ends : List String) :
    Option Switch → Settings → List String → Except Stop (Settings × List String)
  | none, given, [] => .ok (given, [])
  | some _, _, [] => .error .misuse
  | some s, given, arg :: args => do
    if isValue arg then readUntil known ends none (← give given s arg) args else throw .misuse
  | none, given, arg :: args => do
    if ends.contains arg then pure (given, arg :: args)
    else if arg = "--" then if args.isEmpty then pure (given, []) else throw .misuse
    else
      let (given, waiting) ← readArgument known given arg
      readUntil known ends waiting given args

/-- The names of the commands. -/
def commandNames : List String := ["flatten", "read", "indexes", "version", "help"]

/-- The switches that a command has of its own. -/
def ownSwitches (command : String) : List Switch :=
  if command = "flatten" then [.input, .type, .format]
  else if command = "read" then [.input, .type]
  else if command = "indexes" then [.format]
  else []

/-- The command of the given name with its settings. -/
def command (name : String) (given : Settings) : Except Stop Command :=
  let format := (given.lookup .format).getD "text"
  match name, given.lookup .input, given.lookup .type with
  | "flatten", some input, type => .ok (.flatten input type format)
  | "read", some input, some type => .ok (.read input type)
  | "indexes", _, _ => .ok (.indexes format)
  | "version", _, _ => .ok .version
  | _, _, _ => .error .misuse

/-- What follows the command `help`: at most the name of a command. -/
def readHelp : List String → Stop
  | [] => .help
  | [name] => if commandNames.contains name then .help else .misuse
  | _ => .misuse

end Arguments

open Arguments in
/-- Reads the arguments of the command line. -/
def Invocation.ofArguments (args : List String) : Except Stop Invocation := do
  let (before, rest) ← readUntil (.version :: shared) commandNames none [] args
  match rest with
  | [] => throw .misuse
  | "help" :: args => throw (readHelp args)
  | name :: args =>
    let (own, _) ← readUntil (ownSwitches name ++ shared) [] none [] args
    let given := own ++ before
    pure {
      command := ← Arguments.command name own
      schema := given.lookup .schema
      config := given.lookup .config }

/-! ## Replies -/

/-- How the program ends. -/
structure Reply where
  code : UInt8
  output : String := ""
  complaint : String := ""
deriving DecidableEq, Repr

namespace Reply

/-- How the program is used. -/
def usage : String := Report.ofLines [
  "Usage: hashkv [OPTIONS] <COMMAND>",
  "",
  "Commands:",
  "  flatten  Flatten a JSON document into hash entries",
  "  read     Rebuild a JSON document from hash entries",
  "  indexes  List index definitions",
  "  version  Show version information",
  "",
  "Options:",
  "  -s, --schema <SCHEMA>  Path to the schema file (JSON)",
  "  -c, --config <CONFIG>  Path to the converter configuration file (JSON)",
  "  -i, --input <INPUT>    Path to the JSON document (flatten, read)",
  "  -t, --type <TYPE>      Root type (flatten, read)",
  "  -f, --format <FORMAT>  Output format: text or json (flatten, indexes)",
  "  -v, --verbose          Enable verbose output",
  "  -h, --help             Print help",
  "  -V, --version          Print version"]

/-- The reply to arguments that name no command to run. -/
def ofStop : Arguments.Stop → Reply
  | .misuse => { code := 2, complaint := usage }
  | .help => { code := 0, output := usage }
  | .version => { code := 0, output := Report.ofLines ["hashkv 0.3.0"] }

/-- The reply to a command. -/
def ofInvocation (files : Files) (i : Invocation) : Reply :=
  match i.run files with
  | .ok output => { code := 0, output }
  | .error failure =>
    { code := 1, complaint := Report.ofLines ["Error: " ++ failure.message] }

/-- The reply to the arguments of the command line. -/
def ofArguments (files : Files) (args : List String) : Reply :=
  match Invocation.ofArguments args with
  | .ok i => ofInvocation files i
  | .error stop => ofStop stop

end Reply

end FlatGraph

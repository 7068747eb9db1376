import Gatework.Expansion
import Gatework.Text.Digits
import Gatework.Text.Quoted

/-!
# Command lines

`Request.ofArgs` reads the arguments of the command: options, which start with a
dash, and the input.

There are five groups.

* `Flag` and `Setting` are the options without and with a value, with their
  names.
* `Options` is what a command line asks for.
* `UsageError` is what is wrong with a command line, with the words for it.
* Reading one argument.  Short options can share a dash, and the last of them
  can have the rest of the argument as its value.
* Reading all arguments.  What is wrong with an option is reported before what
  is wrong with the input.
-/

namespace Gatework.CommandLine

open Text

/-! ## Options -/

/-- The options without a value. -/
inductive Flag
  | help
  | tokenize
  | verbose
  | simulate
  | json
  | serverMode
deriving DecidableEq

/-- The options with a value. -/
inductive Setting
  | maxDepth
  | format
  | output
deriving DecidableEq

namespace Flag

/-- All flags. -/
def all : List Flag := [.help, .tokenize, .verbose, .simulate, .json, .serverMode]

/-- The long name of a flag. -/
def longName : Flag → String
  | .help => "--help"
  | .tokenize => "--tokenize"
  | .verbose => "--verbose"
  | .simulate => "--simulate"
  | .json => "--json"
  | .serverMode => "--server-mode"

/-- The letter of a flag, if it has one. -/
def letter? : Flag → Option Char
  | .help => some 'h'
  | .verbose => some 'v'
  | _ => none

/-- The flag of a long name. -/
def ofLongName? (name : String) : Option Flag := all.find? fun flag => flag.longName == name

/-- The flag of a letter. -/
def ofLetter? (c : Char) : Option Flag := all.find? fun flag => flag.letter? == some c

end Flag

namespace Setting

/-- All settings. -/
def all : List Setting := [.maxDepth, .format, .output]

/-- The long name of a setting. -/
def longName : Setting → String
  | .maxDepth => "--max-depth"
  | .format => "--format"
  | .output => "--output"

/-- The letter of a setting, if it has one. -/
def letter? : Setting → Option Char
  | .maxDepth => none
  | .format => some 'f'
  | .output => some 'o'

/-- The names of a setting, as diagnostics list them. -/
def names (s : Setting) : List String :=
  match s.letter? with
  | some c => [String.ofList ['-', c], s.longName]
  | none => [s.longName]

/-- The setting of a long name. -/
def ofLongName? (name : String) : Option Setting := all.find? fun s => s.longName == name

/-- The setting of a letter. -/
def ofLetter? (c : Char) : Option Setting := all.find? fun s => s.letter? == some c

end Setting

/-! ## Requests -/

/-- The forms of the result. -/
inductive Format
  | json
  | dot
  | text
deriving DecidableEq

/-- The form of a name. -/
def Format.ofName? : String → Option Format
  | "json" => some .json
  | "dot" => some .dot
  | "text" => some .text
  | _ => none

/-- What a command line asks for. -/
structure Options where
  input : String
  output : Option String
  format : Format
  tokenize : Bool
  verbose : Bool
  simulate : Bool
  json : Bool
  serverMode : Bool
  maxDepth : UInt64
deriving DecidableEq

/-- What holds without any option. -/
def Options.initial : Options where
  input := ""
  output := none
  format := .json
  tokenize := false
  verbose := false
  simulate := false
  json := false
  serverMode := false
  maxDepth := defaultLimit

/-- What is to be done. -/
inductive Request
  | help
  | run (options : Options)
deriving DecidableEq

/-! ## Wrong command lines -/

/-- What is wrong with a command line. -/
inductive UsageError
  | unknownOption (arg : String)
  | unknownLetter (c : Char)
  | valueForFlag (name : String)
  | badValue (value : String)
  | missingValue (setting : Setting)
  | unexpectedArgument (arg : String)
  | missingInput
deriving DecidableEq

/-- The words for what is wrong. -/
def UsageError.message : UsageError → String
  | .unknownOption arg => "Unknown option " ++ arg
  | .unknownLetter c => "Unknown short option \"" ++ c.toString ++ "\""
  | .valueForFlag name => s!"Option {name} does not accept an argument"
  | .badValue value => "Bad value " ++ value
  | .missingValue setting => "Option " ++ quotedList setting.names ++ " requires an argument"
  | .unexpectedArgument arg => "Unexpected argument " ++ arg
  | .missingInput => "Argument INPUT is required"

/-! ## Reading one argument -/

/-- The number that a text stands for.  A plus sign may stand before it. -/
def readDepth (value : String) : Option UInt64 :=
  let digits := match value.toList with
    | '+' :: digits => digits
    | digits => digits
  (readWord64 digits).map UInt64.ofNat

namespace Options

/-- The options with a flag, which asks for no help. -/
def set (flag : Flag) (options : Options) : Options :=
  match flag with
  | .help => options
  | .tokenize => { options with tokenize := true }
  | .verbose => { options with verbose := true }
  | .simulate => { options with simulate := true }
  | .json => { options with json := true }
  | .serverMode => { options with serverMode := true }

/-- The options with a setting. -/
def assign (setting : Setting) (value : String) (options : Options) :
    Except UsageError Options :=
  match setting with
  | .maxDepth =>
    match readDepth value with
    | some maxDepth => .ok { options with maxDepth }
    | none => .error (.badValue value)
  | .format =>
    match Format.ofName? value with
    | some format => .ok { options with format }
    | none => .error (.badValue value)
  | .output => .ok { options with output := some value }

end Options

/-- Where the reading of arguments stands. -/
inductive Progress
  /-- Help is asked for. -/
  | help
  /-- The options so far, and the setting whose value is the next argument. -/
  | more (options : Options) (awaited : Option Setting)

/-- Reads a long option. -/
def readLong (arg : String) (options : Options) : Except UsageError Progress :=
  let name := String.ofList (arg.toList.takeWhile (· ≠ '='))
  let value? := match arg.toList.dropWhile (· ≠ '=') with
    | _ :: value => some (String.ofList value)
    | [] => none
  match Flag.ofLongName? name, Setting.ofLongName? name, value? with
  | some _, _, some _ => .error (.valueForFlag name)
  | some .help, _, none => .ok .help
  | some flag, _, none => .ok (.more (options.set flag) none)
  | none, some setting, some value => do return .more (← options.assign setting value) none
  | none, some setting, none => .ok (.more options (some setting))
  | none, none, _ => .error (.unknownOption arg)

/-- Reads the letters after a dash. -/
def readLetters (options : Options) : List Char → Except UsageError Progress
  | [] => .ok (.more options none)
  | c :: rest =>
    match Flag.ofLetter? c, Setting.ofLetter? c with
    | some .help, _ => .ok .help
    | some flag, _ => readLetters (options.set flag) rest
    | none, some setting =>
      if rest.isEmpty then
        .ok (.more options (some setting))
      else do
        return .more (← options.assign setting (String.ofList rest)) none
    | none, none => .error (.unknownLetter c)

/-! ## Reading all arguments -/

/-- The request of options with the inputs that were given. -/
def Request.ofInputs (options : Options) : List String → Except UsageError Request
  | [] => .error .missingInput
  | [input] => .ok (.run { options with input })
  | _ :: extra :: _ => .error (.unexpectedArgument extra)

/-- Reads arguments after some that gave options, inputs, and perhaps a setting
whose value is the next argument.  Two dashes end the options. -/
def readArgs (options : Options) (inputs : List String) :
    Option Setting → List String → Except UsageError Request
  | none, [] => Request.ofInputs options inputs
  | some setting, [] => .error (.missingValue setting)
  | some setting, value :: rest => do
    readArgs (← options.assign setting value) inputs none rest
  | none, arg :: rest =>
    match arg.toList with
    | ['-', '-'] => Request.ofInputs options (inputs ++ rest)
    | '-' :: c :: letters => do
      match ← if c = '-' then readLong arg options else readLetters options (c :: letters) with
      | .help => return .help
      | .more options awaited => readArgs options inputs awaited rest
    | _ => readArgs options (inputs ++ [arg]) none rest

/-- The request of a command line. -/
def Request.ofArgs (args : List String) : Except UsageError Request :=
  readArgs .initial [] none args

/-! ## Texts -/

/-- The form of a command line. -/
def usage : String := "Usage:\n  lovelace [OPTIONS] INPUT\n"

/-- What help shows. -/
def help : String := usage ++ "
Compile and simulate Lovelace circuits.

Positional arguments:
  INPUT                 Input file

Optional arguments:
  -h,--help             Show this help message and exit
  --tokenize            Print the token tree and exit
  -v,--verbose          Print the token tree and netlist before the result
  --simulate            Simulate after compiling
  --json                Read a JSON summary instead of source
  --max-depth MAX_DEPTH Block invocation depth limit
  --server-mode         Reject imports that are not standard library
                        collections
  -f,--format FORMAT    Output format (json, dot, text)
  -o,--output OUTPUT    Output file
"

/-- What a wrong command line shows. -/
def UsageError.report (error : UsageError) : String :=
  usage ++ "lovelace: " ++ error.message ++ "\n"

end Gatework.CommandLine

import Gatework.CommandLine.Options
import Gatework.Diagram
import Gatework.Netlist.Listing
import Gatework.Node.Outline
import Gatework.Program
import Gatework.Simulation.Panel
import Gatework.Summary

/-!
# Running a command

What the command does with its input, apart from reading and writing files.

There are four groups.

* `FileRead` is what reading a file gives.
* `Report` is what a command shows, and how it ends.
* The stages of a command: getting a netlist from a description or a summary,
  simulating it, and writing it in some form.
* `Options.run` puts the stages together, and `Report.conclude` ends a command
  once its result has been written.
-/

namespace Gatework.CommandLine

/-! ## Files -/

/-- What reading a file gives. -/
inductive FileRead
  /-- The file cannot be opened. -/
  | absent (reason : String)
  /-- The file can be opened and not read. -/
  | unreadable (reason : String)
  | bytes (contents : ByteArray)

/-- The text of a file, or the reason why there is none. -/
def FileRead.text : FileRead → Except String String
  | .absent reason | .unreadable reason => .error reason
  | .bytes contents =>
    match String.fromUTF8? contents with
    | some text => .ok text
    | none => .error Netlist.notText

/-- The words for a file that cannot be read. -/
def readFailure (path reason : String) : String := s!"error reading file {path}: {reason}"

/-! ## Reports -/

/-- How a command ends. -/
inductive Conclusion
  /-- Nothing is left to do. -/
  | finished
  | failed (message : String)
  /-- The result is to be written. -/
  | result (text : String)

/-- What a command shows on its two outputs, and how it ends. -/
structure Report where
  stdout : String
  stderr : String
  conclusion : Conclusion

/-- The report of a failure after something has been shown. -/
def Report.failure (stdout message : String) : Report := ⟨stdout, "", .failed message⟩

/-! ## Stages -/

/-- A netlist in some form. -/
def Format.render (n : Netlist) : Format → String
  | .json => n.toSummary
  | .dot => n.diagram
  | .text => n.listing

/-- The words for a simulation that has not converged. -/
def warning (rounds : Nat) : String :=
  s!" WARN lovelace simulation did not converge, rounds={rounds}\n"

namespace Options

/-- Simulates a netlist if that is asked for, and gives the warning. -/
def simulated (options : Options) (n : Netlist) : Netlist × String :=
  if options.simulate then
    let (verdict, settled) := n.simulate
    (settled, if verdict.converged then "" else warning verdict.rounds)
  else
    (n, "")

/-- The report on a netlist after something has been shown. -/
def finish (options : Options) (shown : String) (n : Netlist) : Report :=
  let listing := if options.verbose then n.listing else ""
  let (settled, warned) := options.simulated n
  ⟨shown ++ listing, warned, .result (options.format.render settled)⟩

/-- Runs a command on a summary. -/
def runSummary (options : Options) : FileRead → Report
  | .absent reason => .failure "" (readFailure options.input reason)
  | .unreadable reason => .failure "" (SummaryError.unreadable reason : SummaryError).message
  | .bytes contents =>
    match Netlist.ofSummary contents with
    | .ok n => options.finish "" n
    | .error error => .failure "" error.message

/-- Where the descriptions of a command come from. -/
def origin (options : Options) : Forest.Origin :=
  if options.serverMode then .client else .person

/-- Runs a command on a description. -/
def runText (options : Options) (text : String) : Report :=
  match Forest.ofText options.origin text with
  | .error error => .failure "" error.message
  | .ok nodes =>
    let outline := if options.tokenize || options.verbose then Forest.outline nodes else ""
    if options.tokenize then
      ⟨outline, "", .finished⟩
    else
      match Netlist.ofForest options.maxDepth nodes with
      | .error halt => .failure outline halt.message
      | .ok n => options.finish outline n

/-! ## Whole commands -/

/-- Runs a command on what reading its input gave. -/
def run (options : Options) (file : FileRead) : Report :=
  if options.json then
    options.runSummary file
  else
    match file.text with
    | .error reason => .failure "" (readFailure options.input reason)
    | .ok text => options.runText text

end Options

/-- What a finished command leaves behind: its exit code, and all that it has
shown. -/
structure Closing where
  code : UInt32
  stdout : String
  stderr : String
deriving DecidableEq

namespace Closing

/-- The closing of a command that only shows help. -/
def help : Closing := ⟨0, CommandLine.help, ""⟩

/-- The closing of a wrong command line. -/
def ofUsageError (error : UsageError) : Closing := ⟨2, "", error.report⟩

end Closing

/-- The closing of a report.  The result has been written to a file if `written`
says how that went, and is shown otherwise. -/
def Report.conclude (report : Report) (written : Option (Except String Unit)) : Closing :=
  match report.conclusion, written with
  | .finished, _ | .result _, some (.ok _) => ⟨0, report.stdout, report.stderr⟩
  | .failed message, _ | .result _, some (.error message) =>
    ⟨1, report.stdout, report.stderr ++ message ++ "\n"⟩
  | .result text, none => ⟨0, report.stdout ++ text, report.stderr⟩

end Gatework.CommandLine

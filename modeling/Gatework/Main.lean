import Gatework.CommandLine.Folder

/-!
# The command

Runs a command line on the files of the machine.  Only reading and writing of
files and of the two outputs happens here.
-/

open Gatework.CommandLine

namespace Gatework

/-- The number of the machine for a name on a path that is no folder's. -/
def notAFolderCode : UInt32 := 20

/-- The words of the machine for a failed access to a file. -/
def accessFailure : IO.Error → String
  | .noFileOrDirectory _ _ _ => AccessFault.noSuchFile.message
  | .inappropriateType _ code _ =>
    if code = notAFolderCode then AccessFault.notAFolder.message
    else AccessFault.isAFolder.message
  | error => toString error

/-- What reading the file of a path gives. -/
def readFile (path : String) : IO FileRead := do
  try
    return .bytes (← IO.FS.readBinFile path)
  catch error =>
    match error with
    | .inappropriateType _ code _ =>
      return if code = notAFolderCode then .absent (accessFailure error)
        else .unreadable (accessFailure error)
    | _ => return .absent (accessFailure error)

/-- Writes a text to the file of a path. -/
def writeResult (path text : String) : IO (Except String Unit) := do
  try
    IO.FS.writeFile path text
    return .ok ()
  catch error => return .error (accessFailure error)

/-- Runs a command with options. -/
def runOptions (options : Options) : IO Closing := do
  let report := options.run (← readFile options.input)
  match report.conclusion, options.output with
  | .result text, some path => return report.conclude (some (← writeResult path text))
  | _, _ => return report.conclude none

/-- Runs a command line. -/
def runArgs (args : List String) : IO Closing :=
  match Request.ofArgs args with
  | .error error => return .ofUsageError error
  | .ok .help => return .help
  | .ok (.run options) => runOptions options

end Gatework

/-- Runs the command line, and shows what it leaves behind. -/
def main (args : List String) : IO UInt32 := do
  let closing ← Gatework.runArgs args
  IO.print closing.stdout
  IO.eprint closing.stderr
  return closing.code

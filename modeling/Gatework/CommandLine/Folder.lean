import Gatework.CommandLine.Run

/-!
# Commands in a folder

A folder in memory stands for the place where a command runs, so that a command
is a function from its arguments and the folder to its closing and the folder
after it.

There are five groups.

* `AccessFault` is the reason why a path gives no access to a file.
* `Folder` is a tree of files, and `Entry` what a name in it stands for.
* Walking along a path, from name to name.  Every name but the last has to be
  that of a folder, `Spot` is the folder that has been reached, and `Goal` is
  where the whole path leads.
* Reading and writing the file of a path.
* `Folder.command` runs a command line.
-/

namespace Gatework.CommandLine

/-! ## Faults -/

/-- The reason why a path gives no access to a file. -/
inductive AccessFault
  | noSuchFile
  | notAFolder
  | isAFolder
deriving DecidableEq

/-- The words for the reason. -/
def AccessFault.message : AccessFault → String
  | .noSuchFile => "No such file or directory (os error 2)"
  | .notAFolder => "Not a directory (os error 20)"
  | .isAFolder => "Is a directory (os error 21)"

/-! ## Folders -/

/-- The parts of a path between its slashes. -/
def pathParts (path : String) : List String :=
  ((path.toList.splitOn '/').map String.ofList).filter fun part => part != ""

/-- A tree of files: their names along the folders that hold them, and their
bytes.  It has no empty folders. -/
structure Folder where
  files : List (List String × ByteArray)

/-- What a name stands for. -/
inductive Entry
  | nothing
  | folder
  | file (bytes : ByteArray)

namespace Folder

/-- The folder of files that are given by their paths. -/
def ofFiles (files : List (String × ByteArray)) : Folder :=
  ⟨files.map fun file => ((pathParts file.1).filter (· != "."), file.2)⟩

/-- The bytes of a file. -/
def find? (names : List String) (folder : Folder) : Option ByteArray :=
  (folder.files.find? fun file => file.1 == names).map Prod.snd

/-- What stands under a list of names. -/
def entry (names : List String) (folder : Folder) : Entry :=
  match folder.find? names with
  | some bytes => .file bytes
  | none =>
    if folder.files.any fun file => names.isPrefixOf file.1 then .folder else .nothing

/-- The folder with a file, in the place of one of its names or else at the
end. -/
def insert (names : List String) (bytes : ByteArray) (folder : Folder) : Folder :=
  if (folder.find? names).isSome then
    ⟨folder.files.map fun file => if file.1 == names then (names, bytes) else file⟩
  else
    ⟨folder.files ++ [(names, bytes)]⟩

/-- The files that are new or changed since an earlier state, by their paths. -/
def changes (before after : Folder) : List (String × ByteArray) :=
  let changed := after.files.filter fun file =>
    match before.find? file.1 with
    | some bytes => bytes.toList != file.2.toList
    | none => true
  changed.map fun file => ("/".intercalate file.1, file.2)

end Folder

/-! ## Walking -/

/-- A folder on the machine: one in the tree, by its names, or one outside of it,
of which nothing is known. -/
inductive Spot
  | inside (names : List String)
  | outside
deriving DecidableEq

/-- Where a path leads. -/
inductive Goal
  /-- A folder, since the path ends with dots or has no names. -/
  | folder
  /-- A name in a folder.  A slash after the name asks for a folder. -/
  | name (spot : Spot) (name : String) (slash : Bool)
deriving DecidableEq

/-- The names that lead to the folder itself and to the one around it. -/
def dotNames : List String := [".", ".."]

namespace Folder

/-- What a name stands for in a folder.  Outside of the tree it stands for
nothing. -/
def entryAt (spot : Spot) (name : String) (folder : Folder) : Entry :=
  match spot with
  | .inside names => folder.entry (names ++ [name])
  | .outside => .nothing

/-- Goes from one folder to another. -/
def enter (folder : Folder) (spot : Spot) (name : String) : Except AccessFault Spot :=
  if name = "." then
    .ok spot
  else if name = ".." then
    match spot with
    | .inside [] | .outside => .ok .outside
    | .inside names => .ok (.inside names.dropLast)
  else
    match folder.entryAt spot name, spot with
    | .nothing, _ => .error .noSuchFile
    | .file _, _ => .error .notAFolder
    | .folder, .inside names => .ok (.inside (names ++ [name]))
    | .folder, .outside => .ok .outside

/-- Goes from folder to folder. -/
def walk (folder : Folder) (spot : Spot) (names : List String) : Except AccessFault Spot :=
  names.foldlM (enter folder) spot

/-- Where a path leads.  The empty path leads nowhere, and a path that starts with
a slash starts outside. -/
def goal (path : String) (folder : Folder) : Except AccessFault Goal :=
  let start : Spot := if path.startsWith "/" then .outside else .inside []
  let names := pathParts path
  match names.getLast? with
  | none => if path.isEmpty then .error .noSuchFile else .ok .folder
  | some last =>
    if dotNames.contains last then do
      let _ ← folder.walk start names
      return .folder
    else do
      let spot ← folder.walk start names.dropLast
      return .name spot last (path.endsWith "/")

/-! ## Reading and writing -/

/-- Reads the file of a path.  A folder can be opened and not read. -/
def read (path : String) (folder : Folder) : FileRead :=
  match folder.goal path with
  | .error fault => .absent fault.message
  | .ok .folder => .unreadable AccessFault.isAFolder.message
  | .ok (.name spot name slash) =>
    match folder.entryAt spot name with
    | .nothing => .absent AccessFault.noSuchFile.message
    | .folder => .unreadable AccessFault.isAFolder.message
    | .file bytes => if slash then .absent AccessFault.notAFolder.message else .bytes bytes

/-- Writes a text to the file of a path.  A slash after a name asks for a folder
even if nothing has the name.  What is written outside of the tree is not kept. -/
def write (path text : String) (folder : Folder) : Except AccessFault Folder := do
  match ← folder.goal path with
  | .folder | .name _ _ true => .error .isAFolder
  | .name spot name false =>
    match folder.entryAt spot name, spot with
    | .folder, _ => .error .isAFolder
    | _, .inside names => .ok (folder.insert (names ++ [name]) text.toUTF8)
    | _, .outside => .ok folder

/-! ## Commands -/

/-- Runs a command with options. -/
def run (options : Options) (folder : Folder) : Closing × Folder :=
  let report := options.run (folder.read options.input)
  match report.conclusion, options.output with
  | .result text, some path =>
    match folder.write path text with
    | .ok after => (report.conclude (some (.ok ())), after)
    | .error fault => (report.conclude (some (.error fault.message)), folder)
  | _, _ => (report.conclude none, folder)

/-- Runs a command line. -/
def command (args : List String) (folder : Folder) : Closing × Folder :=
  match Request.ofArgs args with
  | .error error => (Closing.ofUsageError error, folder)
  | .ok .help => (Closing.help, folder)
  | .ok (.run options) => folder.run options

end Folder

end Gatework.CommandLine

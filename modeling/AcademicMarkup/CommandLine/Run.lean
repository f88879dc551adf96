import AcademicMarkup.CommandLine
import AcademicMarkup.Compilation
import AcademicMarkup.Files.Disk
import AcademicMarkup.Highlight
import AcademicMarkup.Options.Config

/-!
What the program does when it is called: build the page of a file, check a file, or list what an
editor would colour in it. Problems of the document go to the error output with their places; only
building writes a file.
-/
namespace AcademicMarkup

/-- Why a request could not be carried out. -/
inductive Failure where
  | notFound (path : String)
  | reading (path : String) (error : FileError)
  | writing (path : String) (error : FileError)
  | config (path : String)
  | diagnostics (path : String) (count : Nat)
deriving DecidableEq, Repr

namespace Failure

def message : Failure → String
  | notFound path => "file not found: " ++ path
  | reading path e => "reading " ++ path ++ ": " ++ e.message
  | writing path e => "writing " ++ path ++ ": " ++ e.message
  | config path => "invalid config " ++ path
  | diagnostics path count => path ++ ": " ++ toString count ++ " error(s)"

end Failure

/-- What carrying out a request gives: its output, the lines for the error output, and why it
failed if it did. -/
structure Report where
  output : String
  log : String
  failure : Option Failure
deriving DecidableEq, Repr

namespace Report

def failed (log : String) (failure : Failure) : Report := ⟨"", log, some failure⟩

/-- The error output, which ends with the failure. -/
def errors (r : Report) : String :=
  match r.failure with
  | none => r.log
  | some f => r.log ++ "Error: " ++ f.message ++ "\n"

def exitCode (r : Report) : Nat := if r.failure.isSome then 1 else 0

end Report

namespace CommandLine

variable {m : Type → Type} [Monad m]

def versionText : String := "aml 0.3.0\n"

def helpText : String :=
  "Usage: aml [-v] build PATH [--out-dir DIR] [--config FILE]\n" ++
    "       aml [-v] check PATH\n" ++
    "       aml [-v] highlight PATH\n"

/-- The text of a file that must be there. -/
def textOf (disk : Disk m) (path : String) : m (Except Failure String) := do
  match ← disk.read (.ofString path) with
  | .ok text => return .ok text
  | .error .notFound => return .error (.notFound path)
  | .error e => return .error (.reading path e)

def optionsOf (disk : Disk m) : Option String → m (Except Failure Options)
  | none => return .ok .default
  | some path => do
    match ← textOf disk path with
    | .error f => return .error f
    | .ok text =>
      match Config.parse? text with
      | some options => return .ok options
      | none => return .error (.config path)

/-- One line for a problem. -/
def problemLine (path : String) (d : Diagnostic) : String :=
  path ++ ":" ++ toString d.span.line ++ ":" ++ toString d.span.column ++ ": " ++
    d.severity.name ++ "[" ++ d.code ++ "]: " ++ d.message ++ "\n"

def problemLines (path : String) (ds : List Diagnostic) : String :=
  String.join (ds.map (problemLine path))

/-- The directory that the page of a file goes to, its own unless another is given. -/
def outputDirectory (path : Path) : Option String → Path
  | some dir => .ofString dir
  | none => path.parent?.getD (.ofString ".")

/-- The name of the page of a file. -/
def outputName (path : Path) : String := path.stem?.getD "index" ++ ".html"

/-- Builds the page of a file. All reading comes before all writing. -/
def build (disk : Disk m) (path : String) (outDir config : Option String) : m Report := do
  match ← textOf disk path with
  | .error f => return .failed "" f
  | .ok source =>
    match ← optionsOf disk config with
    | .error f => return .failed "" f
    | .ok options =>
      let compilation := Compilation.ofSource options source
      let problems := problemLines path compilation.diagnostics
      let dir := outputDirectory (.ofString path) outDir
      let file := dir.join (outputName (.ofString path))
      match ← disk.makeDirectories dir with
      | .error e => return .failed problems (.writing dir.toString e)
      | .ok () =>
        match ← disk.write file compilation.page with
        | .error e => return .failed problems (.writing file.toString e)
        | .ok () => return ⟨"", problems ++ "Built: " ++ file.toString ++ "\n", none⟩

/-- Reports the problems of a file. It fails if one of them is an error. -/
def check (disk : Disk m) (path : String) : m Report := do
  match ← textOf disk path with
  | .error f => return .failed "" f
  | .ok source =>
    let diagnostics := (Compilation.ofSource .default source).diagnostics
    let problems := problemLines path diagnostics
    let errors := (diagnostics.filter Diagnostic.isError).length
    if errors = 0 then return ⟨"", problems ++ "OK: " ++ path ++ "\n", none⟩
    else return .failed problems (.diagnostics path errors)

def highlightLine (h : Highlight) : String :=
  h.kind ++ " " ++ toString h.span.start ++ " " ++ toString h.span.stop ++ " " ++
    toString h.depth ++ "\n"

/-- Lists what an editor would colour, one construct a line. -/
def highlight (disk : Disk m) (path : String) : m Report := do
  match ← textOf disk path with
  | .error f => return .failed "" f
  | .ok source => return ⟨String.join ((Highlight.ofSource source).map highlightLine), "", none⟩

/-- Carries out what the arguments ask for, unless they cannot be understood. -/
def run (disk : Disk m) (args : List String) : m (Option Report) :=
  match parse? args with
  | none => return none
  | some .version => return some ⟨versionText, "", none⟩
  | some .help => return some ⟨helpText, "", none⟩
  | some (.build path outDir config) => do return some (← build disk path outDir config)
  | some (.check path) => do return some (← check disk path)
  | some (.highlight path) => do return some (← highlight disk path)

end CommandLine

end AcademicMarkup

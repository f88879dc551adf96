import AcademicMarkup.CommandLine.Run

/-!
The program on the real file system.
-/
namespace AcademicMarkup.Main

def fileError : IO.Error → FileError
  | .noFileOrDirectory _ _ _ => .notFound
  | .alreadyExists _ _ _ => .alreadyExists
  | .invalidArgument _ code details =>
    if code = 36 then .nameTooLong else if code = 40 then .tooManyLinks else .other details
  | .inappropriateType _ code _ => if code = 21 then .isDirectory else .notDirectory
  | e => .other (toString e)

def guarded {α : Type} (action : IO α) : IO (Except FileError α) := do
  try return .ok (← action) catch e => return .error (fileError e)

def disk : Disk IO where
  read p := do
    match ← guarded (IO.FS.readBinFile p.toString) with
    | .ok bytes => return (String.fromUTF8? bytes).elim (.error .notText) .ok
    | .error .notDirectory => return .error .notFound
    | .error .nameTooLong => return .error .notFound
    | .error .tooManyLinks => return .error .notFound
    | .error e => return .error e
  isDirectory p := do
    match ← guarded (IO.FS.readBinFile p.toString) with
    | .error .isDirectory => return true
    | _ => return false
  makeDirectory p := guarded (IO.FS.createDir p.toString)
  write p text := guarded (IO.FS.writeFile p.toString text)

end AcademicMarkup.Main

def main (args : List String) : IO UInt32 := do
  match ← AcademicMarkup.CommandLine.run AcademicMarkup.Main.disk args with
  | none =>
    IO.eprint AcademicMarkup.CommandLine.helpText
    return 2
  | some report =>
    IO.print report.output
    IO.eprint report.errors
    return report.exitCode.toUInt32

import AcademicMarkup.Files.Path

/-!
What a program asks of a file system, in any monad, so that it can run on a real one as well as on
one in memory.
-/
namespace AcademicMarkup

inductive FileError where
  | notFound
  | alreadyExists
  | notDirectory
  | isDirectory
  | nameTooLong
  | tooManyLinks
  | notText
  | other (message : String)
deriving DecidableEq, Repr

namespace FileError

def message : FileError → String
  | notFound => "No such file or directory (os error 2)"
  | alreadyExists => "File exists (os error 17)"
  | notDirectory => "Not a directory (os error 20)"
  | isDirectory => "Is a directory (os error 21)"
  | nameTooLong => "File name too long (os error 36)"
  | tooManyLinks => "Too many levels of symbolic links (os error 40)"
  | notText => "stream did not contain valid UTF-8"
  | other message => message

end FileError

structure Disk (m : Type → Type) where
  /-- The text of a file. A path that leads nowhere is not found. -/
  read : Path → m (Except FileError String)
  isDirectory : Path → m Bool
  /-- Makes a directory below one that exists. -/
  makeDirectory : Path → m (Except FileError Unit)
  /-- Writes a text to a file in a directory that exists, in place of what it held. -/
  write : Path → String → m (Except FileError Unit)

namespace Disk

variable {m : Type → Type} [Monad m]

/-- What making a directory comes to after an error. That it is there already is none. -/
def unlessPresent (disk : Disk m) (p : Path) (e : FileError) : m (Except FileError Unit) := do
  if e == .alreadyExists then
    if ← disk.isDirectory p then return .ok () else return .error e
  else return .error e

/-- Makes the first of some paths, each below the next; a path is made after the ones it lies
below, and a directory that exists is left as it is. -/
def makeFirst (disk : Disk m) : List Path → m (Except FileError Unit)
  | [] => return .ok ()
  | p :: above => do
    match ← disk.makeDirectory p with
    | .ok () => return .ok ()
    | .error .notFound =>
      match ← disk.makeFirst above with
      | .error e => return .error e
      | .ok () =>
        match ← disk.makeDirectory p with
        | .ok () => return .ok ()
        | .error e => disk.unlessPresent p e
    | .error e => disk.unlessPresent p e

/-- Makes a directory and all directories above it that are missing. -/
def makeDirectories (disk : Disk m) (p : Path) : m (Except FileError Unit) :=
  disk.makeFirst p.selfAndAbove

end Disk

end AcademicMarkup

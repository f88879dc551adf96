import AcademicMarkup.Files.Disk

/-!
A file system in memory. Each entry stands at the list of names that leads to it from the root: a
directory, a name of a file, or a symbolic link. A file is known by its number, so that it can have
several names, and what it holds is kept apart from them. Relative paths start from the working
directory.
-/
namespace AcademicMarkup

inductive FileEntry where
  | directory
  | file (number : Nat)
  /-- Stands for what the path leads to from the directory that the link is in. -/
  | link (target : Path)
deriving DecidableEq, Repr

structure FileTree where
  entries : List (List String × FileEntry)
  contents : List (Nat × List UInt8)
  workingDirectory : List String
deriving Repr

namespace FileTree

def bytesOf (text : String) : List UInt8 := text.toUTF8.data.toList

/-- The text that bytes make up, if they do. -/
def textOf? (bytes : List UInt8) : Option String := String.fromUTF8? ⟨bytes.toArray⟩

/-- What stands at a location. The root is always there. -/
def get? (t : FileTree) (location : List String) : Option FileEntry :=
  if location = [] then some .directory else t.entries.lookup location

/-- What a file holds; nothing if nothing was written to it. -/
def bytes (t : FileTree) (number : Nat) : List UInt8 := (t.contents.lookup number).getD []

def put (t : FileTree) (location : List String) (entry : FileEntry) : FileTree :=
  { t with entries := t.entries.filter (·.1 != location) ++ [(location, entry)] }

def setBytes (t : FileTree) (number : Nat) (bytes : List UInt8) : FileTree :=
  { t with contents := (number, bytes) :: t.contents.filter (·.1 != number) }

/-- The numbers that entries have. -/
def numbers (t : FileTree) : List Nat :=
  t.entries.filterMap fun
    | (_, .file number) => some number
    | _ => none

/-- A number that no entry has. -/
def freshNumber (t : FileTree) : Nat := t.numbers.foldr max 0 + 1

/-- Puts a new file at a location. -/
def create (t : FileTree) (location : List String) (bytes : List UInt8) : FileTree :=
  (t.put location (.file t.freshNumber)).setBytes t.freshNumber bytes

/-- Makes the directories above a location that are missing. -/
def makeRoom (t : FileTree) (location : List String) : FileTree :=
  let above := (List.range location.length).map location.take
  (above.filter fun l => (t.get? l).isNone).foldl (fun t l => t.put l .directory) t

/-- A tree with an empty working directory and the directories that lead to it. -/
def emptyAt (workingDirectory : List String) : FileTree :=
  ((FileTree.mk [] [] workingDirectory).makeRoom workingDirectory).put workingDirectory .directory

/-- A location as seen from the working directory, if it lies below it. -/
def relative? (t : FileTree) (location : List String) : Option (List String) :=
  if t.workingDirectory.isPrefixOf location then
    some (location.drop t.workingDirectory.length)
  else none

/-- What the file at a location holds. -/
def bytesAt? (t : FileTree) (location : List String) : Option (List UInt8) :=
  match t.get? location with
  | some (.file number) => some (t.bytes number)
  | _ => none

/-- The locations of a tree where another one has nothing or something else, with what the files
there hold. -/
def changes (before after : FileTree) : List (List String × Option (List UInt8)) :=
  (after.entries.filter fun (location, entry) =>
    before.get? location != some entry || before.bytesAt? location != after.bytesAt? location).map
      fun (location, _) => (location, after.bytesAt? location)

/-- Whether a name has more bytes than a directory can hold. -/
def isTooLong (name : String) : Bool := 255 < name.utf8ByteSize

/-- Whether a path has more bytes than a file system takes. -/
def isOverlong (p : Path) : Bool := 4095 < p.toString.utf8ByteSize

/-- How many links are followed on the way along a path. -/
def maxLinks : Nat := 40

/-- Where a part of a path leads from a directory that exists. The root lies above itself. -/
def enter (t : FileTree) (location : List String) (part : String) :
    Except FileError (List String) :=
  match t.get? location with
  | some .directory =>
    if Path.isIdle part then .ok location
    else if part == ".." then .ok location.dropLast
    else if isTooLong part then .error .nameTooLong
    else .ok (location ++ [part])
  | some _ => .error .notDirectory
  | none => .error .notFound

def link? (t : FileTree) (location : List String) : Option Path :=
  match t.get? location with
  | some (.link target) => some target
  | _ => none

/-- Follows the parts of a path from a location, each from a directory that exists. Where a link
stands, the way on is given by the directory it is in, its target and the parts that are left. -/
def walkWith (t : FileTree)
    (onLink : List String → Path → List String → Except FileError (List String))
    (location : List String) : List String → Except FileError (List String)
  | [] => .ok location
  | part :: rest =>
    match t.enter location part with
    | .error e => .error e
    | .ok next =>
      match t.link? next with
      | some target => onLink location target rest
      | none => t.walkWith onLink next rest

/-- Where a path starts that is seen from a directory: at the root if it begins with a slash. -/
def start (directory : List String) (p : Path) : List String :=
  if p.parts.head? == some "" then [] else directory

/-- Follows the parts of a path and at most so many links. -/
def walk (t : FileTree) : Nat → List String → List String → Except FileError (List String)
  | 0 => t.walkWith fun _ _ _ => .error .tooManyLinks
  | links + 1 => t.walkWith fun directory target rest =>
    if target = .empty then .error .notFound
    else t.walk links (start directory target) (target.parts ++ rest)

/-- The location that a path leads to. Nothing need stand there, but the directory it is in does.
The path without text leads nowhere. -/
def locate (t : FileTree) (p : Path) : Except FileError (List String) :=
  if p = .empty then .error .notFound
  else if isOverlong p then .error .nameTooLong
  else t.walk maxLinks (start t.workingDirectory p) p.parts

/-- What a path leads to. -/
def found? (t : FileTree) (p : Path) : Option FileEntry := (t.locate p).toOption.bind t.get?

def read (t : FileTree) (p : Path) : Except FileError String :=
  match t.found? p with
  | some (.file number) => (textOf? (t.bytes number)).elim (.error .notText) .ok
  | some .directory => .error .isDirectory
  | _ => .error .notFound

def isDirectory (t : FileTree) (p : Path) : Bool := t.found? p == some .directory

/-- The directory of a path and its last part, where no link is followed. -/
def locateLast (t : FileTree) (p : Path) : Except FileError (List String × String) :=
  match p.parts.reverse.dropWhile (· == "") with
  | [] => .error .notFound
  | last :: before => do
    if isOverlong p then .error .nameTooLong
    let location ← t.walk maxLinks (start t.workingDirectory p) before.reverse
    match t.get? location with
    | some .directory => if isTooLong last then .error .nameTooLong else return (location, last)
    | some _ => .error .notDirectory
    | none => .error .notFound

def makeDirectory (t : FileTree) (p : Path) : Except FileError FileTree := do
  let (location, name) ← t.locateLast p
  if name == "." || name == ".." || (t.get? (location ++ [name])).isSome then
    .error .alreadyExists
  else return t.put (location ++ [name]) .directory

/-- Writes to the file that a path leads to, also through links. Where nothing stands a file is
made. -/
def write (t : FileTree) (p : Path) (text : String) : Except FileError FileTree := do
  let location ← t.locate p
  match t.get? location with
  | some (.file number) => return t.setBytes number (bytesOf text)
  | some .directory => .error .isDirectory
  | some (.link _) => .error .notFound
  | none => return t.create location (bytesOf text)

/-- Does what changes the tree, which stays as it was if that fails. -/
def attempt (change : FileTree → Except FileError FileTree) :
    StateM FileTree (Except FileError Unit) := fun t =>
  match change t with
  | .ok t' => (.ok (), t')
  | .error e => (.error e, t)

/-- A tree as the disk of a program. -/
def disk : Disk (StateM FileTree) where
  read p := fun t => (t.read p, t)
  isDirectory p := fun t => (t.isDirectory p, t)
  makeDirectory p := attempt (·.makeDirectory p)
  write p text := attempt (·.write p text)

end FileTree

end AcademicMarkup

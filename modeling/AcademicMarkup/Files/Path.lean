import AcademicMarkup.Text.Split

/-!
Paths to files. A path is kept as it was written, cut at its slashes, so that it can be shown again.
A part between two slashes that is empty or a dot is no step, except at the beginning.
-/
namespace AcademicMarkup

structure Path where
  parts : List String
deriving DecidableEq, Repr

namespace Path

def ofString (text : String) : Path := ⟨(Text.splitAt '/' text.toList).map String.ofList⟩

def toString (p : Path) : String := String.intercalate "/" p.parts

/-- The path without text. -/
def empty : Path := ⟨[""]⟩

def root : Path := ⟨["", ""]⟩

def isIdle (part : String) : Bool := part == "" || part == "."

/-- The parts that are steps. -/
def steps (p : Path) : List String := p.parts.filter fun part => !isIdle part

/-- The parts of a path from the last to the first, without idle ones before the last step. -/
def trimEnd : List String → List String
  | [] => []
  | [first] => [first]
  | part :: next :: rest => if isIdle part then trimEnd (next :: rest) else part :: next :: rest

def partsFromEnd (p : Path) : List String := trimEnd p.parts.reverse

/-- The last step, if it is a name. -/
def fileName? (p : Path) : Option String :=
  match p.partsFromEnd with
  | [] => none
  | [first] => if isIdle first || first == ".." then none else some first
  | part :: _ => if part == ".." then none else some part

/-- A file name without its last extension. A dot at the beginning begins no extension. -/
def dropExtension (name : String) : String :=
  match name.toList.reverse.dropWhile (· != '.') with
  | [] => name
  | [_] => name
  | _ :: before => String.ofList before.reverse

/-- The name of the file without its extension. -/
def stem? (p : Path) : Option String := p.fileName?.map dropExtension

/-- The path without its last step. -/
def parent? (p : Path) : Option Path :=
  match p.partsFromEnd with
  | [] => none
  | [first] => if first == "" then none else some empty
  | _ :: before =>
    match trimEnd before with
    | [""] => some root
    | parts => some ⟨parts.reverse⟩

/-- The path to a name below a directory. -/
def join (p : Path) (name : String) : Path :=
  if p.parts.getLast? == some "" then ⟨p.parts.dropLast ++ [name]⟩ else ⟨p.parts ++ [name]⟩

/-- Whether parts, from the last to the first, end with a step. -/
def endsWithStep : List String → Bool
  | [] => false
  | [first] => first != ""
  | part :: _ => !isIdle part

/-- The paths above one given by its parts from the last to the first, nearest first. -/
def above : List String → List Path
  | [] => []
  | _ :: before => (if endsWithStep before then [⟨before.reverse⟩] else []) ++ above before

/-- A path and all paths above it that are neither empty nor the root, nearest first. -/
def selfAndAbove (p : Path) : List Path :=
  if p.partsFromEnd == [""] then [] else p :: above p.partsFromEnd

end Path

end AcademicMarkup

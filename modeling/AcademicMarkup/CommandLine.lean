/-!
The command line: a verb with the file it is about, and options. Options may stand before and after
the file, and after two dashes nothing is an option any more.
-/
namespace AcademicMarkup

/-- What a command line asks for. -/
inductive Request where
  | version
  | help
  | build (path : String) (outDir : Option String) (config : Option String)
  | check (path : String)
  | highlight (path : String)
deriving DecidableEq, Repr

inductive Verb where
  | build
  | check
  | highlight
deriving DecidableEq, Repr

namespace Verb

def ofString? : String → Option Verb
  | "build" => some build
  | "check" => some check
  | "highlight" => some highlight
  | _ => none

end Verb

/-- The arguments after a verb that were read so far. -/
structure Arguments where
  path : Option String
  outDir : Option String
  config : Option String
  verbose : Bool

namespace Arguments

def none : Arguments := ⟨.none, .none, .none, false⟩

/-- The request for a verb. The file must be given. -/
def request? (given : Arguments) : Verb → Option Request
  | .build => given.path.map fun p => .build p given.outDir given.config
  | .check => given.path.map .check
  | .highlight => given.path.map .highlight

/-- Takes the file, which is given once. -/
def setPath? (given : Arguments) (path : String) : Option Arguments :=
  if given.path.isSome then .none else some { given with path := some path }

def setVerbose? (given : Arguments) : Option Arguments :=
  if given.verbose then .none else some { given with verbose := true }

/-- Takes the value of an option of `build`, which is not empty and is given once. -/
def setOption? (given : Arguments) (verb : Verb) (name value : String) : Option Arguments :=
  if verb != .build || value == "" then .none
  else
    match name with
    | "--out-dir" => if given.outDir.isSome then .none else some { given with outDir := some value }
    | "--config" => if given.config.isSome then .none else some { given with config := some value }
    | _ => .none

end Arguments

namespace CommandLine

/-- Whether an argument is read as an option. A single dash is not. -/
def isOption (arg : String) : Bool :=
  match arg.toList with
  | '-' :: _ :: _ => true
  | _ => false

/-- The name and the value of an option written as one argument. -/
def splitOption? (arg : String) : Option (String × String) :=
  match arg.toList.dropWhile (· != '=') with
  | '=' :: value => some (String.ofList (arg.toList.takeWhile (· != '=')), String.ofList value)
  | _ => none

/-- The letters of an argument after a single dash: each is an option of its own. -/
def letters (given : Arguments) : List Char → Option (Request ⊕ Arguments)
  | [] => some (.inr given)
  | 'v' :: rest => given.setVerbose?.bind (letters · rest)
  | 'h' :: _ => some (.inl .help)
  | _ => none

/-- The arguments after a verb. -/
def parseVerb (verb : Verb) (given : Arguments) : List String → Option Request
  | [] => given.request? verb
  | "--" :: rest => (rest.foldlM Arguments.setPath? given).bind (·.request? verb)
  | "--help" :: _ => some .help
  | "--verbose" :: rest => given.setVerbose?.bind (parseVerb verb · rest)
  | arg :: rest =>
    if arg == "--out-dir" || arg == "--config" then
      match rest with
      | [] => none
      | value :: rest =>
        if isOption value then none
        else (given.setOption? verb arg value).bind (parseVerb verb · rest)
    else
      match arg.toList with
      | '-' :: '-' :: _ =>
        match splitOption? arg with
        | some (name, value) => (given.setOption? verb name value).bind (parseVerb verb · rest)
        | none => none
      | '-' :: c :: cs =>
        match letters given (c :: cs) with
        | none => none
        | some (.inl request) => some request
        | some (.inr given) => parseVerb verb given rest
      | _ => (given.setPath? arg).bind (parseVerb verb · rest)

/-- The letters of an argument before the verb, where a version may be asked for. -/
def leadingLetters (verbose : Bool) : List Char → Option (Request ⊕ Bool)
  | [] => some (.inr verbose)
  | 'v' :: rest => if verbose then none else leadingLetters true rest
  | 'V' :: _ => some (.inl .version)
  | 'h' :: _ => some (.inl .help)
  | _ => none

/-- A request for help may name a verb, or help itself, and nothing more. -/
def parseHelp : List String → Option Request
  | [] => some .help
  | [topic] => if topic == "help" || (Verb.ofString? topic).isSome then some .help else none
  | _ => none

/-- The arguments up to the verb and after it. -/
def parseLeading (verbose : Bool) : List String → Option Request
  | [] => none
  | "--version" :: _ => some .version
  | "--help" :: _ => some .help
  | "help" :: rest => parseHelp rest
  | "--verbose" :: rest => if verbose then none else parseLeading true rest
  | arg :: rest =>
    match Verb.ofString? arg, arg.toList with
    | some verb, _ => parseVerb verb .none rest
    | none, '-' :: c :: cs =>
      match leadingLetters verbose (c :: cs) with
      | none => none
      | some (.inl request) => some request
      | some (.inr verbose) => parseLeading verbose rest
    | none, _ => none

/-- What the arguments ask for, or none if they cannot be understood. -/
def parse? (args : List String) : Option Request := parseLeading false args

end CommandLine

end AcademicMarkup

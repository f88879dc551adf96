import AcademicMarkup.Content
import AcademicMarkup.Tree

/-!
The commands that are built in: what each stands for and which arguments it takes.
-/
namespace AcademicMarkup

/-- The arguments that a command takes. -/
inductive ArgumentShape where
  | body
  | attributesAndBody
  | attributes
deriving DecidableEq, Repr

/-- The arguments of a command sorted: the text in square brackets, and the block in braces. -/
structure SortedArguments where
  attributes : Option String
  body : Option Block

namespace SortedArguments

/-- Attributes may stand first and a body last, and nothing else may stand there. -/
def ofList? : List Argument → Option SortedArguments
  | [] => some ⟨none, none⟩
  | [only] =>
    match only.blockOf? .brace with
    | some body => some ⟨none, some body⟩
    | none => only.bracketText?.map fun text => ⟨some text, none⟩
  | [first, last] => do
    let text ← first.bracketText?
    let body ← last.blockOf? .brace
    return ⟨some text, some body⟩
  | _ => none

end SortedArguments

namespace ArgumentShape

def accepts : ArgumentShape → SortedArguments → Bool
  | body, given => given.attributes.isNone && given.body.isSome
  | attributesAndBody, given => given.body.isSome
  | attributes, given => given.body.isNone

def description : ArgumentShape → String
  | body => "one \x7b…\x7d argument"
  | attributesAndBody => "an optional […] argument followed by one \x7b…\x7d argument"
  | attributes => "no arguments or one […] argument"

end ArgumentShape

/-- What a built-in command stands for. -/
inductive Role where
  | heading
  | inlineMath
  | blockMath
  | note
  | grid
  /-- An element of the page language that holds content. -/
  | container
  /-- An element of the page language that holds nothing. -/
  | leaf
deriving DecidableEq, Repr

namespace Role

def shape : Role → ArgumentShape
  | heading => .body
  | inlineMath => .body
  | blockMath => .body
  | note => .body
  | grid => .attributesAndBody
  | container => .attributesAndBody
  | leaf => .attributes

/-- Whether the body of the command is content. The body of mathematics is a formula. -/
def holdsContent : Role → Bool
  | heading => true
  | inlineMath => false
  | blockMath => false
  | note => true
  | grid => true
  | container => true
  | leaf => false

end Role

/-- A built-in command: what it stands for and the tag of its element. -/
structure Builtin where
  role : Role
  tag : String
deriving DecidableEq, Repr

namespace Vocabulary

/-- The name of the command for a grid. -/
def gridName : String := "\\grid"

/-- The commands that are not named after an element of the page language. -/
def own : List (String × Builtin) :=
  [("\\", ⟨.inlineMath, Tag.inlineMath⟩), ("\\math", ⟨.blockMath, Tag.blockMath⟩),
   ("\\note", ⟨.note, Tag.note⟩), (gridName, ⟨.grid, Tag.grid⟩)]

def headings : List (String × Builtin) := Tag.headings.map fun tag => ("\\" ++ tag, ⟨.heading, tag⟩)

def plain : List (String × Builtin) :=
  Tag.plain.map fun tag => ("\\" ++ tag, ⟨if Tag.isVoid tag then .leaf else .container, tag⟩)

def all : List (String × Builtin) := own ++ headings ++ plain

def find? (name : String) : Option Builtin := all.lookup name

def contains (name : String) : Bool := (find? name).isSome

end Vocabulary

end AcademicMarkup

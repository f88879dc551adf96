import AcademicMarkup.Diagnostic
import AcademicMarkup.Latex
import AcademicMarkup.Scope

/-!
From the normal form of a document to the content of its page. Built-in commands become elements;
a command that is not known or whose arguments are wrong is reported and left out. What a defined
command becomes is decided by an expander, whose replacement is read where the command stands. An
expander need not come to an end, so the number of expansions within one another is limited, and
the result says whether the limit was kept.
-/
namespace AcademicMarkup

/-- Content, the problems met, and whether every expansion was carried out. -/
structure Meaning where
  content : List Content
  diagnostics : List Diagnostic
  settled : Bool
deriving Repr

namespace Meaning

def empty : Meaning := ⟨[], [], true⟩

/-- No content but a problem. -/
def problem (d : Diagnostic) : Meaning := ⟨[], [d], true⟩

def single (c : Content) : Meaning := ⟨[c], [], true⟩

/-- No content, because an expansion was not carried out. -/
def unsettled : Meaning := ⟨[], [], false⟩

def append (a b : Meaning) : Meaning :=
  ⟨a.content ++ b.content, a.diagnostics ++ b.diagnostics, a.settled && b.settled⟩

/-- All the content made into one. -/
def wrap (f : List Content → Content) (a : Meaning) : Meaning :=
  { a with content := [f a.content] }

end Meaning

/-- The columns of a grid. White space does not count, and what is not known sets nothing. -/
def gridColumns (text : String) : Attributes :=
  match String.ofList (text.toList.filter (!Text.isBlank ·)) with
  | "1col" => ⟨[⟨"col", some "1"⟩]⟩
  | "2col" => ⟨[⟨"col", some "2"⟩]⟩
  | "3col" => ⟨[⟨"col", some "2"⟩]⟩
  | "4col" => ⟨[⟨"col", some "2"⟩]⟩
  | _ => .empty

namespace Builtin

/-- The element of a command with these arguments, in this scope and with this content. A grid
inside another is marked. -/
def element (b : Builtin) (given : SortedArguments) (scope : Scope) (children : List Content) :
    Content :=
  let formula := (given.body.map Block.children).getD []
  match b.role with
  | .heading => .element b.tag .empty children
  | .note => .element b.tag .empty children
  | .inlineMath => .element b.tag .empty [.text (Latex.inline formula)]
  | .blockMath => .element b.tag .empty [.text (Latex.equation formula)]
  | .grid =>
    let columns := gridColumns (given.attributes.getD "")
    let attributes :=
      if scope.isWithin Vocabulary.gridName then columns.set "sub-grid" none else columns
    .element b.tag attributes children
  | .container => .element b.tag ((given.attributes.map Attributes.parse).getD .empty) children
  | .leaf => .element b.tag ((given.attributes.map Attributes.parse).getD .empty) []

/-- The arguments of a command, if they are those that it takes. -/
def arguments? (b : Builtin) (as : List Argument) : Option SortedArguments :=
  (SortedArguments.ofList? as).filter b.role.shape.accepts

end Builtin

/-- What an invocation of a defined command denotes, or none if it is not expanded. -/
abbrev Invocation := Command → Scope → Option Meaning

/-- A command that is not built in. -/
def Command.denoteUnlisted (table : Definitions) (invoke : Invocation) (scope : Scope)
    (c : Command) : Meaning :=
  if table.contains c.name then
    match invoke c scope with
    | some meaning => meaning.wrap .fragment
    | none => .problem (.unexpandedCommand c.name c.span)
  else .problem (.unsupportedCommand c.name c.span)

mutual

/-- The content that a node stands for. A block is a sequence of content, and a definition has
none. -/
def Node.denote (table : Definitions) (invoke : Invocation) (scope : Scope) : Node → Meaning
  | .text t => .single (.text t.text)
  | .quotation q => .single (.text q.text)
  | .misplaced t => .single (.text t.text)
  | .block b => (b.denoteChildren table invoke scope).wrap .fragment
  | .command c => c.denote table invoke scope
  | .definition _ => .empty

def Node.denoteAll (table : Definitions) (invoke : Invocation) (scope : Scope) :
    List Node → Meaning
  | [] => .empty
  | n :: ns => (n.denote table invoke scope).append (Node.denoteAll table invoke scope ns)

def Block.denoteChildren (table : Definitions) (invoke : Invocation) (scope : Scope) :
    Block → Meaning
  | ⟨_, children, _⟩ => Node.denoteAll table invoke scope children

/-- The content of a command is its last argument, read in the scope of the command. -/
def Command.denote (table : Definitions) (invoke : Invocation) (scope : Scope) :
    Command → Meaning
  | ⟨ident, arguments, clause⟩ =>
    match Vocabulary.find? ident.text with
    | none => Command.denoteUnlisted table invoke scope ⟨ident, arguments, clause⟩
    | some builtin =>
      match builtin.arguments? arguments with
      | none =>
        .problem (.invalidArguments ident.text builtin.role.shape
          (Command.span ⟨ident, arguments, clause⟩))
      | some given =>
        let inner :=
          if builtin.role.holdsContent then
            Argument.denoteLast table invoke (scope.push ident.text) arguments
          else .empty
        inner.wrap (builtin.element given scope)

/-- The content of the last argument, if that is a block. -/
def Argument.denoteLast (table : Definitions) (invoke : Invocation) (scope : Scope) :
    List Argument → Meaning
  | [] => .empty
  | [.block b] => b.denoteChildren table invoke scope
  | [.script _ _] => .empty
  | _ :: a :: as => Argument.denoteLast table invoke scope (a :: as)

end

/-- Gives the nodes that stand for an invocation, from all the definitions of its name, oldest
first, and the scope it stands in. There may be definitions among them and inside them; these are
not recorded. -/
abbrev Expander := Command → List Definition → Scope → Option (List Node)

namespace Expander

/-- Expands nothing. -/
def never : Expander := fun _ _ _ => none

/-- What replacements denote, with as many expansions within one another as the limit allows. -/
def invocation (expander : Expander) (table : Definitions) : Nat → Invocation
  | 0 => fun c scope => (expander c (table.get c.name) scope).map fun _ => .unsettled
  | limit + 1 => fun c scope =>
    (expander c (table.get c.name) scope).map
      (Node.denoteAll table (expander.invocation table limit) scope)

end Expander

namespace Document

/-- The nodes between the definitions of a document. -/
def nodes (doc : Document) : List Node :=
  doc.filterMap fun
    | .node n => some n
    | .definition _ => none

/-- The content of a document, with an expander. Definitions have no content. -/
def denoteWith (expander : Expander) (limit : Nat) (table : Definitions) (doc : Document) :
    Meaning :=
  Node.denoteAll table (expander.invocation table limit) .root doc.nodes

/-- The content of a document in which no defined command is expanded. -/
def denote (table : Definitions) (doc : Document) : Meaning :=
  doc.denoteWith .never 0 table

end Document

end AcademicMarkup

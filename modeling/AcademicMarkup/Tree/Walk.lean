import AcademicMarkup.Scope
import AcademicMarkup.Tree

/-!
Walking through a document in the order of its source. The walk is the list of what it meets, each
with the commands around it; who wants part of a tree picks from that list. A walk may be told not
to enter some constructs.
-/
namespace AcademicMarkup

/-- The kinds of constructs that a walk meets. -/
inductive Construct where
  | text
  | quotation
  | misplaced
  | block
  | command
  | script
  | clause
  | definition
deriving DecidableEq, Repr

/-- What a walk meets. A node is met as a node and then as what it is; the block of an argument
or of a target is met only as a block, and a definition only as a definition. -/
inductive Subject where
  | node (node : Node)
  | text (token : Token)
  | quotation (quotation : Quotation)
  | misplaced (token : Token)
  | block (block : Block)
  | command (command : Command)
  | script (operator : Token) (operand : Node)
  | clause (clause : Clause)
  | definition (definition : Definition)
deriving Repr

namespace Subject

/-- The kind of a construct; none for a node that is met for the first time. -/
def construct? : Subject → Option Construct
  | node _ => none
  | text _ => some .text
  | quotation _ => some .quotation
  | misplaced _ => some .misplaced
  | block _ => some .block
  | command _ => some .command
  | script _ _ => some .script
  | clause _ => some .clause
  | definition _ => some .definition

def span : Subject → Span
  | node n => n.span
  | text t => t.span
  | quotation q => q.span
  | misplaced t => t.span
  | block b => b.span
  | command c => c.span
  | script operator operand => operator.span.through operand.lastToken.span
  | clause c => c.span
  | definition d => d.span

end Subject

structure Visit where
  subject : Subject
  scope : Scope
deriving Repr

mutual

/-- A walk through a node, not entering the kinds of constructs to stop at. -/
def Node.walk (stop : Construct → Bool) (scope : Scope) : Node → List Visit
  | .text t => [⟨.node (.text t), scope⟩, ⟨.text t, scope⟩]
  | .quotation q => [⟨.node (.quotation q), scope⟩, ⟨.quotation q, scope⟩]
  | .misplaced t => [⟨.node (.misplaced t), scope⟩, ⟨.misplaced t, scope⟩]
  | .command c => ⟨.node (.command c), scope⟩ :: c.walk stop scope
  | .block b => ⟨.node (.block b), scope⟩ :: b.walk stop scope
  | .definition d => d.walk stop scope

def Node.walkAll (stop : Construct → Bool) (scope : Scope) : List Node → List Visit
  | [] => []
  | n :: ns => n.walk stop scope ++ Node.walkAll stop scope ns

def Block.walk (stop : Construct → Bool) (scope : Scope) : Block → List Visit
  | ⟨opening, children, closing⟩ =>
    ⟨.block ⟨opening, children, closing⟩, scope⟩ ::
      if stop .block then [] else Node.walkAll stop scope children

/-- The arguments and the clause of a command stand in the scope of the command. -/
def Command.walk (stop : Construct → Bool) (scope : Scope) : Command → List Visit
  | ⟨ident, arguments, clause⟩ =>
    ⟨.command ⟨ident, arguments, clause⟩, scope⟩ ::
      if stop .command then []
      else Argument.walkAll stop (scope.push ident.text) arguments ++
        Clause.walkOption stop (scope.push ident.text) clause

def Argument.walk (stop : Construct → Bool) (scope : Scope) : Argument → List Visit
  | .block b => b.walk stop scope
  | .script operator operand =>
    ⟨.script operator operand, scope⟩ ::
      if stop .script then [] else operand.walk stop scope

def Argument.walkAll (stop : Construct → Bool) (scope : Scope) : List Argument → List Visit
  | [] => []
  | a :: as => a.walk stop scope ++ Argument.walkAll stop scope as

def Clause.walkOption (stop : Construct → Bool) (scope : Scope) : Option Clause → List Visit
  | none => []
  | some ⟨keyword, opening, rules, closing⟩ =>
    ⟨.clause ⟨keyword, opening, rules, closing⟩, scope⟩ ::
      if stop .clause then [] else RewriteRule.walkAll stop scope rules

def RewriteRule.walkAll (stop : Construct → Bool) (scope : Scope) : List RewriteRule → List Visit
  | [] => []
  | ⟨pattern, _, target⟩ :: rules =>
    pattern.walk stop scope ++ target.walk stop scope ++ RewriteRule.walkAll stop scope rules

/-- Of a definition only the targets of its rules are entered. -/
def Definition.walk (stop : Construct → Bool) (scope : Scope) : Definition → List Visit
  | ⟨keyword, headerOpening, ident, headerClosing, bodyOpening, rules, bodyClosing⟩ =>
    ⟨.definition ⟨keyword, headerOpening, ident, headerClosing, bodyOpening, rules, bodyClosing⟩,
        scope⟩ ::
      if stop .definition then [] else DefinitionRule.walkAll stop scope rules

def DefinitionRule.walkAll (stop : Construct → Bool) (scope : Scope) :
    List DefinitionRule → List Visit
  | [] => []
  | ⟨_, _, _, _, target⟩ :: rules =>
    target.walk stop scope ++ DefinitionRule.walkAll stop scope rules

end

def Item.walk (stop : Construct → Bool) : Item → List Visit
  | .node n => n.walk stop .root
  | .definition d => d.walk stop .root

namespace Document

def walk (stop : Construct → Bool) (doc : Document) : List Visit := doc.flatMap (Item.walk stop)

end Document

end AcademicMarkup

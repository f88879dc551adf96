import AcademicMarkup.Tree.Grammar
import AcademicMarkup.Tree.Walk

/-!
What an editor colours: commands, quotations and definitions, in the order of the source. A command
shows how many commands are around it. Script operands and rewrite rules are part of the command
they belong to and are not entered.
-/
namespace AcademicMarkup

inductive Highlight where
  | command (command : Command) (depth : Nat)
  | definition (definition : Definition)
  | quotation (quotation : Quotation)
deriving Repr

/-- A colour for quotations, or a place in the palette for expressions. -/
inductive Color where
  | quotation
  | expression (index : Nat)
deriving DecidableEq, Repr

mutual

/-- The name of a command and those of commands that are its script operands. -/
def Command.identifierSpans : Command → List Span
  | ⟨ident, arguments, _⟩ => ident.span :: Argument.identifierSpansAll arguments

def Argument.identifierSpansAll : List Argument → List Span
  | [] => []
  | a :: as => a.identifierSpans ++ Argument.identifierSpansAll as

def Argument.identifierSpans : Argument → List Span
  | .block _ => []
  | .script _ operand => operand.identifierSpans

def Node.identifierSpans : Node → List Span
  | .command c => c.identifierSpans
  | .text _ => []
  | .quotation _ => []
  | .misplaced _ => []
  | .block _ => []
  | .definition _ => []

end

namespace Block

/-- From bracket to bracket, or the opening bracket alone. -/
def enclosureSpan (b : Block) : Span := b.opening.span.through (b.closing.getD b.opening).span

end Block

namespace Clause

/-- The rules both of whose sides are blocks. -/
def blockRules (c : Clause) : List (Block × Token × Block) :=
  c.rules.filterMap fun r => do return (← r.pattern.block?, r.arrow, ← r.target.block?)

end Clause

namespace Highlight

def span : Highlight → Span
  | command c _ => c.span
  | definition d => d.span
  | quotation q => q.span

def depth : Highlight → Nat
  | command _ depth => depth
  | definition _ => 0
  | quotation _ => 0

def kind : Highlight → String
  | command _ _ => "command"
  | definition _ => "macro-rules"
  | quotation _ => "string"

/-- Commands take the colours of the palette in turn as they nest. -/
def color (colors : Nat) : Highlight → Color
  | command _ depth => .expression (if colors = 0 then 0 else depth % colors)
  | definition _ => .expression 0
  | quotation _ => .quotation

def identifierSpans : Highlight → List Span
  | command c _ => c.identifierSpans
  | definition d => [d.ident.span]
  | quotation _ => []

def ofVisit? (v : Visit) : Option Highlight :=
  match v.subject with
  | .command c => some (.command c v.scope.depth)
  | .definition d => some (.definition d)
  | .quotation q => some (.quotation q)
  | _ => none

/-- The constructs that highlighting does not enter. -/
def stops (construct : Construct) : Bool := construct == .script || construct == .clause

def ofDocument (doc : Document) : List Highlight := (doc.walk stops).filterMap ofVisit?

def ofSource (source : String) : List Highlight := ofDocument (.ofSource source)

end Highlight

end AcademicMarkup

import AcademicMarkup.Token

/-!
The tree of a document. Every node keeps the tokens it was read from, so places in the source
survive. A bracket or a quotation without its close is an ordinary node that lacks the closing
token. A document as it is read has its definitions between its nodes, as items of their own; what
replaces a command may hold definitions at any depth.
-/
namespace AcademicMarkup

/-- A quoted text. Without a closing quote it ends with the first token that breaks the line. -/
structure Quotation where
  opening : Token
  content : List Token
  closing : Option Token
deriving DecidableEq, Repr

namespace Quotation

def isTerminated (q : Quotation) : Bool := q.closing.isSome

/-- What stands between the quotes, as one token. -/
def value? (q : Quotation) : Option Token := Token.join? q.content

def tokens (q : Quotation) : List Token := q.opening :: q.content ++ q.closing.toList

def lastToken (q : Quotation) : Token := q.closing.getD (q.content.getLastD q.opening)

def span (q : Quotation) : Span := q.opening.span.through q.lastToken.span

/-- The quotation as written, quotes included. -/
def text (q : Quotation) : String := Token.joinedText q.tokens

end Quotation

/-- A variable in a pair of brackets of its own. -/
structure Binder where
  opening : Token
  name : Token
  closing : Token
deriving DecidableEq, Repr

mutual

inductive Node where
  /-- A token that begins no other construct. -/
  | text (token : Token)
  | quotation (quotation : Quotation)
  /-- A closing bracket that closes nothing, or an opening bracket or command name beyond the
  nesting limit. -/
  | misplaced (token : Token)
  | command (command : Command)
  | block (block : Block)
  | definition (definition : Definition)

/-- An opening bracket and what follows it, up to the closing bracket if there is one. -/
structure Block where
  opening : Token
  children : List Node
  closing : Option Token

/-- A command name with its arguments and the rewrite rules that may follow them. -/
structure Command where
  ident : Token
  arguments : List Argument
  clause : Option Clause

inductive Argument where
  | block (block : Block)
  /-- An operand raised or lowered by a script operator. -/
  | script (operator : Token) (operand : Node)

structure Clause where
  keyword : Token
  opening : Token
  rules : List RewriteRule
  closing : Token

structure RewriteRule where
  pattern : Node
  arrow : Token
  target : Node

/-- The definition of a command by rules. -/
structure Definition where
  keyword : Token
  headerOpening : Token
  ident : Token
  headerClosing : Token
  bodyOpening : Token
  rules : List DefinitionRule
  bodyClosing : Token

/-- One case of a definition: a pattern of binders in square brackets and its target. -/
structure DefinitionRule where
  patternOpening : Token
  binders : List Binder
  patternClosing : Token
  arrow : Token
  target : Block

end

deriving instance Repr for Node, Block, Command, Argument, Clause, RewriteRule, Definition,
  DefinitionRule

inductive Item where
  | node (node : Node)
  | definition (definition : Definition)
deriving Repr

abbrev Document := List Item

/-! The first and the last token of a construct, and with them its span. -/

mutual

def Node.lastToken : Node → Token
  | .text t => t
  | .quotation q => q.lastToken
  | .misplaced t => t
  | .command c => c.lastToken
  | .block b => b.lastToken
  | .definition d => d.bodyClosing

def Block.lastToken : Block → Token
  | ⟨_, _, some closing⟩ => closing
  | ⟨opening, children, none⟩ => Node.lastTokenOr opening children

def Command.lastToken : Command → Token
  | ⟨_, _, some clause⟩ => clause.closing
  | ⟨ident, arguments, none⟩ => Argument.lastTokenOr ident arguments

def Argument.lastToken : Argument → Token
  | .block b => b.lastToken
  | .script _ operand => operand.lastToken

/-- The last token of the last node, or the given one if there is no node. -/
def Node.lastTokenOr (default : Token) : List Node → Token
  | [] => default
  | [n] => n.lastToken
  | _ :: n :: ns => Node.lastTokenOr default (n :: ns)

/-- The last token of the last argument, or the given one if there is no argument. -/
def Argument.lastTokenOr (default : Token) : List Argument → Token
  | [] => default
  | [a] => a.lastToken
  | _ :: a :: as => Argument.lastTokenOr default (a :: as)

end

def Node.firstToken : Node → Token
  | .text t => t
  | .quotation q => q.opening
  | .misplaced t => t
  | .command c => c.ident
  | .block b => b.opening
  | .definition d => d.keyword

def Block.span (b : Block) : Span := b.opening.span.through b.lastToken.span

def Command.span (c : Command) : Span := c.ident.span.through c.lastToken.span

def Node.span (n : Node) : Span := n.firstToken.span.through n.lastToken.span

def Argument.span : Argument → Span
  | .block b => b.span
  | .script operator operand => operator.span.through operand.lastToken.span

def Clause.span (c : Clause) : Span := c.keyword.span.through c.closing.span

def Definition.span (d : Definition) : Span := d.keyword.span.through d.bodyClosing.span

def Item.span : Item → Span
  | .node n => n.span
  | .definition d => d.span

/-! Views of a node and of the children of a block. -/

/-- A list without the elements at both ends that satisfy a test. -/
def trimBy {α : Type} (test : α → Bool) (xs : List α) : List α :=
  ((xs.dropWhile test).reverse.dropWhile test).reverse

namespace Node

def token? : Node → Option Token
  | .text t => some t
  | _ => none

def block? : Node → Option Block
  | .block b => some b
  | _ => none

def command? : Node → Option Command
  | .command c => some c
  | _ => none

/-- Whether the node is text of white space only. -/
def isBlank (n : Node) : Bool := n.token?.any Token.isBlank

/-- The arrow of a rule, if that is what the node is. -/
def arrow? (n : Node) : Option Token := n.token?.filter (·.text == Token.arrow)

/-- The source text of a node without children. -/
def literal? : Node → Option String
  | .text t => some t.text
  | .quotation q => some q.text
  | .misplaced t => some t.text
  | .command _ => none
  | .block _ => none
  | .definition _ => none

/-- Nodes without the blank ones at both ends. -/
def trim (ns : List Node) : List Node := trimBy isBlank ns

def nonBlank (ns : List Node) : List Node := ns.filter fun n => !n.isBlank

end Node

namespace Block

def isTerminated (b : Block) : Bool := b.closing.isSome

/-- The kind of brackets of a block that has both. -/
def kind? (b : Block) : Option Enclosure := do
  let closing ← b.closing
  if b.opening.pairsWith closing then b.opening.opens? else none

def isKind (b : Block) (kind : Enclosure) : Bool := b.kind? == some kind

def onlyChild? (b : Block) : Option Node :=
  match b.children with
  | [n] => some n
  | _ => none

def onlyToken? (b : Block) : Option Token := b.onlyChild?.bind Node.token?

end Block

namespace Command

/-- The name of the command, backslash included. -/
def name (c : Command) : String := c.ident.text

end Command

namespace Argument

def block? : Argument → Option Block
  | .block b => some b
  | .script _ _ => none

def blockOf? (a : Argument) (kind : Enclosure) : Option Block := a.block?.filter (·.isKind kind)

/-- The text of an argument in square brackets: its text and its quotations. -/
def bracketText? (a : Argument) : Option String :=
  (a.blockOf? .bracket).map fun b => String.join <| b.children.filterMap fun
    | .text t => some t.text
    | .quotation q => some q.text
    | _ => none

end Argument

namespace Definition

/-- The name of the command that is defined. -/
def name (d : Definition) : String := d.ident.text

end Definition

end AcademicMarkup

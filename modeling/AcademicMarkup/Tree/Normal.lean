import AcademicMarkup.Definitions
import AcademicMarkup.Tree

/-!
The normal form of a document and the defects met on the way to it. In normal form no block begins
or ends with white space, unterminated blocks are gone with all they hold, and no command carries a
clause. The white space around the nodes of the document itself stays.
-/
namespace AcademicMarkup

mutual

/-- A node in normal form, or none for an unterminated block. -/
def Node.normal? : Node → Option Node
  | .text t => some (.text t)
  | .quotation q => some (.quotation q)
  | .misplaced t => some (.misplaced t)
  | .command c => some (.command c.normal)
  | .block b => b.normal?.map .block
  | .definition d => some (.definition d)

/-- The normal forms of nodes, none at the place of each that has none. -/
def Node.normals : List Node → List (Option Node)
  | [] => []
  | n :: ns => n.normal? :: Node.normals ns

/-- White space is cut at the ends that were written, before unterminated children go. -/
def Block.normal? : Block → Option Block
  | ⟨_, _, none⟩ => none
  | ⟨opening, children, some closing⟩ =>
    some ⟨opening, (trimBy (·.any Node.isBlank) (Node.normals children)).filterMap id,
      some closing⟩

def Command.normal : Command → Command
  | ⟨ident, arguments, _⟩ => ⟨ident, Argument.normals arguments, none⟩

/-- A script goes with its operand. -/
def Argument.normal? : Argument → Option Argument
  | .block b => b.normal?.map .block
  | .script operator operand => operand.normal?.map (.script operator)

def Argument.normals : List Argument → List Argument
  | [] => []
  | a :: as => a.normal?.toList ++ Argument.normals as

end

/-- A fault in the structure of a document. -/
inductive Defect where
  | unterminatedBlock (opening : String) (span : Span)
  | unterminatedQuotation (span : Span)
  | unmatchedClosing (text : String) (span : Span)
  | nestedTooDeeply (text : String) (span : Span)
deriving DecidableEq, Repr

namespace Defect

def span : Defect → Span
  | unterminatedBlock _ s => s
  | unterminatedQuotation s => s
  | unmatchedClosing _ s => s
  | nestedTooDeeply _ s => s

def message : Defect → String
  | unterminatedBlock opening s =>
    "Unterminated block at " ++ s.place ++ ": missing close for '" ++ opening ++ "'"
  | unterminatedQuotation s => "Unterminated string at " ++ s.place
  | unmatchedClosing text s => "Unmatched '" ++ text ++ "' at " ++ s.place
  | nestedTooDeeply text s => "'" ++ text ++ "' at " ++ s.place ++ " is nested too deeply"

/-- The defect that a misplaced token is. -/
def ofMisplaced (t : Token) : Defect :=
  if t.isClosing then unmatchedClosing t.text t.span else nestedTooDeeply t.text t.span

end Defect

mutual

/-- The defects of a node in the order of the source. What an unterminated block holds is not
looked into, nor are clauses and definitions. -/
def Node.defects : Node → List Defect
  | .text _ => []
  | .quotation q => if q.isTerminated then [] else [.unterminatedQuotation q.span]
  | .misplaced t => [.ofMisplaced t]
  | .command c => c.defects
  | .block b => b.defects
  | .definition _ => []

def Node.defectsAll : List Node → List Defect
  | [] => []
  | n :: ns => n.defects ++ Node.defectsAll ns

def Block.defects : Block → List Defect
  | ⟨opening, children, none⟩ =>
    [.unterminatedBlock opening.text (Block.span ⟨opening, children, none⟩)]
  | ⟨_, children, some _⟩ => Node.defectsAll children

def Command.defects : Command → List Defect
  | ⟨_, arguments, _⟩ => Argument.defectsAll arguments

def Argument.defects : Argument → List Defect
  | .block b => b.defects
  | .script _ operand => operand.defects

def Argument.defectsAll : List Argument → List Defect
  | [] => []
  | a :: as => a.defects ++ Argument.defectsAll as

end

mutual

/-- The definitions with those that a node holds, which are recorded as they are met. A definition
is recorded and not entered, nor are unterminated blocks and clauses. -/
def Node.record (table : Definitions) : Node → Definitions
  | .text _ => table
  | .quotation _ => table
  | .misplaced _ => table
  | .command c => c.record table
  | .block b => b.record table
  | .definition d => table.insert d

def Node.recordAll (table : Definitions) : List Node → Definitions
  | [] => table
  | n :: ns => Node.recordAll (n.record table) ns

def Block.record (table : Definitions) : Block → Definitions
  | ⟨_, _, none⟩ => table
  | ⟨_, children, some _⟩ => Node.recordAll table children

def Command.record (table : Definitions) : Command → Definitions
  | ⟨_, arguments, _⟩ => Argument.recordAll table arguments

def Argument.record (table : Definitions) : Argument → Definitions
  | .block b => b.record table
  | .script _ operand => operand.record table

def Argument.recordAll (table : Definitions) : List Argument → Definitions
  | [] => table
  | a :: as => Argument.recordAll (a.record table) as

end

namespace Item

def normal? : Item → Option Item
  | node n => n.normal?.map .node
  | definition d => some (.definition d)

def defects : Item → List Defect
  | node n => n.defects
  | definition _ => []

def record (table : Definitions) : Item → Definitions
  | node n => n.record table
  | definition d => table.insert d

end Item

/-- A document in normal form with its definitions and the defects of what it came from. -/
structure NormalForm where
  document : Document
  definitions : Definitions
  defects : List Defect
deriving Repr

namespace Document

/-- Definitions are recorded wherever they are met, and stay as they are. -/
def normalForm (doc : Document) : NormalForm where
  document := doc.filterMap Item.normal?
  definitions := doc.foldl Item.record .empty
  defects := doc.flatMap Item.defects

end Document

end AcademicMarkup

import AcademicMarkup.Tree

/-!
Mathematics as LaTeX. Inside mathematics the source is LaTeX already and is taken as written,
except that round and square brackets which are closed grow with what they enclose.
-/
namespace AcademicMarkup

namespace Block

/-- Whether the brackets of a block grow with their content. -/
def isSized (b : Block) : Bool := b.isKind .paren || b.isKind .bracket

end Block

mutual

/-- The pieces of text that a node puts into a formula, in order. A definition puts none. -/
def Node.latexPieces : Node → List String
  | .text t => [t.text]
  | .quotation q => [q.text]
  | .misplaced t => [t.text]
  | .command c => c.latexPieces
  | .block b => b.latexPieces
  | .definition _ => []

def Node.latexPiecesAll : List Node → List String
  | [] => []
  | n :: ns => n.latexPieces ++ Node.latexPiecesAll ns

def Block.latexPieces : Block → List String
  | ⟨opening, children, closing⟩ =>
    let sized := Block.isSized ⟨opening, children, closing⟩
    (if sized then ["\\left"] else []) ++ opening.text :: Node.latexPiecesAll children ++
      match closing with
      | none => []
      | some closing => (if sized then ["\\right"] else []) ++ [closing.text]

def Command.latexPieces : Command → List String
  | ⟨ident, arguments, _⟩ => ident.text :: Argument.latexPiecesAll arguments

def Argument.latexPieces : Argument → List String
  | .block b => b.latexPieces
  | .script operator operand => operator.text :: operand.latexPieces

def Argument.latexPiecesAll : List Argument → List String
  | [] => []
  | a :: as => a.latexPieces ++ Argument.latexPiecesAll as

end

namespace Latex

/-- A formula in a line. -/
def inline (ns : List Node) : String := String.join (Node.latexPiecesAll ns)

/-- A formula of its own, as a split equation. -/
def equation (ns : List Node) : String :=
  "\\begin\x7bequation*\x7d\\begin\x7bsplit\x7d" ++ inline ns ++
    "\\end\x7bsplit\x7d\\end\x7bequation*\x7d"

end Latex

end AcademicMarkup

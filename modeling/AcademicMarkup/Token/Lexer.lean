import AcademicMarkup.Token
import AcademicMarkup.Token.CharClass

/-!
Cutting a source text into tokens. The cut is decided between neighbours: two adjacent characters
belong to one token exactly when the class of the second continues the class of the first, so the
lexemes are the longest runs of such neighbours and no character is lost.
-/
namespace AcademicMarkup

namespace Token

/-- Whether two neighbouring characters belong to one lexeme. -/
def joins (c d : Char) : Bool := (CharClass.ofChar c).continuesWith (CharClass.ofChar d)

def lexemes (source : List Char) : List (List Char) := source.splitBy joins

/-- Sets adjacent texts one after the other from a place on. -/
def layOut : Position → List (List Char) → List Token
  | _, [] => []
  | p, text :: rest =>
    ⟨String.ofList text, p.spanTo (p.after text)⟩ :: layOut (p.after text) rest

/-- The tokens of a source text. -/
def ofSource (source : String) : List Token := layOut .origin (lexemes source.toList)

end Token

end AcademicMarkup

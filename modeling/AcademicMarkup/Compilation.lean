import AcademicMarkup.Denotation
import AcademicMarkup.Page
import AcademicMarkup.Tree.Grammar

/-!
From a source text to a page, with all problems on the way.
-/
namespace AcademicMarkup

structure Compilation where
  /-- The whole page. -/
  page : String
  /-- The body alone. -/
  body : String
  /-- Defects of the structure first, then problems with commands, each in the order of the
  source. -/
  diagnostics : List Diagnostic
  definitions : Definitions

namespace Compilation

/-- Whether nothing was left out or kept in another meaning. -/
def isComplete (c : Compilation) : Bool := !c.diagnostics.any Diagnostic.isError

def ofSource (options : Options) (source : String) : Compilation :=
  let normal := (Document.ofSource source).normalForm
  let denotation := normal.document.denote normal.definitions
  let body := (Content.fragment denotation.content).render (.initial : Register)
  { page := (Page.assemble body.1 body.2 options).1
    body := body.1
    diagnostics := normal.defects.map .structural ++ denotation.diagnostics
    definitions := normal.definitions }

end Compilation

end AcademicMarkup

import AcademicMarkup.Tree.Normal
import AcademicMarkup.Vocabulary

/-!
The problems reported for a document. None of them ends the work: what a problem concerns is left
out or kept as text.
-/
namespace AcademicMarkup

inductive Severity where
  | warning
  | error
deriving DecidableEq, Repr

namespace Severity

def name : Severity → String
  | warning => "warning"
  | error => "error"

end Severity

inductive Diagnostic where
  | unsupportedCommand (name : String) (span : Span)
  | unexpandedCommand (name : String) (span : Span)
  | invalidArguments (name : String) (expected : ArgumentShape) (span : Span)
  | structural (defect : Defect)
deriving DecidableEq, Repr

namespace Diagnostic

def span : Diagnostic → Span
  | unsupportedCommand _ s => s
  | unexpandedCommand _ s => s
  | invalidArguments _ _ s => s
  | structural d => d.span

/-- Text that is kept is only warned of; what is left out or has another meaning is an error. -/
def severity : Diagnostic → Severity
  | structural (.unterminatedQuotation _) => .warning
  | structural (.unmatchedClosing _ _) => .warning
  | _ => .error

def isError (d : Diagnostic) : Bool := d.severity == .error

def code : Diagnostic → String
  | unsupportedCommand _ _ => "unsupported-command"
  | unexpandedCommand _ _ => "unexpanded-macro"
  | invalidArguments _ _ _ => "invalid-arguments"
  | structural (.unterminatedBlock _ _) => "unterminated-block"
  | structural (.unterminatedQuotation _) => "unterminated-string"
  | structural (.unmatchedClosing _ _) => "unmatched-close"
  | structural (.nestedTooDeeply _ _) => "nesting-too-deep"

def message : Diagnostic → String
  | unsupportedCommand name s => "Unsupported command '" ++ name ++ "' at " ++ s.place
  | unexpandedCommand name s =>
    "Macro '" ++ name ++ "' is defined but cannot be expanded (" ++ s.place ++ ")"
  | invalidArguments name expected s =>
    "Invalid arguments for '" ++ name ++ "' at " ++ s.place ++ ": expected " ++
      expected.description
  | structural (.nestedTooDeeply text s) =>
    (Defect.nestedTooDeeply text s).message ++ " and was kept as text"
  | structural d => d.message

end Diagnostic

end AcademicMarkup

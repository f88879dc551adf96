import AcademicMarkup.Files.FileTree
import AcademicMarkup.Main
import AcademicMarkup.Proofs.BracketMatching
import AcademicMarkup.Proofs.Concatenation
import AcademicMarkup.Proofs.ContentsOrder
import AcademicMarkup.Proofs.DiagnosticOrder
import AcademicMarkup.Proofs.LostTokens
import AcademicMarkup.Proofs.MalformedStructure
import AcademicMarkup.Proofs.NestingLimit
import AcademicMarkup.Proofs.SettledForm
import AcademicMarkup.Proofs.Tiling
import AcademicMarkup.Proofs.TypesetIds
import AcademicMarkup.Proofs.MaximalMunch
import AcademicMarkup.Proofs.AttributeNames
import AcademicMarkup.Proofs.HighlightNesting
import AcademicMarkup.Proofs.TokenPlaces
import AcademicMarkup.Proofs.HighlightedNames
import AcademicMarkup.Proofs.SizedDelimiters
import AcademicMarkup.Proofs.JoinedTexts
import AcademicMarkup.Proofs.SeparatePieces
import AcademicMarkup.Proofs.HeadingNames
import AcademicMarkup.Proofs.AttributesReadBack
import AcademicMarkup.Proofs.ElementShapes
import AcademicMarkup.Proofs.MathNumbers
import AcademicMarkup.Proofs.AttributeText
import AcademicMarkup.Proofs.QuotationEnds
import AcademicMarkup.Proofs.DefinitionRules
import AcademicMarkup.Proofs.DefinitionTable
import AcademicMarkup.Proofs.OpenBlocks
import AcademicMarkup.Proofs.Substitution
import AcademicMarkup.Proofs.BuiltFiles
import AcademicMarkup.Proofs.CursorReading

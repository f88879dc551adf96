import AcademicMarkup.Text.Alphanumeric
import AcademicMarkup.Text.Blank

/-!
The classes of characters that decide where one token ends and the next begins.
-/
namespace AcademicMarkup

inductive CharClass where
  /-- The backslash, which begins a token. -/
  | escape
  /-- Letters, digits and the marks `! , ; . $`. -/
  | word
  | blank
  /-- The signs `= < >`, so that an arrow stays together. -/
  | relational
  /-- Any other character, a token of its own. -/
  | symbol
deriving DecidableEq, Repr

namespace CharClass

/-- Whether a character may stand in a token of the class. A word may begin with a backslash. -/
def includes : CharClass → Char → Bool
  | escape, c => c == '\\'
  | word, c => Text.isAlphanumeric c || ['!', '\\', ',', ';', '.', '$'].contains c
  | blank, c => Text.isBlank c
  | relational, c => ['=', '<', '>'].contains c
  | symbol, _ => false

/-- The class of a character, the first that includes it. -/
def ofChar (c : Char) : CharClass :=
  if escape.includes c then escape
  else if word.includes c then word
  else if blank.includes c then blank
  else if relational.includes c then relational
  else symbol

/-- Whether a character of the second class goes on with a token that ends in the first. -/
def continuesWith : CharClass → CharClass → Bool
  | escape, word => true
  | word, word => true
  | blank, blank => true
  | relational, relational => true
  | _, _ => false

end CharClass

end AcademicMarkup

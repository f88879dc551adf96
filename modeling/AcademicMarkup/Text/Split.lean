/-!
Cutting a text at every occurrence of a character.
-/
namespace AcademicMarkup.Text

/-- The pieces between the separators. There is one piece more than there are separators. -/
def splitAt (separator : Char) : List Char → List (List Char)
  | [] => [[]]
  | c :: cs =>
    if c = separator then [] :: splitAt separator cs
    else
      match splitAt separator cs with
      | [] => [[c]]
      | piece :: pieces => (c :: piece) :: pieces

end AcademicMarkup.Text

/-!
Sets of code points given as ascending lists of closed ranges, the form in which character
properties are published.
-/
namespace AcademicMarkup.Text

/-- Whether a code point lies in one of the ranges. They ascend, so the search stops at the
first range that begins above it. -/
def covers : List (Nat × Nat) → Nat → Bool
  | [], _ => false
  | (low, high) :: rest, n => if n < low then false else n ≤ high || covers rest n

end AcademicMarkup.Text

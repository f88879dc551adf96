import AcademicMarkup.Content.Attributes

/-!
The content of a page before it is written out: text, elements and sequences of content. Tags are
those of the page language and four of our own, for mathematics in a line and in a block, for grids
and for notes.
-/
namespace AcademicMarkup

inductive Content where
  | text (text : String)
  | element (tag : String) (attributes : Attributes) (children : List Content)
  | fragment (children : List Content)
deriving Repr

namespace Tag

def inlineMath : String := "inline-math"

def blockMath : String := "math"

def grid : String := "grid"

def note : String := "note"

def headings : List String := ["h1", "h2", "h3", "h4", "h5", "h6"]

/-- The tags of elements that hold nothing and are not closed. -/
def voids : List String := ["br", "hr", "img"]

/-- The tags of the page language that a command may name. -/
def plain : List String :=
  ["blockquote", "dd", "dl", "dt", "figcaption", "figure", "hr", "li", "ol", "p", "pre", "ul", "a",
   "b", "br", "cite", "code", "em", "i", "mark", "q", "s", "small", "strong", "sub", "sup", "time",
   "u", "img", "table", "tbody", "td", "tfoot", "th", "tr"]

def isHeading (tag : String) : Bool := headings.contains tag

def isVoid (tag : String) : Bool := voids.contains tag

end Tag

end AcademicMarkup

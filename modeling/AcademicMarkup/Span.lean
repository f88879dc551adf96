/-!
Places in a source text. Offsets count UTF-8 bytes; lines and columns count from one, a column
counts code points, and only a line feed begins a new line.
-/
namespace AcademicMarkup

/-- A half-open range of byte offsets with the line and column of its start. -/
structure Span where
  start : Nat
  stop : Nat
  line : Nat
  column : Nat
deriving DecidableEq, Repr, Inhabited

namespace Span

/-- From the start of the first span to the end of the second. -/
def through (first last : Span) : Span := { first with stop := last.stop }

def length (s : Span) : Nat := s.stop - s.start

def isEmpty (s : Span) : Bool := s.start == s.stop

/-- Where a span begins, for readers. -/
def place (s : Span) : String := "line " ++ toString s.line ++ ", column " ++ toString s.column

end Span

/-- A place between two characters. -/
structure Position where
  offset : Nat
  line : Nat
  column : Nat
deriving DecidableEq, Repr, Inhabited

namespace Position

def origin : Position := ⟨0, 1, 1⟩

/-- The place after one more character. -/
def advance (p : Position) (c : Char) : Position :=
  if c = '\n' then ⟨p.offset + c.utf8Size, p.line + 1, 1⟩
  else ⟨p.offset + c.utf8Size, p.line, p.column + 1⟩

/-- The place after a text. -/
def after (p : Position) (text : List Char) : Position := text.foldl advance p

/-- The span that begins here and ends at another place. -/
def spanTo (p q : Position) : Span := ⟨p.offset, q.offset, p.line, p.column⟩

end Position

end AcademicMarkup

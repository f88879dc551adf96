/-!
The commands around a place in a tree, innermost first.
-/
namespace AcademicMarkup

structure Scope where
  names : List String
deriving DecidableEq, Repr

namespace Scope

def root : Scope := ⟨[]⟩

/-- The scope inside one more command. -/
def push (s : Scope) (name : String) : Scope := ⟨name :: s.names⟩

/-- The number of commands around. -/
def depth (s : Scope) : Nat := s.names.length

def innermost? (s : Scope) : Option String := s.names.head?

/-- Whether a command of this name is around, at any distance. -/
def isWithin (s : Scope) (name : String) : Bool := s.names.contains name

end Scope

end AcademicMarkup

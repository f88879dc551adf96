import AcademicMarkup.Tree

/-!
The definitions of a document by name. A name may be defined again: the later definition joins the
earlier ones and a look-up sees the oldest first. Names keep the order of their first definition.
-/
namespace AcademicMarkup

structure Definitions where
  entries : List (String × List Definition)
deriving Repr

namespace Definitions

def empty : Definitions := ⟨[]⟩

/-- Adds a definition to those of its name, or makes a new last entry for the name. -/
def insertInto (d : Definition) : List (String × List Definition) → List (String × List Definition)
  | [] => [(d.name, [d])]
  | (name, ds) :: rest =>
    if name == d.name then (name, ds ++ [d]) :: rest else (name, ds) :: insertInto d rest

def insert (table : Definitions) (d : Definition) : Definitions := ⟨insertInto d table.entries⟩

def ofList (ds : List Definition) : Definitions := ds.foldl insert empty

/-- All definitions of a name, oldest first. -/
def get (table : Definitions) (name : String) : List Definition :=
  (table.entries.lookup name).getD []

/-- The first result that a definition of the name gives. -/
def findSome? {α : Type} (table : Definitions) (name : String) (f : Definition → Option α) :
    Option α :=
  (table.get name).findSome? f

def contains (table : Definitions) (name : String) : Bool := !(table.get name).isEmpty

def names (table : Definitions) : List String := table.entries.map (·.1)

/-- The number of definitions, not of names. -/
def size (table : Definitions) : Nat := (table.entries.flatMap (·.2)).length

def isEmpty (table : Definitions) : Bool := table.entries.isEmpty

end Definitions

namespace Document

/-- The definitions among the items of a document, in order. -/
def definitionList (doc : Document) : List Definition :=
  doc.filterMap fun
    | .definition d => some d
    | .node _ => none

end Document

end AcademicMarkup

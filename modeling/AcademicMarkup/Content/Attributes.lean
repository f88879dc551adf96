import AcademicMarkup.Text.Blank

/-!
The attributes of an element: names, each with a value or bare, in the order in which the names
were first set. Author text gives attributes as entries between white space.
-/
namespace AcademicMarkup

structure Attribute where
  name : String
  value : Option String
deriving DecidableEq, Repr

structure Attributes where
  entries : List Attribute
deriving DecidableEq, Repr

namespace Attributes

def empty : Attributes := ⟨[]⟩

/-- Changes the entry of a name, or adds one at the end. -/
def setIn (name : String) (value : Option String) : List Attribute → List Attribute
  | [] => [⟨name, value⟩]
  | a :: rest => if a.name == name then ⟨a.name, value⟩ :: rest else a :: setIn name value rest

/-- Sets the value of a name, which keeps its place if it has one. -/
def set (as : Attributes) (name : String) (value : Option String) : Attributes :=
  ⟨setIn name value as.entries⟩

/-- Sets attributes one after the other. -/
def setAll (as : Attributes) (more : List Attribute) : Attributes :=
  more.foldl (fun as a => as.set a.name a.value) as

def get? (as : Attributes) (name : String) : Option Attribute := as.entries.find? (·.name == name)

def contains (as : Attributes) (name : String) : Bool := (as.get? name).isSome

def size (as : Attributes) : Nat := as.entries.length

def isEmpty (as : Attributes) : Bool := as.entries.isEmpty

/-! Reading attributes from text. -/

/-- Whether a character may stand in a name. -/
def isNameChar (c : Char) : Bool := !Text.isBlank c && c != '='

/-- What stands before the closing quote and what after it; all of it if no quote closes. -/
def quotedValue (closing : Char) (cs : List Char) : List Char × List Char :=
  (cs.takeWhile (· != closing), (cs.dropWhile (· != closing)).drop 1)

/-- A value in quotes, or up to the next white space, and what is left. -/
def readValue : List Char → List Char × List Char
  | '"' :: cs => quotedValue '"' cs
  | '“' :: cs => quotedValue '”' cs
  | cs => (cs.takeWhile (!Text.isBlank ·), cs.dropWhile (!Text.isBlank ·))

theorem length_dropWhile_le {α : Type} (test : α → Bool) (xs : List α) :
    (xs.dropWhile test).length ≤ xs.length :=
  (List.dropWhile_suffix test).length_le

theorem length_quotedValue_le (closing : Char) (cs : List Char) :
    (quotedValue closing cs).2.length ≤ cs.length := by
  have h := length_dropWhile_le (· != closing) cs
  simp only [quotedValue, List.length_drop]
  omega

theorem length_readValue_le (cs : List Char) : (readValue cs).2.length ≤ cs.length := by
  unfold readValue
  split
  · have h := length_quotedValue_le '"' (by assumption)
    simp only [List.length_cons]
    omega
  · have h := length_quotedValue_le '”' (by assumption)
    simp only [List.length_cons]
    omega
  · exact length_dropWhile_le _ _

/-- The entries of a text in order: `name="value"`, `name=value` or a bare name. An equals sign
with no name before it is passed over. -/
def readEntries (cs : List Char) : List Attribute :=
  match h : cs.dropWhile Text.isBlank with
  | [] => []
  | c :: rest =>
    have hlen : rest.length < cs.length := by
      have := length_dropWhile_le Text.isBlank cs
      rw [h] at this
      exact this
    if c = '=' then readEntries rest
    else
      let name := String.ofList (c :: rest.takeWhile isNameChar)
      match hrest : rest.dropWhile isNameChar with
      | '=' :: after =>
        have : (readValue after).2.length < cs.length := by
          have h1 := length_dropWhile_le isNameChar rest
          have h2 := length_readValue_le after
          rw [hrest, List.length_cons] at h1
          omega
        ⟨name, some (String.ofList (readValue after).1)⟩ :: readEntries (readValue after).2
      | after =>
        have : after.length < cs.length := by
          have h1 := length_dropWhile_le isNameChar rest
          rw [hrest] at h1
          omega
        ⟨name, none⟩ :: readEntries after
termination_by cs.length

def parse (text : String) : Attributes := empty.setAll (readEntries text.toList)

end Attributes

end AcademicMarkup

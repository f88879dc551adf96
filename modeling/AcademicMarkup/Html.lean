import AcademicMarkup.Content
import AcademicMarkup.Text.Fingerprint

/-!
Writing content as HTML. Mathematics is numbered as it is met and headings are named after their
content; both are recorded for the page around them.
-/
namespace AcademicMarkup

namespace Html

def encodeTextChar (c : Char) : List Char :=
  if c = '&' then "&amp;".toList
  else if c = '<' then "&lt;".toList
  else if c = '>' then "&gt;".toList
  else [c]

/-- Text between tags. -/
def encodeText (text : String) : String := String.ofList (text.toList.flatMap encodeTextChar)

def encodeValueChar (c : Char) : List Char :=
  if c = '&' then "&amp;".toList
  else if c = '"' then "&quot;".toList
  else [c]

/-- Text between the quotes of a value. -/
def encodeValue (value : String) : String :=
  String.ofList (value.toList.flatMap encodeValueChar)

def writeAttribute (a : Attribute) : String :=
  match a.value with
  | none => " " ++ a.name
  | some value => " " ++ a.name ++ "=\"" ++ encodeValue value ++ "\""

def writeAttributes (as : Attributes) : String := String.join (as.entries.map writeAttribute)

def startTag (name : String) (as : Attributes) : String := "<" ++ name ++ writeAttributes as ++ ">"

def endTag (name : String) : String := "</" ++ name ++ ">"

/-- The name of a heading with this content. -/
def headingName (content : String) : String :=
  "UID" ++ toString (Text.fingerprint content).toNat

end Html

/-- A heading that was written, with its name among its attributes. -/
structure Heading where
  tag : String
  attributes : Attributes
  children : List Content
deriving Repr

/-- What writing has collected so far. Its counter has `size` numbers, such as the values of a
machine word, and begins again after the last of them; a counter of size 0 has no last number. -/
structure Register (size : Nat := 0) where
  nextId : Nat
  inlineIds : List String
  blockIds : List String
  headings : List Heading
deriving Repr

/-- How an element begins: its name on the page, the attributes it always has, and the state
after it was numbered. -/
structure Opening (size : Nat := 0) where
  name : String
  attributes : Attributes
  state : Register size

namespace Register

variable {size : Nat}

def initial : Register size := ⟨0, [], [], []⟩

/-- The name of the next numbered element. -/
def freshId (s : Register size) : String := "aml-math-" ++ toString s.nextId

/-- The number after `n` in a counter of this size. -/
def successor (size n : Nat) : Nat := if n + 1 = size then 0 else n + 1

/-- The state in which the next number is taken. -/
def advance (s : Register size) : Register size := { s with nextId := successor size s.nextId }

def addInline (s : Register size) (id : String) : Register size :=
  { s with inlineIds := s.inlineIds ++ [id] }

def addBlock (s : Register size) (id : String) : Register size :=
  { s with blockIds := s.blockIds ++ [id] }

def addHeading (s : Register size) (h : Heading) : Register size :=
  { s with headings := s.headings ++ [h] }

/-- Mathematics becomes a named element; grids and notes become marked ones. -/
def opening (s : Register size) (tag : String) : Opening size :=
  if tag == Tag.inlineMath then
    ⟨"span", ⟨[⟨"id", some s.freshId⟩, ⟨"math", some "inline"⟩]⟩, s.advance.addInline s.freshId⟩
  else if tag == Tag.blockMath then
    ⟨"div", ⟨[⟨"id", some s.freshId⟩, ⟨"math", some "block"⟩]⟩, s.advance.addBlock s.freshId⟩
  else if tag == Tag.grid then ⟨"div", ⟨[⟨"grid", none⟩]⟩, s⟩
  else if tag == Tag.note then ⟨"div", ⟨[⟨"note", none⟩]⟩, s⟩
  else ⟨tag, .empty, s⟩

end Register

mutual

/-- Writes content. Each child of a fragment has a line of its own, the children of an element
follow one another. An attribute of the element itself wins over one that the element always has,
and a heading is recorded once its children are written. -/
def Content.render {size : Nat} (s : Register size) : Content → String × Register size
  | .text t => (Html.encodeText t, s)
  | .fragment children =>
    let inner := Content.renderAll s children
    (String.intercalate "\n" inner.1, inner.2)
  | .element tag own children =>
    let opening := s.opening tag
    let attributes := opening.attributes.setAll own.entries
    if Tag.isVoid opening.name then (Html.startTag opening.name attributes, opening.state)
    else
      let inner := Content.renderAll opening.state children
      let content := String.join inner.1
      if Tag.isHeading tag then
        let id := Html.headingName content
        let named := (Attributes.mk [⟨"id", some id⟩]).setAll attributes.entries
        (Html.startTag opening.name named ++ content ++ Html.endTag opening.name,
          inner.2.addHeading ⟨tag, own.set "id" (some id), children⟩)
      else
        (Html.startTag opening.name attributes ++ content ++ Html.endTag opening.name, inner.2)

def Content.renderAll {size : Nat} (s : Register size) :
    List Content → List String × Register size
  | [] => ([], s)
  | c :: cs =>
    let first := c.render s
    let rest := Content.renderAll first.2 cs
    (first.1 :: rest.1, rest.2)

end

end AcademicMarkup

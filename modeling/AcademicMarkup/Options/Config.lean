import AcademicMarkup.Options
import AcademicMarkup.Options.Config.QuotedText

/-!
Options from a configuration text: one `key = value` a line, comments after a number sign. A key is
bare or a quoted text of one line, a value is `true`, `false` or a quoted text. The whole may begin
with a byte order mark, and its lines end in a line feed, with or without a carriage return.
-/
namespace AcademicMarkup.Config

def isBareKeyChar (c : Char) : Bool := c.isAlphanum || c == '_' || c == '-'

/-- A key, bare or quoted, and what is left. -/
def key (cs : List Char) : Option (List Char × List Char) :=
  match cs.takeWhile isBareKeyChar with
  | [] => quotedLine? cs
  | name => some (name, cs.dropWhile isBareKeyChar)

def value : List Char → Option (OptionValue × List Char)
  | 't' :: 'r' :: 'u' :: 'e' :: rest => some (.boolean true, rest)
  | 'f' :: 'a' :: 'l' :: 's' :: 'e' :: rest => some (.boolean false, rest)
  | cs => (quotedText? cs).map fun (text, rest) => (.string (String.ofList text), rest)

/-- What is left after a line break. The last line needs none. -/
def lineBreak? : List Char → Option (List Char)
  | [] => some []
  | '\n' :: rest => some rest
  | _ => none

/-- What is left after a line on which nothing but a comment stands any more. -/
def lineEnd? (cs : List Char) : Option (List Char) :=
  match skipSpace cs with
  | '#' :: comment => lineBreak? (comment.dropWhile isPrintable)
  | cs => lineBreak? cs

/-- The field that a line sets, if it is not blank, and what is left after the line. -/
def line (cs : List Char) : Option (Option (String × OptionValue) × List Char) :=
  match lineEnd? cs with
  | some rest => some (none, rest)
  | none => do
    let (name, rest) ← key (skipSpace cs)
    let '=' :: rest := skipSpace rest | none
    let (value, rest) ← value (skipSpace rest)
    let rest ← lineEnd? rest
    return (some (String.ofList name, value), rest)

/-- What all lines set. -/
def lines (cs : List Char) : Option (List (Option (String × OptionValue))) :=
  if cs = [] then some []
  else
    match line cs with
    | none => none
    | some (field, rest) =>
      if rest.length < cs.length then (lines rest).map (field :: ·) else none
termination_by cs.length

/-- A text with every carriage return before a line feed taken away. -/
def dropReturns : List Char → List Char
  | '\r' :: '\n' :: rest => '\n' :: dropReturns rest
  | c :: rest => c :: dropReturns rest
  | [] => []

/-- A text without the byte order mark that it begins with. -/
def dropMark : List Char → List Char
  | '\ufeff' :: rest => rest
  | cs => cs

/-- The fields of a text, each set once. -/
def fields? (text : String) : Option (List (String × OptionValue)) := do
  let fields := (← lines (dropReturns (dropMark text.toList))).filterMap id
  if (fields.map (·.1)).Nodup then some fields else none

/-- The options of a configuration text, or none if anything in it is wrong. No general result
depends on which texts are right: nothing is used of it beyond that it is a function of the text. -/
def parse? (text : String) : Option Options := do
  (Options.ofFields (← fields? text)).toOption

end AcademicMarkup.Config

import AcademicMarkup.Span
import AcademicMarkup.Text.Blank

/-!
Tokens: a piece of source text and where it stands. Everything a reader wants to know of a token
follows from its text.
-/
namespace AcademicMarkup

/-- The three pairs of brackets. -/
inductive Enclosure where
  | brace
  | paren
  | bracket
deriving DecidableEq, Repr

namespace Enclosure

def opening : Enclosure → String
  | brace => "\x7b"
  | paren => "("
  | bracket => "["

def closing : Enclosure → String
  | brace => "\x7d"
  | paren => ")"
  | bracket => "]"

/-- The enclosure that a text opens. -/
def ofOpening? (text : String) : Option Enclosure :=
  [brace, paren, bracket].find? (·.opening == text)

/-- The enclosure that a text closes. -/
def ofClosing? (text : String) : Option Enclosure :=
  [brace, paren, bracket].find? (·.closing == text)

end Enclosure

structure Token where
  text : String
  span : Span
deriving DecidableEq, Repr, Inhabited

namespace Token

/-- The keyword of a definition. -/
def definitionKeyword : String := "\\macroRules!"

/-- The keyword of a clause of rewrite rules after a command. -/
def clauseKeyword : String := "\\where!"

/-- The arrow between the two sides of a rule. -/
def arrow : String := "=>"

/-- Whether the token names a command. -/
def isIdentifier (t : Token) : Bool := t.text.toList.head? == some '\\'

/-- Whether the token names a variable of a definition. -/
def isVariable (t : Token) : Bool := t.text.toList.head? == some '$'

def isBlank (t : Token) : Bool := t.text.toList.all Text.isBlank

def hasNewline (t : Token) : Bool := t.text.toList.any fun c => c == '\n' || c == '\r'

/-- Whether the token raises or lowers what follows it. -/
def isScriptOperator (t : Token) : Bool := t.text == "^" || t.text == "_"

def opens? (t : Token) : Option Enclosure := Enclosure.ofOpening? t.text

def closes? (t : Token) : Option Enclosure := Enclosure.ofClosing? t.text

def isOpening (t : Token) : Bool := t.opens?.isSome

def isClosing (t : Token) : Bool := t.closes?.isSome

/-- Whether the first token opens what the second closes. -/
def pairsWith (opener closer : Token) : Bool :=
  opener.isOpening && opener.opens? == closer.closes?

/-- The texts of adjacent tokens joined. -/
def joinedText (ts : List Token) : String := String.join (ts.map text)

/-- One token for a run of adjacent ones, from the first to the last. -/
def join? : List Token → Option Token
  | [] => none
  | first :: rest =>
    some ⟨joinedText (first :: rest), first.span.through (rest.getLastD first).span⟩

end Token

end AcademicMarkup

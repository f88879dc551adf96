import AcademicMarkup.Text.ExtendingMark
import AcademicMarkup.Text.Unprintable

/-!
Texts in double quotes with escapes, as they stand in scripts and in messages.
-/
namespace AcademicMarkup.Text

/-- A code point by its number in hexadecimal. -/
def numericEscape (c : Char) : List Char :=
  "\\u\x7b".toList ++ Nat.toDigits 16 c.toNat ++ "\x7d".toList

/-- A character inside quotes. What shows nothing of its own, or attaches to the character before
it, has an escape of its own or a numeric one. -/
def quoteChar (c : Char) : List Char :=
  if c = '"' then ['\\', '"']
  else if c = '\\' then ['\\', '\\']
  else if c = '\t' then ['\\', 't']
  else if c = '\n' then ['\\', 'n']
  else if c = '\r' then ['\\', 'r']
  else if c.toNat = 0 then ['\\', '0']
  else if isUnprintable c || isExtendingMark c then numericEscape c
  else [c]

def quote (text : String) : String :=
  String.ofList ('"' :: text.toList.flatMap quoteChar ++ ['"'])

end AcademicMarkup.Text

/-!
A 64-bit fingerprint of a text. Its bytes are taken eight at a time, then four, then one by one,
each group as a little-endian number; a number is mixed into the state by a rotation, an exclusive
or and a multiplication. The byte 255, which no text holds, marks the end.
-/
namespace AcademicMarkup.Text

/-- Mixes a number into the state. -/
def mix (state n : UInt64) : UInt64 :=
  ((state <<< 5 ||| state >>> 59) ^^^ n) * 0x517cc1b727220a95

/-- The number that bytes make up, least significant first. -/
def littleEndian (bytes : List UInt8) : UInt64 :=
  bytes.foldr (fun b n => n * 256 + b.toUInt64) 0

def mixBytes (state : UInt64) (bytes : List UInt8) : UInt64 :=
  bytes.foldl (fun s b => mix s b.toUInt64) state

/-- Mixes the bytes of a text into the state, in groups of eight, four and one. -/
def mixGroups (state : UInt64) : List UInt8 → UInt64
  | a :: b :: c :: d :: e :: f :: g :: h :: rest =>
    mixGroups (mix state (littleEndian [a, b, c, d, e, f, g, h])) rest
  | a :: b :: c :: d :: rest => mixBytes (mix state (littleEndian [a, b, c, d])) rest
  | rest => mixBytes state rest

/-- The fingerprint of a text. No general result depends on how it is made: nothing is used of it
beyond that it is a function of the text. -/
def fingerprint (text : String) : UInt64 :=
  mix (mixGroups 0 (text.toList.flatMap String.utf8EncodeChar)) 0xff

end AcademicMarkup.Text

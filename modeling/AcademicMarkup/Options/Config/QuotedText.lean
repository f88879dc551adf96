/-!
Quoted texts of a configuration. Double quotes admit escapes and single quotes do not. Three quotes
enclose a text of several lines: a line break right after the opening is no part of it, up to two
quotes may stand before the closing ones, and between double quotes a backslash at the end of a line
takes away the white space up to the next text. Lines end in a line feed here.
-/
namespace AcademicMarkup.Config

/-- Whether a character may stand in a line of quoted text or in a comment. -/
def isPrintable (c : Char) : Bool := c == '\t' || (0x20 ≤ c.toNat && c.toNat != 0x7f)

def isSpace (c : Char) : Bool := c == ' ' || c == '\t'

def skipSpace (cs : List Char) : List Char := cs.dropWhile isSpace

def hexDigit? (c : Char) : Option Nat :=
  if '0' ≤ c ∧ c ≤ '9' then some (c.toNat - '0'.toNat)
  else if 'a' ≤ c ∧ c ≤ 'f' then some (c.toNat - 'a'.toNat + 10)
  else if 'A' ≤ c ∧ c ≤ 'F' then some (c.toNat - 'A'.toNat + 10)
  else none

/-- The character with a number in hexadecimal digits. -/
def scalar? (digits : List Char) : Option Char := do
  let n ← digits.foldlM (fun n c => (hexDigit? c).map (n * 16 + ·)) 0
  if n.isValidChar then some (Char.ofNat n) else none

/-- The character that a letter after a backslash stands for. -/
def letterEscape? : Char → Option Char
  | 'b' => some '\x08'
  | 't' => some '\t'
  | 'n' => some '\n'
  | 'f' => some '\x0c'
  | 'r' => some '\r'
  | '"' => some '"'
  | '\\' => some '\\'
  | _ => none

/-- The character that an escape stands for, after its backslash, and what is left. -/
def escape? : List Char → Option (Char × List Char)
  | 'u' :: a :: b :: c :: d :: rest => (scalar? [a, b, c, d]).map (·, rest)
  | 'U' :: a :: b :: c :: d :: e :: f :: g :: h :: rest =>
    (scalar? [a, b, c, d, e, f, g, h]).map (·, rest)
  | c :: rest => (letterEscape? c).map (·, rest)
  | [] => none

theorem length_escape_lt {cs rest : List Char} {c : Char} (h : escape? cs = some (c, rest)) :
    rest.length < cs.length := by
  unfold escape? at h
  split at h
  · obtain ⟨_, -, -, rfl⟩ := by simpa using h
    simp only [List.length_cons]
    omega
  · obtain ⟨_, -, -, rfl⟩ := by simpa using h
    simp only [List.length_cons]
    omega
  · obtain ⟨_, -, -, rfl⟩ := by simpa using h
    simp
  · simp at h

/-- What is left after a backslash at the end of a line. -/
def continuation? (cs : List Char) : Option (List Char) :=
  match skipSpace cs with
  | '\n' :: rest => some (rest.dropWhile fun c => isSpace c || c == '\n')
  | _ => none

theorem length_continuation_lt {cs rest : List Char} (h : continuation? cs = some rest) :
    rest.length < cs.length := by
  unfold continuation? at h
  split at h
  · rename_i after heq
    obtain rfl := Option.some.inj h
    have h₁ : (skipSpace cs).length ≤ cs.length := (List.dropWhile_suffix _).length_le
    have h₂ : (after.dropWhile fun c => isSpace c || c == '\n').length ≤ after.length :=
      (List.dropWhile_suffix _).length_le
    rw [heq, List.length_cons] at h₁
    omega
  · exact absurd h (by simp)

/-- A text up to its closing double quote, and what is left. -/
def basicLine (cs : List Char) : Option (List Char × List Char) :=
  match cs with
  | [] => none
  | '"' :: rest => some ([], rest)
  | '\\' :: rest =>
    match h : escape? rest with
    | none => none
    | some (c, after) =>
      have := length_escape_lt h
      (basicLine after).map fun (text, left) => (c :: text, left)
  | c :: rest =>
    if isPrintable c then (basicLine rest).map fun (text, left) => (c :: text, left) else none
termination_by cs.length

/-- A text up to its closing single quote, and what is left. -/
def literalLine : List Char → Option (List Char × List Char)
  | [] => none
  | '\'' :: rest => some ([], rest)
  | c :: rest =>
    if isPrintable c then (literalLine rest).map fun (text, left) => (c :: text, left) else none

/-- The end of a text of several lines, if it is here: the quotes before the closing three, and
what is left. -/
def closing? (quote : Char) (cs : List Char) : Option (List Char × List Char) :=
  let quotes := (cs.takeWhile (· == quote)).length
  if quotes < 3 then none
  else
    let kept := min (quotes - 3) 2
    some (List.replicate kept quote, cs.drop (kept + 3))

/-- A text of several lines up to three double quotes, and what is left. -/
def basicLines (cs : List Char) : Option (List Char × List Char) :=
  match closing? '"' cs, cs with
  | some done, _ => some done
  | none, [] => none
  | none, '\\' :: rest =>
    match hlines : continuation? rest with
    | some after =>
      have := length_continuation_lt hlines
      basicLines after
    | none =>
      match h : escape? rest with
      | none => none
      | some (c, after) =>
        have := length_escape_lt h
        (basicLines after).map fun (text, left) => (c :: text, left)
  | none, c :: rest =>
    if isPrintable c || c == '\n' then (basicLines rest).map fun (text, left) => (c :: text, left)
    else none
termination_by cs.length

/-- A text of several lines up to three single quotes, and what is left. -/
def literalLines : List Char → Option (List Char × List Char)
  | [] => none
  | c :: rest =>
    match closing? '\'' (c :: rest) with
    | some done => some done
    | none =>
      if isPrintable c || c == '\n' then
        (literalLines rest).map fun (text, left) => (c :: text, left)
      else none

/-- A text without the line break that it begins with. -/
def dropLineBreak : List Char → List Char
  | '\n' :: rest => rest
  | cs => cs

/-- A quoted text of one line, and what is left. -/
def quotedLine? : List Char → Option (List Char × List Char)
  | '"' :: rest => basicLine rest
  | '\'' :: rest => literalLine rest
  | _ => none

/-- A quoted text, and what is left. -/
def quotedText? : List Char → Option (List Char × List Char)
  | '"' :: '"' :: '"' :: rest => basicLines (dropLineBreak rest)
  | '\'' :: '\'' :: '\'' :: rest => literalLines (dropLineBreak rest)
  | cs => quotedLine? cs

end AcademicMarkup.Config

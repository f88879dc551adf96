import AcademicMarkup.Html

/-!
Reading HTML back as a sequence of tags and texts. The reader knows nothing of content: a text goes
up to the next opening angle bracket, a value up to the next quote, and in both the character
references are replaced in one pass from left to right. What is written from such a sequence is
read as the same sequence, if its names are names and its texts are joined.
-/
namespace AcademicMarkup

namespace Html

inductive Event where
  | startTag (name : String) (attributes : List Attribute)
  | endTag (name : String)
  | text (text : String)
deriving DecidableEq, Repr

/-! Reading. -/

/-- Whether a character may stand in the name of a tag or an attribute. -/
def isNameChar (c : Char) : Bool :=
  !(Text.isBlank c || ['<', '>', '/', '=', '"'].contains c)

def isName (name : String) : Bool := !name.toList.isEmpty && name.toList.all isNameChar

/-- The character references in a text, without the ampersand, and what they stand for. -/
def textReferences : List (List Char × Char) :=
  [("amp;".toList, '&'), ("lt;".toList, '<'), ("gt;".toList, '>')]

/-- The character references in a value. -/
def valueReferences : List (List Char × Char) := [("amp;".toList, '&'), ("quot;".toList, '"')]

/-- Replaces references. An ampersand that begins none stands for itself. -/
def unescape (references : List (List Char × Char)) : List Char → List Char
  | [] => []
  | c :: cs =>
    if c = '&' then
      match references.find? (·.1.isPrefixOf cs) with
      | some (reference, meant) => meant :: unescape references (cs.drop reference.length)
      | none => c :: unescape references cs
    else c :: unescape references cs
termination_by cs => cs.length

/-- A name, which is not empty, and what follows it. -/
def readName? (cs : List Char) : Option (String × List Char) :=
  if (cs.takeWhile isNameChar).isEmpty then none
  else some (String.ofList (cs.takeWhile isNameChar), cs.dropWhile isNameChar)

/-- A value whose opening quote was read. -/
def readValue? (cs : List Char) : Option (String × List Char) :=
  match cs.dropWhile (· != '"') with
  | [] => none
  | _ :: rest =>
    some (String.ofList (unescape valueReferences (cs.takeWhile (· != '"'))), rest)

/-- A space and a name, with a value in quotes or bare. -/
def readAttribute? : List Char → Option (Attribute × List Char)
  | ' ' :: cs =>
    (readName? cs).bind fun (name, rest) =>
      match rest with
      | '=' :: '"' :: rest => (readValue? rest).map fun (value, rest) => (⟨name, some value⟩, rest)
      | rest => some (⟨name, none⟩, rest)
  | _ => none

theorem length_readName?_lt {cs rest : List Char} {name : String}
    (h : readName? cs = some (name, rest)) : rest.length < cs.length := by
  unfold readName? at h
  split at h
  · cases h
  · rename_i hname
    cases h
    have hsplit := congrArg List.length
      (List.takeWhile_append_dropWhile (p := isNameChar) (l := cs))
    have hpos : 0 < (cs.takeWhile isNameChar).length := by
      simpa [List.length_pos_iff] using hname
    rw [List.length_append] at hsplit
    omega

theorem length_readValue?_lt {cs rest : List Char} {value : String}
    (h : readValue? cs = some (value, rest)) : rest.length < cs.length := by
  have hle := (List.dropWhile_suffix (l := cs) (· != '"')).length_le
  unfold readValue? at h
  split at h
  · cases h
  · rename_i heq
    cases h
    rw [heq, List.length_cons] at hle
    omega

theorem length_readAttribute?_lt {cs rest : List Char} {a : Attribute}
    (h : readAttribute? cs = some (a, rest)) : rest.length < cs.length := by
  unfold readAttribute? at h
  split at h
  · obtain ⟨⟨name, after⟩, hname, h⟩ := Option.bind_eq_some_iff.mp h
    have hlt := length_readName?_lt hname
    simp only at h
    split at h
    · obtain ⟨⟨value, last⟩, hvalue, h⟩ := Option.map_eq_some_iff.mp h
      cases h
      have hlt' := length_readValue?_lt hvalue
      simp only [List.length_cons] at hlt ⊢
      omega
    · cases h
      rw [List.length_cons]
      omega
  · cases h

/-- As many attributes as there are. -/
def readAttributes (cs : List Char) : List Attribute × List Char :=
  match h : readAttribute? cs with
  | none => ([], cs)
  | some (a, rest) =>
    have := length_readAttribute?_lt h
    let more := readAttributes rest
    (a :: more.1, more.2)
termination_by cs.length

theorem length_readAttributes_le (cs : List Char) :
    (readAttributes cs).2.length ≤ cs.length := by
  fun_induction readAttributes cs with
  | case1 => exact Nat.le_refl _
  | case2 cs a rest h hlt more ih =>
    simp only [more] at *
    omega

/-- The end of a tag. -/
def readTagEnd? (e : Event) : List Char → Option (Event × List Char)
  | '>' :: rest => some (e, rest)
  | _ => none

/-- A tag whose opening angle bracket was read. -/
def readTag? : List Char → Option (Event × List Char)
  | '/' :: cs => (readName? cs).bind fun (name, rest) => readTagEnd? (.endTag name) rest
  | cs =>
    (readName? cs).bind fun (name, rest) =>
      readTagEnd? (.startTag name (readAttributes rest).1) (readAttributes rest).2

def readEvent? (cs : List Char) : Option (Event × List Char) :=
  match cs with
  | [] => none
  | '<' :: rest => readTag? rest
  | cs => some (.text (String.ofList (unescape textReferences (cs.takeWhile (· != '<')))),
      cs.dropWhile (· != '<'))

theorem length_readTagEnd?_lt {e e' : Event} {cs rest : List Char}
    (h : readTagEnd? e cs = some (e', rest)) : rest.length < cs.length := by
  unfold readTagEnd? at h
  split at h
  · cases h
    simp
  · cases h

theorem length_readTag?_lt {cs rest : List Char} {e : Event} (h : readTag? cs = some (e, rest)) :
    rest.length < cs.length := by
  unfold readTag? at h
  split at h
  · obtain ⟨⟨name, after⟩, hname, hend⟩ := Option.bind_eq_some_iff.mp h
    have hlt := length_readName?_lt hname
    have hlt' := length_readTagEnd?_lt hend
    rw [List.length_cons]
    omega
  · obtain ⟨⟨name, after⟩, hname, hend⟩ := Option.bind_eq_some_iff.mp h
    have hlt := length_readName?_lt hname
    have hle := length_readAttributes_le after
    have hlt' := length_readTagEnd?_lt hend
    omega

theorem length_readEvent?_lt {cs rest : List Char} {e : Event}
    (h : readEvent? cs = some (e, rest)) : rest.length < cs.length := by
  unfold readEvent? at h
  split at h
  · cases h
  · have hlt := length_readTag?_lt h
    rw [List.length_cons]
    omega
  · rename_i hnil htag
    cases h
    cases cs with
    | nil => exact absurd rfl hnil
    | cons c cs =>
      have hc : c ≠ '<' := by
        rintro rfl
        exact htag cs rfl
      have hle := (List.dropWhile_suffix (l := cs) (· != '<')).length_le
      rw [List.dropWhile_cons_of_pos (by simpa using hc), List.length_cons]
      omega

/-- The events of a whole text, or none if a tag is malformed. -/
def decodeChars (cs : List Char) : Option (List Event) :=
  if cs.isEmpty then some []
  else
    match h : readEvent? cs with
    | none => none
    | some (e, rest) =>
      have := length_readEvent?_lt h
      (decodeChars rest).map (e :: ·)
termination_by cs.length

def decode (page : String) : Option (List Event) := decodeChars page.toList

/-! Writing. -/

namespace Event

def write : Event → String
  | startTag name attributes => Html.startTag name ⟨attributes⟩
  | endTag name => Html.endTag name
  | text s => encodeText s

/-- The names in the event are names. -/
def isNamed : Event → Bool
  | startTag name attributes => isName name && attributes.all (isName ·.name)
  | endTag name => isName name
  | text _ => true

def isText : Event → Bool
  | text _ => true
  | _ => false

end Event

def write (es : List Event) : String := String.join (es.map Event.write)

theorem write_append (es fs : List Event) : write (es ++ fs) = write es ++ write fs := by
  rw [write, List.map_append, String.join_append]
  rfl

/-! The characters that are written. -/

theorem toList_writeAttribute_bare (name : String) :
    (writeAttribute ⟨name, none⟩).toList = ' ' :: name.toList := by
  simp [writeAttribute]

theorem toList_writeAttribute_valued (name value : String) :
    (writeAttribute ⟨name, some value⟩).toList =
      ' ' :: (name.toList ++ '=' :: '"' :: ((encodeValue value).toList ++ ['"'])) := by
  simp [writeAttribute]

theorem toList_writeAttributes (as : List Attribute) :
    (writeAttributes ⟨as⟩).toList = as.flatMap fun a => (writeAttribute a).toList := by
  rw [writeAttributes, String.toList_join, List.flatMap_map]

theorem toList_startTag (name : String) (as : Attributes) :
    (startTag name as).toList = '<' :: (name.toList ++ ((writeAttributes as).toList ++ ['>'])) := by
  simp [startTag]

theorem toList_endTag (name : String) :
    (endTag name).toList = '<' :: '/' :: (name.toList ++ ['>']) := by
  simp [endTag]

/-! Reading what was written, from characters to tags. -/

theorem unescape_flatMap {references : List (List Char × Char)} {encode : Char → List Char}
    (h : ∀ c rest, unescape references (encode c ++ rest) = c :: unescape references rest)
    (cs : List Char) : unescape references (cs.flatMap encode) = cs := by
  induction cs with
  | nil => rw [List.flatMap_nil, unescape]
  | cons c cs ih => rw [List.flatMap_cons, h, ih]

theorem unescape_encodeTextChar (c : Char) (rest : List Char) :
    unescape textReferences (encodeTextChar c ++ rest) = c :: unescape textReferences rest := by
  unfold encodeTextChar
  split
  · subst c
    simp [unescape, textReferences]
  split
  · subst c
    simp [unescape, textReferences]
  split
  · subst c
    simp [unescape, textReferences]
  · rename_i hamp _ _
    rw [List.singleton_append, unescape, if_neg hamp]

theorem unescape_encodeValueChar (c : Char) (rest : List Char) :
    unescape valueReferences (encodeValueChar c ++ rest) = c :: unescape valueReferences rest := by
  unfold encodeValueChar
  split
  · subst c
    simp [unescape, valueReferences]
  split
  · subst c
    simp [unescape, valueReferences]
  · rename_i hamp _
    rw [List.singleton_append, unescape, if_neg hamp]

theorem encodeText_ne {text : String} {c : Char} (h : c ∈ (encodeText text).toList) : c ≠ '<' := by
  rw [encodeText, String.toList_ofList, List.mem_flatMap] at h
  obtain ⟨d, -, hc⟩ := h
  rintro rfl
  unfold encodeTextChar at hc
  split at hc
  · simp at hc
  split at hc
  · simp at hc
  split at hc
  · simp at hc
  · rename_i hlt _
    exact hlt (List.mem_singleton.mp hc).symm

theorem encodeValue_ne {value : String} {c : Char} (h : c ∈ (encodeValue value).toList) :
    c ≠ '"' := by
  rw [encodeValue, String.toList_ofList, List.mem_flatMap] at h
  obtain ⟨d, -, hc⟩ := h
  rintro rfl
  unfold encodeValueChar at hc
  split at hc
  · simp at hc
  split at hc
  · simp at hc
  · rename_i hquote
    exact hquote (List.mem_singleton.mp hc).symm

theorem readName?_append {name : String} (h : isName name) {c : Char} (hc : ¬ isNameChar c)
    (rest : List Char) : readName? (name.toList ++ c :: rest) = some (name, c :: rest) := by
  simp only [isName, Bool.and_eq_true, Bool.not_eq_true', List.all_eq_true] at h
  obtain ⟨hne, hall⟩ := h
  rw [readName?, List.takeWhile_append_of_pos hall, List.dropWhile_append_of_pos hall,
    List.takeWhile_cons_of_neg hc, List.dropWhile_cons_of_neg hc, List.append_nil,
    String.ofList_toList, if_neg (by simp [hne])]

theorem readValue?_encodeValue (value : String) (rest : List Char) :
    readValue? ((encodeValue value).toList ++ '"' :: rest) = some (value, rest) := by
  have hall : ∀ c ∈ (encodeValue value).toList, (c != '"') = true := by
    intro c hc
    simpa using encodeValue_ne hc
  have hvalue : unescape valueReferences (encodeValue value).toList = value.toList := by
    rw [encodeValue, String.toList_ofList]
    exact unescape_flatMap unescape_encodeValueChar _
  rw [readValue?, List.takeWhile_append_of_pos hall, List.dropWhile_append_of_pos hall]
  simp [hvalue]

/-- What may follow an attribute: a space before the next one, or the end of the tag. -/
def FollowsAttribute (cs : List Char) : Prop := ∃ c rest, cs = c :: rest ∧ (c = ' ' ∨ c = '>')

theorem readAttribute?_writeAttribute {a : Attribute} (h : isName a.name) {rest : List Char}
    (hrest : FollowsAttribute rest) :
    readAttribute? ((writeAttribute a).toList ++ rest) = some (a, rest) := by
  obtain ⟨name, value⟩ := a
  cases value with
  | none =>
    obtain ⟨c, rest, rfl, hc⟩ := hrest
    have hname : ¬ isNameChar c := by rcases hc with rfl | rfl <;> decide
    have hequals : c ≠ '=' := by rcases hc with rfl | rfl <;> decide
    rw [toList_writeAttribute_bare, List.cons_append, readAttribute?, readName?_append h hname]
    simp [hequals]
  | some value =>
    rw [toList_writeAttribute_valued, List.cons_append, List.append_assoc, readAttribute?,
      List.cons_append, readName?_append h (by decide)]
    simp [readValue?_encodeValue]

theorem followsAttribute_writeAttribute (a : Attribute) (rest : List Char) :
    FollowsAttribute ((writeAttribute a).toList ++ rest) := by
  obtain ⟨name, value⟩ := a
  cases value with
  | none =>
    rw [toList_writeAttribute_bare]
    exact ⟨' ', _, rfl, Or.inl rfl⟩
  | some value =>
    rw [toList_writeAttribute_valued]
    exact ⟨' ', _, rfl, Or.inl rfl⟩

theorem followsAttribute_writeAttributes (as : List Attribute) (rest : List Char) :
    FollowsAttribute ((writeAttributes ⟨as⟩).toList ++ '>' :: rest) := by
  rw [toList_writeAttributes]
  cases as with
  | nil => exact ⟨'>', rest, rfl, Or.inr rfl⟩
  | cons a as =>
    rw [List.flatMap_cons, List.append_assoc]
    exact followsAttribute_writeAttribute a _

theorem readAttributes_of_eq_some {cs rest : List Char} {a : Attribute}
    (h : readAttribute? cs = some (a, rest)) :
    readAttributes cs = (a :: (readAttributes rest).1, (readAttributes rest).2) := by
  rw [readAttributes]
  split
  · rename_i heq
    rw [h] at heq
    cases heq
  · rename_i heq
    rw [h] at heq
    cases heq
    rfl

theorem readAttributes_writeAttributes {as : List Attribute} (h : ∀ a ∈ as, isName a.name)
    (rest : List Char) :
    readAttributes ((writeAttributes ⟨as⟩).toList ++ '>' :: rest) = (as, '>' :: rest) := by
  induction as with
  | nil =>
    rw [readAttributes]
    rfl
  | cons a as ih =>
    have hfirst := readAttribute?_writeAttribute (h a List.mem_cons_self)
      (followsAttribute_writeAttributes as rest)
    rw [toList_writeAttributes, List.flatMap_cons, List.append_assoc, ← toList_writeAttributes,
      readAttributes_of_eq_some hfirst, ih fun a ha => h a (List.mem_cons_of_mem _ ha)]

theorem readTag?_of_ne {cs : List Char} (h : ∀ rest, cs ≠ '/' :: rest) :
    readTag? cs = (readName? cs).bind fun (name, rest) =>
      readTagEnd? (.startTag name (readAttributes rest).1) (readAttributes rest).2 := by
  unfold readTag?
  split
  · exact absurd rfl (h _)
  · rfl

theorem readEvent?_startTag {name : String} {as : List Attribute}
    (h : (Event.startTag name as).isNamed) (rest : List Char) :
    readEvent? ((Event.startTag name as).write.toList ++ rest) =
      some (.startTag name as, rest) := by
  simp only [Event.isNamed, Bool.and_eq_true, List.all_eq_true] at h
  obtain ⟨hname, has⟩ := h
  obtain ⟨c, after, hafter, hc⟩ := followsAttribute_writeAttributes as rest
  have hnot : ¬ isNameChar c := by rcases hc with rfl | rfl <;> decide
  -- a name does not begin with a slash, so this is not read as an end tag
  have hslash : ∀ cs, name.toList ++ c :: after ≠ '/' :: cs := by
    intro cs heq
    have hread := readName?_append hname hnot after
    rw [heq] at hread
    cases hread
  rw [Event.write, toList_startTag, List.cons_append, readEvent?]
  simp only [List.append_assoc, List.singleton_append]
  rw [hafter, readTag?_of_ne hslash, readName?_append hname hnot, ← hafter]
  simp only [Option.bind_some, readAttributes_writeAttributes has]
  rfl

theorem readEvent?_endTag {name : String} (h : isName name) (rest : List Char) :
    readEvent? ((Event.endTag name).write.toList ++ rest) = some (.endTag name, rest) := by
  rw [Event.write, toList_endTag, List.cons_append, readEvent?, List.cons_append, readTag?,
    List.append_assoc, List.singleton_append, readName?_append h (by decide)]
  rfl

theorem toList_encodeText_ne_nil {text : String} (h : text ≠ "") :
    (encodeText text).toList ≠ [] := by
  have hchar : ∀ c, encodeTextChar c ≠ [] := by
    intro c
    unfold encodeTextChar
    repeat' split
    all_goals simp
  rw [encodeText, String.toList_ofList]
  cases hlist : text.toList with
  | nil => exact absurd (String.toList_eq_nil_iff.mp hlist) h
  | cons c cs => simp [hchar]

/-- A text that is not empty is read up to the next tag or to the end. -/
theorem readEvent?_text {text : String} (h : text ≠ "") {rest : List Char}
    (hrest : ∀ c ∈ rest.head?, c = '<') :
    readEvent? ((Event.text text).write.toList ++ rest) = some (.text text, rest) := by
  have hall : ∀ c ∈ (encodeText text).toList, (c != '<') = true := by
    intro c hc
    simpa using encodeText_ne hc
  have htext : unescape textReferences (encodeText text).toList = text.toList := by
    rw [encodeText, String.toList_ofList]
    exact unescape_flatMap unescape_encodeTextChar _
  have hstop : rest.takeWhile (· != '<') = [] ∧ rest.dropWhile (· != '<') = rest := by
    cases rest with
    | nil => exact ⟨rfl, rfl⟩
    | cons c rest =>
      obtain rfl : c = '<' := hrest c rfl
      exact ⟨rfl, rfl⟩
  rw [Event.write]
  unfold readEvent?
  split
  · rename_i heq
    exact absurd (List.append_eq_nil_iff.mp heq).1 (toList_encodeText_ne_nil h)
  · rename_i after heq
    cases hchars : (encodeText text).toList with
    | nil => exact absurd hchars (toList_encodeText_ne_nil h)
    | cons c cs =>
      rw [hchars, List.cons_append] at heq
      have hc := hall c (by simp [hchars])
      cases heq
      cases hc
  · rw [List.takeWhile_append_of_pos hall, List.dropWhile_append_of_pos hall, hstop.1, hstop.2,
      List.append_nil, htext, String.ofList_toList]

/-- Whether each text has at least one character and is followed by a tag or by nothing. -/
def isJoined : List Event → Bool
  | [] => true
  | .text s :: es => s != "" && !es.head?.any Event.isText && isJoined es
  | _ :: es => isJoined es

theorem write_cons (e : Event) (es : List Event) : write (e :: es) = e.write ++ write es := by
  rw [write, List.map_cons, String.join_cons]
  rfl

theorem head?_write {es : List Event} (h : es.head?.any Event.isText = false) :
    ∀ c ∈ (write es).toList.head?, c = '<' := by
  cases es with
  | nil => simp [write]
  | cons e es =>
    cases e with
    | text s => simp [Event.isText] at h
    | startTag name as => simp [write_cons, Event.write, toList_startTag]
    | endTag name => simp [write_cons, Event.write, toList_endTag]

theorem decodeChars_of_eq_some {cs rest : List Char} {e : Event}
    (h : readEvent? cs = some (e, rest)) :
    decodeChars cs = (decodeChars rest).map (e :: ·) := by
  have hne : ¬ cs.isEmpty := by
    intro hempty
    rw [List.isEmpty_iff.mp hempty] at h
    cases h
  rw [decodeChars, if_neg hne]
  split
  · rename_i heq
    rw [h] at heq
    cases heq
  · rename_i heq
    rw [h] at heq
    cases heq
    rfl

theorem decode_write {es : List Event} (hjoined : isJoined es) (hnamed : ∀ e ∈ es, e.isNamed) :
    decode (write es) = some es := by
  unfold decode
  induction es with
  | nil =>
    rw [decodeChars]
    rfl
  | cons e es ih =>
    obtain ⟨hfirst, hrest⟩ := List.forall_mem_cons.mp hnamed
    have hread : readEvent? (e.write.toList ++ (write es).toList) =
        some (e, (write es).toList) ∧ isJoined es := by
      cases e with
      | startTag name as => exact ⟨readEvent?_startTag hfirst _, hjoined⟩
      | endTag name => exact ⟨readEvent?_endTag hfirst _, hjoined⟩
      | text s =>
        simp only [isJoined, Bool.and_eq_true, bne_iff_ne, Bool.not_eq_true'] at hjoined
        exact ⟨readEvent?_text hjoined.1.1 (head?_write hjoined.1.2), hjoined.2⟩
    rw [write_cons, String.toList_append, decodeChars_of_eq_some hread.1, ih hread.2 hrest]
    rfl

end Html

end AcademicMarkup

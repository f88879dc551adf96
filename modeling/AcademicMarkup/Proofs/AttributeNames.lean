import AcademicMarkup.Compilation
import AcademicMarkup.Proofs.AttributeMerge
import AcademicMarkup.Proofs.Denoting
import AcademicMarkup.Proofs.ElementOrigin

/-!
Where the names of attributes come from. A name is what stands in the square brackets of a command
up to white space or an equals sign, so it has neither; nothing else is asked of it, and a name with
a quote or an angle bracket reaches the page as the author wrote it.
-/
namespace AcademicMarkup

namespace Attributes

/-- Whether a character in a name would end the name, a value or the tag on the page. -/
def breaksTag (c : Char) : Bool := "\"'<>/".toList.contains c

/-- The names that attributes may have on a page. -/
def isLegalName (name : String) : Bool :=
  !name.isEmpty && name.toList.all fun c => isNameChar c && !breaksTag c

/-- Whether an entry may begin after a character, which may be a quote that closed a value. -/
def endsEntry (c : Char) : Bool := !isNameChar c || c == '"' || c == '”'

/-- The name is written in a text, from where an entry may begin up to where a name has to end. -/
structure NameIn (text : List Char) (name : String) : Prop where
  ne_empty : name ≠ ""
  isNameChar : ∀ c ∈ name.toList, isNameChar c
  stands : ∃ before after, text = before ++ name.toList ++ after ∧
    (∀ c ∈ before.getLast?, endsEntry c) ∧ ∀ c ∈ after.head?, ¬ Attributes.isNameChar c

/-- No name goes on from one piece of a text to the next. -/
def CutBetween (taken rest : List Char) : Prop :=
  (∀ c ∈ taken.getLast?, endsEntry c) ∨ ∀ c ∈ rest.head?, ¬ isNameChar c

theorem cutBetween_concat {c : Char} (h : endsEntry c) (taken rest : List Char) :
    CutBetween (taken ++ [c]) rest := by
  refine Or.inl ?_
  rw [List.getLast?_concat]
  rintro _ ⟨⟩
  exact h

theorem of_mem_head?_dropWhile (test : Char → Bool) {cs : List Char} {c : Char}
    (h : c ∈ (cs.dropWhile test).head?) : test c = false := by
  have hhead := List.head?_dropWhile_not test cs
  rw [Option.mem_def.mp h] at hhead
  simpa using hhead

theorem cutBetween_dropWhile (test : Char → Bool) (h : ∀ c, test c = false → ¬ isNameChar c)
    (taken cs : List Char) : CutBetween taken (cs.dropWhile test) :=
  Or.inr fun c hc => h c (of_mem_head?_dropWhile test hc)

theorem NameIn.append_left {rest : List Char} {name : String} (h : NameIn rest name)
    {taken : List Char} (hcut : CutBetween taken rest) : NameIn (taken ++ rest) name := by
  obtain ⟨hne, hchars, before, after, rfl, hbefore, hafter⟩ := h
  refine ⟨hne, hchars, taken ++ before, after, by simp, ?_, hafter⟩
  cases before with
  | cons c cs => simpa [List.getLast?_append] using hbefore
  | nil =>
    rcases hcut with hcut | hcut
    · simpa using hcut
    · -- The name would begin with a character that no name has.
      obtain ⟨c, cs, hname⟩ := List.exists_cons_of_ne_nil (mt String.toList_eq_nil_iff.mp hne)
      exact absurd (hchars c (by simp [hname])) (hcut c (by simp [hname]))

theorem exists_cut_quotedValue (opening : Char) {closing : Char} (hclosing : endsEntry closing)
    (cs : List Char) : ∃ taken, opening :: cs = taken ++ (quotedValue closing cs).2 ∧
      CutBetween taken (quotedValue closing cs).2 := by
  have hsplit := List.takeWhile_append_dropWhile (p := (· != closing)) (l := cs)
  cases hdrop : cs.dropWhile (· != closing) with
  | nil =>
    exact ⟨opening :: cs, by simp [quotedValue, hdrop], Or.inr (by simp [quotedValue, hdrop])⟩
  | cons c rest =>
    have hhead : c ∈ (cs.dropWhile (· != closing)).head? := by rw [hdrop, List.head?_cons]; rfl
    obtain rfl : c = closing := by simpa using of_mem_head?_dropWhile (· != closing) hhead
    refine ⟨opening :: cs.takeWhile (· != c) ++ [c], ?_, cutBetween_concat hclosing _ _⟩
    simpa [quotedValue, hdrop] using hsplit.symm

/-- After a value comes the end, white space, or anything if a quote closed the value. -/
theorem exists_cut_readValue (cs : List Char) :
    ∃ taken, cs = taken ++ (readValue cs).2 ∧ CutBetween taken (readValue cs).2 := by
  unfold readValue
  split
  · exact exists_cut_quotedValue _ (by decide) _
  · exact exists_cut_quotedValue _ (by decide) _
  · refine ⟨_, List.takeWhile_append_dropWhile.symm, cutBetween_dropWhile _ (fun c hc => ?_) _ _⟩
    simp_all [isNameChar]

/-- The name of the first entry. -/
theorem nameIn_first {cs rest : List Char} {c : Char} (h : cs.dropWhile Text.isBlank = c :: rest)
    (hc : c ≠ '=') : NameIn cs (String.ofList (c :: rest.takeWhile isNameChar)) := by
  have hblank : Text.isBlank c = false :=
    of_mem_head?_dropWhile Text.isBlank (by rw [h, List.head?_cons]; rfl)
  refine ⟨by simp [← String.toList_inj], ?_, cs.takeWhile Text.isBlank,
    rest.dropWhile isNameChar, ?_, ?_, ?_⟩
  · rw [String.toList_ofList]
    refine List.forall_mem_cons.mpr ⟨by simp [isNameChar, hblank, hc], fun d hd => ?_⟩
    exact List.mem_takeWhile_imp hd
  · rw [String.toList_ofList, List.append_assoc, List.cons_append,
      List.takeWhile_append_dropWhile, ← h, List.takeWhile_append_dropWhile]
  · intro d hd
    have hd := List.mem_takeWhile_imp (List.mem_of_getLast? hd)
    simp [endsEntry, isNameChar, hd]
  · intro d hd
    simpa using of_mem_head?_dropWhile isNameChar hd

theorem nameIn_of_mem_readEntries {cs : List Char} {a : Attribute} (h : a ∈ readEntries cs) :
    NameIn cs a.name := by
  have hcs : ∀ {cs rest : List Char} {c : Char}, cs.dropWhile Text.isBlank = c :: rest →
      cs = cs.takeWhile Text.isBlank ++ c :: rest := by
    intro cs rest c hdrop
    rw [← hdrop, List.takeWhile_append_dropWhile]
  have hequals := @cutBetween_concat '=' (by decide)
  -- What is read after an entry is a suffix of the text, and no name goes on into it.
  fun_induction readEntries cs with
  | case1 cs hdrop => exact absurd h List.not_mem_nil
  | case2 cs rest hdrop hlen ih =>
    have hstray := (ih h).append_left (hequals (cs.takeWhile Text.isBlank) rest)
    rw [hcs hdrop]
    simpa using hstray
  | case3 cs c rest hdrop hlen hc name after hafter hlen' ih =>
    rcases List.mem_cons.mp h with rfl | h
    · exact nameIn_first hdrop hc
    · obtain ⟨taken, htaken, hcut⟩ := exists_cut_readValue after
      have hvalue : NameIn after a.name := htaken ▸ (ih h).append_left hcut
      have hentry := hvalue.append_left
        (hequals (cs.takeWhile Text.isBlank ++ c :: rest.takeWhile isNameChar) after)
      rw [hcs hdrop, ← List.takeWhile_append_dropWhile (p := isNameChar) (l := rest), hafter]
      simpa using hentry
  | case4 cs c rest hdrop hlen hc name hlast hlen' ih =>
    rcases List.mem_cons.mp h with rfl | h
    · exact nameIn_first hdrop hc
    · have hcut := cutBetween_dropWhile isNameChar (by simp)
        (cs.takeWhile Text.isBlank ++ c :: rest.takeWhile isNameChar) rest
      have hentry := (ih h).append_left hcut
      rw [List.append_assoc, List.cons_append, List.takeWhile_append_dropWhile] at hentry
      rwa [hcs hdrop]

theorem nameIn_of_mem_parse {text : String} {a : Attribute} (h : a ∈ (parse text).entries) :
    NameIn text.toList a.name := by
  rw [parse, empty, setAll_eq rfl] at h
  exact nameIn_of_mem_readEntries (Attribute.mem_of_mem_merged h)

/-- A name that an author wrote is legal unless one of a few characters is in it. -/
theorem isLegalName_iff {name : String} (hne : name ≠ "")
    (hchars : ∀ c ∈ name.toList, isNameChar c) :
    isLegalName name ↔ ∀ c ∈ name.toList, ¬ breaksTag c := by
  rw [isLegalName, Bool.and_eq_true, List.all_eq_true]
  refine ⟨fun h c hc => by simpa [hchars c hc] using h.2 c hc, fun h => ⟨by simpa using hne, ?_⟩⟩
  intro c hc
  simpa [hchars c hc] using h c hc

end Attributes

/-- The command stands for an element with this tag, and the name is written in an argument in
square brackets. -/
def Command.WritesName (c : Command) (tag name : String) : Prop :=
  (Vocabulary.find? c.name).map Builtin.tag = some tag ∧
    ∃ text ∈ c.arguments.filterMap Argument.bracketText?, Attributes.NameIn text.toList name

/-- The names on a grid are ours, and on any other element a command among these writes them. -/
def NamesWritten (subjects : List Subject) (e : String × Attributes) : Prop :=
  ∀ a ∈ e.2.entries, if e.1 = Tag.grid then a.name ∈ ["col", "sub-grid"]
    else ∃ c, .command c ∈ subjects ∧ c.WritesName e.1 a.name

theorem NamesWritten.mono {subjects more : List Subject} {e : String × Attributes}
    (hsubset : subjects ⊆ more) (h : NamesWritten subjects e) : NamesWritten more e := by
  intro a ha
  have hname := h a ha
  split at hname
  · rwa [if_pos (by assumption)]
  · obtain ⟨c, hc, hwrites⟩ := hname
    rw [if_neg (by assumption)]
    exact ⟨c, hsubset hc, hwrites⟩

theorem Vocabulary.tag_eq_grid_iff {name : String} {b : Builtin}
    (h : Vocabulary.find? name = some b) : b.tag = Tag.grid ↔ b.role = .grid := by
  have hall : ∀ p ∈ Vocabulary.all, p.2.tag = Tag.grid ↔ p.2.role = .grid := by decide
  obtain ⟨before, after, heq, -⟩ := List.lookup_eq_some_iff.mp h
  exact hall (name, b) (by simp [heq])

/-- The names on the element of a command are ours or the command writes them. -/
theorem Builtin.namesWritten_element {c : Command} {b : Builtin} {given : SortedArguments}
    (hfind : Vocabulary.find? c.name = some b)
    (hgiven : SortedArguments.ofList? c.arguments = some given) (scope : Scope)
    {children : List Content}
    (hchildren : ∀ e ∈ Content.elementsAll children, NamesWritten c.subjects e) :
    ∀ e ∈ (b.element given scope children).elements, NamesWritten c.subjects e := by
  have hgrid := Vocabulary.tag_eq_grid_iff hfind
  refine Builtin.forall_elements (by simp [NamesWritten, Attributes.empty]) ?_ ?_ scope hchildren
  · intro hplain a ha
    have hrole : b.role ≠ .grid := by rcases hplain with hplain | hplain <;> simp [hplain]
    rw [if_neg (mt hgrid.mp hrole)]
    cases htext : given.attributes with
    | none => simp [htext, Attributes.empty] at ha
    | some text =>
      rw [htext] at ha
      exact ⟨c, c.mem_subjects_self, by rw [hfind, Option.map_some], text,
        SortedArguments.mem_of_attributes hgiven htext, Attributes.nameIn_of_mem_parse ha⟩
  · intro hrole own hnames a ha
    rw [if_pos (hgrid.mpr hrole)]
    exact hnames a ha

theorem namesWritten_denote (table : Definitions) (invoke : Invocation) :
    DenotationCases table invoke
      (fun n d => ∀ e ∈ Content.elementsAll d.content, NamesWritten n.subjects e)
      (fun ns d => ∀ e ∈ Content.elementsAll d.content,
        NamesWritten (ns.flatMap Node.subjects) e) where
  text t := by simp [Meaning.single, Content.elementsAll, Content.elements]
  quotation q := by simp [Meaning.single, Content.elementsAll, Content.elements]
  misplaced t := by simp [Meaning.single, Content.elementsAll, Content.elements]
  definition d := by simp [Meaning.empty, Content.elementsAll]
  nil := by simp [Meaning.empty, Content.elementsAll]
  cons := by
    intro n ns d d' hd hd' e he
    rw [List.flatMap_cons]
    rw [Meaning.append, Content.elementsAll_eq, List.flatMap_append,
      ← Content.elementsAll_eq, ← Content.elementsAll_eq] at he
    rcases List.mem_append.mp he with he | he
    · exact (hd e he).mono (List.subset_append_left _ _)
    · exact (hd' e he).mono (List.subset_append_right _ _)
  block := by
    intro b d hd e he
    have he : e ∈ Content.elementsAll d.content := by
      simpa [Meaning.wrap, Content.elementsAll, Content.elements] using he
    exact (hd e he).mono fun _ hx => List.mem_cons_of_mem _ (b.subset_subjects hx)
  problem := by
    intro c d scope _ _ _ e he
    exact absurd he List.not_mem_nil
  bare := by
    intro c builtin given scope hfind hgiven _ _ e he
    have he : e ∈ (builtin.element given scope []).elements := by
      simpa [Meaning.wrap, Meaning.empty, Content.elementsAll] using he
    have helement := builtin.namesWritten_element hfind hgiven scope
      (fun _ he => absurd he List.not_mem_nil) e he
    exact helement.mono (List.subset_cons_self _ _)
  body := by
    intro c builtin given b d scope hfind hgiven _ _ _ hb hd e he
    have he : e ∈ (builtin.element given scope d.content).elements := by
      simpa [Meaning.wrap, Content.elementsAll] using he
    have helement := builtin.namesWritten_element hfind hgiven scope
      (fun e he => (hd e he).mono (Command.subset_subjects_of_block hb)) e he
    exact helement.mono (List.subset_cons_self _ _)

namespace Compilation

/-- Every name on an element of the content of a source is non-empty and has no white space and no
equals sign. On a grid it is one of ours, and on any other element it is written in the square
brackets of a command that stands for such an element. So it is a legal name, unless the author
wrote a character in it that breaks the tag. -/
theorem attribute_names_written (source : String) :
    let normal := (Document.ofSource source).normalForm
    ∀ e ∈ Content.elementsAll (normal.document.denote normal.definitions).content,
      ∀ a ∈ e.2.entries,
        a.name ≠ "" ∧ (∀ c ∈ a.name.toList, ¬ Text.isBlank c ∧ c ≠ '=') ∧
        (if e.1 = Tag.grid then a.name ∈ ["col", "sub-grid"]
          else ∃ c, .command c ∈ Document.nodeSubjects normal.document ∧
            c.WritesName e.1 a.name) ∧
        (Attributes.isLegalName a.name ↔ ∀ c ∈ a.name.toList, ¬ Attributes.breaksTag c) := by
  intro normal e he a ha
  have hwritten := (namesWritten_denote normal.definitions _).document normal.document e he a ha
  have hgrid : ∀ name ∈ ["col", "sub-grid"],
      name ≠ "" ∧ name.toList.all Attributes.isNameChar := by decide
  have hname : a.name ≠ "" ∧ ∀ c ∈ a.name.toList, Attributes.isNameChar c := by
    split at hwritten
    · exact (hgrid a.name hwritten).imp_right List.all_eq_true.mp
    · obtain ⟨_, -, -, _, -, hin⟩ := hwritten
      exact ⟨hin.ne_empty, hin.isNameChar⟩
  refine ⟨hname.1, fun c hc => ?_, hwritten, Attributes.isLegalName_iff hname.1 hname.2⟩
  simpa [Attributes.isNameChar] using hname.2 c hc

theorem attribute_names_written_class :
    let normal := (Document.ofSource "\\p[class=x]\x7by\x7d").normalForm
    ("p", ⟨[⟨"class", some "x"⟩]⟩) ∈
        Content.elementsAll (normal.document.denote normal.definitions).content ∧
      ∃ c, .command c ∈ Document.nodeSubjects normal.document ∧ c.WritesName "p" "class" := by
  intro normal
  have hmem : ("p", ⟨[⟨"class", some "x"⟩]⟩) ∈
      Content.elementsAll (normal.document.denote normal.definitions).content := by
    decide +kernel
  have hwritten := (attribute_names_written _ _ hmem ⟨"class", some "x"⟩ (by decide)).2.2.1
  exact ⟨hmem, hwritten⟩

/-- Nothing keeps a name from breaking its tag. -/
theorem attribute_name_breaks_tag :
    let normal := (Document.ofSource "\\p[a\"'<>/]\x7bx\x7d").normalForm
    ∃ e ∈ Content.elementsAll (normal.document.denote normal.definitions).content,
      ∃ a ∈ e.2.entries, a.name = "a\"'<>/" ∧ ¬ Attributes.isLegalName a.name := by
  decide +kernel

end Compilation

end AcademicMarkup

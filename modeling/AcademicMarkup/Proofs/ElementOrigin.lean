import AcademicMarkup.Proofs.VisibleText
import AcademicMarkup.Proofs.WrittenContent

/-!
Where the elements of content come from. Headings and mathematics take no attributes, so an
identifier on an element that is not one of them was written by the author, in the square brackets
of a command.
-/
namespace AcademicMarkup

/-- The command stands for an element with this tag, and an argument in square brackets sets this
identifier. -/
def Command.SetsId (c : Command) (tag id : String) : Prop :=
  (Vocabulary.find? c.name).map Builtin.tag = some tag ∧
    ∃ text ∈ c.arguments.filterMap Argument.bracketText?,
      ⟨"id", some id⟩ ∈ (Attributes.parse text).entries

/-- What is known of the elements of a denotation, where the author wrote the identifiers that
satisfy a condition with the name of their tag. The names under which elements of our own are shown
are free for these. -/
structure ProperElement (wrote : String → String → Prop) (tag : String) (own : Attributes) :
    Prop where
  tag_ne : tag ≠ "span" ∧ tag ≠ "div"
  own_eq : Tag.isNumbered tag ∨ Tag.isHeading tag → own = .empty
  wrote_id : ∀ id, ⟨"id", some id⟩ ∈ own.entries → wrote (Tag.shownName tag) id

namespace Attributes

theorem eq_or_mem_of_mem_setIn {name : String} {value : Option String} {a : Attribute}
    {es : List Attribute} (h : a ∈ setIn name value es) : a.name = name ∨ a ∈ es := by
  induction es with
  | nil => exact Or.inl (by simp_all [setIn])
  | cons e rest ih =>
    rw [setIn] at h
    split at h
    · rename_i hname
      rcases List.mem_cons.mp h with rfl | h
      · exact Or.inl (by simpa using hname)
      · exact Or.inr (List.mem_cons_of_mem _ h)
    · rcases List.mem_cons.mp h with rfl | h
      · exact Or.inr List.mem_cons_self
      · exact (ih h).imp_right (List.mem_cons_of_mem _)

theorem name_of_mem_gridColumns {text : String} {a : Attribute}
    (h : a ∈ (gridColumns text).entries) : a.name = "col" := by
  unfold gridColumns at h
  split at h <;> simp_all [empty]

end Attributes

theorem SortedArguments.mem_of_attributes {as : List Argument} {given : SortedArguments}
    {text : String} (h : SortedArguments.ofList? as = some given)
    (htext : given.attributes = some text) : text ∈ as.filterMap Argument.bracketText? := by
  unfold SortedArguments.ofList? at h
  split at h
  · cases h
    cases htext
  · split at h
    · cases h
      cases htext
    · obtain ⟨text', hbracket, rfl⟩ := Option.map_eq_some_iff.mp h
      cases htext
      simp [hbracket]
  · obtain ⟨text', hbracket, hlast⟩ := Option.bind_eq_some_iff.mp h
    obtain ⟨body, -, hgiven⟩ := Option.bind_eq_some_iff.mp hlast
    cases hgiven
    cases htext
    simp [List.filterMap_cons, hbracket]
  · cases h

/-- Elements of the page language and grids are neither headings nor mathematics, and the former are
shown under their own name. -/
theorem Vocabulary.tag_of_find? {name : String} {b : Builtin} (h : Vocabulary.find? name = some b) :
    (b.tag ≠ "span" ∧ b.tag ≠ "div") ∧
      (Tag.isNumbered b.tag ∨ Tag.isHeading b.tag →
        b.role = .heading ∨ b.role = .inlineMath ∨ b.role = .blockMath) ∧
      (b.role = .container ∨ b.role = .leaf → Tag.shownName b.tag = b.tag) := by
  have hall : ∀ p ∈ Vocabulary.all, (p.2.tag ≠ "span" ∧ p.2.tag ≠ "div") ∧
      (Tag.isNumbered p.2.tag ∨ Tag.isHeading p.2.tag →
        p.2.role = .heading ∨ p.2.role = .inlineMath ∨ p.2.role = .blockMath) ∧
      (p.2.role = .container ∨ p.2.role = .leaf → Tag.shownName p.2.tag = p.2.tag) := by decide
  obtain ⟨before, after, heq, -⟩ := List.lookup_eq_some_iff.mp h
  exact hall (name, b) (by simp [heq])

/-- What holds of the elements that a command stands for: headings, notes and mathematics are bare,
the names on a grid are ours, and other elements have the attributes that are given. -/
theorem Builtin.forall_elements {P : String × Attributes → Prop} {b : Builtin}
    {given : SortedArguments} (hbare : P (b.tag, .empty))
    (hgiven : b.role = .container ∨ b.role = .leaf →
      P (b.tag, (given.attributes.map Attributes.parse).getD .empty))
    (hgrid : b.role = .grid →
      ∀ own : Attributes, (∀ a ∈ own.entries, a.name ∈ ["col", "sub-grid"]) → P (b.tag, own))
    (scope : Scope) {children : List Content}
    (hchildren : ∀ e ∈ Content.elementsAll children, P e) :
    ∀ e ∈ (b.element given scope children).elements, P e := by
  unfold Builtin.element
  cases heq : b.role with
  | heading => exact List.forall_mem_cons.mpr ⟨hbare, hchildren⟩
  | note => exact List.forall_mem_cons.mpr ⟨hbare, hchildren⟩
  | inlineMath => simpa [Content.elements, Content.elementsAll] using hbare
  | blockMath => simpa [Content.elements, Content.elementsAll] using hbare
  | container => exact List.forall_mem_cons.mpr ⟨hgiven (Or.inl heq), hchildren⟩
  | leaf => simpa [Content.elements, Content.elementsAll] using hgiven (Or.inr heq)
  | grid =>
    refine List.forall_mem_cons.mpr ⟨hgrid heq _ fun a ha => ?_, hchildren⟩
    split at ha
    · rcases Attributes.eq_or_mem_of_mem_setIn ha with hname | ha
      · simp [hname]
      · simp [Attributes.name_of_mem_gridColumns ha]
    · simp [Attributes.name_of_mem_gridColumns ha]

/-- The element of a command is proper if the elements it holds are. -/
theorem Builtin.proper_element {wrote : String → String → Prop} {c : Command} {b : Builtin}
    {given : SortedArguments} (hfind : Vocabulary.find? c.name = some b)
    (hgiven : SortedArguments.ofList? c.arguments = some given)
    (hwrote : ∀ tag id, c.SetsId tag id → wrote tag id) (scope : Scope) {children : List Content}
    (hchildren : ∀ e ∈ Content.elementsAll children, ProperElement wrote e.1 e.2) :
    ∀ e ∈ (b.element given scope children).elements, ProperElement wrote e.1 e.2 := by
  obtain ⟨htag, hrole, hshown⟩ := Vocabulary.tag_of_find? hfind
  refine Builtin.forall_elements ⟨htag, fun _ => rfl, by simp [Attributes.empty]⟩ ?_ ?_ scope
    hchildren
  · intro hplain
    refine ⟨htag, fun h => ?_, fun id hid => ?_⟩
    · rcases hplain with hplain | hplain <;> simpa [hplain] using hrole h
    · cases htext : given.attributes with
      | none => simp [htext, Attributes.empty] at hid
      | some text =>
        rw [htext] at hid
        rw [hshown hplain]
        exact hwrote b.tag id ⟨by rw [hfind, Option.map_some],
          text, SortedArguments.mem_of_attributes hgiven htext, hid⟩
  · intro hgrid own hnames
    refine ⟨htag, fun h => ?_, fun id hid => ?_⟩
    · simpa [hgrid] using hrole h
    · simpa using hnames _ hid

/-- All elements of the denotation are proper. -/
def Meaning.Proper (wrote : String → String → Prop) (d : Meaning) : Prop :=
  ∀ e ∈ Content.elementsAll d.content, ProperElement wrote e.1 e.2

/-- All identifiers that a command among these sets satisfy a condition. -/
def SetWithin (wrote : String → String → Prop) (subjects : List Subject) : Prop :=
  ∀ c, .command c ∈ subjects → ∀ tag id, c.SetsId tag id → wrote tag id

theorem Meaning.proper_single_text {wrote : String → String → Prop} (text : String) :
    Meaning.Proper wrote (.single (.text text)) :=
  fun _ he => absurd he List.not_mem_nil

section Proper

variable {table : Definitions} {invoke : Invocation} {wrote : String → String → Prop}

theorem Node.proper_denoteAll {ns : List Node} {scope : Scope}
    (h : ∀ n ∈ ns, Meaning.Proper wrote (n.denote table invoke scope)) :
    Meaning.Proper wrote (Node.denoteAll table invoke scope ns) := by
  induction ns with
  | nil => exact fun _ he => absurd he List.not_mem_nil
  | cons n ns ih =>
    obtain ⟨hn, hns⟩ := List.forall_mem_cons.mp h
    rw [Node.denoteAll, Meaning.Proper, Meaning.append, Content.elementsAll_eq,
      List.flatMap_append, ← Content.elementsAll_eq, ← Content.elementsAll_eq]
    exact List.forall_mem_append.mpr ⟨hn, ih hns⟩

theorem Argument.proper_denoteLast {as : List Argument} {scope : Scope}
    (h : ∀ b, .block b ∈ as → Meaning.Proper wrote (b.denoteChildren table invoke scope)) :
    Meaning.Proper wrote (Argument.denoteLast table invoke scope as) := by
  induction as with
  | nil => exact fun _ he => absurd he List.not_mem_nil
  | cons a as ih =>
    cases as with
    | nil =>
      cases a with
      | block b => exact h b (List.mem_singleton.mpr rfl)
      | script operator operand => exact fun _ he => absurd he List.not_mem_nil
    | cons a' as =>
      rw [Argument.denoteLast]
      exact ih fun b hb => h b (List.mem_cons_of_mem _ hb)

/-- A command that is not reported becomes an element around what its last argument denotes. -/
theorem Command.proper_denote (hinvoke : ∀ c scope, invoke c scope = none) {ident : Token}
    {arguments : List Argument} {clause : Option Clause}
    (hwrote : ∀ tag id, Command.SetsId ⟨ident, arguments, clause⟩ tag id → wrote tag id)
    (hblocks : ∀ b, .block b ∈ arguments →
      ∀ scope, Meaning.Proper wrote (b.denoteChildren table invoke scope)) (scope : Scope) :
    Meaning.Proper wrote
      (Command.denote table invoke scope ⟨ident, arguments, clause⟩) := by
  rcases @Command.denote_cases table invoke hinvoke scope ident arguments clause with
    ⟨d, -, hdenote⟩ | ⟨builtin, given, hfind, hgiven, -, hdenote⟩
  · rw [hdenote]
    exact fun _ he => absurd he List.not_mem_nil
  have hinner : Meaning.Proper wrote (if builtin.role.holdsContent then
      Argument.denoteLast table invoke (scope.push ident.text) arguments else .empty) := by
    split
    · exact Argument.proper_denoteLast fun b hb => hblocks b hb _
    · exact fun _ he => absurd he List.not_mem_nil
  have helement :=
    Builtin.proper_element (c := ⟨ident, arguments, clause⟩) hfind hgiven hwrote scope hinner
  rw [hdenote]
  simpa [Meaning.Proper, Meaning.wrap, Content.elementsAll] using helement

theorem proper_cases (hinvoke : ∀ c scope, invoke c scope = none) :
    TreeCases
      (fun n => SetWithin wrote n.subjects →
        ∀ scope, Meaning.Proper wrote (n.denote table invoke scope))
      (fun b => SetWithin wrote b.subjects →
        ∀ scope, Meaning.Proper wrote (b.denoteChildren table invoke scope))
      (fun a => SetWithin wrote a.subjects → ∀ b, a = .block b →
        ∀ scope, Meaning.Proper wrote (b.denoteChildren table invoke scope)) where
  text t _ _ := Meaning.proper_single_text t.text
  quotation q _ _ := Meaning.proper_single_text q.text
  misplaced t _ _ := Meaning.proper_single_text t.text
  definition d _ _ := fun _ he => absurd he List.not_mem_nil
  command ident arguments clause ih := by
    intro hwrote scope
    rw [Node.denote]
    apply Command.proper_denote hinvoke
    · exact hwrote _ (by simp)
    · intro b hb
      refine ih _ hb (fun c hc => hwrote c ?_) b rfl
      simp only [Node.subjects_command, Command.subjects_mk, List.mem_cons, List.mem_append,
        List.mem_flatMap]
      exact Or.inr (Or.inr (Or.inl ⟨.block b, hb, hc⟩))
  block b ih := by
    intro hwrote scope
    have hchildren := ih (fun c hc => hwrote c (by simp [hc])) scope
    simpa [Node.denote, Meaning.Proper, Meaning.wrap, Content.elementsAll, Content.elements]
      using hchildren
  children opening children closing ih := by
    intro hwrote scope
    apply Node.proper_denoteAll
    intro n hn
    refine ih n hn (fun c hc => hwrote c ?_) scope
    rw [Block.subjects_mk]
    exact List.mem_cons_of_mem _ (List.mem_flatMap.mpr ⟨n, hn, hc⟩)
  argument b ih := by
    rintro hwrote _ ⟨⟩
    exact ih hwrote
  script operator operand _ := by
    rintro _ _ ⟨⟩

end Proper

namespace Document

/-- A command of the document, outside its definitions, sets this identifier on an element with
this tag. -/
def SetsId (doc : Document) (tag id : String) : Prop :=
  ∃ c, .command c ∈ doc.nodeSubjects ∧ c.SetsId tag id

theorem proper_denote (table : Definitions) (doc : Document) :
    Meaning.Proper (SetsId doc) (doc.denote table) := by
  apply Node.proper_denoteAll
  intro n hn
  apply (proper_cases fun _ _ => rfl).node n
  intro c hc tag id hid
  exact ⟨c, List.mem_flatMap.mpr ⟨n, hn, hc⟩, hid⟩

end Document

end AcademicMarkup

import AcademicMarkup.Page
import AcademicMarkup.Proofs.HtmlEvents

/-!
Induction over content that is written. What is shown relates the register before, the events that
are written and the register after; it has to hold of texts and of void elements, to be kept when
one piece follows another, and to be kept around the children of an element.
-/
namespace AcademicMarkup

open Html

mutual

/-- The elements of content in order, each with its tag and its own attributes. -/
def Content.elements : Content → List (String × Attributes)
  | .text _ => []
  | .element tag own children => (tag, own) :: Content.elementsAll children
  | .fragment children => Content.elementsAll children

def Content.elementsAll : List Content → List (String × Attributes)
  | [] => []
  | c :: cs => c.elements ++ Content.elementsAll cs

end

theorem Content.elementsAll_eq (cs : List Content) :
    Content.elementsAll cs = cs.flatMap Content.elements := by
  induction cs with
  | nil => rfl
  | cons c cs ih => rw [Content.elementsAll, ih, List.flatMap_cons]

/-- The value of an attribute of a start tag. -/
def Html.Event.value? (name : String) : Event → Option String
  | .startTag _ as => (as.find? (·.name == name)).bind Attribute.value
  | .endTag _ => none
  | .text _ => none

def Html.Event.id? (e : Event) : Option String := e.value? "id"

theorem Html.mem_of_id? {name id : String} {as : List Attribute}
    (h : (Event.startTag name as).id? = some id) : ⟨"id", some id⟩ ∈ as := by
  obtain ⟨a, ha, hvalue⟩ := Option.bind_eq_some_iff.mp h
  have hname : a.name = "id" := by simpa using List.find?_some ha
  have heq : a = ⟨"id", some id⟩ := by rw [← hname, ← hvalue]
  exact heq ▸ List.mem_of_find?_eq_some ha

/-- The start tag of an element that is not void, with its number and its written content. -/
def Html.elementTag (tag : String) (own : Attributes) (number : Nat) (content : List Event) :
    Event :=
  .startTag (Tag.shownName tag)
    (Attribute.merged (Tag.generated tag number (Html.write content) ++ own.entries))

theorem Html.elementTag_of_isVoid {tag : String} (h : Tag.isVoid tag) (own : Attributes)
    (number : Nat) (content : List Event) :
    elementTag tag own number content = .startTag tag (Attribute.merged own.entries) := by
  rcases Tag.eq_of_isVoid h with rfl | rfl | rfl <;> rfl

/-- The register after an element that is not void. -/
theorem Content.register_element {size : Nat} (s : Register size) {tag : String}
    (hvoid : ¬ Tag.isVoid tag) (own : Attributes) (children : List Content) :
    ((Content.element tag own children).render s).2 =
      let inner := Content.renderAll (s.opening tag).state children
      if Tag.isHeading tag then
        inner.2.addHeading
          ⟨tag, own.set "id" (some (Html.headingName (String.join inner.1))), children⟩
      else inner.2 := by
  rw [Content.render]
  simp only [s.opening_name, Tag.isVoid_shownName, if_neg hvoid]
  split <;> rfl

/-- The register after an element whose children left it in this state. A heading is recorded. -/
def Register.closing (s : Register) (tag : String) (own : Attributes) (children : List Content)
    (content : List Event) : Register :=
  if Tag.isHeading tag then
    s.addHeading ⟨tag, own.set "id" (some (Html.headingName (Html.write content))), children⟩
  else s

/-- What is to be shown of a relation between registers and events, where the elements satisfy a
condition. -/
structure RenderCases (Q : String → Attributes → Prop)
    (P : Register → List Event → Register → Prop) : Prop where
  nil : ∀ s, P s [] s
  text : ∀ s t, P s [.text t] s
  append : ∀ {s es s₁ fs s₂}, P s es s₁ → P s₁ fs s₂ → P s (es ++ fs) s₂
  void : ∀ s {tag own}, Tag.isVoid tag → Q tag own →
    P s [.startTag tag (Attribute.merged own.entries)] s
  element : ∀ s {tag own children es s₁}, ¬ Tag.isVoid tag → Q tag own →
    (∀ e ∈ Content.elementsAll children, Q e.1 e.2) → P (s.opening tag).state es s₁ →
    P s (elementTag tag own s.nextId es :: es ++ [.endTag (Tag.shownName tag)])
      (s₁.closing tag own children es)

namespace RenderCases

variable {Q : String → Attributes → Prop} {P : Register → List Event → Register → Prop}

/-- The register after an element in terms of the events of its children. -/
theorem render_element (s : Register) {tag : String} (hvoid : ¬ Tag.isVoid tag) (own : Attributes)
    (children : List Content) :
    ((Content.element tag own children).render s).2 =
      (Content.renderAll (s.opening tag).state children).2.closing tag own children
        (Content.eventsEach (s.opening tag).state.nextId children).1.flatten := by
  have hinner := (Content.renderAll_eq (s.opening tag).state children).1
  rw [Content.register_element s hvoid, Register.closing, write_flatten, ← hinner]

mutual

theorem content (h : RenderCases Q P) (c : Content) (s : Register)
    (hc : ∀ e ∈ c.elements, Q e.1 e.2) : P s (c.events s.nextId).1 (c.render s).2 := by
  cases c with
  | text t => exact h.text s t
  | fragment children => exact (contents h children s hc).2
  | element tag own children =>
    obtain ⟨hown, hchildren⟩ := List.forall_mem_cons.mp hc
    by_cases hvoid : Tag.isVoid tag
    · have hstate : ((Content.element tag own children).render s).2 = s := by
        rw [Content.render]
        simp [s.opening_of_isVoid hvoid, hvoid]
      rw [Content.events, if_pos hvoid, hstate]
      exact h.void s hvoid hown
    · have hinner := (contents h children (s.opening tag).state hchildren).1
      rw [Content.events, if_neg hvoid, render_element s hvoid, ← s.nextId_opening]
      exact h.element s hvoid hown hchildren hinner

theorem contents (h : RenderCases Q P) (cs : List Content) (s : Register)
    (hcs : ∀ e ∈ Content.elementsAll cs, Q e.1 e.2) :
    P s (Content.eventsEach s.nextId cs).1.flatten (Content.renderAll s cs).2 ∧
      P s (List.intercalate [.text "\n"] (Content.eventsEach s.nextId cs).1)
        (Content.renderAll s cs).2 := by
  cases cs with
  | nil => exact ⟨h.nil s, h.nil s⟩
  | cons c cs =>
    obtain ⟨hc, hcs⟩ := List.forall_mem_append.mp hcs
    have hfirst := content h c s hc
    have hrest := contents h cs (c.render s).2 hcs
    rw [(Content.render_eq s c).2] at hrest
    refine ⟨h.append hfirst hrest.1, ?_⟩
    cases cs with
    | nil => simpa [Content.eventsEach, Content.renderAll, List.intercalate] using hfirst
    | cons d ds =>
      rw [Content.eventsEach, Content.eventsEach, List.intercalate_cons_cons]
      exact h.append (h.append hfirst (h.text _ "\n")) hrest.2

end

end RenderCases

end AcademicMarkup

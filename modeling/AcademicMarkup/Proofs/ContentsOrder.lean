import AcademicMarkup.Proofs.ElementOrigin
import AcademicMarkup.Proofs.PageAnatomy

/-!
The order of the table of contents. A heading is recorded when it is closed, so the entries stand in
the order of the end tags of the headings. That is the order of their start tags if no heading
stands inside another.
-/
namespace AcademicMarkup

namespace Html

/-- The tags that are closed, in the order of their end tags. The tags that are open are given,
innermost first. -/
def closings : List Event → List Event → List Event
  | _, [] => []
  | opened, .startTag name as :: es =>
    closings (if Tag.isVoid name then opened else .startTag name as :: opened) es
  | [], .endTag _ :: es => closings [] es
  | tag :: opened, .endTag _ :: es => tag :: closings opened es
  | opened, .text _ :: es => closings opened es

/-- The tag and the identifier of a heading. -/
def Event.heading? (e : Event) : Option (String × Option String) :=
  match e with
  | .startTag name _ => if Tag.isHeading name then some (name, e.id?) else none
  | .endTag _ => none
  | .text _ => none

def headings (es : List Event) : List (String × Option String) := es.filterMap Event.heading?

/-- Whether no heading begins inside another, where one may be open already. -/
def headingsApart : Bool → List Event → Bool
  | _, [] => true
  | inside, .startTag name _ :: es =>
    if Tag.isHeading name then !inside && headingsApart true es else headingsApart inside es
  | inside, .endTag name :: es => headingsApart (inside && !Tag.isHeading name) es
  | inside, .text _ :: es => headingsApart inside es

theorem headings_append (es fs : List Event) : headings (es ++ fs) = headings es ++ headings fs :=
  List.filterMap_append

theorem closings_text (opened : List Event) (t : String) (es : List Event) :
    closings opened (.text t :: es) = closings opened es := by
  cases opened <;> rw [closings]

end Html

/-- How the table of contents knows a heading. -/
def Heading.target (h : Heading) : String × Option String := (h.tag, some h.id)

open Html

/-- Headings have no attributes of their own. -/
def BareHeading (tag : String) (own : Attributes) : Prop := Tag.isHeading tag → own = .empty

section ElementEvents

variable {tag : String} {own : Attributes} (number : Nat) (es rest : List Event)

theorem Html.headings_elementTag (h : BareHeading tag own) :
    headings [elementTag tag own number es] =
      if Tag.isHeading tag then [(tag, some (headingName (write es)))] else [] := by
  by_cases hheading : Tag.isHeading tag
  · obtain ⟨hinline, hblock, hgrid, hnote⟩ := Tag.ne_of_isHeading hheading
    rw [h hheading]
    simp [headings, elementTag, Event.heading?, hheading, Tag.shownName, hinline, hblock, hgrid,
      hnote, Tag.generated_of_isHeading hheading, Attributes.empty, Attribute.merged,
      Attribute.last?, Event.id?, Event.value?]
  · simp [headings, elementTag, Event.heading?, Tag.isHeading_shownName, hheading]

/-- An element is closed after all that is closed inside it. -/
theorem Html.closings_element (hvoid : ¬ Tag.isVoid tag) (opened : List Event)
    (h : ∀ opened rest,
      Html.closings opened (es ++ rest) = Html.closings [] es ++ Html.closings opened rest) :
    Html.closings opened
        (elementTag tag own number es :: es ++ [.endTag (Tag.shownName tag)] ++ rest) =
      Html.closings [] es ++ elementTag tag own number es :: Html.closings opened rest := by
  have hstart : Html.closings opened
      (elementTag tag own number es :: (es ++ .endTag (Tag.shownName tag) :: rest)) =
        Html.closings (elementTag tag own number es :: opened)
          (es ++ .endTag (Tag.shownName tag) :: rest) := by
    rw [elementTag, Html.closings, Tag.isVoid_shownName, if_neg hvoid]
  rw [List.cons_append, List.cons_append, List.append_assoc, List.singleton_append, hstart, h,
    Html.closings]

theorem Html.headings_element :
    headings (elementTag tag own number es :: es ++ [.endTag (Tag.shownName tag)]) =
      headings [elementTag tag own number es] ++ headings es := by
  have hend : headings [.endTag (Tag.shownName tag)] = [] := rfl
  rw [headings_append, hend, List.append_nil]
  exact headings_append [_] es

theorem Html.headingsApart_element (inside : Bool) :
    headingsApart inside
        (elementTag tag own number es :: es ++ [.endTag (Tag.shownName tag)] ++ rest) =
      if Tag.isHeading tag then
        !inside && headingsApart true (es ++ .endTag (Tag.shownName tag) :: rest)
      else headingsApart inside (es ++ .endTag (Tag.shownName tag) :: rest) := by
  rw [List.cons_append, List.cons_append, List.append_assoc, List.singleton_append, elementTag,
    headingsApart, Tag.isHeading_shownName]

end ElementEvents

theorem Register.target_closing (s : Register) {tag : String} {own : Attributes}
    (h : BareHeading tag own) (children : List Content) (content : List Event) :
    (s.closing tag own children content).headings.map Heading.target =
      s.headings.map Heading.target ++
        if Tag.isHeading tag then [(tag, some (headingName (write content)))] else [] := by
  unfold Register.closing
  split
  · rename_i hheading
    rw [h hheading]
    simp [Register.addHeading, Heading.target, Heading.id, Attributes.set, Attributes.setIn,
      Attributes.empty, Attributes.get?]
  · simp

theorem Register.headings_opening (s : Register) (tag : String) :
    (s.opening tag).state.headings = s.headings := by
  unfold Register.opening
  repeat' split
  all_goals rfl

/-- What a piece of writing does to the headings. It closes the tags that it opens, and the
headings that it records are those it closes. -/
structure Closes (s : Register) (es : List Event) (s' : Register) : Prop where
  closings : ∀ opened rest,
    Html.closings opened (es ++ rest) = Html.closings [] es ++ Html.closings opened rest
  recorded : s'.headings.map Heading.target =
    s.headings.map Heading.target ++ headings (Html.closings [] es)
  perm : (headings (Html.closings [] es)).Perm (headings es)
  inside : ∀ rest, headingsApart true (es ++ rest) → headings es = [] ∧ headingsApart true rest
  apart : ∀ rest, headingsApart false (es ++ rest) →
    headings (Html.closings [] es) = headings es ∧ headingsApart false rest

namespace Closes

variable {s s₁ s₂ : Register} {es fs : List Event}

theorem append (h : Closes s es s₁) (h' : Closes s₁ fs s₂) : Closes s (es ++ fs) s₂ := by
  have hclosings := h.closings [] fs
  refine ⟨?_, ?_, ?_, ?_, ?_⟩
  · intro opened rest
    rw [hclosings, List.append_assoc, h.closings, h'.closings, List.append_assoc]
  · rw [h'.recorded, h.recorded, hclosings, headings_append, List.append_assoc]
  · rw [hclosings, headings_append, headings_append]
    exact h.perm.append h'.perm
  · intro rest hrest
    rw [List.append_assoc] at hrest
    obtain ⟨hes, hfs⟩ := h.inside _ hrest
    obtain ⟨hfs, hrest⟩ := h'.inside _ hfs
    exact ⟨by rw [headings_append, hes, hfs, List.nil_append], hrest⟩
  · intro rest hrest
    rw [List.append_assoc] at hrest
    obtain ⟨hes, hfs⟩ := h.apart _ hrest
    obtain ⟨hfs, hrest⟩ := h'.apart _ hfs
    exact ⟨by rw [hclosings, headings_append, headings_append, hes, hfs], hrest⟩

/-- What neither opens or closes a tag nor is a heading changes nothing. -/
theorem unchanged (s : Register)
    (hclosings : ∀ opened rest, Html.closings opened (es ++ rest) = Html.closings opened rest)
    (hheadings : headings es = [])
    (hapart : ∀ inside rest, headingsApart inside (es ++ rest) = headingsApart inside rest) :
    Closes s es s := by
  have hnone : Html.closings [] es = [] := by simpa [Html.closings] using hclosings [] []
  refine ⟨?_, ?_, ?_, ?_, ?_⟩
  · simpa [hnone] using hclosings
  · simp [hnone, headings]
  · rw [hnone, hheadings]
    exact List.Perm.refl _
  · exact fun rest hrest => ⟨hheadings, by rwa [hapart] at hrest⟩
  · exact fun rest hrest => ⟨by rw [hnone, hheadings]; rfl, by rwa [hapart] at hrest⟩

theorem element {tag : String} {own : Attributes} (hvoid : ¬ Tag.isVoid tag)
    (hbare : BareHeading tag own) (children : List Content)
    (h : Closes (s.opening tag).state es s₁) :
    Closes s (elementTag tag own s.nextId es :: es ++ [.endTag (Tag.shownName tag)])
      (s₁.closing tag own children es) := by
  have hclosings := fun opened rest =>
    @closings_element tag own s.nextId es rest hvoid opened h.closings
  have hclosed : Html.closings []
      (elementTag tag own s.nextId es :: es ++ [.endTag (Tag.shownName tag)]) =
        Html.closings [] es ++ [elementTag tag own s.nextId es] := by
    simpa [Html.closings] using hclosings [] []
  have hstart := headings_elementTag s.nextId es hbare
  have hend : ∀ inside rest, headingsApart inside (.endTag (Tag.shownName tag) :: rest) =
      headingsApart (inside && !Tag.isHeading tag) rest := by
    intro inside rest
    rw [headingsApart, Tag.isHeading_shownName]
  refine ⟨?_, ?_, ?_, ?_, ?_⟩
  · intro opened rest
    rw [hclosings, hclosed, List.append_assoc, List.singleton_append]
  · rw [s₁.target_closing hbare, h.recorded, hclosed, headings_append, hstart,
      s.headings_opening, List.append_assoc]
  · rw [hclosed, headings_element, headings_append]
    exact List.perm_append_comm.trans (h.perm.append_left _)
  · intro rest hrest
    rw [headingsApart_element] at hrest
    rw [headings_element, hstart]
    by_cases hheading : Tag.isHeading tag
    · simp [hheading] at hrest
    · rw [if_neg hheading] at hrest
      obtain ⟨hes, hrest⟩ := h.inside _ hrest
      rw [hend] at hrest
      exact ⟨by simp [hheading, hes], by simpa [hheading] using hrest⟩
  · intro rest hrest
    rw [headingsApart_element] at hrest
    rw [headings_element, hclosed, headings_append, hstart]
    by_cases hheading : Tag.isHeading tag
    · -- inside a heading there is no other, so it does not matter that it is closed last
      rw [if_pos hheading, Bool.not_false, Bool.true_and] at hrest
      obtain ⟨hes, hrest⟩ := h.inside _ hrest
      have hnone := h.perm
      rw [hes, List.perm_nil] at hnone
      rw [hend] at hrest
      exact ⟨by simp [hnone, hes], by simpa [hheading] using hrest⟩
    · rw [if_neg hheading] at hrest
      obtain ⟨hes, hrest⟩ := h.apart _ hrest
      rw [hend] at hrest
      exact ⟨by simp [hheading, hes], by simpa using hrest⟩

theorem cases : RenderCases BareHeading Closes where
  nil s := unchanged s (fun _ _ => rfl) rfl (fun _ _ => rfl)
  text s t := unchanged s (fun opened rest => closings_text opened t rest) rfl fun _ _ => rfl
  append := append
  void s tag own hvoid _ := by
    have hheading := Tag.not_isHeading_of_isVoid hvoid
    apply unchanged
    · intro opened rest
      rw [List.singleton_append, Html.closings, if_pos hvoid]
    · simp [headings, Event.heading?, hheading]
    · intro inside rest
      rw [List.singleton_append, headingsApart, if_neg hheading]
  element s _ _ children _ _ hvoid hbare _ h := h.element hvoid hbare children

end Closes

namespace Page

/-- The tag that an entry of a table of contents names, and where its link goes. -/
def link? : List Event → Option (String × String)
  | .startTag "li" [⟨"toc", none⟩, ⟨"entry", some tag⟩] ::
      .startTag "a" [⟨"href", some href⟩] :: _ => some (tag, href)
  | _ => none

/-- The tag and the link of an entry for a heading. -/
def linkTo (heading : String × Option String) : Option (String × String) :=
  heading.2.map fun id => (heading.1, "#" ++ id)

end Page

theorem Heading.link?_events_entry (h : Heading) (number : Nat) :
    Page.link? (h.entry.events number).1 = Page.linkTo h.target := by
  have hitem : Attribute.merged [⟨"toc", none⟩, ⟨"entry", some h.tag⟩] =
      [⟨"toc", none⟩, ⟨"entry", some h.tag⟩] := by
    simp [Attribute.merged, Attribute.last?]
  have hlink : Attribute.merged [⟨"href", some ("#" ++ h.id)⟩] =
      [⟨"href", some ("#" ++ h.id)⟩] := by
    simp [Attribute.merged, Attribute.last?]
  obtain ⟨rest, hevents⟩ : ∃ rest, (h.entry.events number).1 =
      .startTag "li" (Attribute.merged [⟨"toc", none⟩, ⟨"entry", some h.tag⟩]) ::
        .startTag "a" (Attribute.merged [⟨"href", some ("#" ++ h.id)⟩]) :: rest := ⟨_, rfl⟩
  rw [hevents, hitem, hlink]
  rfl

theorem Heading.links_entries (hs : List Heading) (number : Nat) :
    (Content.eventsEach number (hs.map Heading.entry)).1.map Page.link? =
      (hs.map Heading.target).map Page.linkTo := by
  induction hs generalizing number with
  | nil => rfl
  | cons h hs ih =>
    rw [List.map_cons, Content.eventsEach]
    simp only [List.map_cons, h.link?_events_entry, ih]

namespace Compilation

theorem closes_body (source : String) :
    Closes .initial (bodyEvents source) (bodyRegister source) := by
  apply Closes.cases.content
  intro e he hheading
  exact (Document.proper_denote _ _ e he).own_eq (Or.inr hheading)

/-- The entries of the table of contents in the order of the end tags of the headings. -/
theorem links_entryEvents (source : String) :
    (entryEvents source).map Page.link? =
      (headings (closings [] (bodyEvents source))).map Page.linkTo := by
  have hrecorded := (closes_body source).recorded
  rw [Register.initial, List.map_nil, List.nil_append] at hrecorded
  rw [entryEvents, entries, Heading.links_entries, hrecorded]

/-- A table of contents has an entry for each heading of the body, in the order in which the
headings are closed. If none stands inside another, they are opened in this order too. -/
theorem contents_list_headings (options : Options) (source : String)
    (h : options.contents = true) :
    (∃ script, (ofSource options source).page =
      Page.opening options ++
        write (Page.contentsEvents options.contentsTitle (entryEvents source)) ++ "\n" ++
        write (bodyEvents source) ++ script) ∧
    (entryEvents source).map Page.link? =
      (headings (closings [] (bodyEvents source))).map Page.linkTo ∧
    (headings (closings [] (bodyEvents source))).Perm (headings (bodyEvents source)) ∧
    (headingsApart false (bodyEvents source) →
      (entryEvents source).map Page.link? = (headings (bodyEvents source)).map Page.linkTo) := by
  have hbody := closes_body source
  have hpage := page_eq options source
  rw [contentsEvents, if_pos h] at hpage
  refine ⟨⟨_, hpage⟩, links_entryEvents source, hbody.perm, ?_⟩
  · intro hapart
    rw [← List.append_nil (bodyEvents source)] at hapart
    rw [links_entryEvents, (hbody.apart [] hapart).1]

theorem contents_list_headings_item :
    Options.default.contents = true ∧
    headingsApart false (bodyEvents "\\ul\x7b\\li\x7b\\h2\x7ba\x7d\x7d\x7d\\h1\x7bb\x7d") ∧
    (entryEvents "\\ul\x7b\\li\x7b\\h2\x7ba\x7d\x7d\x7d\\h1\x7bb\x7d").map Page.link? =
      (headings (bodyEvents "\\ul\x7b\\li\x7b\\h2\x7ba\x7d\x7d\x7d\\h1\x7bb\x7d")).map
        Page.linkTo := by
  have hapart : headingsApart false
      (bodyEvents "\\ul\x7b\\li\x7b\\h2\x7ba\x7d\x7d\x7d\\h1\x7bb\x7d") := by decide +kernel
  obtain ⟨-, -, -, hlinks⟩ := contents_list_headings .default
    "\\ul\x7b\\li\x7b\\h2\x7ba\x7d\x7d\x7d\\h1\x7bb\x7d" rfl
  exact ⟨rfl, hapart, hlinks hapart⟩

/-- A heading inside another comes first in the table of contents. -/
theorem contents_list_inner_heading_first :
    (headings (bodyEvents "\\h1\x7b\\h2\x7bx\x7d\x7d")).map Prod.fst = ["h1", "h2"] ∧
    (entryEvents "\\h1\x7b\\h2\x7bx\x7d\x7d").map (fun e => (Page.link? e).map Prod.fst) =
      [some "h2", some "h1"] ∧
    (entryEvents "\\h1\x7b\\h2\x7bx\x7d\x7d").map Page.link? ≠
      (headings (bodyEvents "\\h1\x7b\\h2\x7bx\x7d\x7d")).map Page.linkTo := by
  decide +kernel

end Compilation

end AcademicMarkup

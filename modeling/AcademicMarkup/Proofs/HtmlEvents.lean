import AcademicMarkup.Proofs.AttributeMerge
import AcademicMarkup.Proofs.HtmlDecoding

/-!
Written content decodes back to the content. The tags and texts of content are listed without
writing anything but the content of headings, which their names are made of. Writing content writes
this list, and so decoding gives it back, with neighbouring texts joined.
-/
namespace AcademicMarkup

namespace Html

/-- A text in front of events, joined with a text that stands first. -/
def joinText (s : String) : List Event → List Event
  | .text t :: es => .text (s ++ t) :: es
  | es => if s = "" then es else .text s :: es

/-- Joins neighbouring texts and drops empty ones. -/
def joined : List Event → List Event
  | [] => []
  | .text s :: es => joinText s (joined es)
  | e :: es => e :: joined es

/-- Whether each end tag closes the innermost open tag and none stays open. The names of the open
tags are given, innermost first. -/
def isNestedIn : List String → List Event → Bool
  | names, [] => names.isEmpty
  | names, .startTag name _ :: es =>
    isNestedIn (if Tag.isVoid name then names else name :: names) es
  | [], .endTag _ :: _ => false
  | name :: names, .endTag closed :: es => name == closed && isNestedIn names es
  | names, .text _ :: es => isNestedIn names es

theorem encodeText_append (s t : String) : encodeText (s ++ t) = encodeText s ++ encodeText t := by
  simp [encodeText, String.ofList_append]

theorem write_joinText (s : String) (es : List Event) :
    write (joinText s es) = encodeText s ++ write es := by
  unfold joinText
  split
  · rw [write_cons, write_cons, Event.write, Event.write, encodeText_append, String.append_assoc]
  · split
    · rename_i h
      subst h
      simp [encodeText]
    · rw [write_cons, Event.write]

theorem write_joined (es : List Event) : write (joined es) = write es := by
  fun_induction joined es with
  | case1 => rfl
  | case2 s es ih => rw [write_joinText, ih, write_cons, Event.write]
  | case3 e es _ ih => rw [write_cons, ih, write_cons]

theorem isJoined_joinText (s : String) {es : List Event} (h : isJoined es) :
    isJoined (joinText s es) := by
  unfold joinText
  split
  · simp_all [isJoined]
  · rename_i hfirst
    split
    · exact h
    · rename_i hs
      have hhead : es.head?.any Event.isText = false := by
        cases es with
        | nil => rfl
        | cons e es =>
          cases e with
          | text t => exact absurd rfl (hfirst t es)
          | startTag name as => rfl
          | endTag name => rfl
      simp [isJoined, hs, hhead, h]

theorem isJoined_joined (es : List Event) : isJoined (joined es) := by
  fun_induction joined es with
  | case1 => rfl
  | case2 s es ih => exact isJoined_joinText s ih
  | case3 e es hfirst ih =>
    cases e with
    | text t => exact absurd rfl (hfirst t)
    | startTag name as => exact ih
    | endTag name => exact ih

theorem mem_joined {e : Event} {es : List Event} (h : e ∈ joined es) : e ∈ es ∨ e.isText := by
  fun_induction joined es with
  | case1 => exact Or.inl h
  | case2 s es ih =>
    unfold joinText at h
    split at h
    · rename_i t rest heq
      rw [heq] at ih
      rcases List.mem_cons.mp h with rfl | h
      · exact Or.inr rfl
      · exact (ih (List.mem_cons_of_mem _ h)).imp_left (List.mem_cons_of_mem _)
    · split at h
      · exact (ih h).imp_left (List.mem_cons_of_mem _)
      · rcases List.mem_cons.mp h with rfl | h
        · exact Or.inr rfl
        · exact (ih h).imp_left (List.mem_cons_of_mem _)
  | case3 e' es _ ih =>
    rcases List.mem_cons.mp h with rfl | h
    · exact Or.inl List.mem_cons_self
    · exact (ih h).imp_left (List.mem_cons_of_mem _)

theorem isNamed_joined {es : List Event} (h : ∀ e ∈ es, e.isNamed) :
    ∀ e ∈ joined es, e.isNamed := by
  intro e he
  rcases mem_joined he with he | htext
  · exact h e he
  · cases e with
    | text s => rfl
    | startTag name as => cases htext
    | endTag name => cases htext

theorem isNestedIn_text (names : List String) (s : String) (es : List Event) :
    isNestedIn names (.text s :: es) = isNestedIn names es := by
  cases names <;> rw [isNestedIn]

theorem isNestedIn_joinText (names : List String) (s : String) (es : List Event) :
    isNestedIn names (joinText s es) = isNestedIn names es := by
  unfold joinText
  split
  · rw [isNestedIn_text, isNestedIn_text]
  · split
    · rfl
    · rw [isNestedIn_text]

theorem isNestedIn_joined (names : List String) (es : List Event) :
    isNestedIn names (joined es) = isNestedIn names es := by
  fun_induction joined es generalizing names with
  | case1 => rfl
  | case2 s es ih => rw [isNestedIn_joinText, ih, isNestedIn_text]
  | case3 e es hfirst ih =>
    cases e with
    | text t => exact absurd rfl (hfirst t)
    | startTag name as => rw [isNestedIn, isNestedIn, ih]
    | endTag name =>
      cases names with
      | nil => rfl
      | cons name' names => rw [isNestedIn, isNestedIn, ih]

end Html

namespace Tag

/-- The name under which an element is shown. -/
def shownName (tag : String) : String :=
  if tag = Tag.inlineMath then "span"
  else if tag = Tag.blockMath ∨ tag = Tag.grid ∨ tag = Tag.note then "div"
  else tag

/-- Mathematics is numbered. -/
def isNumbered (tag : String) : Bool := tag == Tag.inlineMath || tag == Tag.blockMath

/-- The attributes that an element has of itself, from its number and its written content. -/
def generated (tag : String) (number : Nat) (content : String) : List Attribute :=
  if tag = Tag.inlineMath then
    [⟨"id", some ("aml-math-" ++ toString number)⟩, ⟨"math", some "inline"⟩]
  else if tag = Tag.blockMath then
    [⟨"id", some ("aml-math-" ++ toString number)⟩, ⟨"math", some "block"⟩]
  else if tag = Tag.grid then [⟨"grid", none⟩]
  else if tag = Tag.note then [⟨"note", none⟩]
  else if Tag.isHeading tag then [⟨"id", some (Html.headingName content)⟩]
  else []

end Tag

mutual

/-- The tags and texts of content in order, and the number that comes next. -/
def Content.events (number : Nat) : Content → List Html.Event × Nat
  | .text s => ([.text s], number)
  | .fragment children =>
    let inner := Content.eventsEach number children
    (List.intercalate [.text "\n"] inner.1, inner.2)
  | .element tag own children =>
    if Tag.isVoid tag then ([.startTag tag (Attribute.merged own.entries)], number)
    else
      let inner := Content.eventsEach (if Tag.isNumbered tag then number + 1 else number) children
      let content := inner.1.flatten
      let generated := Tag.generated tag number (Html.write content)
      (.startTag (Tag.shownName tag) (Attribute.merged (generated ++ own.entries)) :: content ++
        [.endTag (Tag.shownName tag)], inner.2)

def Content.eventsEach (number : Nat) : List Content → List (List Html.Event) × Nat
  | [] => ([], number)
  | c :: cs =>
    let first := c.events number
    let rest := Content.eventsEach first.2 cs
    (first.1 :: rest.1, rest.2)

end

mutual

/-- Whether all tags and the names of all attributes are names. -/
def Content.isNamed : Content → Bool
  | .text _ => true
  | .fragment children => Content.areNamed children
  | .element tag own children =>
    Html.isName tag && own.entries.all (Html.isName ·.name) && Content.areNamed children

def Content.areNamed : List Content → Bool
  | [] => true
  | c :: cs => c.isNamed && Content.areNamed cs

end

namespace Html

theorem write_element (name : String) (as : List Attribute) (es : List Event) :
    write (.startTag name as :: es ++ [.endTag name]) =
      Html.startTag name ⟨as⟩ ++ write es ++ Html.endTag name := by
  rw [List.cons_append, write_cons, write_append, ← String.append_assoc]
  simp [write, Event.write]

theorem write_flatten (ess : List (List Event)) :
    write ess.flatten = String.join (ess.map write) := by
  induction ess with
  | nil => rfl
  | cons es ess ih => rw [List.flatten_cons, write_append, ih, List.map_cons, String.join_cons]

theorem write_intercalate (ess : List (List Event)) :
    write (List.intercalate [.text "\n"] ess) = String.intercalate "\n" (ess.map write) := by
  have hnewline : write [.text "\n"] = "\n" := by decide
  induction ess with
  | nil => rfl
  | cons es ess ih =>
    cases ess with
    | nil => simp [List.intercalate]
    | cons fs ess =>
      rw [List.intercalate_cons_cons, write_append, write_append, hnewline, ih]
      simp only [List.map_cons, String.intercalate_cons_cons]

end Html

namespace Register

@[simp] theorem successor_zero (n : Nat) : successor 0 n = n + 1 := rfl

theorem opening_name {size : Nat} (s : Register size) (tag : String) :
    (s.opening tag).name = Tag.shownName tag := by
  unfold Register.opening Tag.shownName
  simp only [beq_iff_eq]
  split
  · rfl
  split
  · simp_all
  split
  · simp_all
  split
  · simp_all
  · simp_all

theorem nextId_opening (s : Register) (tag : String) :
    (s.opening tag).state.nextId = if Tag.isNumbered tag then s.nextId + 1 else s.nextId := by
  unfold Register.opening Tag.isNumbered
  simp only [Bool.or_eq_true, beq_iff_eq]
  split
  · simp_all [Register.advance, Register.addInline]
  split
  · simp_all [Register.advance, Register.addBlock]
  split
  · simp_all
  split
  · simp_all
  · simp_all

theorem opening_attributes (s : Register) {tag : String} (h : ¬ Tag.isHeading tag)
    (content : String) :
    (s.opening tag).attributes = ⟨Tag.generated tag s.nextId content⟩ := by
  unfold Register.opening Tag.generated
  simp only [beq_iff_eq, if_neg h]
  repeat' split
  all_goals rfl

end Register

namespace Tag

theorem merged_generated (tag : String) (number : Nat) (content : String) :
    Attribute.merged (generated tag number content) = generated tag number content := by
  unfold generated
  repeat' split
  all_goals simp [Attribute.merged, Attribute.last?]

end Tag

/-- No heading is one of our own tags. -/
theorem Tag.ne_of_isHeading {tag : String} (h : Tag.isHeading tag) :
    tag ≠ Tag.inlineMath ∧ tag ≠ Tag.blockMath ∧ tag ≠ Tag.grid ∧ tag ≠ Tag.note := by
  refine ⟨?_, ?_, ?_, ?_⟩ <;>
  · rintro rfl
    revert h
    decide

theorem Tag.not_isNumbered_of_isHeading {tag : String} (h : Tag.isHeading tag) :
    ¬ Tag.isNumbered tag := by
  obtain ⟨hinline, hblock, -, -⟩ := Tag.ne_of_isHeading h
  simp [Tag.isNumbered, hinline, hblock]

theorem Tag.generated_of_isHeading {tag : String} (h : Tag.isHeading tag) (number : Nat)
    (content : String) :
    Tag.generated tag number content = [⟨"id", some (Html.headingName content)⟩] := by
  obtain ⟨hinline, hblock, hgrid, hnote⟩ := Tag.ne_of_isHeading h
  simp [Tag.generated, hinline, hblock, hgrid, hnote, h]

/-- The attributes of an element that is not a heading. -/
theorem Register.setAll_opening (s : Register) {tag : String} (h : ¬ Tag.isHeading tag)
    (own : Attributes) (content : String) :
    (s.opening tag).attributes.setAll own.entries =
      ⟨Attribute.merged (Tag.generated tag s.nextId content ++ own.entries)⟩ := by
  rw [s.opening_attributes h content, Attributes.setAll_eq (Tag.merged_generated _ _ _)]

/-- The attributes of a heading, whose name is set first and under all others. -/
theorem Register.setAll_opening_heading (s : Register) {tag : String} (h : Tag.isHeading tag)
    (own : Attributes) (content : String) :
    (Attributes.mk [⟨"id", some (Html.headingName content)⟩]).setAll
        ((s.opening tag).attributes.setAll own.entries).entries =
      ⟨Attribute.merged (Tag.generated tag s.nextId content ++ own.entries)⟩ := by
  -- no heading is one of our own tags, so nothing but its name comes first
  obtain ⟨hinline, hblock, hgrid, hnote⟩ := Tag.ne_of_isHeading h
  have hopening : (s.opening tag).attributes = ⟨[]⟩ := by
    simp [Register.opening, hinline, hblock, hgrid, hnote, Attributes.empty]
  rw [hopening, Tag.generated_of_isHeading h, Attributes.setAll_eq rfl, Attributes.setAll_eq rfl,
    List.nil_append, List.singleton_append, Attribute.merged_cons_merged, List.singleton_append]

theorem Tag.eq_of_isVoid {tag : String} (h : Tag.isVoid tag) :
    tag = "br" ∨ tag = "hr" ∨ tag = "img" := by
  simpa [Tag.isVoid, Tag.voids] using h

theorem Tag.not_isHeading_of_isVoid {tag : String} (h : Tag.isVoid tag) : ¬ Tag.isHeading tag := by
  rcases Tag.eq_of_isVoid h with rfl | rfl | rfl <;> decide

theorem Register.opening_of_isVoid {size : Nat} (s : Register size) {tag : String}
    (h : Tag.isVoid tag) :
    s.opening tag = ⟨tag, .empty, s⟩ := by
  rcases Tag.eq_of_isVoid h with rfl | rfl | rfl <;> rfl

/-- A test that our own tags and the names they are shown under fail does not see the change. -/
theorem Tag.test_shownName {test : String → Bool}
    (h : ∀ name ∈ ["span", "div", inlineMath, blockMath, grid, note], test name = false)
    (tag : String) : test (Tag.shownName tag) = test tag := by
  unfold Tag.shownName
  split
  · subst tag
    rw [h "span" (by simp), h Tag.inlineMath (by simp)]
  split
  · rename_i htag
    rw [h "div" (by simp)]
    rcases htag with rfl | rfl | rfl <;> rw [h _ (by simp)]
  · rfl

theorem Tag.isVoid_shownName (tag : String) : Tag.isVoid (Tag.shownName tag) = Tag.isVoid tag :=
  Tag.test_shownName (by decide) tag

theorem Tag.isHeading_shownName (tag : String) :
    Tag.isHeading (Tag.shownName tag) = Tag.isHeading tag :=
  Tag.test_shownName (by decide) tag

mutual

/-- To write content is to write its events. -/
theorem Content.render_eq (s : Register) (c : Content) :
    (c.render s).1 = Html.write (c.events s.nextId).1 ∧
      (c.render s).2.nextId = (c.events s.nextId).2 := by
  cases c with
  | text t =>
    refine ⟨?_, rfl⟩
    simp [Content.render, Content.events, Html.write, Html.Event.write]
  | fragment children =>
    obtain ⟨hinner, hnext⟩ := Content.renderAll_eq s children
    rw [Content.render, Content.events, hinner, Html.write_intercalate]
    exact ⟨rfl, hnext⟩
  | element tag own children =>
    -- an element takes its number before its children take theirs
    obtain ⟨hinner, hnext⟩ := Content.renderAll_eq (s.opening tag).state children
    rw [s.nextId_opening] at hinner hnext
    rw [Content.render, Content.events]
    by_cases hvoid : Tag.isVoid tag
    · have hown : Attributes.empty.setAll own.entries = ⟨Attribute.merged own.entries⟩ :=
        Attributes.setAll_eq rfl own.entries
      simp [hvoid, s.opening_of_isVoid hvoid, hown, Html.write, Html.Event.write]
    · simp only [s.opening_name, Tag.isVoid_shownName, if_neg hvoid, hinner, ← Html.write_flatten,
        Html.write_element]
      by_cases hheading : Tag.isHeading tag
      · simp only [if_pos hheading, s.setAll_opening_heading hheading]
        exact ⟨trivial, hnext⟩
      · rw [if_neg hheading, ← s.setAll_opening hheading]
        exact ⟨rfl, hnext⟩

theorem Content.renderAll_eq (s : Register) (cs : List Content) :
    (Content.renderAll s cs).1 = (Content.eventsEach s.nextId cs).1.map Html.write ∧
      (Content.renderAll s cs).2.nextId = (Content.eventsEach s.nextId cs).2 := by
  cases cs with
  | nil => exact ⟨rfl, rfl⟩
  | cons c cs =>
    obtain ⟨hfirst, hnext⟩ := Content.render_eq s c
    obtain ⟨hrest, hlast⟩ := Content.renderAll_eq (c.render s).2 cs
    rw [hnext] at hrest hlast
    rw [Content.renderAll, Content.eventsEach]
    exact ⟨by rw [hfirst, hrest, List.map_cons], hlast⟩

end

namespace Html

/-- Events with names for names, in which every tag that is opened is closed again. -/
structure WellFormed (es : List Event) : Prop where
  named : ∀ e ∈ es, e.isNamed
  nested : ∀ names rest, isNestedIn names (es ++ rest) = isNestedIn names rest

namespace WellFormed

theorem nil : WellFormed [] := ⟨by simp, fun _ _ => rfl⟩

theorem single_text (s : String) : WellFormed [.text s] :=
  ⟨by simp [Event.isNamed], fun names rest => isNestedIn_text names s rest⟩

theorem append {es fs : List Event} (hes : WellFormed es) (hfs : WellFormed fs) :
    WellFormed (es ++ fs) := by
  refine ⟨List.forall_mem_append.mpr ⟨hes.named, hfs.named⟩, ?_⟩
  intro names rest
  rw [List.append_assoc, hes.nested, hfs.nested]

theorem flatten {ess : List (List Event)} (h : ∀ es ∈ ess, WellFormed es) :
    WellFormed ess.flatten := by
  induction ess with
  | nil => exact nil
  | cons es ess ih =>
    obtain ⟨hes, hess⟩ := List.forall_mem_cons.mp h
    exact hes.append (ih hess)

theorem intercalate {ess : List (List Event)} (s : String) (h : ∀ es ∈ ess, WellFormed es) :
    WellFormed (List.intercalate [.text s] ess) := by
  induction ess with
  | nil => exact nil
  | cons es ess ih =>
    obtain ⟨hes, hess⟩ := List.forall_mem_cons.mp h
    cases ess with
    | nil => simpa [List.intercalate] using hes
    | cons fs ess =>
      rw [List.intercalate_cons_cons]
      exact (hes.append (single_text s)).append (ih hess)

theorem lone {name : String} {as : List Attribute} (hvoid : Tag.isVoid name)
    (hnamed : (Event.startTag name as).isNamed) : WellFormed [.startTag name as] := by
  refine ⟨by simpa using hnamed, ?_⟩
  intro names rest
  rw [List.singleton_append, isNestedIn, if_pos hvoid]

theorem element {name : String} {as : List Attribute} {es : List Event}
    (hvoid : ¬ Tag.isVoid name) (hnamed : (Event.startTag name as).isNamed) (hes : WellFormed es) :
    WellFormed (.startTag name as :: es ++ [.endTag name]) := by
  refine ⟨?_, ?_⟩
  · have hname : (Event.endTag name).isNamed := (Bool.and_eq_true_iff.mp hnamed).1
    intro e he
    simp only [List.cons_append, List.mem_cons, List.mem_append, List.not_mem_nil, or_false] at he
    rcases he with rfl | he | rfl
    · exact hnamed
    · exact hes.named e he
    · exact hname
  · intro names rest
    rw [List.cons_append, List.cons_append, List.append_assoc, isNestedIn, if_neg hvoid, hes.nested,
      List.singleton_append, isNestedIn, beq_self_eq_true, Bool.true_and]

end WellFormed

end Html

theorem Tag.isName_shownName {tag : String} (h : Html.isName tag) :
    Html.isName (Tag.shownName tag) := by
  unfold Tag.shownName
  split
  · decide
  split
  · decide
  · exact h

theorem Tag.isName_generated {tag content : String} {number : Nat} {a : Attribute}
    (h : a ∈ Tag.generated tag number content) : Html.isName a.name := by
  have hnames : ∀ a ∈ Tag.generated tag number content,
      a.name ∈ ["id", "math", "grid", "note"] := by
    unfold Tag.generated
    repeat' split
    all_goals simp
  have hall : ∀ name ∈ ["id", "math", "grid", "note"], Html.isName name := by decide
  exact hall a.name (hnames a h)

/-- The start tag of an element has names for names. -/
theorem Tag.isNamed_startTag {tag content : String} {number : Nat} {own : List Attribute}
    (htag : Html.isName tag) (hown : ∀ a ∈ own, Html.isName a.name) :
    (Html.Event.startTag (Tag.shownName tag)
      (Attribute.merged (Tag.generated tag number content ++ own))).isNamed := by
  simp only [Html.Event.isNamed, Bool.and_eq_true, List.all_eq_true]
  refine ⟨Tag.isName_shownName htag, ?_⟩
  intro a ha
  rcases List.mem_append.mp (Attribute.mem_of_mem_merged ha) with ha | ha
  · exact Tag.isName_generated ha
  · exact hown a ha

mutual

theorem Content.wellFormed_events (number : Nat) (c : Content) (h : c.isNamed) :
    Html.WellFormed (c.events number).1 := by
  cases c with
  | text s => exact Html.WellFormed.single_text s
  | fragment children =>
    exact Html.WellFormed.intercalate "\n" (Content.wellFormed_eventsEach number children h)
  | element tag own children =>
    simp only [Content.isNamed, Bool.and_eq_true, List.all_eq_true] at h
    obtain ⟨⟨htag, hown⟩, hchildren⟩ := h
    have hinner := Content.wellFormed_eventsEach (if Tag.isNumbered tag then number + 1 else number)
      children hchildren
    rw [Content.events]
    by_cases hvoid : Tag.isVoid tag
    · rw [if_pos hvoid]
      apply Html.WellFormed.lone hvoid
      simp only [Html.Event.isNamed, Bool.and_eq_true, List.all_eq_true]
      exact ⟨htag, fun a ha => hown a (Attribute.mem_of_mem_merged ha)⟩
    · rw [if_neg hvoid]
      apply Html.WellFormed.element
      · rwa [Tag.isVoid_shownName]
      · exact Tag.isNamed_startTag htag hown
      · exact Html.WellFormed.flatten hinner

theorem Content.wellFormed_eventsEach (number : Nat) (cs : List Content)
    (h : Content.areNamed cs) :
    ∀ es ∈ (Content.eventsEach number cs).1, Html.WellFormed es := by
  cases cs with
  | nil => exact fun _ hes => absurd hes List.not_mem_nil
  | cons c cs =>
    obtain ⟨hfirst, hrest⟩ := Bool.and_eq_true_iff.mp h
    exact List.forall_mem_cons.mpr ⟨Content.wellFormed_events number c hfirst,
      Content.wellFormed_eventsEach (c.events number).2 cs hrest⟩

end

/-- What is written of content decodes to the events of the content, and these are well nested. -/
theorem Content.decode_render (s : Register) (c : Content) (h : c.isNamed) :
    Html.decode (c.render s).1 = some (Html.joined (c.events s.nextId).1) ∧
      Html.isNestedIn [] (Html.joined (c.events s.nextId).1) := by
  have hevents := Content.wellFormed_events s.nextId c h
  constructor
  · rw [(Content.render_eq s c).1, ← Html.write_joined]
    exact Html.decode_write (Html.isJoined_joined _) (Html.isNamed_joined hevents.named)
  · have hnested := hevents.nested [] []
    rw [List.append_nil] at hnested
    rw [Html.isNestedIn_joined, hnested]
    rfl

theorem Content.decode_render_heading :
    Content.isNamed (.element "h1" ⟨[⟨"id", some "\"&amp;<"⟩, ⟨"hidden", none⟩]⟩
      [.text "a<b", .text "&lt;", .fragment [.element "br" .empty [.text "c"], .text ">"]]) ∧
    Html.decode (Content.render (.initial : Register)
        (.element "h1" ⟨[⟨"id", some "\"&amp;<"⟩, ⟨"hidden", none⟩]⟩
          [.text "a<b", .text "&lt;", .fragment [.element "br" .empty [.text "c"], .text ">"]])).1 =
      some [.startTag "h1" [⟨"id", some "\"&amp;<"⟩, ⟨"hidden", none⟩], .text "a<b&lt;",
        .startTag "br" [], .text "\n>", .endTag "h1"] := by
  refine ⟨by decide, ?_⟩
  exact (Content.decode_render .initial _ (by decide)).1

end AcademicMarkup

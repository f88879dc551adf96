import AcademicMarkup.Proofs.ElementOrigin
import AcademicMarkup.Proofs.PageAnatomy
import Mathlib.Data.List.Nodup
import Mathlib.Data.List.Range

/-!
The names that mathematics is typeset by. Each piece of writing takes the numbers that follow one
another, gives each to the start tag of one piece of mathematics and adds its name to one of the
lists; no other tag is given such a name, but an author may write one.
-/
namespace AcademicMarkup

namespace Html

/-- The start tag of mathematics in a line. -/
def inlineTag (id : String) : Event :=
  .startTag "span" [⟨"id", some id⟩, ⟨"math", some "inline"⟩]

/-- The start tag of mathematics in a block. -/
def blockTag (id : String) : Event :=
  .startTag "div" [⟨"id", some id⟩, ⟨"math", some "block"⟩]

/-- The name of an event that is such a tag. -/
def Event.idOf? (tag : String → Event) (e : Event) : Option String :=
  e.id?.filter fun id => e = tag id

/-- The name of mathematics. -/
def Event.mathId? (e : Event) : Option String := (e.idOf? inlineTag).or (e.idOf? blockTag)

/-- The author wrote the identifier on this tag. -/
def Event.IdWritten (wrote : String → String → Prop) (id : String) (e : Event) : Prop :=
  ∃ name as, e = .startTag name as ∧ wrote name id

/-- The name that goes with a number. -/
def mathName (number : Nat) : String := "aml-math-" ++ toString number

theorem mathName_injective : Function.Injective mathName := by
  intro m n h
  rw [mathName, mathName, String.append_right_inj] at h
  have hread := congrArg (fun digits : String => Nat.ofDigitChars 10 digits.toList 0) h
  simpa using hread

theorem headingName_ne_mathName (content : String) (number : Nat) :
    headingName content ≠ mathName number := by
  intro h
  have hlist := congrArg String.toList h
  simp [headingName, mathName] at hlist

theorem idOf?_eq_some {tag : String → Event} {e : Event} {id : String} :
    e.idOf? tag = some id ↔ e.id? = some id ∧ e = tag id := by
  simp [Event.idOf?, Option.filter_eq_some_iff]

@[simp] theorem id?_inlineTag (id : String) : (inlineTag id).id? = some id := rfl

@[simp] theorem id?_blockTag (id : String) : (blockTag id).id? = some id := rfl

@[simp] theorem idOf?_inlineTag (id : String) :
    (inlineTag id).idOf? inlineTag = some id ∧ (inlineTag id).idOf? blockTag = none := by
  simp [Event.idOf?, inlineTag, blockTag, Event.id?, Event.value?]

@[simp] theorem idOf?_blockTag (id : String) :
    (blockTag id).idOf? inlineTag = none ∧ (blockTag id).idOf? blockTag = some id := by
  simp [Event.idOf?, inlineTag, blockTag, Event.id?, Event.value?]

end Html

open Html

/-- What a piece of writing does to the register. It takes a run of numbers, and the names of the
mathematics in it are those of the numbers. Any other name was made of a heading or written by the
author, and headings hold nothing but proper elements. -/
structure Records (wrote : String → String → Prop) (s : Register) (es : List Event)
    (s' : Register) : Prop where
  numbers : ∃ count, s'.nextId = s.nextId + count ∧
    es.filterMap Event.mathId? = (List.range' s.nextId count).map mathName
  inlineIds : s'.inlineIds = s.inlineIds ++ es.filterMap (Event.idOf? inlineTag)
  blockIds : s'.blockIds = s.blockIds ++ es.filterMap (Event.idOf? blockTag)
  ids : ∀ e ∈ es, ∀ id, e.id? = some id →
    e.mathId? = some id ∨ (∃ content, id = headingName content) ∨ e.IdWritten wrote id
  headings : ∀ h ∈ s'.headings, h ∈ s.headings ∨
    ∀ e ∈ Content.elementsAll h.children, ProperElement wrote e.1 e.2

namespace Records

variable {wrote : String → String → Prop} {s s₁ s₂ : Register} {es fs : List Event}

/-- Events without mathematics leave the register as it is. -/
theorem quiet (s : Register) (hmath : ∀ e ∈ es, e.mathId? = none)
    (hids : ∀ e ∈ es, ∀ id, e.id? = some id →
      (∃ content, id = headingName content) ∨ e.IdWritten wrote id) :
    Records wrote s es s := by
  have hnone : ∀ e ∈ es, e.idOf? inlineTag = none ∧ e.idOf? blockTag = none := by
    intro e he
    simpa [Event.mathId?] using hmath e he
  refine ⟨⟨0, rfl, ?_⟩, ?_, ?_, ?_, ?_⟩
  · simpa using hmath
  · simpa using fun e he => (hnone e he).1
  · simpa using fun e he => (hnone e he).2
  · exact fun e he id hid => Or.inr (hids e he id hid)
  · exact fun h hh => Or.inl hh

theorem anonymous (s : Register) (h : ∀ e ∈ es, e.id? = none) : Records wrote s es s := by
  apply quiet
  · intro e he
    simp [Event.mathId?, Event.idOf?, h e he]
  · intro e he id hid
    rw [h e he] at hid
    cases hid

theorem append (h : Records wrote s es s₁) (h' : Records wrote s₁ fs s₂) :
    Records wrote s (es ++ fs) s₂ := by
  obtain ⟨m, hm, hes⟩ := h.numbers
  obtain ⟨n, hn, hfs⟩ := h'.numbers
  refine ⟨⟨m + n, by omega, ?_⟩, ?_, ?_, ?_, ?_⟩
  · rw [List.filterMap_append, hes, hfs, hm, ← List.range'_append_1, List.map_append]
  · rw [h'.inlineIds, h.inlineIds, List.filterMap_append, List.append_assoc]
  · rw [h'.blockIds, h.blockIds, List.filterMap_append, List.append_assoc]
  · exact List.forall_mem_append.mpr ⟨h.ids, h'.ids⟩
  · intro heading hheading
    rcases h'.headings heading hheading with hearlier | hproper
    · exact h.headings heading hearlier
    · exact Or.inr hproper

end Records

namespace Tag

theorem eq_of_shownName_eq_span {tag : String} (h : shownName tag = "span") :
    tag = inlineMath ∨ tag = "span" := by
  unfold shownName at h
  split at h
  · exact Or.inl ‹_›
  · split at h
    · simp at h
    · exact Or.inr h

theorem eq_of_shownName_eq_div {tag : String} (h : shownName tag = "div") :
    tag = blockMath ∨ tag = grid ∨ tag = note ∨ tag = "div" := by
  unfold shownName at h
  split at h
  · simp at h
  · split at h
    · tauto
    · tauto

/-- Apart from mathematics only a heading has an identifier of itself. -/
theorem eq_of_mem_generated {tag content : String} {number : Nat} {value : Option String}
    (hnumbered : ¬ isNumbered tag) (h : ⟨"id", value⟩ ∈ generated tag number content) :
    value = some (headingName content) := by
  simp only [isNumbered, Bool.or_eq_true, beq_iff_eq, not_or] at hnumbered
  rw [generated, if_neg hnumbered.1, if_neg hnumbered.2] at h
  split at h
  · simp at h
  split at h
  · simp at h
  split at h
  · simpa using h
  · simp at h

end Tag

theorem Register.state_opening {size : Nat} (s : Register size) {tag : String}
    (h : ¬ Tag.isNumbered tag) : (s.opening tag).state = s := by
  simp only [Tag.isNumbered, Bool.or_eq_true, not_or] at h
  unfold Register.opening
  rw [if_neg h.1, if_neg h.2]
  split
  · rfl
  split <;> rfl

/-- The first entry keeps its name. -/
theorem Attribute.merged_ne {a b : Attribute} {as bs : List Attribute} (h : a.name ≠ b.name) :
    Attribute.merged (a :: as) ≠ b :: bs := by
  intro heq
  have hfirst := (List.cons.inj heq).1
  exact h (by rw [← hfirst, Attribute.name_getD_last?])

namespace Html

theorem elementTag_inlineMath (number : Nat) (content : List Event) :
    elementTag Tag.inlineMath .empty number content = inlineTag (mathName number) := by
  rw [elementTag, Attributes.empty, List.append_nil, Tag.merged_generated]
  rfl

theorem elementTag_blockMath (number : Nat) (content : List Event) :
    elementTag Tag.blockMath .empty number content = blockTag (mathName number) := by
  rw [elementTag, Attributes.empty, List.append_nil, Tag.merged_generated]
  rfl

section ElementTag

variable {wrote : String → String → Prop} {tag : String} {own : Attributes}

/-- A tag that is no mathematics does not look like it. -/
theorem mathId?_elementTag (hproper : ProperElement wrote tag own) (h : ¬ Tag.isNumbered tag)
    (number : Nat) (content : List Event) : (elementTag tag own number content).mathId? = none := by
  simp only [Tag.isNumbered, Bool.or_eq_true, beq_iff_eq, not_or] at h
  have hinline : (elementTag tag own number content).idOf? inlineTag = none := by
    apply Option.eq_none_iff_forall_ne_some.mpr
    intro id hid
    have hname := (Event.startTag.inj (idOf?_eq_some.mp hid).2).1
    rcases Tag.eq_of_shownName_eq_span hname with rfl | rfl
    · exact h.1 rfl
    · exact hproper.tag_ne.1 rfl
  have hblock : (elementTag tag own number content).idOf? blockTag = none := by
    apply Option.eq_none_iff_forall_ne_some.mpr
    intro id hid
    obtain ⟨hname, has⟩ := Event.startTag.inj (idOf?_eq_some.mp hid).2
    -- a grid or a note is shown under the same name, but its mark comes first
    rcases Tag.eq_of_shownName_eq_div hname with rfl | rfl | rfl | rfl
    · exact h.2 rfl
    · exact Attribute.merged_ne (by simp) has
    · exact Attribute.merged_ne (by simp) has
    · exact hproper.tag_ne.2 rfl
  simp [Event.mathId?, hinline, hblock]

theorem id?_elementTag (hproper : ProperElement wrote tag own) (h : ¬ Tag.isNumbered tag)
    {number : Nat} {content : List Event} {id : String}
    (hid : (elementTag tag own number content).id? = some id) :
    (∃ content, id = headingName content) ∨
      (elementTag tag own number content).IdWritten wrote id := by
  have hmem := Attribute.mem_of_mem_merged (mem_of_id? hid)
  rcases List.mem_append.mp hmem with hmem | hmem
  · exact Or.inl ⟨_, Option.some.inj (Tag.eq_of_mem_generated h hmem)⟩
  · exact Or.inr ⟨_, _, rfl, hproper.wrote_id id hmem⟩

end ElementTag

end Html

namespace Records

variable {wrote : String → String → Prop} {tag : String} {own : Attributes}

/-- Mathematics takes one number and adds its name to one of the lists. -/
theorem math {s s' : Register} {e : Event} (hnext : s'.nextId = s.nextId + 1)
    (hheadings : s'.headings = s.headings) (hid : e.id? = some (mathName s.nextId))
    (hmath : e.mathId? = some (mathName s.nextId))
    (hinline : s'.inlineIds = s.inlineIds ++ [e].filterMap (Event.idOf? inlineTag))
    (hblock : s'.blockIds = s.blockIds ++ [e].filterMap (Event.idOf? blockTag)) :
    Records wrote s [e] s' := by
  refine ⟨⟨1, hnext, by simp [hmath]⟩, hinline, hblock, ?_, ?_⟩
  · intro e' he' id hid'
    obtain rfl := List.mem_singleton.mp he'
    exact Or.inl (by rw [hmath, ← hid, hid'])
  · rw [hheadings]
    exact fun h hh => Or.inl hh

/-- What the start tag of an element does. -/
theorem startTag (s : Register) (hproper : ProperElement wrote tag own) (content : List Event) :
    Records wrote s [elementTag tag own s.nextId content] (s.opening tag).state := by
  by_cases hinline : tag = Tag.inlineMath
  · subst hinline
    have hstate : (s.opening Tag.inlineMath).state = s.advance.addInline (mathName s.nextId) := rfl
    rw [hproper.own_eq (Or.inl rfl), elementTag_inlineMath, hstate]
    refine math rfl rfl (id?_inlineTag _) ?_ ?_ ?_
    · simp [Event.mathId?]
    · simp [Register.addInline, Register.advance]
    · simp [Register.addInline, Register.advance]
  by_cases hblock : tag = Tag.blockMath
  · subst hblock
    have hstate : (s.opening Tag.blockMath).state = s.advance.addBlock (mathName s.nextId) := rfl
    rw [hproper.own_eq (Or.inl rfl), elementTag_blockMath, hstate]
    refine math rfl rfl (id?_blockTag _) ?_ ?_ ?_
    · simp [Event.mathId?]
    · simp [Register.addBlock, Register.advance]
    · simp [Register.addBlock, Register.advance]
  have hnumbered : ¬ Tag.isNumbered tag := by simp [Tag.isNumbered, hinline, hblock]
  rw [s.state_opening hnumbered]
  apply quiet
  · simpa using mathId?_elementTag hproper hnumbered s.nextId content
  · simpa using fun id => id?_elementTag hproper hnumbered

/-- What the end tag of an element does. -/
theorem endTag (s : Register) {children : List Content}
    (hchildren : ∀ e ∈ Content.elementsAll children, ProperElement wrote e.1 e.2)
    (content : List Event) :
    Records wrote s [.endTag (Tag.shownName tag)] (s.closing tag own children content) := by
  have hend : Records wrote s [.endTag (Tag.shownName tag)] s :=
    anonymous s (by simp [Event.id?, Event.value?])
  unfold Register.closing
  split
  · refine { hend with headings := ?_ }
    intro h hh
    rcases List.mem_append.mp hh with hh | hh
    · exact Or.inl hh
    · obtain rfl := List.mem_singleton.mp hh
      exact Or.inr hchildren
  · exact hend

theorem cases : RenderCases (ProperElement wrote) (Records wrote) where
  nil s := anonymous s (by simp)
  text s t := anonymous s (by simp [Event.id?, Event.value?])
  append := append
  void s tag own hvoid hproper := by
    have hstart := startTag s hproper []
    rwa [elementTag_of_isVoid hvoid, s.opening_of_isVoid hvoid] at hstart
  element s tag own children es s₁ _ hproper hchildren hes :=
    ((startTag s hproper es).append hes).append (endTag s₁ hchildren es)

end Records

theorem Heading.proper_entry {wrote : String → String → Prop} {h : Heading}
    (hchildren : ∀ e ∈ Content.elementsAll h.children, ProperElement wrote e.1 e.2) :
    ∀ e ∈ h.entry.elements, ProperElement wrote e.1 e.2 := by
  have hitem : ProperElement wrote "li" ⟨[⟨"toc", none⟩, ⟨"entry", some h.tag⟩]⟩ :=
    ⟨by decide, fun h => absurd h (by decide), by simp⟩
  have hlink : ProperElement wrote "a" ⟨[⟨"href", some ("#" ++ h.id)⟩]⟩ :=
    ⟨by decide, fun h => absurd h (by decide), by simp⟩
  have hinner : ∀ e ∈ Content.elementsAll
      [.element "a" ⟨[⟨"href", some ("#" ++ h.id)⟩]⟩ h.children], ProperElement wrote e.1 e.2 := by
    rw [Content.elementsAll, Content.elementsAll, List.append_nil]
    exact List.forall_mem_cons.mpr ⟨hlink, hchildren⟩
  exact List.forall_mem_cons.mpr ⟨hitem, hinner⟩

namespace Compilation

/-- The author of the source wrote this identifier on an element with this tag. -/
def SetsId (source tag id : String) : Prop :=
  Document.SetsId (Document.normal (Document.ofSource source)) tag id

/-- The events of the page, the table of contents first. -/
def pageEvents (options : Options) (source : String) : List Event :=
  contentsEvents options source ++ bodyEvents source

theorem records_body (source : String) :
    Records (SetsId source) .initial (bodyEvents source) (bodyRegister source) :=
  Records.cases.content (content source) .initial (Document.proper_denote _ _)

theorem proper_entries (source : String) :
    ∀ e ∈ Content.elementsAll (entries source), ProperElement (SetsId source) e.1 e.2 := by
  rw [Content.elementsAll_eq, List.forall_mem_flatMap, entries, List.forall_mem_map]
  intro h hh
  rcases (records_body source).headings h hh with hearlier | hproper
  · exact absurd hearlier List.not_mem_nil
  · exact Heading.proper_entry hproper

theorem records_contents (options : Options) (source : String) :
    Records (SetsId source) (bodyRegister source) (contentsEvents options source)
      (pageRegister options source) := by
  have hlist := (Records.cases.contents (entries source) (bodyRegister source)
    (proper_entries source)).2
  unfold contentsEvents pageRegister
  split
  · refine ((Records.anonymous _ ?_).append hlist).append (Records.anonymous _ ?_)
    · simp [Event.id?, Event.value?]
    · simp [Event.id?, Event.value?]
  · exact Records.anonymous _ (by simp)

theorem records_page (options : Options) (source : String) :
    Records (SetsId source) .initial (bodyEvents source ++ contentsEvents options source)
      (pageRegister options source) :=
  (records_body source).append (records_contents options source)

end Compilation

namespace Text

theorem quoteChar_of_isDigit {c : Char} (h : c.isDigit) : quoteChar c = [c] := by
  have hdigits : ∀ n : Fin 10, quoteChar (Char.ofNat (48 + n)) = [Char.ofNat (48 + n)] := by decide
  have hbounds : 48 ≤ c.toNat ∧ c.toNat ≤ 57 := by
    simpa [Char.isDigit, UInt32.le_iff_toNat_le] using h
  have hc := hdigits ⟨c.toNat - 48, by omega⟩
  rwa [Nat.add_sub_cancel' hbounds.1, Char.ofNat_toNat] at hc

theorem quote_mathName (number : Nat) :
    quote (mathName number) = "\"" ++ mathName number ++ "\"" := by
  have hletters : "aml-math-".toList.flatMap quoteChar = "aml-math-".toList := by decide
  have hdigits : (Nat.toDigits 10 number).flatMap quoteChar = Nat.toDigits 10 number := by
    have hsingle : ∀ c ∈ Nat.toDigits 10 number, quoteChar c = [c] := by
      intro c hc
      exact quoteChar_of_isDigit (Nat.isDigit_of_mem_toDigits (by decide) (by decide) hc)
    rw [List.flatMap_congr hsingle, List.flatMap_singleton']
  apply String.toList_injective
  rw [mathName, quote, String.toList_append, List.flatMap_append, hletters]
  simp [hdigits]

end Text

namespace Page

/-- Texts as they stand in quotes. -/
def quoted (ids : List String) : String :=
  String.intercalate "," (ids.map fun id => "\"" ++ id ++ "\"")

theorem listed_eq_quoted {ids : List String} (h : ∀ id ∈ ids, ∃ number, id = mathName number) :
    listed ids = quoted ids := by
  unfold listed quoted
  congr 1
  apply List.map_congr_left
  intro id hid
  obtain ⟨number, rfl⟩ := h id hid
  exact Text.quote_mathName number

end Page

/-- Among these events one tag goes by this name. Any other tag with the name is one on which the
author wrote it. -/
structure Html.Names (wrote : String → String → Prop) (id : String) (tag : Event)
    (es : List Event) : Prop where
  count_tag : es.count tag = 1
  eq_or_written : ∀ e ∈ es, e.id? = some id → e = tag ∨ e.IdWritten wrote id
  count_id : (∀ name, ¬ wrote name id) → es.countP (fun e => e.id? = some id) = 1

namespace Records

variable {wrote : String → String → Prop} {s : Register} {es : List Event}

theorem nodup_mathIds (h : Records wrote .initial es s) : (es.filterMap Event.mathId?).Nodup := by
  obtain ⟨count, -, hids⟩ := h.numbers
  rw [hids]
  exact List.Nodup.map mathName_injective List.nodup_range'

theorem mathName_of_mem (h : Records wrote .initial es s) {e : Event} (he : e ∈ es) {id : String}
    (hid : e.mathId? = some id) : ∃ number, id = mathName number := by
  obtain ⟨count, -, hids⟩ := h.numbers
  have hmem : id ∈ es.filterMap Event.mathId? := List.mem_filterMap.mpr ⟨e, he, hid⟩
  rw [hids] at hmem
  obtain ⟨number, -, rfl⟩ := List.mem_map.mp hmem
  exact ⟨number, rfl⟩

/-- In any order of the events, a tag of mathematics is the only one with its name that the author
did not write. -/
theorem names (h : Records wrote .initial es s) {fs : List Event} (hperm : es.Perm fs)
    {id : String} {tag : Event} (htag : tag ∈ es) (hid : tag.id? = some id)
    (hmath : tag.mathId? = some id) : Html.Names wrote id tag fs := by
  obtain ⟨number, hnumber⟩ := h.mathName_of_mem htag hmath
  have hrest : fs.Perm (tag :: fs.erase tag) := List.perm_cons_erase (hperm.mem_iff.mp htag)
  have hnodup := ((hperm.trans hrest).filterMap Event.mathId?).nodup_iff.mp h.nodup_mathIds
  rw [List.filterMap_cons_some hmath, List.nodup_cons] at hnodup
  have hother : ∀ e ∈ fs.erase tag, e.mathId? ≠ some id :=
    fun e he heq => hnodup.1 (List.mem_filterMap.mpr ⟨e, he, heq⟩)
  have hwritten : ∀ e ∈ fs.erase tag, e.id? = some id → e.IdWritten wrote id := by
    intro e he heq
    have hmem : e ∈ es := hperm.mem_iff.mpr (List.mem_of_mem_erase he)
    rcases h.ids e hmem id heq with hmath | ⟨content, hcontent⟩ | hwritten
    · exact absurd hmath (hother e he)
    · exact absurd (hcontent.symm.trans hnumber) (headingName_ne_mathName content number)
    · exact hwritten
  refine ⟨?_, ?_, ?_⟩
  · rw [hrest.count_eq, List.count_cons_self,
      List.count_eq_zero_of_not_mem fun hmem => hother tag hmem hmath]
  · intro e he heq
    rcases List.mem_cons.mp (hrest.mem_iff.mp he) with rfl | he
    · exact Or.inl rfl
    · exact Or.inr (hwritten e he heq)
  · intro hnot
    have hnone : (fs.erase tag).countP (fun e => e.id? = some id) = 0 := by
      rw [List.countP_eq_zero]
      intro e he heq
      obtain ⟨name, -, -, hwrote⟩ := hwritten e he (by simpa using heq)
      exact hnot name hwrote
    rw [hrest.countP_eq, List.countP_cons_of_pos (by simpa using hid), hnone]

theorem names_of_mem (h : Records wrote .initial es s) {fs : List Event} (hperm : es.Perm fs)
    {tag : String → Event} (htag : ∀ id, (tag id).mathId? = some id) {id : String}
    (hid : id ∈ es.filterMap (Event.idOf? tag)) : Html.Names wrote id (tag id) fs := by
  obtain ⟨e, he, heq⟩ := List.mem_filterMap.mp hid
  obtain ⟨hname, rfl⟩ := idOf?_eq_some.mp heq
  exact h.names hperm he hname (htag id)

theorem mathName_of_mem_idOf? (h : Records wrote .initial es s) {tag : String → Event}
    (htag : ∀ id, (tag id).mathId? = some id) :
    ∀ id ∈ es.filterMap (Event.idOf? tag), ∃ number, id = mathName number := by
  intro id hid
  obtain ⟨e, he, heq⟩ := List.mem_filterMap.mp hid
  obtain ⟨-, rfl⟩ := idOf?_eq_some.mp heq
  exact h.mathName_of_mem he (htag id)

end Records

/-- The names that the script of a page typesets are those of mathematics. Each is given to one
tag, and another tag has it only if the author wrote it there. -/
theorem Compilation.typeset_ids_name_math (options : Options) (source : String) :
    (ofSource options source).page =
      Page.opening options ++ write (contentsEvents options source) ++ "\n" ++
        write (bodyEvents source) ++
        Page.closing (Page.quoted (pageRegister options source).blockIds)
          (Page.quoted (pageRegister options source).inlineIds) ∧
    (∀ id ∈ (pageRegister options source).blockIds,
      Html.Names (SetsId source) id (blockTag id) (pageEvents options source)) ∧
    ∀ id ∈ (pageRegister options source).inlineIds,
      Html.Names (SetsId source) id (inlineTag id) (pageEvents options source) := by
  have hpage := records_page options source
  have hperm : (bodyEvents source ++ contentsEvents options source).Perm
      (pageEvents options source) := List.perm_append_comm
  have hblock : ∀ id, (blockTag id).mathId? = some id := by simp [Event.mathId?]
  have hinline : ∀ id, (inlineTag id).mathId? = some id := by simp [Event.mathId?]
  have hblockIds := hpage.blockIds
  have hinlineIds := hpage.inlineIds
  rw [Register.initial, List.nil_append] at hblockIds hinlineIds
  refine ⟨?_, ?_, ?_⟩
  · rw [page_eq, Page.listed_eq_quoted, Page.listed_eq_quoted]
    · rw [hinlineIds]
      exact hpage.mathName_of_mem_idOf? hinline
    · rw [hblockIds]
      exact hpage.mathName_of_mem_idOf? hblock
  · intro id hid
    rw [hblockIds] at hid
    exact hpage.names_of_mem hperm hblock hid
  · intro id hid
    rw [hinlineIds] at hid
    exact hpage.names_of_mem hperm hinline hid

/-- A formula in a heading is typeset twice, in the body and in the table of contents. -/
theorem Compilation.typeset_ids_name_math_heading :
    ("aml-math-1" ∈ (pageRegister .default "\\h1\x7b\\\x7bx\x7d\x7d\\math\x7by\x7d").blockIds ∧
      Html.Names (SetsId "\\h1\x7b\\\x7bx\x7d\x7d\\math\x7by\x7d") "aml-math-1"
        (blockTag "aml-math-1")
        (pageEvents .default "\\h1\x7b\\\x7bx\x7d\x7d\\math\x7by\x7d")) ∧
    ("aml-math-2" ∈ (pageRegister .default "\\h1\x7b\\\x7bx\x7d\x7d\\math\x7by\x7d").inlineIds ∧
      Html.Names (SetsId "\\h1\x7b\\\x7bx\x7d\x7d\\math\x7by\x7d") "aml-math-2"
        (inlineTag "aml-math-2")
        (pageEvents .default "\\h1\x7b\\\x7bx\x7d\x7d\\math\x7by\x7d")) := by
  have hblock : "aml-math-1" ∈
      (pageRegister .default "\\h1\x7b\\\x7bx\x7d\x7d\\math\x7by\x7d").blockIds := by
    decide +kernel
  have hinline : "aml-math-2" ∈
      (pageRegister .default "\\h1\x7b\\\x7bx\x7d\x7d\\math\x7by\x7d").inlineIds := by
    decide +kernel
  obtain ⟨-, hblocks, hinlines⟩ :=
    Compilation.typeset_ids_name_math .default "\\h1\x7b\\\x7bx\x7d\x7d\\math\x7by\x7d"
  exact ⟨⟨hblock, hblocks _ hblock⟩, ⟨hinline, hinlines _ hinline⟩⟩

/-- The author has taken a name that is then given to a formula. -/
theorem Compilation.typeset_id_names_two :
    (pageRegister .default "\\p[id=aml-math-0]\x7bx\x7d\\\x7by\x7d").inlineIds = ["aml-math-0"] ∧
    (ofSource .default "\\p[id=aml-math-0]\x7bx\x7d\\\x7by\x7d").body =
      "<p id=\"aml-math-0\">x</p>\n<span id=\"aml-math-0\" math=\"inline\">y</span>" ∧
    (pageEvents .default "\\p[id=aml-math-0]\x7bx\x7d\\\x7by\x7d").countP
      (fun e => e.id? = some "aml-math-0") = 2 := by
  decide +kernel

end AcademicMarkup

import AcademicMarkup.Proofs.ContentsOrder
import AcademicMarkup.Proofs.TypesetIds
import Mathlib.Data.List.Forall2

/-!
What the name of a heading depends on. It is made of the written content of the heading, and
mathematics is written with the number that it gets on the page. So headings with the same children
get the same name if equally many pieces of mathematics come before them, or if they hold none; in
any other case what their names are made of is not the same.
-/
namespace AcademicMarkup

open Html

mutual

/-- How many numbers content takes when it is written. -/
def Content.mathematics : Content → Nat
  | .text _ => 0
  | .fragment children => Content.mathematicsAll children
  | .element tag _ children =>
    if Tag.isVoid tag then 0
    else (if Tag.isNumbered tag then 1 else 0) + Content.mathematicsAll children

def Content.mathematicsAll : List Content → Nat
  | [] => 0
  | c :: cs => c.mathematics + Content.mathematicsAll cs

end

mutual

/-- Whether two contents are the same can be computed. -/
def Content.decEq : (c d : Content) → Decidable (c = d)
  | .text s, .text t => decidable_of_iff (s = t) (by rw [Content.text.injEq])
  | .element tag own cs, .element tag' own' ds =>
    have := Content.decEqAll cs ds
    decidable_of_iff (tag = tag' ∧ own = own' ∧ cs = ds) (by rw [Content.element.injEq])
  | .fragment cs, .fragment ds =>
    have := Content.decEqAll cs ds
    decidable_of_iff (cs = ds) (by rw [Content.fragment.injEq])
  | .text _, .element _ _ _ => isFalse Content.noConfusion
  | .text _, .fragment _ => isFalse Content.noConfusion
  | .element _ _ _, .text _ => isFalse Content.noConfusion
  | .element _ _ _, .fragment _ => isFalse Content.noConfusion
  | .fragment _, .text _ => isFalse Content.noConfusion
  | .fragment _, .element _ _ _ => isFalse Content.noConfusion

def Content.decEqAll : (cs ds : List Content) → Decidable (cs = ds)
  | [], [] => isTrue rfl
  | c :: cs, d :: ds =>
    have := Content.decEq c d
    have := Content.decEqAll cs ds
    decidable_of_iff (c = d ∧ cs = ds) (by rw [List.cons.injEq])
  | [], d :: ds => isFalse (List.cons_ne_nil d ds).symm
  | c :: cs, [] => isFalse (List.cons_ne_nil c cs)

end

instance Content.decidableEq : DecidableEq Content := Content.decEq

/-- A heading with the number of pieces of mathematics that were written before it. -/
structure HeadingPlace where
  tag : String
  children : List Content
  before : Nat
deriving DecidableEq

namespace HeadingPlace

/-- What the name of the heading is made of. -/
def content (p : HeadingPlace) : String := write (Content.eventsEach p.before p.children).1.flatten

def name (p : HeadingPlace) : String := headingName p.content

/-- The tag and the identifier that the heading is written with. -/
def target (p : HeadingPlace) : String × Option String := (p.tag, some p.name)

end HeadingPlace

mutual

/-- The headings of content in the order of their start tags, where this number of pieces of
mathematics was written before. -/
def Content.headingPlaces (before : Nat) : Content → List HeadingPlace
  | .text _ => []
  | .fragment children => Content.headingPlacesAll before children
  | .element tag _ children =>
    if Tag.isVoid tag then []
    else (if Tag.isHeading tag then [⟨tag, children, before⟩] else []) ++
      Content.headingPlacesAll (if Tag.isNumbered tag then before + 1 else before) children

def Content.headingPlacesAll (before : Nat) : List Content → List HeadingPlace
  | [] => []
  | c :: cs => c.headingPlaces before ++ Content.headingPlacesAll (before + c.mathematics) cs

end

mutual

theorem Content.next_events (number : Nat) (c : Content) :
    (c.events number).2 = number + c.mathematics := by
  cases c with
  | text t => rfl
  | fragment children => exact Content.next_eventsEach number children
  | element tag own children =>
    have hnext := fun number => Content.next_eventsEach number children
    rw [Content.events, Content.mathematics]
    split
    · rfl
    · split
      · rw [hnext, Nat.add_assoc]
      · rw [hnext, Nat.zero_add]

theorem Content.next_eventsEach (number : Nat) (cs : List Content) :
    (Content.eventsEach number cs).2 = number + Content.mathematicsAll cs := by
  cases cs with
  | nil => rfl
  | cons c cs =>
    rw [Content.eventsEach, Content.mathematicsAll, ← Nat.add_assoc, ← Content.next_events number c]
    exact Content.next_eventsEach (c.events number).2 cs

end

/-- The events of an element are those of its children between its tags. -/
theorem Content.events_element {tag : String} (hvoid : ¬ Tag.isVoid tag) (own : Attributes)
    (children : List Content) (number : Nat) :
    ((Content.element tag own children).events number).1 =
      elementTag tag own number (Content.eventsEach
          (if Tag.isNumbered tag then number + 1 else number) children).1.flatten ::
        (Content.eventsEach
          (if Tag.isNumbered tag then number + 1 else number) children).1.flatten ++
        [.endTag (Tag.shownName tag)] := by
  rw [Content.events, if_neg hvoid]
  rfl

/-! The headings that are written. -/

theorem Html.headings_intercalate (ess : List (List Event)) :
    headings (List.intercalate [.text "\n"] ess) = headings ess.flatten := by
  induction ess with
  | nil => rfl
  | cons es ess ih =>
    cases ess with
    | nil => simp [List.intercalate]
    | cons fs ess =>
      have hnewline : headings [.text "\n"] = [] := rfl
      rw [List.intercalate_cons_cons, headings_append, headings_append, hnewline, ih,
        List.append_nil, ← headings_append]
      rfl

mutual

theorem Content.headings_events (number : Nat) (c : Content)
    (h : ∀ e ∈ c.elements, BareHeading e.1 e.2) :
    headings (c.events number).1 = (c.headingPlaces number).map HeadingPlace.target := by
  cases c with
  | text t => rfl
  | fragment children =>
    rw [Content.events, headings_intercalate, Content.headingPlaces]
    exact Content.headings_eventsEach number children h
  | element tag own children =>
    obtain ⟨hbare, hchildren⟩ := List.forall_mem_cons.mp h
    have hinner := fun number => Content.headings_eventsEach number children hchildren
    by_cases hvoid : Tag.isVoid tag
    · simp [Content.events, Content.headingPlaces, hvoid, headings, Event.heading?,
        Tag.not_isHeading_of_isVoid hvoid]
    · rw [Content.events_element hvoid, headings_element, headings_elementTag number _ hbare,
        hinner, Content.headingPlaces, if_neg hvoid, List.map_append]
      by_cases hheading : Tag.isHeading tag
      · rw [if_pos hheading, if_pos hheading,
          if_neg (Tag.not_isNumbered_of_isHeading hheading)]
        rfl
      · rw [if_neg hheading, if_neg hheading]
        rfl

theorem Content.headings_eventsEach (number : Nat) (cs : List Content)
    (h : ∀ e ∈ Content.elementsAll cs, BareHeading e.1 e.2) :
    headings (Content.eventsEach number cs).1.flatten =
      (Content.headingPlacesAll number cs).map HeadingPlace.target := by
  cases cs with
  | nil => rfl
  | cons c cs =>
    obtain ⟨hc, hcs⟩ := List.forall_mem_append.mp h
    rw [Content.eventsEach, Content.headingPlacesAll, List.flatten_cons, headings_append,
      List.map_append, Content.headings_events number c hc, Content.next_events]
    congr 1
    exact Content.headings_eventsEach (number + c.mathematics) cs hcs

end

/-! Content that is written from two numbers on. -/

/-- Mathematics and headings have no attributes of their own. -/
def BareElement (tag : String) (own : Attributes) : Prop :=
  Tag.isNumbered tag ∨ Tag.isHeading tag → own = .empty

namespace Html

/-- Two events are the same, or are tags that differ in a number in their identifiers only. -/
inductive Event.Alike : Event → Event → Prop
  | same (e : Event) : Alike e e
  | numbered (name start : String) (m n : Nat) (as : List Attribute) :
      Alike (.startTag name (⟨"id", some (start ++ toString m)⟩ :: as))
        (.startTag name (⟨"id", some (start ++ toString n)⟩ :: as))

theorem encodeValue_append (s t : String) :
    encodeValue (s ++ t) = encodeValue s ++ encodeValue t := by
  simp [encodeValue, String.ofList_append]

theorem ne_of_mem_toDigits {n : Nat} {c : Char} (h : c ∈ Nat.toDigits 10 n) :
    c ≠ '&' ∧ c ≠ '"' := by
  have hdigit := Nat.isDigit_of_mem_toDigits (by decide) (by decide) h
  constructor <;>
  · rintro rfl
    exact absurd hdigit (by decide)

theorem encodeValue_toString (n : Nat) : encodeValue (toString n) = toString n := by
  have hsingle : ∀ c ∈ Nat.toDigits 10 n, encodeValueChar c = [c] := by
    intro c hc
    obtain ⟨hamp, hquote⟩ := ne_of_mem_toDigits hc
    simp [encodeValueChar, hamp, hquote]
  apply String.toList_injective
  simp [encodeValue, List.flatMap_congr hsingle]

/-- A number ends where a quote stands. -/
theorem toString_quote_inj {m n : Nat} {x y : String}
    (h : toString m ++ ("\"" ++ x) = toString n ++ ("\"" ++ y)) : m = n ∧ x = y := by
  have hdigits : ∀ (n : Nat) (x : String),
      (toString n ++ ("\"" ++ x)).toList.takeWhile (· != '"') = Nat.toDigits 10 n := by
    intro n x
    have hall : ∀ c ∈ Nat.toDigits 10 n, (c != '"') = true :=
      fun c hc => bne_iff_ne.mpr (ne_of_mem_toDigits hc).2
    simp [List.takeWhile_append_of_pos hall]
  have hread : Nat.toDigits 10 m = Nat.toDigits 10 n := by rw [← hdigits m x, h, hdigits n y]
  obtain rfl : m = n := by
    have hvalue := congrArg (fun digits => Nat.ofDigitChars 10 digits 0) hread
    simpa using hvalue
  rw [String.append_right_inj, String.append_right_inj] at h
  exact ⟨rfl, h⟩

theorem Event.Alike.eq_of_write_append {e f : Event} (h : e.Alike f) {x y : String}
    (heq : e.write ++ x = f.write ++ y) : e = f ∧ x = y := by
  cases h with
  | same e => exact ⟨rfl, String.append_right_inj e.write |>.mp heq⟩
  | numbered name start m n as =>
    have hwrite : ∀ (k : Nat) (x : String),
        (Event.startTag name (⟨"id", some (start ++ toString k)⟩ :: as)).write ++ x =
          "<" ++ name ++ " id=\"" ++ encodeValue start ++
            (toString k ++ ("\"" ++ (String.join (as.map writeAttribute) ++ ">" ++ x))) := by
      intro k x
      simp only [Event.write, Html.startTag, writeAttributes, List.map_cons, String.join_cons,
        writeAttribute, encodeValue_append, encodeValue_toString, String.append_assoc]
      rfl
    rw [hwrite, hwrite, String.append_right_inj] at heq
    obtain ⟨rfl, hrest⟩ := toString_quote_inj heq
    exact ⟨rfl, String.append_right_inj _ |>.mp hrest⟩

/-- Lists of events that are alike are the same if they are written the same. -/
theorem eq_of_write_eq {es fs : List Event} (h : List.Forall₂ Event.Alike es fs)
    (heq : write es = write fs) : es = fs := by
  induction h with
  | nil => rfl
  | cons hfirst _ ih =>
    rw [write_cons, write_cons] at heq
    obtain ⟨rfl, hrest⟩ := hfirst.eq_of_write_append heq
    rw [ih hrest]

theorem alike_intercalate {ess fss : List (List Event)}
    (h : List.Forall₂ (List.Forall₂ Event.Alike) ess fss) :
    List.Forall₂ Event.Alike (List.intercalate [.text "\n"] ess)
      (List.intercalate [.text "\n"] fss) := by
  induction h with
  | nil => exact List.Forall₂.nil
  | cons hfirst hrest ih =>
    cases hrest with
    | nil => simpa [List.intercalate] using hfirst
    | cons hsecond hrest =>
      rw [List.intercalate_cons_cons, List.intercalate_cons_cons]
      refine List.rel_append (List.rel_append hfirst ?_) ih
      exact List.Forall₂.cons (Event.Alike.same _) List.Forall₂.nil

/-- Only the tags of mathematics depend on a number, and only those of headings on the content. -/
theorem elementTag_congr {tag : String} (hnumbered : ¬ Tag.isNumbered tag) (own : Attributes)
    (m n : Nat) {es fs : List Event} (h : Tag.isHeading tag → es = fs) :
    elementTag tag own m es = elementTag tag own n fs := by
  simp only [Tag.isNumbered, Bool.or_eq_true, beq_iff_eq, not_or] at hnumbered
  by_cases hheading : Tag.isHeading tag
  · rw [h hheading, elementTag, elementTag, Tag.generated_of_isHeading hheading,
      Tag.generated_of_isHeading hheading]
  · simp [elementTag, Tag.generated, hnumbered.1, hnumbered.2, hheading]

theorem alike_elementTag {tag : String} {own : Attributes} (hown : BareElement tag own) (m n : Nat)
    (es fs : List Event) : (elementTag tag own m es).Alike (elementTag tag own n fs) := by
  by_cases hnumbered : Tag.isNumbered tag
  · rw [hown (Or.inl hnumbered)]
    simp only [Tag.isNumbered, Bool.or_eq_true, beq_iff_eq] at hnumbered
    rcases hnumbered with rfl | rfl
    · rw [elementTag_inlineMath, elementTag_inlineMath]
      exact Event.Alike.numbered _ _ m n _
    · rw [elementTag_blockMath, elementTag_blockMath]
      exact Event.Alike.numbered _ _ m n _
  by_cases hheading : Tag.isHeading tag
  · have htag : ∀ n es, elementTag tag own n es =
        .startTag (Tag.shownName tag) [⟨"id", some (headingName (write es))⟩] := by
      intro n es
      rw [hown (Or.inr hheading), elementTag, Attributes.empty, List.append_nil,
        Tag.merged_generated, Tag.generated_of_isHeading hheading]
    rw [htag, htag]
    exact Event.Alike.numbered _ "UID" _ _ []
  · rw [elementTag_congr hnumbered own m n fun h => absurd h hheading]
    exact Event.Alike.same _

end Html

mutual

/-- Content that is written from two numbers on is alike, and the same if it takes none. -/
theorem Content.alike_events (m n : Nat) (c : Content) (h : ∀ e ∈ c.elements, BareElement e.1 e.2) :
    List.Forall₂ Event.Alike (c.events m).1 (c.events n).1 ∧
      (c.mathematics = 0 → (c.events m).1 = (c.events n).1) := by
  cases c with
  | text t => exact ⟨List.Forall₂.cons (Event.Alike.same _) List.Forall₂.nil, fun _ => rfl⟩
  | fragment children =>
    obtain ⟨halike, hsame⟩ := Content.alike_eventsEach m n children h
    refine ⟨alike_intercalate halike, fun hnone => ?_⟩
    rw [Content.events, Content.events, hsame hnone]
  | element tag own children =>
    obtain ⟨hown, hchildren⟩ := List.forall_mem_cons.mp h
    have hinner := fun m n => Content.alike_eventsEach m n children hchildren
    by_cases hvoid : Tag.isVoid tag
    · rw [Content.events, Content.events, if_pos hvoid, if_pos hvoid]
      exact ⟨List.Forall₂.cons (Event.Alike.same _) List.Forall₂.nil, fun _ => rfl⟩
    · rw [Content.events_element hvoid, Content.events_element hvoid]
      constructor
      · refine List.Forall₂.cons (alike_elementTag hown m n _ _) ?_
        refine List.rel_append (List.rel_flatten (hinner _ _).1) ?_
        exact List.Forall₂.cons (Event.Alike.same _) List.Forall₂.nil
      · intro hnone
        rw [Content.mathematics, if_neg hvoid, Nat.add_eq_zero_iff] at hnone
        have hnumbered : ¬ Tag.isNumbered tag := fun h => by simp [h] at hnone
        have hsame := (hinner m n).2 hnone.2
        rw [if_neg hnumbered, if_neg hnumbered, hsame,
          elementTag_congr hnumbered own m n fun _ => rfl]

theorem Content.alike_eventsEach (m n : Nat) (cs : List Content)
    (h : ∀ e ∈ Content.elementsAll cs, BareElement e.1 e.2) :
    List.Forall₂ (List.Forall₂ Event.Alike) (Content.eventsEach m cs).1
        (Content.eventsEach n cs).1 ∧
      (Content.mathematicsAll cs = 0 →
        (Content.eventsEach m cs).1 = (Content.eventsEach n cs).1) := by
  cases cs with
  | nil => exact ⟨List.Forall₂.nil, fun _ => rfl⟩
  | cons c cs =>
    obtain ⟨hc, hcs⟩ := List.forall_mem_append.mp h
    obtain ⟨hfirst, hfirst_same⟩ := Content.alike_events m n c hc
    obtain ⟨hrest, hrest_same⟩ :=
      Content.alike_eventsEach (c.events m).2 (c.events n).2 cs hcs
    refine ⟨List.Forall₂.cons hfirst hrest, fun hnone => ?_⟩
    obtain ⟨hnone, hnones⟩ := Nat.add_eq_zero_iff.mp hnone
    rw [Content.eventsEach, Content.eventsEach, hfirst_same hnone, hrest_same hnones]

end

section Proper

variable {wrote : String → String → Prop} {cs : List Content}

theorem Content.mathIds_eventsEach (number : Nat)
    (h : ∀ e ∈ Content.elementsAll cs, ProperElement wrote e.1 e.2) :
    (Content.eventsEach number cs).1.flatten.filterMap Event.mathId? =
      (List.range' number (Content.mathematicsAll cs)).map mathName := by
  let s : Register := ⟨number, [], [], []⟩
  obtain ⟨count, hnext, hids⟩ := (Records.cases.contents cs s h).1.numbers
  rw [(Content.renderAll_eq s cs).2, Content.next_eventsEach, Nat.add_left_cancel_iff] at hnext
  rw [hnext]
  exact hids

/-- Content is written the same from two numbers on exactly if they are equal or it takes none. -/
theorem Content.write_eventsEach_eq_iff (m n : Nat)
    (h : ∀ e ∈ Content.elementsAll cs, ProperElement wrote e.1 e.2) :
    write (Content.eventsEach m cs).1.flatten = write (Content.eventsEach n cs).1.flatten ↔
      m = n ∨ Content.mathematicsAll cs = 0 := by
  obtain ⟨halike, hsame⟩ := Content.alike_eventsEach m n cs fun e he => (h e he).own_eq
  constructor
  · intro heq
    have hevents := eq_of_write_eq (List.rel_flatten halike) heq
    have hids := congrArg (List.filterMap Event.mathId?) hevents
    rw [Content.mathIds_eventsEach m h, Content.mathIds_eventsEach n h,
      List.map_inj_right fun _ _ hname => mathName_injective hname] at hids
    cases hcount : Content.mathematicsAll cs with
    | zero => exact Or.inr rfl
    | succ count =>
      rw [hcount, List.range'_succ, List.range'_succ] at hids
      exact Or.inl (List.cons.inj hids).1
  · rintro (rfl | hnone)
    · rfl
    · rw [hsame hnone]

end Proper

mutual

/-- What stands in a heading stands in the content around it. -/
theorem Content.elements_of_mem_headingPlaces {p : HeadingPlace} {before : Nat} {c : Content}
    (h : p ∈ c.headingPlaces before) : Content.elementsAll p.children ⊆ c.elements := by
  cases c with
  | text t => exact absurd h List.not_mem_nil
  | fragment children => exact Content.elementsAll_of_mem_headingPlaces h
  | element tag own children =>
    rw [Content.headingPlaces] at h
    split at h
    · exact absurd h List.not_mem_nil
    · rcases List.mem_append.mp h with h | h
      · split at h
        · obtain rfl := List.mem_singleton.mp h
          exact List.subset_cons_self _ _
        · exact absurd h List.not_mem_nil
      · exact List.subset_cons_of_subset _ (Content.elementsAll_of_mem_headingPlaces h)

theorem Content.elementsAll_of_mem_headingPlaces {p : HeadingPlace} {before : Nat}
    {cs : List Content} (h : p ∈ Content.headingPlacesAll before cs) :
    Content.elementsAll p.children ⊆ Content.elementsAll cs := by
  cases cs with
  | nil => exact absurd h List.not_mem_nil
  | cons c cs =>
    rw [Content.headingPlacesAll] at h
    rcases List.mem_append.mp h with h | h
    · exact List.subset_append_of_subset_left _ (Content.elements_of_mem_headingPlaces h)
    · exact List.subset_append_of_subset_right _ (Content.elementsAll_of_mem_headingPlaces h)

end

namespace Compilation

/-- The headings of the body. -/
def bodyHeadings (source : String) : List HeadingPlace := (content source).headingPlaces 0

/-- The headings that are written again inside the entries of the table of contents, after all
mathematics of the body. -/
def entryHeadings (options : Options) (source : String) : List HeadingPlace :=
  if options.contents then
    Content.headingPlacesAll (bodyRegister source).nextId (entries source)
  else []

def headingPlaces (options : Options) (source : String) : List HeadingPlace :=
  entryHeadings options source ++ bodyHeadings source

theorem headings_bodyEvents (source : String) :
    headings (bodyEvents source) = (bodyHeadings source).map HeadingPlace.target := by
  apply Content.headings_events
  intro e he hheading
  exact (Document.proper_denote _ _ e he).own_eq (Or.inr hheading)

theorem headings_contentsEvents (options : Options) (source : String) :
    headings (contentsEvents options source) =
      (if options.contents then [("h1", none)] else []) ++
        (entryHeadings options source).map HeadingPlace.target := by
  have hentries := Content.headings_eventsEach (bodyRegister source).nextId (entries source)
    fun e he hheading => (proper_entries source e he).own_eq (Or.inr hheading)
  unfold contentsEvents entryHeadings
  split
  · rw [Page.contentsEvents, headings_append, headings_append, headings_intercalate, entryEvents,
      hentries]
    have hend : headings [.endTag "ul", .text "\n", .endTag "div"] = [] := rfl
    rw [hend, List.append_nil]
    rfl
  · rfl

theorem proper_headingPlaces {options : Options} {source : String} {p : HeadingPlace}
    (h : p ∈ headingPlaces options source) :
    ∀ e ∈ Content.elementsAll p.children, ProperElement (SetsId source) e.1 e.2 := by
  intro e he
  rcases List.mem_append.mp h with h | h
  · unfold entryHeadings at h
    split at h
    · exact proper_entries source e (Content.elementsAll_of_mem_headingPlaces h he)
    · exact absurd h List.not_mem_nil
  · exact Document.proper_denote _ _ e (Content.elements_of_mem_headingPlaces h he)

/-- The headings of a page and what their names are made of. Two headings with the same children, on
one page or on two, have the same written content exactly if equally many pieces of mathematics were
written before them or they hold none, and then they have the same name. -/
theorem heading_names_agree (options options' : Options) (source source' : String) :
    (∃ script, (ofSource options source).page =
      Page.opening options ++ write (contentsEvents options source) ++ "\n" ++
        write (bodyEvents source) ++ script) ∧
    headings (contentsEvents options source) =
      (if options.contents then [("h1", none)] else []) ++
        (entryHeadings options source).map HeadingPlace.target ∧
    headings (bodyEvents source) = (bodyHeadings source).map HeadingPlace.target ∧
    ∀ p ∈ headingPlaces options source, ∀ q ∈ headingPlaces options' source',
      p.children = q.children →
      (p.content = q.content ↔ p.before = q.before ∨ Content.mathematicsAll p.children = 0) ∧
      (p.before = q.before ∨ Content.mathematicsAll p.children = 0 → p.name = q.name) := by
  refine ⟨⟨_, page_eq options source⟩, headings_contentsEvents options source,
    headings_bodyEvents source, fun p hp q _ hchildren => ?_⟩
  have hcontent : p.content = q.content ↔
      p.before = q.before ∨ Content.mathematicsAll p.children = 0 := by
    rw [HeadingPlace.content, HeadingPlace.content, ← hchildren]
    exact Content.write_eventsEach_eq_iff _ _ (proper_headingPlaces hp)
  exact ⟨hcontent, fun h => congrArg headingName (hcontent.mpr h)⟩

/-- Two headings with a formula in them, each after one other formula. -/
theorem heading_names_agree_formula :
    ∃ p ∈ headingPlaces .default "\\p\x7b\\\x7bx\x7d\x7d\\h1\x7b\\\x7by\x7d a\x7d",
      ∃ q ∈ headingPlaces .default "\\\x7bz\x7d\\h2\x7b\\\x7by\x7d a\x7d",
        p.tag = "h1" ∧ q.tag = "h2" ∧ p.children = q.children ∧
        Content.mathematicsAll p.children = 1 ∧ p.before = 1 ∧ q.before = 1 ∧ p.name = q.name := by
  have hp : (⟨"h1", [.element Tag.inlineMath .empty [.text "y"], .text " ", .text "a"], 1⟩ :
      HeadingPlace) ∈
        headingPlaces .default "\\p\x7b\\\x7bx\x7d\x7d\\h1\x7b\\\x7by\x7d a\x7d" := by
    decide +kernel
  have hq : (⟨"h2", [.element Tag.inlineMath .empty [.text "y"], .text " ", .text "a"], 1⟩ :
      HeadingPlace) ∈
        headingPlaces .default "\\\x7bz\x7d\\h2\x7b\\\x7by\x7d a\x7d" := by
    decide +kernel
  obtain ⟨-, -, -, hnames⟩ := heading_names_agree .default .default
    "\\p\x7b\\\x7bx\x7d\x7d\\h1\x7b\\\x7by\x7d a\x7d"
    "\\\x7bz\x7d\\h2\x7b\\\x7by\x7d a\x7d"
  exact ⟨_, hp, _, hq, rfl, rfl, rfl, rfl, rfl, rfl, (hnames _ hp _ hq rfl).2 (Or.inl rfl)⟩

/-- The same heading twice, with two names, because the formula in it has two numbers. -/
theorem heading_names_differ :
    bodyHeadings "\\h1\x7b\\\x7bx\x7d\x7d\\h1\x7b\\\x7bx\x7d\x7d" =
      [⟨"h1", [.element Tag.inlineMath .empty [.text "x"]], 0⟩,
        ⟨"h1", [.element Tag.inlineMath .empty [.text "x"]], 1⟩] ∧
    (ofSource .default "\\h1\x7b\\\x7bx\x7d\x7d\\h1\x7b\\\x7bx\x7d\x7d").body =
    "<h1 id=\"UID17550045074287946175\"><span id=\"aml-math-0\" math=\"inline\">x</span></h1>\n" ++
    "<h1 id=\"UID14816706469370273598\"><span id=\"aml-math-1\" math=\"inline\">x</span></h1>" := by
  decide +kernel

end Compilation

end AcademicMarkup

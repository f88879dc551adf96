import AcademicMarkup.Token.Lexer
import Mathlib.Data.List.SplitBy

/-!
Spans one after the other: without gaps, so that they fill a range of offsets, or merely in order.
The tokens of a source text fill the range from zero to its length in bytes, and their texts joined
are the source text again.
-/
namespace AcademicMarkup

namespace Span

/-- Spans that fill the range between two offsets, each from where the one before it ends. -/
def Contiguous : Nat → List Span → Nat → Prop
  | start, [], stop => start = stop
  | start, s :: rest, stop => s.start = start ∧ s.start ≤ s.stop ∧ Contiguous s.stop rest stop

/-- Spans between two offsets, none of which begins before the one before it ends. -/
def Ordered : Nat → List Span → Nat → Prop
  | start, [], stop => start ≤ stop
  | start, s :: rest, stop => start ≤ s.start ∧ s.start ≤ s.stop ∧ Ordered s.stop rest stop

instance decidableContiguous : (start : Nat) → (spans : List Span) → (stop : Nat) →
    Decidable (Contiguous start spans stop)
  | start, [], stop => inferInstanceAs (Decidable (start = stop))
  | _, s :: rest, stop =>
    haveI := decidableContiguous s.stop rest stop
    inferInstanceAs (Decidable (_ ∧ _ ∧ _))

variable {start mid stop : Nat} {spans more : List Span} {s : Span}

theorem contiguous_append :
    Contiguous start (spans ++ more) stop ↔
      ∃ mid, Contiguous start spans mid ∧ Contiguous mid more stop := by
  induction spans generalizing start with
  | nil => simp [Contiguous]
  | cons s rest ih =>
    simp only [List.cons_append, Contiguous, ih]
    constructor
    · rintro ⟨hstart, hle, mid, hrest, hmore⟩
      exact ⟨mid, ⟨hstart, hle, hrest⟩, hmore⟩
    · rintro ⟨mid, ⟨hstart, hle, hrest⟩, hmore⟩
      exact ⟨hstart, hle, mid, hrest, hmore⟩

theorem Contiguous.append (h : Contiguous start spans mid) (hmore : Contiguous mid more stop) :
    Contiguous start (spans ++ more) stop :=
  contiguous_append.mpr ⟨mid, h, hmore⟩

theorem Contiguous.ordered (h : Contiguous start spans stop) : Ordered start spans stop := by
  induction spans generalizing start with
  | nil => exact Nat.le_of_eq h
  | cons s rest ih =>
    obtain ⟨hstart, hle, hrest⟩ := h
    exact ⟨Nat.le_of_eq hstart.symm, hle, ih hrest⟩

theorem Ordered.le (h : Ordered start spans stop) : start ≤ stop := by
  induction spans generalizing start with
  | nil => exact h
  | cons s rest ih =>
    obtain ⟨hstart, hle, hrest⟩ := h
    exact Nat.le_trans hstart (Nat.le_trans hle (ih hrest))

theorem Contiguous.le (h : Contiguous start spans stop) : start ≤ stop := h.ordered.le

theorem Ordered.of_le {start' : Nat} (h : Ordered start spans stop) (hle : start' ≤ start) :
    Ordered start' spans stop := by
  cases spans with
  | nil => exact Nat.le_trans hle h
  | cons s rest =>
    obtain ⟨hstart, hs, hrest⟩ := h
    exact ⟨Nat.le_trans hle hstart, hs, hrest⟩

theorem ordered_append :
    Ordered start (spans ++ more) stop ↔
      ∃ mid, Ordered start spans mid ∧ Ordered mid more stop := by
  induction spans generalizing start with
  | nil =>
    refine ⟨fun h => ⟨start, Nat.le_refl start, h⟩, ?_⟩
    rintro ⟨mid, hle, h⟩
    exact h.of_le hle
  | cons s rest ih =>
    simp only [List.cons_append, Ordered, ih]
    constructor
    · rintro ⟨hstart, hle, mid, hrest, hmore⟩
      exact ⟨mid, ⟨hstart, hle, hrest⟩, hmore⟩
    · rintro ⟨mid, ⟨hstart, hle, hrest⟩, hmore⟩
      exact ⟨hstart, hle, mid, hrest, hmore⟩

/-- A span may be replaced by spans within it. -/
theorem Ordered.refine {inner : List Span} (h : Ordered start (s :: more) stop)
    (hs : Ordered s.start inner s.stop) : Ordered start (inner ++ more) stop :=
  ordered_append.mpr ⟨s.stop, hs.of_le h.1, h.2.2⟩

/-- The spans of each part may be replaced by others that keep to the same range. -/
theorem Ordered.flatMap {α : Type} {as : List α} {f g : α → List Span}
    (h : Ordered start (as.flatMap f) stop)
    (hfg : ∀ a ∈ as, ∀ {start stop : Nat}, Ordered start (f a) stop → Ordered start (g a) stop) :
    Ordered start (as.flatMap g) stop := by
  induction as generalizing start with
  | nil => exact h
  | cons a as ih =>
    rw [List.flatMap_cons] at h ⊢
    obtain ⟨mid, hfirst, hrest⟩ := ordered_append.mp h
    obtain ⟨hself, hothers⟩ := List.forall_mem_cons.mp hfg
    exact ordered_append.mpr ⟨mid, hself hfirst, ih hrest hothers⟩

/-- The range ends where the last span does. -/
theorem Contiguous.stop_eq (h : Contiguous start spans stop) :
    stop = (spans.getLast?.map Span.stop).getD start := by
  induction spans generalizing start with
  | nil => exact h.symm
  | cons s rest ih =>
    obtain ⟨-, -, hrest⟩ := h
    rw [List.getLast?_cons, Option.map_some, Option.getD_some, ih hrest]
    cases rest.getLast? <;> rfl

/-- Spans that fill the range up to an offset begin at one place only. -/
theorem Contiguous.start_unique (h : Contiguous start spans stop) (h' : Contiguous mid spans stop) :
    start = mid := by
  cases spans with
  | nil => exact Eq.trans h h'.symm
  | cons s rest => exact h.1.symm.trans h'.1

/-- Each span lies in the range. -/
theorem Ordered.bounds (h : Ordered start spans stop) (hs : s ∈ spans) :
    start ≤ s.start ∧ s.stop ≤ stop := by
  induction spans generalizing start with
  | nil => exact absurd hs List.not_mem_nil
  | cons first rest ih =>
    obtain ⟨hstart, hle, hrest⟩ := h
    rcases List.mem_cons.mp hs with rfl | hs
    · exact ⟨hstart, hrest.le⟩
    · obtain ⟨hfirst, hlast⟩ := ih hrest hs
      exact ⟨by omega, hlast⟩

theorem Ordered.pairwise (h : Ordered start spans stop) :
    spans.Pairwise fun s t => s.stop ≤ t.start := by
  induction spans generalizing start with
  | nil => exact List.Pairwise.nil
  | cons s rest ih =>
    obtain ⟨-, -, hrest⟩ := h
    exact List.Pairwise.cons (fun t ht => (hrest.bounds ht).1) (ih hrest)

/-- Spans may be left out without disturbing the order. -/
theorem Ordered.sublist (hsub : more.Sublist spans) (h : Ordered start spans stop) :
    Ordered start more stop := by
  induction hsub generalizing start with
  | slnil => exact h
  | cons s _ ih =>
    obtain ⟨hstart, hle, hrest⟩ := h
    exact (ih hrest).of_le (Nat.le_trans hstart hle)
  | cons_cons s _ ih =>
    obtain ⟨hstart, hle, hrest⟩ := h
    exact ⟨hstart, hle, ih hrest⟩

end Span

theorem Position.offset_after (p : Position) (text : List Char) :
    (p.after text).offset = p.offset + (String.ofList text).utf8ByteSize := by
  induction text generalizing p with
  | nil => simp [Position.after]
  | cons c cs ih =>
    have hadvance : (p.advance c).offset = p.offset + c.utf8Size := by
      unfold Position.advance
      split <;> rfl
    have hcons : (p.after (c :: cs)) = (p.advance c).after cs := rfl
    rw [hcons, ih, hadvance, String.ofList_cons, String.utf8ByteSize_append,
      String.utf8ByteSize_singleton, Nat.add_assoc]

theorem Position.after_append (p : Position) (text more : List Char) :
    p.after (text ++ more) = (p.after text).after more :=
  List.foldl_append

namespace Token

theorem flatten_lexemes (source : List Char) : (lexemes source).flatten = source :=
  List.flatten_splitBy joins source

theorem layOut_append (p : Position) (texts more : List (List Char)) :
    layOut p (texts ++ more) = layOut p texts ++ layOut (p.after texts.flatten) more := by
  induction texts generalizing p with
  | nil => rfl
  | cons text texts ih =>
    rw [List.cons_append, layOut, layOut, ih, List.flatten_cons, Position.after_append,
      List.cons_append]

theorem contiguous_layOut (p : Position) (texts : List (List Char)) :
    Span.Contiguous p.offset ((layOut p texts).map span)
      (p.offset + (String.ofList texts.flatten).utf8ByteSize) := by
  induction texts generalizing p with
  | nil => simp [layOut, Span.Contiguous]
  | cons text rest ih =>
    have hoffset := p.offset_after text
    refine ⟨rfl, ?_, ?_⟩
    · simp only [Position.spanTo, hoffset]
      omega
    · have hrest := ih (p.after text)
      rw [hoffset, Nat.add_assoc, ← String.utf8ByteSize_append, ← String.ofList_append] at hrest
      simpa only [Position.spanTo, hoffset, List.flatten_cons] using hrest

/-- The tokens of a source text fill it. -/
theorem contiguous_ofSource (source : String) :
    Span.Contiguous 0 ((ofSource source).map span) source.utf8ByteSize := by
  have h := contiguous_layOut .origin (lexemes source.toList)
  rw [flatten_lexemes, String.ofList_toList] at h
  rwa [show Position.origin.offset = 0 from rfl, Nat.zero_add] at h

theorem start_lt_stop_of_mem_layOut {p : Position} {texts : List (List Char)}
    (htexts : ∀ text ∈ texts, text ≠ []) {t : Token} (ht : t ∈ layOut p texts) :
    t.span.start < t.span.stop := by
  induction texts generalizing p with
  | nil => exact absurd ht List.not_mem_nil
  | cons text rest ih =>
    obtain ⟨hfirst, hrest⟩ := List.forall_mem_cons.mp htexts
    rcases List.mem_cons.mp ht with rfl | ht
    · have hpos : 0 < (String.ofList text).utf8ByteSize := by
        rw [Nat.pos_iff_ne_zero, ne_eq, String.utf8ByteSize_eq_zero_iff]
        simpa using hfirst
      simp only [Position.spanTo, p.offset_after text]
      omega
    · exact ih hrest ht

/-- No token of a source text stands in it twice. -/
theorem nodup_ofSource (source : String) : (ofSource source).Nodup := by
  have hlexemes : ∀ text ∈ lexemes source.toList, text ≠ [] :=
    fun text htext => List.ne_nil_of_mem_splitBy htext
  have horder := List.pairwise_map.mp (contiguous_ofSource source).ordered.pairwise
  refine horder.imp_of_mem ?_
  rintro t u ht - hle rfl
  have hlt := start_lt_stop_of_mem_layOut hlexemes ht
  omega

theorem map_text_layOut (p : Position) (texts : List (List Char)) :
    (layOut p texts).map Token.text = texts.map String.ofList := by
  induction texts generalizing p with
  | nil => rfl
  | cons text texts ih => rw [layOut, List.map_cons, List.map_cons, ih]

theorem joinedText_layOut (p : Position) (texts : List (List Char)) :
    joinedText (layOut p texts) = String.ofList texts.flatten := by
  induction texts generalizing p with
  | nil => rfl
  | cons text rest ih =>
    have hrest := ih (p.after text)
    simp only [joinedText] at hrest
    simp only [joinedText, layOut, List.map_cons, String.join_cons, hrest, List.flatten_cons,
      String.ofList_append]

/-- No character is lost between tokens. -/
theorem joinedText_ofSource (source : String) : joinedText (ofSource source) = source := by
  rw [ofSource, joinedText_layOut, flatten_lexemes, String.ofList_toList]

end Token

end AcademicMarkup

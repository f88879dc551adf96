import AcademicMarkup.Proofs.Contiguity

/-!
Spans that mark tokens. A mark reaches from the first of some tokens to the last of them, and marks
are set from left to right on tokens that are not marked yet. In a source text such marks do not
overlap, each covers a run of tokens, and it carries the place at which the run begins.
-/
namespace AcademicMarkup

namespace Token

/-- From the start of the first token to the end of the last. -/
def hull? : List Token → Option Span
  | [] => none
  | t :: ts => some (t.span.through (ts.getLastD t).span)

theorem hull?_eq_some {ts : List Token} {s : Span} (h : hull? ts = some s) :
    ∃ first ∈ ts, ∃ last ∈ ts, s = first.span.through last.span := by
  cases ts with
  | nil => simp [hull?] at h
  | cons t ts =>
    obtain rfl := by simpa [hull?, -List.getLastD_eq_getLast?] using h
    exact ⟨t, List.mem_cons_self, _, List.getLastD_mem_cons, rfl⟩

/-- The first and the last of some tokens delimit a run of all tokens with the same hull. -/
theorem exists_run_of_sublist {part ts : List Token} {s : Span} (hsub : part.Sublist ts)
    (h : hull? part = some s) :
    ∃ before run after, ts = before ++ run ++ after ∧ hull? run = some s := by
  cases part with
  | nil => simp [hull?] at h
  | cons t part =>
    obtain ⟨front, back, rfl, ht, hpart⟩ := List.cons_sublist_iff.mp hsub
    obtain ⟨before, mid, rfl⟩ := List.mem_iff_append.mp ht
    rcases List.mem_cons.mp (List.getLastD_mem_cons (l := part) (a := t)) with hlast | hlast
    · refine ⟨before, [t], mid ++ back, by simp, ?_⟩
      rw [← h, hull?, hull?, hlast]
      rfl
    · obtain ⟨inner, after, hback⟩ := List.mem_iff_append.mp (hpart.subset hlast)
      refine ⟨before, t :: (mid ++ inner ++ [part.getLastD t]), after, by simp [hback], ?_⟩
      rw [← h, hull?, hull?]
      simp

end Token

/-- The spans mark parts of the tokens from left to right. -/
def Marks (ts : List Token) (spans : List Span) : Prop :=
  ∃ parts : List (List Token), parts.flatten.Sublist ts ∧ parts.map Token.hull? = spans.map some

namespace Marks

variable {ts ts' : List Token} {spans spans' : List Span}

theorem nil (ts : List Token) : Marks ts [] := ⟨[], List.nil_sublist _, rfl⟩

theorem single {s : Span} (h : Token.hull? ts = some s) : Marks ts [s] :=
  ⟨[ts], by simp, by simp [h]⟩

theorem sublist (h : Marks ts spans) (hsub : ts.Sublist ts') : Marks ts' spans := by
  obtain ⟨parts, hparts, hspans⟩ := h
  exact ⟨parts, hparts.trans hsub, hspans⟩

theorem append (h : Marks ts spans) (h' : Marks ts' spans') :
    Marks (ts ++ ts') (spans ++ spans') := by
  obtain ⟨parts, hparts, hspans⟩ := h
  obtain ⟨parts', hparts', hspans'⟩ := h'
  refine ⟨parts ++ parts', ?_, ?_⟩
  · rw [List.flatten_append]
    exact hparts.append hparts'
  · rw [List.map_append, List.map_append, hspans, hspans']

/-- Marks on tokens in order are in order. -/
theorem pairwise (h : Marks ts spans)
    (hts : ts.Pairwise fun t u => t.span.stop ≤ u.span.start) :
    spans.Pairwise fun s s' => s.stop ≤ s'.start := by
  obtain ⟨parts, hparts, hspans⟩ := h
  have hparts := (List.pairwise_flatten.mp (hts.sublist hparts)).2
  have hhulls : (parts.map Token.hull?).Pairwise
      fun x y => ∀ s ∈ x, ∀ s' ∈ y, s.stop ≤ s'.start := by
    refine List.pairwise_map.mpr (hparts.imp ?_)
    intro part part' hlt s hs s' hs'
    obtain ⟨_, -, last, hlast, rfl⟩ := Token.hull?_eq_some hs
    obtain ⟨first, hfirst, _, -, rfl⟩ := Token.hull?_eq_some hs'
    exact hlt last hlast first hfirst
  rw [hspans] at hhulls
  exact (List.pairwise_map.mp hhulls).imp fun hlt => hlt _ rfl _ rfl

/-- Each mark is the hull of a run of the tokens. -/
theorem run_of_mem (h : Marks ts spans) {s : Span} (hs : s ∈ spans) :
    ∃ before run after, ts = before ++ run ++ after ∧ Token.hull? run = some s := by
  obtain ⟨parts, hparts, hspans⟩ := h
  have hmem : some s ∈ parts.map Token.hull? := by
    rw [hspans]
    exact List.mem_map_of_mem hs
  obtain ⟨part, hpart, hhull⟩ := List.mem_map.mp hmem
  exact Token.exists_run_of_sublist ((List.sublist_flatten_of_mem hpart).trans hparts) hhull

end Marks

/-! The places of tokens that are laid out. -/

namespace Token

theorem length_layOut (p : Position) (texts : List (List Char)) :
    (layOut p texts).length = texts.length := by
  induction texts generalizing p with
  | nil => rfl
  | cons text texts ih => rw [layOut, List.length_cons, ih, List.length_cons]

/-- Where tokens that are laid out are cut, their texts are. -/
theorem layOut_eq_append {p : Position} {texts : List (List Char)} {before after : List Token}
    (h : layOut p texts = before ++ after) :
    ∃ front back, texts = front ++ back ∧ before = layOut p front ∧
      after = layOut (p.after front.flatten) back := by
  have hlength : before.length ≤ texts.length := by
    rw [← length_layOut p texts, h, List.length_append]
    omega
  have hcut : texts = texts.take before.length ++ texts.drop before.length :=
    (List.take_append_drop _ _).symm
  rw [hcut, layOut_append] at h
  obtain ⟨hbefore, hafter⟩ := List.append_inj h (by rw [length_layOut, List.length_take]; omega)
  exact ⟨_, _, hcut, hbefore.symm, hafter.symm⟩

theorem stop_getLastD_layOut (p : Position) (texts : List (List Char)) (t : Token)
    (ht : t.span.stop = p.offset) :
    ((layOut p texts).getLastD t).span.stop = (p.after texts.flatten).offset := by
  induction texts generalizing p t with
  | nil => exact ht
  | cons text texts ih =>
    rw [layOut, List.getLastD_cons, ih _ _ rfl, List.flatten_cons, Position.after_append]

theorem hull?_layOut (p : Position) {texts : List (List Char)} (h : texts ≠ []) :
    hull? (layOut p texts) = some (p.spanTo (p.after texts.flatten)) := by
  cases texts with
  | nil => exact absurd rfl h
  | cons text texts =>
    have hstop := stop_getLastD_layOut (p.after text) texts
      ⟨String.ofList text, p.spanTo (p.after text)⟩ rfl
    rw [layOut, hull?, Span.through, hstop, List.flatten_cons, Position.after_append]
    rfl

end Token

/-- The span of a run of tokens of a source text, with the place where the run begins. -/
structure Span.MarksRun (source : String) (s : Span) : Prop where
  nonempty : s.start < s.stop
  within : s.stop ≤ source.utf8ByteSize
  run : ∃ before run after : List Token, Token.ofSource source = before ++ run ++ after ∧
    run ≠ [] ∧
    s = (Position.origin.after (Token.joinedText before).toList).spanTo
      (Position.origin.after (Token.joinedText (before ++ run)).toList)

theorem Token.start_lt_stop_of_mem_ofSource {source : String} {t : Token}
    (ht : t ∈ Token.ofSource source) : t.span.start < t.span.stop :=
  start_lt_stop_of_mem_layOut (fun _ htext => List.ne_nil_of_mem_splitBy htext) ht

theorem Token.pairwise_ofSource (source : String) :
    (Token.ofSource source).Pairwise fun t u => t.span.stop ≤ u.span.start :=
  List.pairwise_map.mp (contiguous_ofSource source).ordered.pairwise

/-- A hull of tokens in order is not empty if none of the tokens is. -/
theorem Token.start_lt_stop_of_hull? {run : List Token} {s : Span} (h : hull? run = some s)
    (hpos : ∀ t ∈ run, t.span.start < t.span.stop)
    (horder : run.Pairwise fun t u => t.span.stop ≤ u.span.start) : s.start < s.stop := by
  cases run with
  | nil => simp [hull?] at h
  | cons t ts =>
    have heq : t.span.through (ts.getLastD t).span = s := Option.some.inj h
    have hfirst := hpos t List.mem_cons_self
    subst heq
    rcases List.mem_cons.mp (List.getLastD_mem_cons (l := ts) (a := t)) with hlast | hlast
    · rw [hlast]
      exact hfirst
    · have hle := (List.pairwise_cons.mp horder).1 _ hlast
      have hlt := hpos _ (List.mem_cons_of_mem t hlast)
      simp only [Span.through]
      omega

theorem Marks.marksRun {source : String} {spans : List Span}
    (h : Marks (Token.ofSource source) spans) : ∀ s ∈ spans, s.MarksRun source := by
  intro s hs
  obtain ⟨before, run, after, hts, hhull⟩ := h.run_of_mem hs
  have hmem : ∀ t ∈ run, t ∈ Token.ofSource source := by
    intro t ht
    simp [hts, ht]
  have horder : run.Pairwise fun t u => t.span.stop ≤ u.span.start := by
    refine (Token.pairwise_ofSource source).sublist ?_
    rw [hts, List.append_assoc]
    exact (List.sublist_append_left run after).trans (List.sublist_append_right before _)
  constructor
  · exact Token.start_lt_stop_of_hull? hhull
      (fun t ht => Token.start_lt_stop_of_mem_ofSource (hmem t ht)) horder
  · obtain ⟨_, -, last, hlast, rfl⟩ := Token.hull?_eq_some hhull
    have hbounds := (Token.contiguous_ofSource source).ordered.bounds
      (List.mem_map_of_mem (hmem last hlast))
    exact hbounds.2
  · have hrun : run ≠ [] := by
      rintro rfl
      simp [Token.hull?] at hhull
    refine ⟨before, run, after, hts, hrun, ?_⟩
    -- the run is laid out from the place after the texts before it
    have hlaid : Token.layOut .origin (Token.lexemes source.toList) = before ++ (run ++ after) := by
      rw [← List.append_assoc]
      exact hts
    obtain ⟨front, back, -, hbefore, hback⟩ := Token.layOut_eq_append hlaid
    obtain ⟨texts, _, -, htexts, -⟩ := Token.layOut_eq_append hback.symm
    have hne : texts ≠ [] := by
      rintro rfl
      exact hrun htexts
    rw [htexts, Token.hull?_layOut _ hne, Option.some.injEq] at hhull
    rw [← hhull, htexts, hbefore, ← Token.layOut_append, Token.joinedText_layOut,
      Token.joinedText_layOut, String.toList_ofList, String.toList_ofList, List.flatten_append,
      Position.after_append]

end AcademicMarkup

import AcademicMarkup.Proofs.CharClasses
import AcademicMarkup.Proofs.MarkedSpans

/-!
The longest tokens. There is only one way to cut a source text into lexemes so that no neighbours
may be merged, and the tokens of the text are this cut. A scanner that goes through the text once,
and looks for each character at the whole of the last token, finds the same tokens.
-/
namespace AcademicMarkup

namespace Token

def isWordChar (c : Char) : Bool := Text.isAlphanumeric c || ['!', ',', ';', '.', '$'].contains c

def isRelational (c : Char) : Bool := ['=', '<', '>'].contains c

/-- The texts that may be one token. -/
inductive Lexeme : List Char → Prop
  | word {cs : List Char} : cs ≠ [] → (∀ c ∈ cs, isWordChar c) → Lexeme cs
  | escaped {cs : List Char} : (∀ c ∈ cs, isWordChar c) → Lexeme ('\\' :: cs)
  | blank {cs : List Char} : cs ≠ [] → (∀ c ∈ cs, Text.isBlank c) → Lexeme cs
  | relational {cs : List Char} : cs ≠ [] → (∀ c ∈ cs, isRelational c) → Lexeme cs
  | symbol {c : Char} : c ≠ '\\' → ¬ isWordChar c → ¬ Text.isBlank c → ¬ isRelational c → Lexeme [c]

/-- The second text may not be merged into the first: it begins with a backslash or a symbol, or
with a character whose class does not include all of the first text. -/
def Apart (x y : List Char) : Prop :=
  ∀ d ∈ y.head?, d = '\\' ∨ CharClass.ofChar d = .symbol ∨
    ∃ c ∈ x, ¬ (CharClass.ofChar d).includes c

/-- A text cut into lexemes, none of which may be merged into the one before it. -/
structure Cut (source : List Char) (texts : List (List Char)) : Prop where
  flatten : texts.flatten = source
  lexeme : ∀ text ∈ texts, Lexeme text
  apart : texts.IsChain Apart

/-! A lexeme is a chain of characters, each of which goes on with the one before it. -/

section Classes

open CharClass

theorem isWordChar_iff {c : Char} : isWordChar c ↔ ofChar c = .word := by
  have hincludes : CharClass.word.includes c ↔ isWordChar c ∨ c = '\\' := by
    simp only [includes, isWordChar, Bool.or_eq_true, List.contains_iff_mem, List.mem_cons,
      List.not_mem_nil, or_false]
    tauto
  have hbackslash : ¬ isWordChar '\\' := by decide +kernel
  constructor
  · intro h
    rcases ofChar_of_word (hincludes.mpr (Or.inl h)) with hword | hescape
    · exact hword
    · rw [ofChar_eq_escape_iff.mp hescape] at h
      exact absurd h hbackslash
  · intro h
    have hword := includes_ofChar (c := c) (by simp [h])
    rw [h, hincludes] at hword
    refine hword.resolve_right fun hc => ?_
    rw [ofChar_eq_escape_iff.mpr hc] at h
    simp at h

theorem isBlank_iff {c : Char} : Text.isBlank c ↔ ofChar c = .blank :=
  ⟨ofChar_of_isBlank, isBlank_of_ofChar⟩

theorem isRelational_iff {c : Char} : isRelational c ↔ ofChar c = .relational := by
  refine ⟨ofChar_of_relational, fun h => ?_⟩
  have hincludes := includes_ofChar (c := c) (by simp [h])
  rwa [h] at hincludes

theorem joins_iff {c d : Char} : joins c d ↔ (ofChar d).merges ∧ (ofChar d).includes c := by
  rw [joins, continuesWith_iff]
  refine and_congr_right fun hmerges => ?_
  rw [includes_iff hmerges]

theorem merges_iff {d : Char} : (ofChar d).merges ↔ d ≠ '\\' ∧ ofChar d ≠ .symbol := by
  rw [ne_eq, ← ofChar_eq_escape_iff]
  cases ofChar d <;> simp [merges]

theorem joins_trans {c d e : Char} (hcd : joins c d) (hde : joins d e) : joins c e := by
  revert hcd hde
  rw [joins, joins, joins]
  cases ofChar c <;> cases ofChar d <;> cases ofChar e <;> simp [continuesWith]

instance transJoins : Trans (fun c d : Char => (joins c d : Prop)) (fun c d => (joins c d : Prop))
    (fun c d => (joins c d : Prop)) where
  trans := joins_trans

theorem isChain_of_forall {k : CharClass} (hk : k.continuesWith k) {cs : List Char}
    (h : ∀ c ∈ cs, ofChar c = k) : cs.IsChain fun c d => joins c d := by
  refine (List.Pairwise.imp_of_mem ?_ (List.pairwise_of_forall fun _ _ => trivial)).isChain
  intro c d hc hd _
  rwa [joins, h c hc, h d hd]

theorem Lexeme.isChain {cs : List Char} (h : Lexeme cs) :
    cs ≠ [] ∧ cs.IsChain fun c d => joins c d := by
  cases h with
  | word hne hcs => exact ⟨hne, isChain_of_forall rfl fun c hc => isWordChar_iff.mp (hcs c hc)⟩
  | blank hne hcs => exact ⟨hne, isChain_of_forall rfl fun c hc => isBlank_iff.mp (hcs c hc)⟩
  | relational hne hcs =>
    exact ⟨hne, isChain_of_forall rfl fun c hc => isRelational_iff.mp (hcs c hc)⟩
  | symbol _ _ _ _ => exact ⟨List.cons_ne_nil _ _, List.isChain_singleton _⟩
  | escaped hcs =>
    have hword := fun c hc => isWordChar_iff.mp (hcs c hc)
    refine ⟨List.cons_ne_nil _ _, List.isChain_cons.mpr ⟨?_, isChain_of_forall rfl hword⟩⟩
    intro d hd
    rw [joins, hword d (List.mem_of_mem_head? hd)]
    rfl

/-- Each character of a chain goes on with the first, so its class is known from the first. -/
theorem lexeme_of_isChain {cs : List Char} (hne : cs ≠ [])
    (h : cs.IsChain fun c d => joins c d) : Lexeme cs := by
  obtain ⟨c, cs, rfl⟩ := List.exists_cons_of_ne_nil hne
  have hjoins := (List.pairwise_cons.mp (List.isChain_iff_pairwise.mp h)).1
  have hclass := fun d hd => eq_of_continuesWith (hjoins d hd)
  cases hc : ofChar c with
  | escape =>
    obtain rfl := ofChar_eq_escape_iff.mp hc
    refine Lexeme.escaped fun d hd => isWordChar_iff.mpr ?_
    simpa [hc] using (hclass d hd).2
  | word =>
    refine Lexeme.word hne (List.forall_mem_cons.mpr ⟨isWordChar_iff.mpr hc, fun d hd => ?_⟩)
    exact isWordChar_iff.mpr (by simpa [hc] using (hclass d hd).2)
  | blank =>
    refine Lexeme.blank hne (List.forall_mem_cons.mpr ⟨isBlank_iff.mpr hc, fun d hd => ?_⟩)
    exact isBlank_iff.mpr (by simpa [hc] using (hclass d hd).2)
  | relational =>
    refine Lexeme.relational hne
      (List.forall_mem_cons.mpr ⟨isRelational_iff.mpr hc, fun d hd => ?_⟩)
    exact isRelational_iff.mpr (by simpa [hc] using (hclass d hd).2)
  | symbol =>
    obtain rfl : cs = [] :=
      List.eq_nil_iff_forall_not_mem.mpr fun d hd => (hclass d hd).1 hc
    refine Lexeme.symbol ?_ ?_ ?_ ?_
    · exact fun h => by simp [ofChar_eq_escape_iff.mpr h] at hc
    · exact fun h => by simp [isWordChar_iff.mp h] at hc
    · exact fun h => by simp [isBlank_iff.mp h] at hc
    · exact fun h => by simp [isRelational_iff.mp h] at hc

theorem not_apart_cons_iff {x y : List Char} {d : Char} :
    ¬ Apart x (d :: y) ↔ (ofChar d).merges ∧ ∀ c ∈ x, (ofChar d).includes c := by
  rw [merges_iff]
  simp [Apart, and_assoc]

/-- To look at the whole of a lexeme is to look at its last character. -/
theorem not_apart_iff {x y : List Char} (hx : x.IsChain fun c d => joins c d) (hxne : x ≠ [])
    (hyne : y ≠ []) : ¬ Apart x y ↔ joins (x.getLast hxne) (y.head hyne) := by
  obtain ⟨d, y, rfl⟩ := List.exists_cons_of_ne_nil hyne
  rw [not_apart_cons_iff, List.head_cons, joins_iff]
  refine and_congr_right fun hmerges => ⟨fun hall => hall _ (List.getLast_mem hxne), ?_⟩
  intro hlast c hc
  -- what goes on with the last character goes on with all characters before it
  obtain ⟨front, last, rfl⟩ : ∃ front last, x = front ++ [last] :=
    ⟨_, _, (List.dropLast_append_getLast hxne).symm⟩
  rw [List.getLast_append_singleton] at hlast
  rcases List.mem_append.mp hc with hc | hc
  · have hpair := (List.pairwise_append.mp (List.isChain_iff_pairwise.mp hx)).2.2 c hc last
      (List.mem_singleton_self last)
    exact (joins_iff.mp (joins_trans hpair (joins_iff.mpr ⟨hmerges, hlast⟩))).2
  · rwa [List.mem_singleton.mp hc]

end Classes

theorem cut_iff {source : List Char} {texts : List (List Char)} :
    Cut source texts ↔ texts = lexemes source := by
  rw [eq_comm, lexemes, List.splitBy_eq_iff]
  constructor
  · rintro ⟨rfl, hlexeme, hapart⟩
    refine ⟨rfl, fun hnil => (hlexeme _ hnil).isChain.1 rfl,
      fun text htext => (hlexeme text htext).isChain.2, hapart.imp_of_mem_imp ?_⟩
    intro x y hx hy hxy
    obtain ⟨hxne, hchain⟩ := (hlexeme x hx).isChain
    obtain ⟨hyne, -⟩ := (hlexeme y hy).isChain
    refine ⟨hxne, hyne, Bool.eq_false_iff.mpr fun hjoins => ?_⟩
    exact (not_apart_iff hchain hxne hyne).mpr hjoins hxy
  · rintro ⟨rfl, hnil, hchain, hends⟩
    refine ⟨rfl, fun text htext => ?_, hends.imp_of_mem_imp ?_⟩
    · exact lexeme_of_isChain (ne_of_mem_of_not_mem htext hnil) (hchain text htext)
    · rintro x y hx - ⟨hxne, hyne, hjoins⟩
      by_contra hxy
      rw [(not_apart_iff (hchain x hx) hxne hyne).mp hxy] at hjoins
      simp at hjoins

namespace Cut

variable {source : List Char} {texts : List (List Char)} {x : List Char} {c : Char}

/-- A character that goes on with the last lexeme makes it longer. -/
theorem extend (h : Cut source (texts ++ [x])) (hc : ¬ Apart x [c]) :
    Cut (source ++ [c]) (texts ++ [x ++ [c]]) := by
  obtain ⟨rfl, hlexeme, hapart⟩ := h
  obtain ⟨htexts, hx⟩ := List.forall_mem_append.mp hlexeme
  obtain ⟨hxne, hchain⟩ := (hx x (List.mem_singleton_self x)).isChain
  obtain ⟨hfront, -, hlast⟩ := List.isChain_append.mp hapart
  refine ⟨by simp, List.forall_mem_append.mpr ⟨htexts, ?_⟩, List.isChain_append.mpr
    ⟨hfront, List.isChain_singleton _, ?_⟩⟩
  · have hjoins := (not_apart_iff hchain hxne (List.cons_ne_nil c [])).mp hc
    refine List.forall_mem_singleton.mpr (lexeme_of_isChain (by simp) ?_)
    refine List.isChain_append.mpr ⟨hchain, List.isChain_singleton _, ?_⟩
    intro d hd e he
    obtain rfl := Option.mem_some_iff.mp he
    rwa [← List.getLast_of_mem_getLast? hd]
  · intro y hy z hz
    obtain rfl := Option.mem_some_iff.mp hz
    have happart := hlast y hy x rfl
    unfold Apart at happart ⊢
    rwa [List.head?_append_of_ne_nil _ hxne]

/-- A character that goes on with nothing is a lexeme by itself. -/
theorem begin (h : Cut source texts) (hc : ∀ x ∈ texts.getLast?, Apart x [c]) :
    Cut (source ++ [c]) (texts ++ [[c]]) := by
  obtain ⟨rfl, hlexeme, hapart⟩ := h
  refine ⟨by simp, List.forall_mem_append.mpr ⟨hlexeme, ?_⟩, List.isChain_append.mpr
    ⟨hapart, List.isChain_singleton _, ?_⟩⟩
  · exact List.forall_mem_singleton.mpr
      (lexeme_of_isChain (List.cons_ne_nil c []) (List.isChain_singleton c))
  · intro y hy z hz
    obtain rfl := Option.mem_some_iff.mp hz
    exact hc y hy

end Cut

end Token

/-! One pass through a text. -/

/-- Whether a character goes on with the token, all of which its class includes. -/
def Token.goesOn (t : Token) (c : Char) : Bool :=
  (CharClass.ofChar c).merges && t.text.toList.all (CharClass.ofChar c).includes

/-- How far a scan has come: the next place and the tokens so far, the last of them first. -/
structure Scan where
  place : Position
  tokens : List Token

namespace Scan

open Token

def start : Scan := ⟨.origin, []⟩

/-- A character makes the last token longer or begins one. -/
def step (s : Scan) (c : Char) : Scan :=
  let next := s.place.advance c
  match s.tokens.head?.filter (·.goesOn c) with
  | some last =>
    ⟨next, ⟨last.text.push c, { last.span with stop := next.offset }⟩ :: s.tokens.tail⟩
  | none => ⟨next, ⟨String.singleton c, s.place.spanTo next⟩ :: s.tokens⟩

def run (source : List Char) : Scan := source.foldl step start

/-- The scan has come to the end of a text and its tokens lie on a cut of the text. -/
structure Reads (source : List Char) (s : Scan) : Prop where
  place : s.place = Position.origin.after source
  tokens : ∃ texts, Cut source texts ∧ s.tokens.reverse = layOut .origin texts

theorem goesOn_iff {x : List Char} {span : Span} {c : Char} :
    Token.goesOn ⟨String.ofList x, span⟩ c ↔ ¬ Apart x [c] := by
  rw [not_apart_cons_iff, Token.goesOn, Bool.and_eq_true, String.toList_ofList, List.all_eq_true]

theorem Reads.step {source : List Char} {s : Scan} (h : Reads source s) (c : Char) :
    Reads (source ++ [c]) (s.step c) := by
  obtain ⟨hplace, texts, hcut, htokens⟩ := h
  have hnext : s.place.advance c = Position.origin.after (source ++ [c]) := by
    rw [Position.after_append, ← hplace]
    rfl
  unfold Scan.step
  split
  · rename_i last hlast
    obtain ⟨hhead, hgoes⟩ := Option.filter_eq_some_iff.mp hlast
    obtain ⟨before, hbefore⟩ := List.head?_eq_some_iff.mp hhead
    have hlaid : layOut .origin texts = before.reverse ++ [last] := by
      rw [← htokens, hbefore, List.reverse_cons]
    -- the last token lies on the last of the texts
    obtain ⟨front, back, rfl, hfront, hback⟩ := layOut_eq_append hlaid
    obtain ⟨x, rfl⟩ : ∃ x, back = [x] := by
      rw [← List.length_eq_one_iff, ← length_layOut (Position.origin.after front.flatten), ← hback]
      rfl
    obtain rfl := List.singleton_inj.mp hback
    refine ⟨hnext, front ++ [x ++ [c]], hcut.extend (goesOn_iff.mp hgoes), ?_⟩
    have hsource : front.flatten ++ x = source := by simpa using hcut.flatten
    have hafter : s.place.advance c = (Position.origin.after front.flatten).after (x ++ [c]) := by
      rw [hnext, ← hsource, List.append_assoc, Position.after_append]
    rw [layOut_append, ← hfront, hbefore, hafter, List.tail_cons, List.reverse_cons]
    simp [layOut, Position.spanTo, String.ofList_append]
  · rename_i hnone
    have hapart : ∀ x ∈ texts.getLast?, Apart x [c] := by
      intro x hx
      by_contra hxc
      obtain ⟨front, rfl⟩ := List.getLast?_eq_some_iff.mp hx
      obtain ⟨span, hhead⟩ : ∃ span, s.tokens.head? = some ⟨String.ofList x, span⟩ := by
        rw [← List.getLast?_reverse, htokens, layOut_append]
        simp [layOut]
      simp [hhead, goesOn_iff.mpr hxc] at hnone
    refine ⟨hnext, texts ++ [[c]], hcut.begin hapart, ?_⟩
    rw [List.reverse_cons, htokens, layOut_append, hcut.flatten, ← hplace]
    rfl

theorem reads_run (source : List Char) : Reads source (run source) := by
  induction source using List.reverseRecOn with
  | nil => exact ⟨rfl, [], ⟨rfl, by simp, List.isChain_nil⟩, rfl⟩
  | append_singleton source c ih =>
    rw [run, List.foldl_append]
    exact ih.step c

theorem tokens_run (source : String) : (run source.toList).tokens.reverse = ofSource source := by
  obtain ⟨-, texts, hcut, htokens⟩ := reads_run source.toList
  rw [htokens, cut_iff.mp hcut, ofSource]

end Scan

namespace Token

/-- A source text as a sequence of lexemes, none of which may be merged into the one before it. -/
structure Segmentation (source : String) (texts : List String) : Prop where
  join : String.join texts = source
  lexeme : ∀ text ∈ texts, Lexeme text.toList
  apart : texts.IsChain fun x y => Apart x.toList y.toList

theorem segmentation_iff_cut {source : String} {texts : List String} :
    Segmentation source texts ↔ Cut source.toList (texts.map String.toList) := by
  have hjoin : String.join texts = source ↔ (texts.map String.toList).flatten = source.toList := by
    rw [← String.toList_inj, String.toList_join, List.flatMap_def]
  constructor
  · rintro ⟨htexts, hlexeme, hapart⟩
    exact ⟨hjoin.mp htexts, List.forall_mem_map.mpr hlexeme, (List.isChain_map _).mpr hapart⟩
  · rintro ⟨htexts, hlexeme, hapart⟩
    exact ⟨hjoin.mpr htexts, List.forall_mem_map.mp hlexeme, (List.isChain_map _).mp hapart⟩

/-- The texts of the tokens are the only sequence of lexemes that gives the source text and in which
no neighbours may be merged, and one pass from left to right finds them. -/
theorem ofSource_segments (source : String) :
    (∀ texts, Segmentation source texts ↔ texts = (ofSource source).map Token.text) ∧
    (Scan.run source.toList).tokens.reverse = ofSource source := by
  refine ⟨fun texts => ?_, Scan.tokens_run source⟩
  rw [segmentation_iff_cut, cut_iff, ofSource, map_text_layOut]
  constructor
  · intro h
    rw [← h, List.map_map]
    simp [Function.comp_def]
  · rintro rfl
    rw [List.map_map]
    simp [Function.comp_def]

end Token

end AcademicMarkup

import AcademicMarkup.Proofs.CharClasses
import AcademicMarkup.Proofs.Contiguity
import AcademicMarkup.Proofs.Lookahead
import AcademicMarkup.Proofs.Relocation

/-!
The document of two source texts set one after the other. If the first is complete in itself and the
second begins with white space, then the tokens are those of the first and of the second, no item of
the first is read otherwise because of the second, and the items of the second only stand elsewhere.
-/
namespace AcademicMarkup

/-! Cutting a text at white space. -/

namespace Token

/-- A lexeme that ends with white space is white space. -/
theorem forall_blank_of_getLast? {text : List Char}
    (h : text.IsChain fun c d => joins c d)
    (hlast : ∀ c ∈ text.getLast?, CharClass.ofChar c = .blank) :
    ∀ c ∈ text, CharClass.ofChar c = .blank := by
  induction text with
  | nil => simp
  | cons c text ih =>
    cases text with
    | nil => simpa using hlast
    | cons d text =>
      obtain ⟨hjoins, hchain⟩ := List.isChain_cons_cons.mp h
      have htail := ih hchain (by simpa using hlast)
      refine List.forall_mem_cons.mpr ⟨?_, htail⟩
      rw [joins, htail d List.mem_cons_self] at hjoins
      exact CharClass.eq_blank_of_continuesWith hjoins

theorem lexemes_append {text more : List Char}
    (hlast : ∀ lexeme ∈ (lexemes text).getLast?, ¬ lexeme.all Text.isBlank)
    (hmore : ∀ c ∈ more.head?, Text.isBlank c) :
    lexemes (text ++ more) = lexemes text ++ lexemes more := by
  refine List.splitBy_append ?_
  intro c hc d hd
  by_contra hjoins
  rw [Bool.not_eq_false, joins, CharClass.ofChar_of_isBlank (hmore d hd)] at hjoins
  have hblank := CharClass.eq_blank_of_continuesWith hjoins
  -- the last lexeme ends with the last character, so it would be white space
  rcases List.eq_nil_or_concat (lexemes text) with hnil | ⟨before, lexeme, hsplit⟩
  · have hflatten := flatten_lexemes text
    rw [hnil] at hflatten
    simp [← hflatten] at hc
  · have hmem : lexeme ∈ lexemes text := by simp [hsplit]
    have hne : lexeme ≠ [] := List.ne_nil_of_mem_splitBy hmem
    have hflatten : before.flatten ++ lexeme = text := by
      rw [← flatten_lexemes text, hsplit]
      simp
    have hend : lexeme.getLast? = some c := by
      rw [← hflatten, List.getLast?_append_of_ne_nil _ hne] at hc
      exact hc
    have hall := forall_blank_of_getLast? (List.isChain_of_mem_splitBy hmem) (by
      rw [hend]
      rintro _ ⟨⟩
      exact hblank)
    refine hlast lexeme (by simp [hsplit]) (List.all_eq_true.mpr fun e he => ?_)
    exact CharClass.isBlank_of_ofChar (hall e he)

end Token

/-! Places after a text. -/

/-- A place in a text that begins at another place. -/
def Position.past (p q : Position) : Position :=
  ⟨p.offset + q.offset, p.line + (q.line - 1),
    if q.line = 1 then p.column + (q.column - 1) else q.column⟩

/-- A span in a text that begins at a place. -/
def Span.past (p : Position) (s : Span) : Span :=
  ⟨p.offset + s.start, p.offset + s.stop, p.line + (s.line - 1),
    if s.line = 1 then p.column + (s.column - 1) else s.column⟩

def Token.past (p : Position) (t : Token) : Token := { t with span := t.span.past p }

theorem Token.keepsTexts_past (p : Position) : KeepsTexts (Token.past p) := fun _ => rfl

/-- Lines and columns count from one. -/
def Position.Counts (p : Position) : Prop := 1 ≤ p.line ∧ 1 ≤ p.column

namespace Position

theorem Counts.advance {p : Position} (h : p.Counts) (c : Char) : (p.advance c).Counts := by
  unfold Position.advance
  split
  · exact ⟨Nat.le_add_left 1 _, Nat.le_refl 1⟩
  · exact ⟨h.1, Nat.le_add_left 1 _⟩

theorem past_advance (p : Position) {q : Position} (hq : q.Counts) (c : Char) :
    (p.past q).advance c = p.past (q.advance c) := by
  obtain ⟨hline, hcolumn⟩ := hq
  unfold advance
  split
  · simp only [past, Position.mk.injEq]
    refine ⟨by omega, by omega, ?_⟩
    rw [if_neg (by omega)]
  · simp only [past, Position.mk.injEq]
    refine ⟨by omega, trivial, ?_⟩
    split <;> omega

theorem past_after (p : Position) {q : Position} (hq : q.Counts) (text : List Char) :
    (p.past q).after text = p.past (q.after text) ∧ (q.after text).Counts := by
  induction text generalizing q with
  | nil => exact ⟨rfl, hq⟩
  | cons c text ih =>
    have hstep := ih (hq.advance c)
    rw [← past_advance p hq c] at hstep
    exact hstep

theorem past_origin (p : Position) : p.past origin = p := rfl

end Position

namespace Token

/-- Tokens that are laid out from a place on are those laid out from the origin, past that place. -/
theorem layOut_past (p : Position) {q : Position} (hq : q.Counts) (texts : List (List Char)) :
    layOut (p.past q) texts = (layOut q texts).map (Token.past p) := by
  induction texts generalizing q with
  | nil => rfl
  | cons text texts ih =>
    obtain ⟨hafter, hcounts⟩ := p.past_after hq text
    rw [layOut, hafter, ih hcounts, layOut, List.map_cons]
    rfl

theorem ofSource_append {a b : String}
    (hlast : ∀ t ∈ (ofSource a).getLast?, ¬ t.isBlank)
    (hb : ∀ c ∈ b.toList.head?, Text.isBlank c) :
    ofSource (a ++ b) =
      ofSource a ++ (ofSource b).map (Token.past (Position.origin.after a.toList)) := by
  have hlexeme : ∀ lexeme ∈ (lexemes a.toList).getLast?, ¬ lexeme.all Text.isBlank := by
    intro lexeme hlexeme hblank
    have htexts := congrArg List.getLast? (map_text_layOut .origin (lexemes a.toList))
    rw [List.getLast?_map, List.getLast?_map, hlexeme] at htexts
    obtain ⟨t, ht, htext⟩ := Option.map_eq_some_iff.mp htexts
    refine hlast t ht ?_
    rw [isBlank, htext, String.toList_ofList]
    exact hblank
  have horigin : Position.origin.Counts := ⟨Nat.le_refl 1, Nat.le_refl 1⟩
  rw [ofSource, String.toList_append, lexemes_append hlexeme hb, layOut_append, flatten_lexemes,
    ofSource, ofSource, ← layOut_past _ horigin, Position.past_origin]

theorem toList_text_subset {source : String} {t : Token} (ht : t ∈ ofSource source) :
    t.text.toList ⊆ source.toList := by
  have hmem : t.text ∈ (ofSource source).map Token.text := List.mem_map_of_mem ht
  rw [ofSource, map_text_layOut] at hmem
  obtain ⟨lexeme, hlexeme, htext⟩ := List.mem_map.mp hmem
  intro c hc
  rw [← htext, String.toList_ofList] at hc
  rw [← flatten_lexemes source.toList]
  exact List.mem_flatten_of_mem hlexeme hc

theorem blankAhead_ofSource {source : String} (h : ∀ c ∈ source.toList.head?, Text.isBlank c) :
    BlankAhead (ofSource source) := by
  intro t ht
  have htexts := congrArg List.head? (map_text_layOut .origin (lexemes source.toList))
  have hflatten := flatten_lexemes source.toList
  cases hlexemes : lexemes source.toList with
  | nil => simp [ofSource, hlexemes, layOut] at ht
  | cons lexeme more =>
    have hne : lexeme ≠ [] := List.ne_nil_of_mem_splitBy (l := source.toList) (r := joins) (by
      rw [← lexemes, hlexemes]
      exact List.mem_cons_self)
    obtain ⟨c, cs, rfl⟩ := List.exists_cons_of_ne_nil hne
    rw [hlexemes] at hflatten
    have hblank := h c (by rw [← hflatten]; rfl)
    rw [ofSource, hlexemes, layOut, List.head?_cons, Option.mem_some_iff] at ht
    subst ht
    simpa using hblank

end Token

theorem BlankAhead.map {f : Token → Token} (hf : KeepsTexts f) {ts : List Token}
    (h : BlankAhead ts) : BlankAhead (ts.map f) := by
  intro t ht
  rw [List.head?_map] at ht
  obtain ⟨u, hu, rfl⟩ := Option.map_eq_some_iff.mp ht
  rw [hf u]
  exact h u hu

namespace Document

open Grammar

/-- A text without quotes and clauses whose blocks are all closed, and which ends neither with white
space nor with an operator, is read as it is whatever comes after white space that follows it. What
comes after is read as by itself, with its places past the text. -/
theorem ofSource_append_of_whole (a b : String)
    (hquote : '"' ∉ a.toList ∧ '“' ∉ a.toList)
    (hclause : ∀ t ∈ Token.ofSource a, t.text ≠ Token.clauseKeyword)
    (hlast : ∀ t ∈ (Token.ofSource a).getLast?, ¬ t.isBlank ∧ ¬ t.isScriptOperator)
    (hwhole : Terminated (ofSource a).subjects)
    (hb : ∃ c ∈ b.toList.head?, Text.isBlank c) :
    ofSource (a ++ b) = ofSource a ++
      (ofSource b).map (Item.mapTokens (Token.past (Position.origin.after a.toList))) := by
  have hblank : ∀ c ∈ b.toList.head?, Text.isBlank c := by
    obtain ⟨c, hc, hblank⟩ := hb
    rintro d hd
    rw [hc] at hd
    obtain rfl := Option.some.inj hd
    exact hblank
  have htame : Tame (Token.ofSource a) := by
    refine ⟨?_, hclause, fun t ht => (hlast t ht).2⟩
    intro t ht
    have hchars := Token.toList_text_subset ht
    unfold closingQuote?
    split
    · rename_i htext
      rw [beq_iff_eq.mp htext] at hchars
      exact absurd (hchars (by simp)) hquote.1
    · split
      · rename_i htext
        rw [beq_iff_eq.mp htext] at hchars
        exact absurd (hchars (by simp)) hquote.2
      · rfl
  have hkeeps := Token.keepsTexts_past (Position.origin.after a.toList)
  have hahead := BlankAhead.map hkeeps (Token.blankAhead_ofSource hblank)
  rw [ofSource, Token.ofSource_append (fun t ht => (hlast t ht).1) hblank,
    ofTokens_append htame hahead hwhole, ofTokens_map hkeeps]
  rfl

/-- A definition that is attempted and given back, and a quotation after it that is not closed. -/
theorem ofSource_append_attempted :
    Terminated (ofSource "\\macroRules![\\v]\\p^(y)").subjects ∧
    ofSource ("\\macroRules![\\v]\\p^(y)" ++ "\n\x7bq\x7d\"[") =
      ofSource "\\macroRules![\\v]\\p^(y)" ++
        (ofSource "\n\x7bq\x7d\"[").map (Item.mapTokens
          (Token.past (Position.origin.after "\\macroRules![\\v]\\p^(y)".toList))) := by
  have hwhole : Terminated (ofSource "\\macroRules![\\v]\\p^(y)").subjects := by
    decide +kernel
  exact ⟨hwhole, ofSource_append_of_whole _ _ (by decide +kernel) (by decide +kernel)
    (by decide +kernel) hwhole ⟨'\n', rfl, by decide⟩⟩

end Document

end AcademicMarkup

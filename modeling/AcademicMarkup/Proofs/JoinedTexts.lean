import AcademicMarkup.Proofs.BracketMachine
import AcademicMarkup.Proofs.MaximalMunch

/-!
The tokens of texts that are set one after the other. They are those of the texts by themselves
unless some text runs into the next, and that is decided by the two characters that meet.
-/
namespace AcademicMarkup

namespace Token

/-- The texts of the tokens of a text. -/
def words (text : String) : List String := (ofSource text).map Token.text

/-- Whether a text and the next give other tokens together than by themselves. -/
def RunsInto (x y : String) : Prop := words (x ++ y) ≠ words x ++ words y

instance decidableRunsInto (x y : String) : Decidable (RunsInto x y) :=
  inferInstanceAs (Decidable (_ ≠ _))

theorem words_eq (text : String) : words text = (lexemes text.toList).map String.ofList :=
  map_text_layOut _ _

/-- The lexemes at the ends of two texts meet where the texts do. -/
theorem lexemes_meet_iff {x y : List Char} (hx : x ≠ []) (hy : y ≠ []) :
    (∀ a ∈ (lexemes x).getLast?, ∀ b ∈ (lexemes y).head?,
        ∃ ha hb, joins (a.getLast ha) (b.head hb) = false) ↔
      ∀ c ∈ x.getLast?, ∀ d ∈ y.head?, joins c d = false := by
  have hlast := List.getLast?_eq_some_getLast (List.splitBy_ne_nil (r := joins).mpr hx)
  have hhead := List.head?_eq_some_head (List.splitBy_ne_nil (r := joins).mpr hy)
  rw [lexemes, lexemes, hlast, hhead, List.getLast?_eq_some_getLast hx,
    List.head?_eq_some_head hy, ← List.getLast_getLast_splitBy joins hx,
    ← List.head_head_splitBy joins hy]
  simp only [Option.mem_def, Option.some.injEq, forall_eq']
  constructor
  · rintro ⟨_, _, hjoins⟩
    exact hjoins
  · exact fun hjoins => ⟨_, _, hjoins⟩

theorem lexemes_flatten_iff {texts : List (List Char)} (h : [] ∉ texts) :
    lexemes texts.flatten = texts.flatMap lexemes ↔
      texts.IsChain fun x y => ∀ c ∈ x.getLast?, ∀ d ∈ y.head?, joins c d = false := by
  have hne : ∀ x ∈ texts, x ≠ [] := fun x hx => ne_of_mem_of_not_mem hx h
  have hnil : [] ∉ texts.map lexemes := by
    intro hmem
    obtain ⟨x, hx, heq⟩ := List.mem_map.mp hmem
    exact hne x hx (List.splitBy_eq_nil.mp heq)
  have hmeet := fun x y hx hy => lexemes_meet_iff (hne x hx) (hne y hy)
  rw [List.flatMap_def, lexemes, List.splitBy_eq_iff, List.isChain_flatten hnil, List.isChain_map]
  constructor
  · rintro ⟨-, -, -, -, hends⟩
    exact hends.imp_of_mem_imp fun x y hx hy => (hmeet x y hx hy).mp
  · intro hends
    refine ⟨?_, ?_, ?_, ?_, hends.imp_of_mem_imp fun x y hx hy => (hmeet x y hx hy).mpr⟩
    · have hflatten : List.flatten ∘ lexemes = id := funext flatten_lexemes
      rw [List.flatten_flatten, List.map_map, hflatten, List.map_id]
    · intro hmem
      obtain ⟨x, -, hx⟩ := List.mem_flatMap.mp (List.flatMap_def .. ▸ hmem)
      exact List.ne_nil_of_mem_splitBy hx rfl
    · intro y hy
      obtain ⟨x, -, hx⟩ := List.mem_flatMap.mp (List.flatMap_def .. ▸ hy)
      exact List.isChain_of_mem_splitBy hx
    · exact List.forall_mem_map.mpr fun x _ => List.isChain_getLast_head_splitBy joins x

/-- Texts are cut where they meet exactly if no two characters that meet belong together. -/
theorem words_join_iff_joins {texts : List String} (h : "" ∉ texts) :
    words (String.join texts) = texts.flatMap words ↔
      texts.IsChain fun x y =>
        ∀ c ∈ x.toList.getLast?, ∀ d ∈ y.toList.head?, joins c d = false := by
  have hnil : [] ∉ texts.map String.toList := by
    intro hmem
    obtain ⟨x, hx, heq⟩ := List.mem_map.mp hmem
    exact ne_of_mem_of_not_mem hx h (String.toList_eq_nil_iff.mp heq)
  have hjoin : (String.join texts).toList = (texts.map String.toList).flatten := by
    rw [String.toList_join, List.flatMap_def]
  have hwords : texts.flatMap words =
      ((texts.map String.toList).flatMap lexemes).map String.ofList := by
    rw [List.map_flatMap, List.flatMap_map]
    exact List.flatMap_congr fun x _ => words_eq x
  rw [words_eq, hjoin, hwords, List.map_inj_right fun _ _ => String.ofList_inj.mp,
    lexemes_flatten_iff hnil, List.isChain_map]

/-- Whether a text runs into the next is decided by the two characters that meet. -/
theorem not_runsInto_iff {x y : String} :
    ¬ RunsInto x y ↔ ∀ c ∈ x.toList.getLast?, ∀ d ∈ y.toList.head?, joins c d = false := by
  rw [RunsInto, not_ne_iff]
  by_cases hx : x = ""
  · subst hx
    simp [words_eq, lexemes]
  by_cases hy : y = ""
  · subst hy
    simp [words_eq, lexemes]
  have hjoined := @words_join_iff_joins [x, y] (by simp [Ne.symm hx, Ne.symm hy])
  rwa [List.isChain_pair, String.join_cons, String.join_cons, String.join_nil, String.append_empty,
    List.flatMap_cons, List.flatMap_singleton] at hjoined

/-- The tokens of texts that are set one after the other. -/
theorem words_join_iff {texts : List String} (h : "" ∉ texts) :
    words (String.join texts) = texts.flatMap words ↔
      texts.IsChain fun x y => ¬ RunsInto x y := by
  rw [words_join_iff_joins h]
  exact List.IsChain.iff fun x y => not_runsInto_iff.symm

/-! Texts that nothing runs into, or that run into nothing. -/

theorem not_runsInto_of_head {x y : String}
    (h : ∀ d ∈ y.toList.head?, (CharClass.ofChar d).merges = false) : ¬ RunsInto x y := by
  refine not_runsInto_iff.mpr fun c _ d hd => Bool.eq_false_iff.mpr fun hjoins => ?_
  rw [joins_iff, h d hd] at hjoins
  exact Bool.false_ne_true hjoins.1

theorem not_runsInto_of_last {x y : String}
    (h : ∀ c ∈ x.toList.getLast?, CharClass.ofChar c = .symbol) : ¬ RunsInto x y := by
  refine not_runsInto_iff.mpr fun c hc d _ => Bool.eq_false_iff.mpr fun hjoins => ?_
  exact (CharClass.eq_of_continuesWith hjoins).1 (h c hc)

theorem bracket_text {t : Token} (h : t.isOpening ∨ t.isClosing) :
    ∃ c, t.text.toList = [c] ∧ CharClass.ofChar c = .symbol := by
  rcases h with h | h
  · rcases opening_text h with htext | htext | htext <;>
      exact ⟨_, by rw [htext]; rfl, by decide +kernel⟩
  · rcases closing_text h with htext | htext | htext <;>
      exact ⟨_, by rw [htext]; rfl, by decide +kernel⟩

theorem not_runsInto_bracket {t : Token} (h : t.isOpening ∨ t.isClosing) (x : String) :
    ¬ RunsInto x t.text := by
  obtain ⟨c, htext, hclass⟩ := bracket_text h
  refine not_runsInto_of_head fun d hd => ?_
  obtain rfl : c = d := by simpa [htext] using hd
  rw [hclass]
  rfl

theorem bracket_not_runsInto {t : Token} (h : t.isOpening ∨ t.isClosing) (y : String) :
    ¬ RunsInto t.text y := by
  obtain ⟨c, htext, hclass⟩ := bracket_text h
  refine not_runsInto_of_last fun d hd => ?_
  obtain rfl : c = d := by simpa [htext] using hd
  exact hclass

/-! The texts inside a longer text do not matter. -/

theorem runsInto_append_left {x y z : String} (h : y ≠ "") :
    RunsInto (x ++ y) z ↔ RunsInto y z := by
  have hne : y.toList ≠ [] := fun heq => h (String.toList_eq_nil_iff.mp heq)
  rw [← not_iff_not, not_runsInto_iff, not_runsInto_iff, String.toList_append,
    List.getLast?_append_of_ne_nil _ hne]

theorem runsInto_append_right {x y z : String} (h : y ≠ "") :
    RunsInto x (y ++ z) ↔ RunsInto x y := by
  have hne : y.toList ≠ [] := fun heq => h (String.toList_eq_nil_iff.mp heq)
  rw [← not_iff_not, not_runsInto_iff, not_runsInto_iff, String.toList_append,
    List.head?_append_of_ne_nil _ hne]

theorem text_ne_empty_of_mem_ofSource {source : String} {t : Token} (h : t ∈ ofSource source) :
    t.text ≠ "" := by
  have hword : t.text ∈ words source := List.mem_map_of_mem h
  rw [words_eq] at hword
  obtain ⟨x, hx, heq⟩ := List.mem_map.mp hword
  rw [← heq]
  exact fun hempty => List.ne_nil_of_mem_splitBy hx (by simpa using hempty)

/-- The tokens of a source text do not run into one another. -/
theorem isChain_ofSource (source : String) :
    (ofSource source).IsChain fun t u => ¬ RunsInto t.text u.text := by
  have hchain := List.isChain_getLast_head_splitBy joins source.toList
  have hwords : ((ofSource source).map Token.text).IsChain fun x y => ¬ RunsInto x y := by
    rw [← words, words_eq, List.isChain_map]
    refine hchain.imp ?_
    rintro x y ⟨hx, hy, hjoins⟩
    rw [not_runsInto_iff, String.toList_ofList, String.toList_ofList,
      List.getLast?_eq_some_getLast hx, List.head?_eq_some_head hy]
    simpa using hjoins
  exact (List.isChain_map _).mp hwords

end Token

end AcademicMarkup

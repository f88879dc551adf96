import AcademicMarkup.Token.CharClass

/-!
What a class includes, told from the classes of characters. The classes that merge do not overlap,
except that a word also includes the backslash that may begin it.
-/
namespace AcademicMarkup

theorem Text.exists_of_covers {ranges : List (Nat × Nat)} {n : Nat} (h : covers ranges n) :
    ∃ r ∈ ranges, r.1 ≤ n ∧ n ≤ r.2 := by
  induction ranges with
  | nil => simp [covers] at h
  | cons r ranges ih =>
    obtain ⟨low, high⟩ := r
    rw [covers] at h
    split at h
    · simp at h
    · rename_i hlow
      simp only [Bool.or_eq_true, decide_eq_true_eq] at h
      rcases h with hhigh | h
      · exact ⟨(low, high), List.mem_cons_self, by omega, hhigh⟩
      · obtain ⟨r, hr, hbounds⟩ := ih h
        exact ⟨r, List.mem_cons_of_mem _ hr, hbounds⟩

/-- White space is neither a letter nor a digit. -/
theorem Text.not_isAlphanumeric_of_isBlank {c : Char} (h : isBlank c) : ¬ isAlphanumeric c := by
  have hranges : ∀ r ∈ blankRanges, ∀ n ∈ List.range' r.1 (r.2 + 1 - r.1),
      ¬ covers alphanumericRanges n := by decide +kernel
  obtain ⟨r, hr, hlow, hhigh⟩ := exists_of_covers h
  exact hranges r hr c.toNat (List.mem_range'_1.mpr ⟨hlow, by omega⟩)

namespace CharClass

/-- The classes whose characters are joined to longer tokens. -/
def merges : CharClass → Bool
  | word => true
  | blank => true
  | relational => true
  | escape => false
  | symbol => false

theorem includes_ofChar {c : Char} (h : ofChar c ≠ symbol) : (ofChar c).includes c := by
  unfold ofChar at h ⊢
  split
  · assumption
  · split
    · assumption
    · split
      · assumption
      · split
        · assumption
        · simp_all

theorem ofChar_eq_escape_iff {c : Char} : ofChar c = escape ↔ c = '\\' := by
  constructor
  · intro h
    have hincludes := includes_ofChar (c := c) (by simp [h])
    simpa [h, includes] using hincludes
  · rintro rfl
    rfl

theorem ofChar_of_isBlank {c : Char} (h : Text.isBlank c) : ofChar c = blank := by
  have hsigns : ['!', '\\', ',', ';', '.', '$'].all fun d => !Text.isBlank d := by decide
  have hsign : ∀ d ∈ ['!', '\\', ',', ';', '.', '$'], ¬ Text.isBlank d := by
    intro d hd
    simpa using List.all_eq_true.mp hsigns d hd
  have hescape : ¬ escape.includes c := by
    intro hc
    obtain rfl : c = '\\' := by simpa [includes] using hc
    exact hsign _ (by simp) h
  have hword : ¬ word.includes c := by
    intro hc
    simp only [includes, Bool.or_eq_true, List.contains_iff_mem] at hc
    rcases hc with hc | hc
    · exact Text.not_isAlphanumeric_of_isBlank h hc
    · exact hsign c hc h
  rw [ofChar, if_neg hescape, if_neg hword, if_pos (show blank.includes c from h)]

theorem isBlank_of_ofChar {c : Char} (h : ofChar c = blank) : Text.isBlank c := by
  have hincludes := includes_ofChar (c := c) (by simp [h])
  rwa [h] at hincludes

theorem ofChar_of_relational {c : Char} (h : relational.includes c) : ofChar c = relational := by
  simp only [includes, List.contains_iff_mem, List.mem_cons, List.not_mem_nil, or_false] at h
  rcases h with rfl | rfl | rfl <;> decide +kernel

theorem ofChar_of_word {c : Char} (h : word.includes c) : ofChar c = word ∨ ofChar c = escape := by
  by_cases hescape : escape.includes c
  · exact Or.inr (if_pos hescape)
  · exact Or.inl (by rw [ofChar, if_neg hescape, if_pos h])

/-- A class that merges includes its own characters, and a word the backslash as well. -/
theorem includes_iff {k : CharClass} (hk : k.merges) (c : Char) :
    k.includes c ↔ ofChar c = k ∨ k = word ∧ ofChar c = escape := by
  constructor
  · intro h
    cases k with
    | word => exact (ofChar_of_word h).imp_right fun hescape => ⟨rfl, hescape⟩
    | blank => exact Or.inl (ofChar_of_isBlank h)
    | relational => exact Or.inl (ofChar_of_relational h)
    | escape => simp [merges] at hk
    | symbol => simp [merges] at hk
  · rintro (rfl | ⟨rfl, hescape⟩)
    · refine includes_ofChar fun hsymbol => ?_
      simp [hsymbol, merges] at hk
    · obtain rfl := ofChar_eq_escape_iff.mp hescape
      simp [includes]

theorem continuesWith_iff (k m : CharClass) :
    k.continuesWith m ↔ m.merges ∧ (k = m ∨ m = word ∧ k = escape) := by
  cases k <;> cases m <;> decide

/-- A token goes on with one class only. -/
theorem eq_of_continuesWith {k m : CharClass} (h : k.continuesWith m) :
    k ≠ symbol ∧ m = if k = escape then word else k := by
  cases k <;> cases m <;> simp_all [continuesWith]

theorem eq_blank_of_continuesWith {class' : CharClass} (h : class'.continuesWith blank) :
    class' = blank := by
  cases class' <;> simp [continuesWith] at h ⊢

end CharClass

end AcademicMarkup

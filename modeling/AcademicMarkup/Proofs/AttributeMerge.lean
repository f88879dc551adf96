import AcademicMarkup.Content.Attributes
import Mathlib.Data.List.Induction

/-!
Attributes that are set one after the other. What comes out is described without setting anything:
each name stands once, at the place of its first entry and with the last entry of the name. Setting
attributes that were set before adds nothing to setting the entries themselves.
-/
namespace AcademicMarkup

namespace Attribute

/-- The last entry of a name. -/
def last? (name : String) (es : List Attribute) : Option Attribute :=
  es.reverse.find? (·.name == name)

/-- Each name once, at the place of its first entry and with its last entry. -/
def merged : List Attribute → List Attribute
  | [] => []
  | a :: rest => (last? a.name rest).getD a :: (merged rest).filter (·.name != a.name)

theorem last?_cons (name : String) (a : Attribute) (rest : List Attribute) :
    last? name (a :: rest) = (last? name rest).or (if a.name = name then some a else none) := by
  simp [last?]

theorem last?_concat (name : String) (a : Attribute) (es : List Attribute) :
    last? name (es ++ [a]) = if a.name = name then some a else last? name es := by
  by_cases h : a.name = name <;> simp [last?, h]

theorem last?_filter_eq (name : String) (es : List Attribute) :
    last? name (es.filter (·.name != name)) = none := by
  simp [last?, List.find?_eq_none]

theorem last?_filter_ne {name other : String} (h : name ≠ other) (es : List Attribute) :
    last? name (es.filter (·.name != other)) = last? name es := by
  have htest : ∀ e : Attribute, (e.name != other && e.name == name) = (e.name == name) := by
    intro e
    by_cases he : e.name = name
    · simp [he, h]
    · simp [he]
  simp only [last?, ← List.filter_reverse, List.find?_filter, Bool.decide_and, Bool.decide_eq_true,
    htest]

theorem name_last? {name : String} {es : List Attribute} {e : Attribute}
    (h : last? name es = some e) : e.name = name := by
  simpa using List.find?_some h

/-- The entry that stands for a name has the name. -/
theorem name_getD_last? (a : Attribute) (es : List Attribute) :
    ((last? a.name es).getD a).name = a.name := by
  cases h : last? a.name es with
  | none => rfl
  | some e => exact name_last? h

theorem last?_merged (name : String) (es : List Attribute) :
    last? name (merged es) = last? name es := by
  induction es with
  | nil => rfl
  | cons a rest ih =>
    rw [merged, last?_cons, last?_cons, name_getD_last?]
    by_cases h : a.name = name
    · subst h
      rw [last?_filter_eq, if_pos rfl, if_pos rfl]
      cases last? a.name rest <;> rfl
    · rw [last?_filter_ne (Ne.symm h), ih, if_neg h, if_neg h]

theorem mem_of_mem_merged {e : Attribute} {es : List Attribute} (h : e ∈ merged es) : e ∈ es := by
  induction es with
  | nil => exact h
  | cons a rest ih =>
    rw [merged, List.mem_cons] at h
    rcases h with rfl | h
    · cases hlast : last? a.name rest with
      | none => exact List.mem_cons_self
      | some e =>
        have he := List.mem_of_find?_eq_some hlast
        exact List.mem_cons_of_mem _ (List.mem_reverse.mp he)
    · exact List.mem_cons_of_mem _ (ih (List.mem_filter.mp h).1)

theorem filter_comm (name other : String) (es : List Attribute) :
    (es.filter (·.name != name)).filter (·.name != other) =
      (es.filter (·.name != other)).filter (·.name != name) := by
  simp only [List.filter_filter, Bool.and_comm]

theorem merged_filter (name : String) (es : List Attribute) :
    merged (es.filter (·.name != name)) = (merged es).filter (·.name != name) := by
  induction es with
  | nil => rfl
  | cons a rest ih =>
    by_cases h : a.name = name
    · subst h
      rw [List.filter_cons_of_neg (by simp), ih, merged,
        List.filter_cons_of_neg (by simp [name_getD_last?]), List.filter_filter]
      simp
    · rw [List.filter_cons_of_pos (by simpa using h), merged, merged, last?_filter_ne h, ih,
        List.filter_cons_of_pos (by simpa [name_getD_last?] using h), filter_comm]

theorem merged_merged (es : List Attribute) : merged (merged es) = merged es := by
  induction es with
  | nil => rfl
  | cons a rest ih =>
    rw [merged, merged, name_getD_last?, last?_filter_eq, merged_filter, ih, List.filter_filter]
    simp

theorem merged_cons_merged (a : Attribute) (es : List Attribute) :
    merged (a :: merged es) = merged (a :: es) := by
  rw [merged, merged, merged_merged, last?_merged]

end Attribute

namespace Attributes

open Attribute

theorem filter_setIn_eq (name : String) (value : Option String) (es : List Attribute) :
    (setIn name value es).filter (·.name != name) = es.filter (·.name != name) := by
  induction es with
  | nil => simp [setIn]
  | cons a rest ih =>
    by_cases h : a.name = name
    · simp [setIn, h]
    · simp [setIn, h, ih]

theorem filter_setIn_ne {name other : String} (h : name ≠ other) (value : Option String)
    (es : List Attribute) :
    (setIn name value es).filter (·.name != other) =
      setIn name value (es.filter (·.name != other)) := by
  induction es with
  | nil => simp [setIn, h]
  | cons a rest ih =>
    by_cases hother : a.name = other
    · have hname : a.name ≠ name := fun hname => h (hname.symm.trans hother)
      rw [setIn, if_neg (by simpa using hname), List.filter_cons_of_neg (by simpa using hother), ih,
        List.filter_cons_of_neg (by simpa using hother)]
    · rw [List.filter_cons_of_pos (by simpa using hother), setIn, setIn]
      by_cases hname : a.name = name
      · simp [hname, h]
      · simp [hname, hother, ih]

/-- To set an attribute is to add an entry at the end and to merge. -/
theorem setIn_merged (a : Attribute) (es : List Attribute) :
    setIn a.name a.value (merged es) = merged (es ++ [a]) := by
  induction es with
  | nil => rfl
  | cons e rest ih =>
    rw [merged, List.cons_append, merged, ← ih, setIn, name_getD_last?, last?_concat]
    by_cases h : e.name = a.name
    · rw [h, if_pos (beq_self_eq_true _), if_pos rfl, filter_setIn_eq]
      rfl
    · rw [if_neg (by simpa using h), if_neg (Ne.symm h), filter_setIn_ne (Ne.symm h)]

theorem setAll_eq {es : List Attribute} (h : merged es = es) (more : List Attribute) :
    (Attributes.mk es).setAll more = ⟨merged (es ++ more)⟩ := by
  induction more using List.reverseRecOn with
  | nil => rw [List.append_nil, h, setAll, List.foldl_nil]
  | append_singleton more a ih =>
    have hset : (Attributes.mk es).setAll (more ++ [a]) =
        ((Attributes.mk es).setAll more).set a.name a.value := by
      rw [setAll, List.foldl_append]
      rfl
    rw [hset, ih, set, setIn_merged, List.append_assoc]

end Attributes

end AcademicMarkup

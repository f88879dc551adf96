import AcademicMarkup.Proofs.AttributeNames

/-!
Attributes as a map that remembers the order of its names, and reading back attributes that were
written. A value is written in quotes and with its ampersands and quotes encoded, and the reader of
author text decodes nothing. So it reads the encoded values, and these are the values themselves
exactly if there is nothing to encode.
-/
namespace AcademicMarkup

namespace Attribute

theorem map_name_merged (es : List Attribute) :
    (merged es).map name = (es.map name).eraseDups := by
  -- both sides go on with the entries of the other names, which are fewer
  induction hlen : es.length using Nat.strongRecOn generalizing es with
  | ind n ih =>
    cases es with
    | nil => rfl
    | cons a rest =>
      have hfilter : (rest.map name).filter (fun b => !b == a.name) =
          (rest.filter (·.name != a.name)).map name := by
        rw [List.filter_map]
        rfl
      have hlt : (rest.filter (·.name != a.name)).length < n := by
        have hle := List.length_filter_le (·.name != a.name) rest
        rw [List.length_cons] at hlen
        omega
      rw [merged, List.map_cons, List.map_cons, name_getD_last?, List.eraseDups_cons, hfilter,
        ← merged_filter, ih _ hlt _ rfl]

theorem nodup_map_name_merged (es : List Attribute) : ((merged es).map name).Nodup := by
  induction es with
  | nil => exact List.nodup_nil
  | cons a rest ih =>
    rw [merged, List.map_cons, name_getD_last?, List.nodup_cons]
    refine ⟨?_, ih.sublist (List.filter_sublist.map name)⟩
    simp

/-- The one entry of a name is the last that was set. -/
theorem find?_merged (name : String) (es : List Attribute) :
    (merged es).find? (·.name == name) = last? name es := by
  induction es with
  | nil => rfl
  | cons a rest ih =>
    rw [merged, last?_cons]
    by_cases h : a.name = name
    · subst h
      rw [List.find?_cons_of_pos (by simp [name_getD_last?]), if_pos rfl]
      cases last? a.name rest <;> rfl
    · have hother : ∀ e : Attribute,
          decide ((e.name != a.name) = true ∧ (e.name == name) = true) = (e.name == name) := by
        intro e
        by_cases he : e.name = name
        · simp [he, Ne.symm h]
        · simp [he]
      rw [List.find?_cons_of_neg (by simpa [name_getD_last?] using h), if_neg h, Option.or_none,
        List.find?_filter, ← ih]
      simp only [hother]

/-- The entry as a reader sees it that decodes nothing. -/
def encoded (a : Attribute) : Attribute := ⟨a.name, a.value.map Html.encodeValue⟩

theorem merged_eq_self {es : List Attribute} (h : (es.map name).Nodup) : merged es = es := by
  induction es with
  | nil => rfl
  | cons a rest ih =>
    obtain ⟨hnotMem, hrest⟩ := List.nodup_cons.mp h
    have hne : ∀ e ∈ rest, e.name ≠ a.name := by
      intro e he heq
      exact hnotMem (heq ▸ List.mem_map_of_mem he)
    have hlast : last? a.name rest = none := by
      simpa [last?, List.find?_eq_none] using hne
    rw [merged, hlast, ih hrest, List.filter_eq_self.mpr (by simpa using hne)]
    rfl

end Attribute

namespace Attributes

open Attribute Html

/-- Names that stand once each and can be told apart in a text. -/
structure WellNamed (as : Attributes) : Prop where
  nodup : (as.entries.map Attribute.name).Nodup
  ne_empty : ∀ a ∈ as.entries, a.name ≠ ""
  separate : ∀ a ∈ as.entries, ∀ c ∈ a.name.toList, ¬ Text.isBlank c ∧ c ≠ '='

theorem setAll_empty (sets : List Attribute) : empty.setAll sets = ⟨merged sets⟩ := by
  rw [empty, setAll_eq rfl, List.nil_append]

theorem wellNamed_parse (text : String) : (parse text).WellNamed := by
  have hname : ∀ a ∈ (parse text).entries, NameIn text.toList a.name :=
    fun a ha => nameIn_of_mem_parse ha
  refine ⟨?_, fun a ha => (hname a ha).ne_empty, fun a ha c hc => ?_⟩
  · rw [parse, setAll_empty]
    exact nodup_map_name_merged _
  · simpa [isNameChar] using (hname a ha).isNameChar c hc

/-! Reading the entries that were written. -/

theorem readEntries_bare {cs rest : List Char} {c : Char}
    (h : cs.dropWhile Text.isBlank = c :: rest) (hc : c ≠ '=')
    (hafter : ∀ after, rest.dropWhile isNameChar ≠ '=' :: after) :
    readEntries cs = ⟨String.ofList (c :: rest.takeWhile isNameChar), none⟩ ::
      readEntries (rest.dropWhile isNameChar) := by
  rw [readEntries]
  split
  · rename_i heq
    simp [h] at heq
  · rename_i heq
    obtain ⟨rfl, rfl⟩ := List.cons.inj (h.symm.trans heq)
    rw [if_neg hc]
    split
    · rename_i after heq'
      exact absurd heq' (hafter after)
    · rfl

theorem readEntries_valued {cs rest after : List Char} {c : Char}
    (h : cs.dropWhile Text.isBlank = c :: rest) (hc : c ≠ '=')
    (hafter : rest.dropWhile isNameChar = '=' :: after) :
    readEntries cs = ⟨String.ofList (c :: rest.takeWhile isNameChar),
      some (String.ofList (readValue after).1)⟩ :: readEntries (readValue after).2 := by
  rw [readEntries]
  split
  · rename_i heq
    simp [h] at heq
  · rename_i heq
    obtain ⟨rfl, rfl⟩ := List.cons.inj (h.symm.trans heq)
    rw [if_neg hc]
    split
    · rename_i after' heq'
      obtain ⟨-, rfl⟩ := List.cons.inj (hafter.symm.trans heq')
      rfl
    · rename_i hnot
      exact absurd hafter (hnot after)

/-- The name that stands after a space is read up to a character that no name has. -/
theorem exists_name_after_space {name : String} (hne : name ≠ "")
    (hname : ∀ c ∈ name.toList, isNameChar c) {rest : List Char}
    (hrest : ∀ c ∈ rest.head?, ¬ isNameChar c) :
    ∃ c cs, (' ' :: (name.toList ++ rest)).dropWhile Text.isBlank = c :: cs ∧ c ≠ '=' ∧
      String.ofList (c :: cs.takeWhile isNameChar) = name ∧ cs.dropWhile isNameChar = rest := by
  obtain ⟨c, cs, hcs⟩ := List.exists_cons_of_ne_nil (mt String.toList_eq_nil_iff.mp hne)
  rw [hcs] at hname
  obtain ⟨hc, hmore⟩ := List.forall_mem_cons.mp hname
  simp only [isNameChar, Bool.and_eq_true, Bool.not_eq_true', bne_iff_ne] at hc
  have hstop : rest.takeWhile isNameChar = [] ∧ rest.dropWhile isNameChar = rest := by
    cases rest with
    | nil => exact ⟨rfl, rfl⟩
    | cons d rest =>
      have hd := hrest d rfl
      exact ⟨List.takeWhile_cons_of_neg hd, List.dropWhile_cons_of_neg hd⟩
  refine ⟨c, cs ++ rest, ?_, hc.2, ?_, ?_⟩
  · rw [hcs, List.dropWhile_cons_of_pos (by decide), List.cons_append,
      List.dropWhile_cons_of_neg (by simp [hc.1])]
  · rw [List.takeWhile_append_of_pos hmore, hstop.1, List.append_nil, ← hcs, String.ofList_toList]
  · rw [List.dropWhile_append_of_pos hmore, hstop.2]

theorem readValue_encodeValue (value : String) (rest : List Char) :
    readValue ('"' :: ((encodeValue value).toList ++ '"' :: rest)) =
      ((encodeValue value).toList, rest) := by
  have hall : ∀ c ∈ (encodeValue value).toList, (c != '"') = true := by
    intro c hc
    simpa using encodeValue_ne hc
  rw [readValue, quotedValue, List.takeWhile_append_of_pos hall,
    List.dropWhile_append_of_pos hall]
  simp

/-- A written entry is read with its value encoded. -/
theorem readEntries_writeAttribute {a : Attribute} (hne : a.name ≠ "")
    (hname : ∀ c ∈ a.name.toList, isNameChar c) {rest : List Char}
    (hrest : ∀ c ∈ rest.head?, c = ' ') :
    readEntries ((writeAttribute a).toList ++ rest) =
      a.encoded :: readEntries rest := by
  obtain ⟨name, value⟩ := a
  cases value with
  | none =>
    have hspace : ∀ c ∈ rest.head?, ¬ isNameChar c := by
      intro c hc
      rw [hrest c hc]
      decide
    obtain ⟨c, cs, hdrop, hc, htaken, hafter⟩ := exists_name_after_space hne hname hspace
    have hequals : ∀ after, cs.dropWhile isNameChar ≠ '=' :: after := by
      intro after heq
      rw [hafter] at heq
      simpa using hrest '=' (by simp [heq])
    rw [toList_writeAttribute_bare, List.cons_append, readEntries_bare hdrop hc hequals, htaken,
      hafter]
    rfl
  | some value =>
    have hequals : ∀ c ∈ ('=' :: '"' :: ((encodeValue value).toList ++ '"' :: rest)).head?,
        ¬ isNameChar c := by
      rintro _ ⟨⟩
      decide
    obtain ⟨c, cs, hdrop, hc, htaken, hafter⟩ := exists_name_after_space hne hname hequals
    have hwritten : (writeAttribute ⟨name, some value⟩).toList ++ rest =
        ' ' :: (name.toList ++ '=' :: '"' :: ((encodeValue value).toList ++ '"' :: rest)) := by
      simp [toList_writeAttribute_valued]
    rw [hwritten, readEntries_valued hdrop hc hafter, htaken, readValue_encodeValue,
      String.ofList_toList]
    rfl

theorem head?_writeAttributes (as : List Attribute) :
    ∀ c ∈ (writeAttributes ⟨as⟩).toList.head?, c = ' ' := by
  rw [toList_writeAttributes]
  cases as with
  | nil => simp
  | cons a as =>
    obtain ⟨name, value⟩ := a
    cases value with
    | none => simp [toList_writeAttribute_bare]
    | some value => simp [toList_writeAttribute_valued]

theorem readEntries_writeAttributes {as : List Attribute} (hne : ∀ a ∈ as, a.name ≠ "")
    (hname : ∀ a ∈ as, ∀ c ∈ a.name.toList, isNameChar c) :
    readEntries (writeAttributes ⟨as⟩).toList = as.map encoded := by
  induction as with
  | nil =>
    rw [readEntries]
    rfl
  | cons a as ih =>
    obtain ⟨hneFirst, hneRest⟩ := List.forall_mem_cons.mp hne
    obtain ⟨hnameFirst, hnameRest⟩ := List.forall_mem_cons.mp hname
    rw [toList_writeAttributes, List.flatMap_cons, ← toList_writeAttributes,
      readEntries_writeAttribute hneFirst hnameFirst (head?_writeAttributes as),
      ih hneRest hnameRest, List.map_cons]

theorem length_le_encodeValueChars (cs : List Char) :
    cs.length ≤ (cs.flatMap encodeValueChar).length := by
  induction cs with
  | nil => exact Nat.le_refl 0
  | cons c cs ih =>
    have hc : 1 ≤ (encodeValueChar c).length := by
      unfold encodeValueChar
      split
      · decide
      split
      · decide
      · exact Nat.le_refl 1
    rw [List.flatMap_cons, List.length_append, List.length_cons]
    omega

/-- A value is written as it is exactly if there is nothing to encode in it. -/
theorem encodeValue_eq_self_iff (value : String) :
    encodeValue value = value ↔ '"' ∉ value.toList ∧ '&' ∉ value.toList := by
  have hchars : ∀ cs : List Char, cs.flatMap encodeValueChar = cs ↔ '"' ∉ cs ∧ '&' ∉ cs := by
    intro cs
    induction cs with
    | nil => simp
    | cons c cs ih =>
      by_cases hspecial : c = '"' ∨ c = '&'
      · -- the reference is longer than the character, and nothing after it gets shorter
        have hlong : 1 < (encodeValueChar c).length := by
          rcases hspecial with rfl | rfl
          · decide
          · decide
        have hle := length_le_encodeValueChars cs
        refine iff_of_false (fun heq => ?_) ?_
        · have hlength := congrArg List.length heq
          rw [List.flatMap_cons, List.length_append, List.length_cons] at hlength
          omega
        · rcases hspecial with rfl | rfl
          · simp
          · simp
      · obtain ⟨hquote, hamp⟩ := not_or.mp hspecial
        have hsame : encodeValueChar c = [c] := by simp [encodeValueChar, hamp, hquote]
        rw [List.flatMap_cons, hsame, List.singleton_append, List.cons_inj_right, ih]
        simp [Ne.symm hamp, Ne.symm hquote]
  rw [encodeValue, ← String.toList_inj, String.toList_ofList, hchars]

theorem parse_writeAttributes {as : Attributes} (h : as.WellNamed) :
    parse (writeAttributes as) = ⟨as.entries.map encoded⟩ := by
  obtain ⟨entries⟩ := as
  have hname : ∀ a ∈ entries, ∀ c ∈ a.name.toList, isNameChar c := by
    intro a ha c hc
    simpa [isNameChar] using h.separate a ha c hc
  have hnodup : ((entries.map encoded).map Attribute.name).Nodup := by
    rw [List.map_map]
    exact h.nodup
  rw [parse, readEntries_writeAttributes h.ne_empty hname, setAll_empty, merged_eq_self hnodup]

theorem parse_writeAttributes_eq_iff {as : Attributes} (h : as.WellNamed) :
    parse (writeAttributes as) = as ↔
      ∀ a ∈ as.entries, ∀ value ∈ a.value, '"' ∉ value.toList ∧ '&' ∉ value.toList := by
  have hentry : ∀ a : Attribute, a.encoded = a ↔
      ∀ value ∈ a.value, '"' ∉ value.toList ∧ '&' ∉ value.toList := by
    rintro ⟨name, value⟩
    cases value with
    | none => simp [encoded]
    | some value => simp [encoded, encodeValue_eq_self_iff]
  obtain ⟨entries⟩ := as
  have hmap : entries.map encoded = entries ↔ ∀ a ∈ entries, a.encoded = a := by
    simpa using List.map_inj_left (l := entries) (f := encoded) (g := id)
  rw [parse_writeAttributes h, Attributes.mk.injEq, hmap]
  simp only [hentry]

/-- Attributes that are set one after the other keep the names in the order in which they were first
set, each once and with the value that was set last. What is read from any text has names that can
be told apart in a text, and attributes with such names are read back as they were exactly if their
values have no quote and no ampersand. -/
theorem set_in_order_and_read_back :
    (∀ sets : List Attribute,
      ((empty.setAll sets).entries.map Attribute.name).Nodup ∧
      (empty.setAll sets).entries.map Attribute.name = (sets.map Attribute.name).eraseDups ∧
      ∀ name, (empty.setAll sets).get? name = sets.reverse.find? (·.name == name)) ∧
    (∀ text : String, (parse text).WellNamed) ∧
    ∀ as : Attributes, as.WellNamed →
      (parse (writeAttributes as) = as ↔
        ∀ a ∈ as.entries, ∀ value ∈ a.value, '"' ∉ value.toList ∧ '&' ∉ value.toList) := by
  refine ⟨fun sets => ⟨?_, ?_, fun name => ?_⟩, wellNamed_parse,
    fun as => parse_writeAttributes_eq_iff⟩
  · rw [setAll_empty]
    exact nodup_map_name_merged sets
  · rw [setAll_empty]
    exact map_name_merged sets
  · rw [get?, setAll_empty]
    exact find?_merged name sets

/-- A bare name, an empty value, and a value with white space, an equals sign and other quotes. -/
theorem set_in_order_and_read_back_mixed :
    let as : Attributes := ⟨[⟨"\"hidden", none⟩, ⟨"alt", some ""⟩, ⟨"title", some "a = “b”"⟩]⟩
    as.WellNamed ∧
      (∀ a ∈ as.entries, ∀ value ∈ a.value, '"' ∉ value.toList ∧ '&' ∉ value.toList) ∧
      parse (writeAttributes as) = as := by
  intro as
  have hchars : as.entries.all (·.name.toList.all isNameChar) := by decide
  have hnames : as.WellNamed := by
    refine ⟨by decide, by simp [as], fun a ha c hc => ?_⟩
    simpa [isNameChar] using List.all_eq_true.mp (List.all_eq_true.mp hchars a ha) c hc
  have hvalues : ∀ a ∈ as.entries, ∀ value ∈ a.value, '"' ∉ value.toList ∧ '&' ∉ value.toList := by
    simp [as]
  exact ⟨hnames, hvalues, (set_in_order_and_read_back.2.2 as hnames).mpr hvalues⟩

end Attributes

end AcademicMarkup

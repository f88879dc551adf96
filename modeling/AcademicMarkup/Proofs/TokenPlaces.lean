import AcademicMarkup.Proofs.MarkedSpans
import Mathlib.Data.List.DropRight

/-!
Where tokens stand in a source text. Offsets, lines and columns are counted along the way from one
character to the next; here they are told from the text that stands before a token, and the bytes of
the source between the two offsets of a token are those of its text.
-/
namespace AcademicMarkup

/-- The place after a text: a line for each line feed, and a column for each character since the
last one. -/
theorem Position.after_origin (text : List Char) :
    Position.origin.after text =
      ⟨(String.ofList text).utf8ByteSize, 1 + text.count '\n',
        1 + (text.rtakeWhile (· ≠ '\n')).length⟩ := by
  induction text using List.reverseRecOn with
  | nil => rfl
  | append_singleton text c ih =>
    have hbytes : (String.ofList (text ++ [c])).utf8ByteSize =
        (String.ofList text).utf8ByteSize + c.utf8Size := by
      rw [String.ofList_append, String.utf8ByteSize_append]
      simp
    rw [Position.after_append, ih, hbytes, List.count_append]
    change Position.advance _ c = _
    unfold Position.advance
    split
    · rename_i hc
      rw [List.rtakeWhile_concat_neg _ _ _ (by simp [hc])]
      simp [hc, Nat.add_assoc]
    · rename_i hc
      rw [List.rtakeWhile_concat_pos _ _ _ (by simp [hc])]
      simp [hc, Nat.add_assoc]

theorem Text.bytes_between (before text after : String) :
    (before ++ text ++ after).toByteArray.extract before.utf8ByteSize
      (before ++ text).utf8ByteSize = text.toByteArray := by
  have hsize : (before ++ text).utf8ByteSize = (before ++ text).toByteArray.size := rfl
  rw [String.toByteArray_append, hsize, ByteArray.extract_append_size_left,
    String.toByteArray_append]
  exact ByteArray.extract_append_eq_right rfl ByteArray.size_append

namespace Token

/-- A token and the texts before and after it in the source. Its offsets are numbers of bytes, its
line counts the line feeds before it, and its column the characters since the last of them. -/
structure StandsBetween (source before after : String) (t : Token) : Prop where
  source_eq : source = before ++ t.text ++ after
  start : t.span.start = before.utf8ByteSize
  stop : t.span.stop = (before ++ t.text).utf8ByteSize
  bytes : source.toByteArray.extract t.span.start t.span.stop = t.text.toByteArray
  line : t.span.line = 1 + before.toList.count '\n'
  column : t.span.column = 1 + (before.toList.rtakeWhile (· ≠ '\n')).length

theorem joinedText_nil : joinedText [] = "" := rfl

theorem joinedText_append (ts us : List Token) :
    joinedText (ts ++ us) = joinedText ts ++ joinedText us := by
  simp only [joinedText, List.map_append, String.join_append]

theorem joinedText_cons (t : Token) (ts : List Token) :
    joinedText (t :: ts) = t.text ++ joinedText ts := by
  simp only [joinedText, List.map_cons, String.join_cons]

/-- A token that is laid out spans from the place after the texts before it to the place after its
own. -/
theorem span_of_split {source : String} {before after : List Token} {t : Token}
    (h : ofSource source = before ++ t :: after) :
    t.span = (Position.origin.after (joinedText before).toList).spanTo
      (Position.origin.after (joinedText before ++ t.text).toList) := by
  obtain ⟨front, back, -, hbefore, hback⟩ := layOut_eq_append h
  cases back with
  | nil => simp [layOut] at hback
  | cons text more =>
    rw [layOut, List.cons.injEq] at hback
    rw [hback.1, hbefore, joinedText_layOut, String.toList_append, String.toList_ofList,
      String.toList_ofList, Position.after_append]

theorem standsBetween_of_split {source : String} {before after : List Token} {t : Token}
    (h : ofSource source = before ++ t :: after) :
    t.StandsBetween source (joinedText before) (joinedText after) := by
  have hsource : source = joinedText before ++ t.text ++ joinedText after := by
    rw [← joinedText_ofSource source, h, joinedText_append, joinedText_cons, String.append_assoc]
  have hspan := span_of_split h
  simp only [Position.after_origin, Position.spanTo, String.ofList_toList] at hspan
  refine ⟨hsource, by rw [hspan], by rw [hspan], ?_, by rw [hspan], by rw [hspan]⟩
  rw [hspan, hsource]
  exact Text.bytes_between _ _ _

/-- No character of a source text is lost and no token is empty. The tokens fill the source text one
after the other, and each carries the exact place at which it stands. -/
theorem ofSource_places (source : String) :
    joinedText (ofSource source) = source ∧
    (∀ t ∈ ofSource source, t.text ≠ "") ∧
    Span.Contiguous 0 ((ofSource source).map Token.span) source.utf8ByteSize ∧
    ∀ before t after, ofSource source = before ++ t :: after →
      t.StandsBetween source (joinedText before) (joinedText after) := by
  refine ⟨joinedText_ofSource source, ?_, contiguous_ofSource source, ?_⟩
  · intro t ht hempty
    obtain ⟨before, after, hsplit⟩ := List.mem_iff_append.mp ht
    obtain ⟨-, hstart, hstop, -, -, -⟩ := standsBetween_of_split hsplit
    have hlt := start_lt_stop_of_mem_ofSource ht
    rw [hempty, String.append_empty] at hstop
    omega
  · intro before t after hsplit
    exact standsBetween_of_split hsplit

/-- A token of three bytes on a second line, after white space that breaks the line. -/
theorem ofSource_places_second_line :
    ofSource "é\n ß1\x7b" = [⟨"é", 0, 2, 1, 1⟩, ⟨"\n ", 2, 4, 1, 2⟩] ++
      (⟨"ß1", 4, 7, 2, 2⟩ : Token) :: [⟨"\x7b", 7, 8, 2, 4⟩] ∧
    StandsBetween "é\n ß1\x7b" "é\n " "\x7b" ⟨"ß1", 4, 7, 2, 2⟩ := by
  have hsplit : ofSource "é\n ß1\x7b" = [⟨"é", 0, 2, 1, 1⟩, ⟨"\n ", 2, 4, 1, 2⟩] ++
      (⟨"ß1", 4, 7, 2, 2⟩ : Token) :: [⟨"\x7b", 7, 8, 2, 4⟩] := by decide +kernel
  exact ⟨hsplit, (ofSource_places _).2.2.2 _ _ _ hsplit⟩

end Token

end AcademicMarkup

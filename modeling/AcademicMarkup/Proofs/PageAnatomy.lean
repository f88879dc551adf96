import AcademicMarkup.Compilation
import AcademicMarkup.Proofs.NormalForm
import AcademicMarkup.Proofs.WrittenContent

/-!
The parts of a page. Between a head that depends on the options alone and a script that depends on
the lists of mathematics alone stand the table of contents and the body, and both are written from
events.
-/
namespace AcademicMarkup

open Html

namespace Page

/-- What stands before the table of contents. -/
def opening (options : Options) : String :=
  String.intercalate "\n"
    (["<!DOCTYPE html>", "<html>", "<head>"] ++ head options ++ ["</head>", "<body>", ""])

/-- What stands after the body, where these texts are the lists of mathematics. -/
def closing (blocks inlines : String) : String :=
  String.intercalate "\n"
    (["", "<script>"] ++ mathScript ++
      ["    window.onload = function() \x7b",
       "        renderBlockMath([" ++ blocks ++ "]);",
       "        renderInlineMath([" ++ inlines ++ "]);",
       "    \x7d", "</script>", "</body>", "</html>", ""])

/-- The events of a table of contents with this title and these entries. -/
def contentsEvents (title : String) (entries : List (List Event)) : List Event :=
  [.startTag "div" [⟨"toc", none⟩], .text "\n", .startTag "h1" [⟨"toc-title", none⟩], .text title,
    .endTag "h1", .text "\n", .startTag "ul" [⟨"toc-entries", none⟩]] ++
  List.intercalate [.text "\n"] entries ++ [.endTag "ul", .text "\n", .endTag "div"]

theorem write_contentsEvents (title : String) (entries : List (List Event)) :
    write (contentsEvents title entries) =
      "<div toc>\n<h1 toc-title>" ++ encodeText title ++ "</h1>\n<ul toc-entries>" ++
        String.intercalate "\n" (entries.map write) ++ "</ul>\n</div>" := by
  have hframe : write [.startTag "div" [⟨"toc", none⟩], .text "\n",
      .startTag "h1" [⟨"toc-title", none⟩]] = "<div toc>\n<h1 toc-title>" := by decide
  have hlist : write [.endTag "h1", .text "\n", .startTag "ul" [⟨"toc-entries", none⟩]] =
      "</h1>\n<ul toc-entries>" := by decide
  have hend : write [.endTag "ul", .text "\n", .endTag "div"] = "</ul>\n</div>" := by decide
  have htitle : write [.text title] = encodeText title := by simp [write, Event.write]
  rw [contentsEvents, write_append, write_append, write_intercalate]
  rw [← hframe, ← hlist, ← hend, ← htitle, ← write_append, ← write_append]
  rfl

/-- Two lines between other lines. -/
theorem intercalate_around {before after : List String} (hbefore : before ≠ [])
    (hafter : after ≠ []) (s t : String) :
    String.intercalate "\n" (before ++ [s, t] ++ after) =
      String.intercalate "\n" (before ++ [""]) ++ s ++ "\n" ++ t ++
        String.intercalate "\n" ([""] ++ after) := by
  rw [String.intercalate_append_of_ne_nil (by simp) hafter,
    String.intercalate_append_of_ne_nil hbefore (by simp),
    String.intercalate_append_of_ne_nil hbefore (by simp),
    String.intercalate_append_of_ne_nil (by simp) hafter]
  simp [String.append_assoc]

/-- The parts of a page, from the table of contents and what it has collected. -/
theorem assemble_eq {size : Nat} (body : String) (s : Register size) {options : Options}
    {toc : String × Register size}
    (htoc : (if options.contents then contents s options.contentsTitle else ("", s)) = toc) :
    (assemble body s options).1 =
      opening options ++ toc.1 ++ "\n" ++ body ++
        closing (listed toc.2.blockIds) (listed toc.2.inlineIds) := by
  simp only [assemble, htoc]
  have hsplit := @intercalate_around
    (["<!DOCTYPE html>", "<html>", "<head>"] ++ head options ++ ["</head>", "<body>"])
    (["<script>"] ++ script toc.2 ++ ["</script>", "</body>", "</html>", ""]) (by simp) (by simp)
    toc.1 body
  simpa [opening, closing, script] using hsplit

theorem contents_eq (s : Register) (title : String) :
    contents s title =
      (write (contentsEvents title (Content.eventsEach s.nextId (s.headings.map Heading.entry)).1),
        (Content.renderAll s (s.headings.map Heading.entry)).2) := by
  rw [write_contentsEvents, ← (Content.renderAll_eq s _).1]
  rfl

end Page

namespace Compilation

/-- The content of the body. -/
def content (source : String) : Content :=
  .fragment (Document.denote (Document.ofSource source).normalForm.definitions
    (Document.normal (Document.ofSource source))).content

def bodyEvents (source : String) : List Event := ((content source).events 0).1

/-- What writing the body has collected. -/
def bodyRegister (source : String) : Register := ((content source).render .initial).2

/-- The entries of the table of contents. -/
def entries (source : String) : List Content := (bodyRegister source).headings.map Heading.entry

/-- The events of each entry of the table of contents. -/
def entryEvents (source : String) : List (List Event) :=
  (Content.eventsEach (bodyRegister source).nextId (entries source)).1

def contentsEvents (options : Options) (source : String) : List Event :=
  if options.contents then Page.contentsEvents options.contentsTitle (entryEvents source) else []

/-- What writing the table of contents after the body has collected. -/
def pageRegister (options : Options) (source : String) : Register :=
  if options.contents then (Content.renderAll (bodyRegister source) (entries source)).2
  else bodyRegister source

theorem body_eq (options : Options) (source : String) :
    (ofSource options source).body = write (bodyEvents source) :=
  (Content.render_eq .initial (content source)).1

theorem page_eq_assemble (options : Options) (source : String) :
    (ofSource options source).page =
      (Page.assemble (ofSource options source).body (bodyRegister source) options).1 := by
  simp only [ofSource, bodyRegister, content, Document.normal]

theorem page_eq (options : Options) (source : String) :
    (ofSource options source).page =
      Page.opening options ++ write (contentsEvents options source) ++ "\n" ++
        write (bodyEvents source) ++
        Page.closing (Page.listed (pageRegister options source).blockIds)
          (Page.listed (pageRegister options source).inlineIds) := by
  have htoc : (if options.contents then Page.contents (bodyRegister source) options.contentsTitle
      else ("", bodyRegister source)) =
        (write (contentsEvents options source), pageRegister options source) := by
    rw [contentsEvents, pageRegister, Page.contents_eq]
    split <;> rfl
  rw [page_eq_assemble, Page.assemble_eq _ _ htoc, body_eq]

end Compilation

end AcademicMarkup

import AcademicMarkup.Html
import AcademicMarkup.Options
import AcademicMarkup.Page.Shell
import AcademicMarkup.Text.Quoted

/-!
The page around a body: its head, a table of contents made of the headings that were written, and
a script with the names of all mathematics. The headings are written again in the table of
contents, so mathematics in a heading is numbered twice.
-/
namespace AcademicMarkup

namespace Heading

/-- The name of a heading. -/
def id (h : Heading) : String := ((h.attributes.get? "id").bind Attribute.value).getD ""

/-- The entry of a heading in the table of contents. -/
def entry (h : Heading) : Content :=
  .element "li" ⟨[⟨"toc", none⟩, ⟨"entry", some h.tag⟩]⟩
    [.element "a" ⟨[⟨"href", some ("#" ++ h.id)⟩]⟩ h.children]

end Heading

namespace Page

variable {size : Nat}

/-- The table of contents of the headings written so far. -/
def contents (s : Register size) (title : String) : String × Register size :=
  let entries := Content.renderAll s (s.headings.map Heading.entry)
  ("<div toc>\n<h1 toc-title>" ++ Html.encodeText title ++ "</h1>\n<ul toc-entries>" ++
    String.intercalate "\n" entries.1 ++ "</ul>\n</div>", entries.2)

def head (options : Options) : List String :=
  links ++
    (options.stylesheet.map fun s =>
      "<link rel=\"stylesheet\" href=\"" ++ Html.encodeValue s ++ "\">").toList ++
    style ++
    (options.title.map fun t => "<title>" ++ Html.encodeText t ++ "</title>").toList

def listed (ids : List String) : String := String.intercalate "," (ids.map Text.quote)

/-- The script that typesets all mathematics on the page. -/
def script (s : Register size) : List String :=
  mathScript ++
    ["    window.onload = function() \x7b",
     "        renderBlockMath([" ++ listed s.blockIds ++ "]);",
     "        renderInlineMath([" ++ listed s.inlineIds ++ "]);",
     "    \x7d"]

/-- The whole page around a body that left this state. -/
def assemble (body : String) (s : Register size) (options : Options) :
    String × Register size :=
  let contents := if options.contents then contents s options.contentsTitle else ("", s)
  (String.intercalate "\n"
    (["<!DOCTYPE html>", "<html>", "<head>"] ++ head options ++
      ["</head>", "<body>", contents.1, body, "<script>"] ++ script contents.2 ++
      ["</script>", "</body>", "</html>", ""]), contents.2)

end Page

end AcademicMarkup

/-!
The fixed parts of a page: where its fonts and the typesetting of mathematics come from, its basic
style, and the script that typesets mathematics when the page is loaded.
-/
namespace AcademicMarkup.Page

/-- Fonts and the typesetter. -/
def links : List String :=
  ["<link rel=\"preconnect\" href=\"https://fonts.googleapis.com\">",
   "<link rel=\"preconnect\" href=\"https://fonts.gstatic.com\" crossorigin>",
   "<link href=\"https://fonts.googleapis.com/css2?family=Dancing+Script:wght@400;500;600;700" ++
     "&family=DynaPuff:wght@400;500;600;700" ++
     "&family=Playfair+Display:ital,wght@0,500;0,600;0,700;1,400;1,500;1,600;1,700" ++
     "&family=Yomogi&display=swap\" rel=\"stylesheet\">",
   "<link rel=\"stylesheet\"" ++
     " href=\"https://cdn.jsdelivr.net/npm/katex@0.16.0/dist/katex.min.css\"" ++
     " integrity=\"sha384-Xi8rHCmBmhbuyyhbI88391ZKP2dmfnOl4rT9ZfRI7mLTdk1wblIUnrIq35nqwEvC\"" ++
     " crossorigin=\"anonymous\">",
   "<script src=\"https://cdn.jsdelivr.net/npm/katex@0.16.0/dist/katex.min.js\"" ++
     " integrity=\"sha384-X/XCfMm41VSsqRNQgDerQczD69XqmjOOOwYQvr/uuC+j4OPoNhVgjdGFwhvN02Ja\"" ++
     " crossorigin=\"anonymous\"></script>",
   "<script src=\"https://cdn.jsdelivr.net/npm/katex@0.16.0/dist/contrib/mhchem.min.js\"" ++
     " integrity=\"sha384-RTN08a0AXIioPBcVosEqPUfKK+rPp+h1x/izR7xMkdMyuwkcZCWdxO+RSwIFtJXN\"" ++
     " crossorigin=\"anonymous\"></script>"]

def style : List String :=
  ["<style>",
   "* \x7b",
   "    box-sizing: border-box;",
   "\x7d",
   "body \x7b",
   "    margin: 0;",
   "\x7d",
   "</style>",
   "<meta name=\"viewport\" content=\"width=device-width, initial-scale=1\">",
   "<meta charset=\"utf-8\"/>"]

/-- The typesetter takes the text of each element and puts the formula in its place. -/
def mathScript : List String :=
  ["    function renderBlockMath(ids) \x7b",
   "        for (const id of ids) \x7b",
   "            const element = document.getElementById(id);",
   "            katex.render(element.textContent, element, \x7bdisplayMode: true\x7d);",
   "        \x7d",
   "    \x7d",
   "    function renderInlineMath(ids) \x7b",
   "        for (const id of ids) \x7b",
   "            const element = document.getElementById(id);",
   "            katex.render(element.textContent, element, \x7bdisplayMode: false\x7d);",
   "        \x7d",
   "    \x7d"]

end AcademicMarkup.Page

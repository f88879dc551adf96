import AcademicMarkup.Binary64
import AcademicMarkup.Text.Quoted

/-!
The options of a page, and how they are taken from named values. Each has a default, and a name
that is not an option is refused.
-/
namespace AcademicMarkup

structure Options where
  /-- Whether a table of contents stands before the body. -/
  contents : Bool
  /-- The title of the table of contents. -/
  contentsTitle : String
  /-- A style sheet to link to. -/
  stylesheet : Option String
  /-- The title of the page. -/
  title : Option String
deriving DecidableEq, Repr

/-- A value that may be given for an option. -/
inductive OptionValue where
  | null
  | boolean (value : Bool)
  | integer (value : Int)
  | floating (value : Binary64)
  | string (value : String)
  | sequence
  | map
deriving DecidableEq, Repr

namespace OptionValue

def description : OptionValue → String
  | null => "null"
  | boolean true => "boolean `true`"
  | boolean false => "boolean `false`"
  | integer n => "integer `" ++ toString n ++ "`"
  | floating x => "floating point `" ++ x.text ++ "`"
  | string s => "string " ++ Text.quote s
  | sequence => "sequence"
  | map => "map"

end OptionValue

inductive OptionError where
  | unknownField (name : String)
  | notBoolean (found : OptionValue)
  | notString (found : OptionValue)
deriving DecidableEq, Repr

namespace OptionError

def message : OptionError → String
  | unknownField name =>
    "unknown field `" ++ name ++ "`, expected one of `toc`, `toc_title`, `stylesheet`, `title`"
  | notBoolean found => "invalid type: " ++ found.description ++ ", expected a boolean"
  | notString found => "invalid type: " ++ found.description ++ ", expected a string"

end OptionError

namespace Options

def default : Options := ⟨true, "Table Of Contents", some "styling.css", none⟩

def string? : OptionValue → Except OptionError String
  | .string s => .ok s
  | found => .error (.notString found)

/-- A text that may be absent. -/
def stringOrNull? : OptionValue → Except OptionError (Option String)
  | .null => .ok none
  | .string s => .ok (some s)
  | found => .error (.notString found)

/-- Sets one option. -/
def set (o : Options) (name : String) (value : OptionValue) : Except OptionError Options :=
  match name, value with
  | "toc", .boolean b => .ok { o with contents := b }
  | "toc", found => .error (.notBoolean found)
  | "toc_title", value => do return { o with contentsTitle := ← string? value }
  | "stylesheet", value => do return { o with stylesheet := ← stringOrNull? value }
  | "title", value => do return { o with title := ← stringOrNull? value }
  | name, _ => .error (.unknownField name)

/-- Options from named values, taken in the order of their names; the first bad one is the
error. -/
def ofFields (fields : List (String × OptionValue)) : Except OptionError Options :=
  (fields.mergeSort fun a b => a.1 ≤ b.1).foldlM (fun o (name, value) => o.set name value) default

end Options

end AcademicMarkup

import Boardwright.Text.Blank
import Boardwright.Text.Kebab

/-!
# Templates

A template is a text in which names stand between double braces; what a name stands for
is written in its place, and nothing for a name that is not known. One line end at the
end of a template is dropped. Double braces that are not closed, or that do not hold a
name, are a fault.
-/

namespace Boardwright

namespace Template

abbrev Names := List (String × String)

def ending : String := ".j2"

def isName : List Char → Bool
  | [] => false
  | c :: cs => (c.isAlpha || c == '_') && cs.all fun d => d.isAlphanum || d == '_'

/-- A piece of a template, after the double braces that open it, with its name replaced. -/
def filled (names : Names) (piece : List Char) : Option (List Char) :=
  match Text.cut ['\x7d', '\x7d'] piece with
  | none => none
  | some (inside, after) =>
    let name := Text.strip Text.isBlank inside
    if isName name then
      some (((names.lookup (String.ofList name)).getD "").toList ++ after)
    else none

def withoutLastLineEnd (s : List Char) : List Char :=
  match s.reverse with
  | '\n' :: r => r.reverse
  | _ => s

/-- A template with its names replaced, if it is well formed. -/
def fill (names : Names) (template : String) : Option String :=
  match Text.splitOn ['\x7b', '\x7b'] (withoutLastLineEnd (Text.lineFeeds template.toList)) with
  | [] => some ""
  | plain :: pieces => (pieces.mapM (filled names)).map fun texts =>
    String.ofList (plain ++ texts.flatten)

/-- The name of the file that is made of a template: without the ending of templates, and
with the name of the project where it is asked for. -/
def targetName (project name : String) : String :=
  Text.replace "__name__" (Text.kebab project) (Text.replace ending "" name)

end Template

end Boardwright

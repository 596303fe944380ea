import Boardwright.Version.Spec

/-!
# Names of packages with specifiers

A package is asked for by its name, with or without a specifier of its version after
it. The two are divided where a mark of specifiers begins, or else at the first space,
or else at an at sign; of several marks the one that is looked for first counts, not
the one that comes first.
-/

namespace Boardwright

/-- The name of a package, and the specifier after it. -/
structure PackageSpec where
  name : String
  spec : Option String
  deriving Repr, DecidableEq

namespace PackageSpec

/-- The marks at which a specifier may begin, in the order in which they are looked
for. -/
def marks : List String := Version.operators ++ [" ", "@"]

/-- The text from the first occurrence of a mark on, and what stands before it. -/
def cutAt (mark : String) (s : List Char) : Option (List Char × List Char) :=
  (Text.cut mark.toList s).map fun (before, after) => (before, mark.toList ++ after)

def ofText (s : String) : PackageSpec :=
  match marks.findSome? fun mark => cutAt mark s.toList with
  | some (name, spec) =>
    ⟨String.ofList (Text.strip Text.isBlank name), some (String.ofList (Text.strip Text.isBlank spec))⟩
  | none => ⟨s, none⟩

end PackageSpec

end Boardwright

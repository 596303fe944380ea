import Boardwright.Markup.Scalar

/-!
# Writing configuration texts

A map is written with an entry on each line, the entries of a map in it being
indented; the items of a list are written on lines that begin with a hyphen. What is
in a list is written on one line.
-/

namespace Boardwright.Markup

mutual

/-- Data on one line. -/
def flow : Document → String
  | .list items => "[" ++ Text.join ", " (flowAll items) ++ "]"
  | .map entries => "\x7b" ++ Text.join ", " (flowEntries entries) ++ "\x7d"
  | d => scalar d

def flowAll : List Document → List String
  | [] => []
  | d :: ds => flow d :: flowAll ds

def flowEntries : List (Document × Document) → List String
  | [] => []
  | (k, v) :: es => (flow k ++ ": " ++ flow v) :: flowEntries es

end

mutual

def blockLines (margin : String) : Document → List String
  | .list (d :: ds) => (d :: ds).map fun item => margin ++ "- " ++ flow item
  | .map (e :: es) => entryLines margin (e :: es)
  | d => [margin ++ flow d]

def entryLines (margin : String) : List (Document × Document) → List String
  | [] => []
  | (k, v) :: es =>
    (match v with
      | .list (_ :: _) => (margin ++ flow k ++ ":") :: blockLines margin v
      | .map (_ :: _) => (margin ++ flow k ++ ":") :: blockLines (margin ++ "  ") v
      | _ => [margin ++ flow k ++ ": " ++ flow v]) ++ entryLines margin es

end

def text (d : Document) : String :=
  String.join ((blockLines "" d).map fun l => l ++ "\n")

end Boardwright.Markup

import Boardwright.Netlist.Basic

/-!
# The text of a netlist

A netlist is written as nested lists in brackets, whose leaves are words and texts in
quotation marks. It is written mark by mark; the text is the marks put together.
-/

namespace Boardwright

/-- A piece of the text of nested lists. -/
inductive Mark
  | opening
  | closing
  | word (s : String)
  | quoted (s : String)
  | blank (s : String)
  deriving Repr, DecidableEq

namespace Mark

def text : Mark → String
  | opening => "("
  | closing => ")"
  | word s => s
  | quoted s => "\"" ++ s ++ "\""
  | blank s => s

/-- A blank. -/
def space : Mark := .blank " "

def line (indentation : Nat) : Mark :=
  .blank ("\n" ++ String.ofList (List.replicate indentation ' '))

/-- A list of a word and a quoted text. -/
def field (name value : String) : List Mark :=
  [.opening, .word name, .space, .quoted value, .closing]

def start (indentation : Nat) (name : String) : List Mark :=
  [line indentation, .opening, .word name]

def join (ms : List Mark) : String := String.join (ms.map text)

end Mark

open Mark

namespace Placement

/-- The marks of the entry of a component. An empty footprint is left out. -/
def marks (p : Placement) : List Mark :=
  start 4 "comp" ++ [space] ++ field "ref" p.designator ++
    [line 6] ++ field "value" p.value ++
    (if p.footprint.isEmpty then [] else [line 6] ++ field "footprint" p.footprint) ++
    start 6 "libsource" ++ [space] ++ field "lib" "lib" ++ [space] ++
      field "part" p.library.part ++ [space] ++ field "description" p.library.description ++
      [.closing] ++
    start 6 "sheetpath" ++ [space] ++ field "names" p.path ++ [space] ++
      field "tstamps" p.stamp ++ [.closing] ++
    [line 6] ++ field "tstamps" p.stamp ++ [.closing]

end Placement

namespace LibraryPart

def pinMarks (pin : String) : List Mark :=
  start 8 "pin" ++ [space] ++ field "num" pin ++ [space] ++ field "name" pin ++ [space] ++
    field "type" "stereo" ++ [.closing]

def marks (l : LibraryPart) : List Mark :=
  start 4 "libpart" ++ [space] ++ field "lib" "lib" ++ [space] ++ field "part" l.part ++
    (if l.description.isEmpty then [] else [line 6] ++ field "description" l.description) ++
    [line 6] ++ field "docs" "~" ++
    start 6 "footprints" ++ [line 8] ++ field "fp" "*" ++ [.closing] ++
    (if l.pins.isEmpty then [] else start 6 "pins" ++ l.pins.flatMap pinMarks) ++
    [.closing, .closing]

end LibraryPart

namespace Wire

def terminalMarks (t : Terminal) : List Mark :=
  start 6 "node" ++ [space] ++ field "ref" t.designator ++ [space] ++ field "pin" t.pin ++ [space] ++
    field "pintype" "stereo" ++ [.closing]

def marks (w : Wire) : List Mark :=
  start 4 "net" ++ [space] ++ field "code" (toString w.code) ++ [space] ++ field "name" w.name ++
    w.terminals.flatMap terminalMarks ++ [.closing]

end Wire

namespace Netlist

def listed {α : Type} (name : String) (f : α → List Mark) (xs : List α) : List Mark :=
  if xs.isEmpty then [] else start 2 name ++ xs.flatMap f ++ [.closing]

def marks (n : Netlist) : List Mark :=
  [.opening, .word "export", space] ++ field "version" "E" ++
    start 2 "design" ++ [line 4] ++ field "source" "unknown" ++ [line 4] ++ field "date" "" ++
      [line 4] ++ field "tool" "atopile" ++ [.closing] ++
    listed "components" Placement.marks n.placements ++
    listed "libparts" LibraryPart.marks n.libraryParts ++
    listed "nets" Wire.marks n.wires ++
    [.closing]

def text (n : Netlist) : String := Mark.join n.marks ++ "\n"

end Netlist

end Boardwright

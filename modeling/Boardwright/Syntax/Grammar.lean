import Boardwright.Quantity.Literal
import Boardwright.Syntax.Parse

/-!
# The rules of the grammar by name

Every rule of the grammar can be read on its own. A rule takes as many tokens as it
can and leaves the others.
-/

namespace Boardwright.Syntax

def Parse.unary (rule : String) (k : Kind) : Parse Tree := do return .unary rule (← expect k)

def Parse.formed (next : Measure → Parse Physical) : Parse Tree := do
  return (← next (← measure)).formTree

def grammar : List (String × Parse Tree) :=
  [("file_input", do return (← Parse.file).tree),
   ("stmt", do return (← Parse.stmt (2 * (← get).length + 2)).tree),
   ("simple_stmts", do return (← Parse.line).tree),
   ("simple_stmt", do return (← Parse.simple).tree),
   ("compound_stmt", do
      let h ← Parse.header
      let b ← Parse.block (2 * (← get).length + 2)
      return .node "compound_stmt" [blockDefTree h b]),
   ("block", do return (← Parse.block (2 * (← get).length + 2)).tree),
   ("blockdef", do
      let h ← Parse.header
      let b ← Parse.block (2 * (← get).length + 2)
      return blockDefTree h b),
   ("blocktype", do return .unary "blocktype" (← Parse.blockWord)),
   ("import_stmt", do return (← Parse.importing).formTree),
   ("assign_stmt", do return (← Parse.assignAfter (← Parse.path)).formTree),
   ("assignable", do return (← Parse.assignable).tree),
   ("quantity_end", do return (← Parse.measure).tree "quantity_end"),
   ("bound_quantity", Parse.formed Parse.boundAfter),
   ("bilateral_nominal", do return (← Parse.measure).tree "bilateral_nominal"),
   ("bilateral_tolerance", do return (← Parse.tolerance).tree),
   ("bilateral_quantity", Parse.formed Parse.bilateralAfter),
   ("implicit_quantity", do return (← Parse.measure).tree "implicit_quantity"),
   ("physical", do return (← Parse.physical).tree),
   ("retype_stmt", do return (← Parse.retypeAfter (← Parse.path)).formTree),
   ("connect_stmt", do return (← Parse.connectAfter (← Parse.connectable)).formTree),
   ("connectable", do return (← Parse.connectable).tree),
   ("signaldef_stmt", do return (← Parse.signalDef).tree),
   ("pindef_stmt", do return (← Parse.pinDef).tree),
   ("new_stmt", do
      let (word, cls) ← Parse.newStmt
      return newTree word cls),
   ("string_stmt", do return .node "string_stmt" [stringTree (← Parse.expect .string)]),
   ("eqn_stmt", Parse.unary "eqn_stmt" .equation),
   ("name_or_attr", do return (← Parse.path).tree),
   ("numerical_pin_ref", do
      let (p, dot, number) ← Parse.numbered
      return numberedTree p dot number),
   ("attr", do return (← Parse.attr).attrTree),
   ("totally_an_integer", Parse.unary "totally_an_integer" .number),
   ("name", Parse.unary "name" .name),
   ("string", Parse.unary "string" .string),
   ("boolean_", do
      match (← Parse.peek).kind with
      | .trueWord => Parse.unary "boolean_" .trueWord
      | _ => Parse.unary "boolean_" .falseWord)]

def readRule (rule text : String) : Option (Except Token (Tree × Token)) :=
  (grammar.lookup rule).map fun p =>
    ((do
      let t ← p
      return (t, ← Parse.peek) : Parse (Tree × Token)).run (tokens text)).map (·.1)

/-- The names of a tree of names, or its whole number; other trees write no
reference. -/
def Tree.reference? (path : String) : Tree → Option (Except Failure (List String))
  | .node "totally_an_integer" [.leaf t] => some ((t.integer path).map fun s => [s])
  | .node rule ts =>
    if rule == "name" || rule == "attr" || rule == "name_or_attr" then
      some (.ok (((Tree.node rule ts).tokens.filter fun t => t.kind == .name).map (·.text)))
    else none
  | .leaf _ => none

def Tree.string? : Tree → Option String
  | .node "string" [.leaf t] => some t.content
  | _ => none

def Tree.truth? : Tree → Option Bool
  | .node "boolean_" [.leaf t] => some (t.kind == .trueWord)
  | _ => none

end Boardwright.Syntax

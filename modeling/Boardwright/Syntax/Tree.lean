import Boardwright.Syntax.Token

/-!
# Derivation trees

A tree has tokens at its leaves and names of grammar rules at its other nodes. Its
leaves, from left to right, are the tokens it derives.
-/

namespace Boardwright.Syntax

/-- A derivation by the rules of the grammar. -/
inductive Tree
  | leaf (t : Token)
  | node (rule : String) (children : List Tree)
  deriving Inhabited

namespace Tree

mutual

def tokens : Tree → List Token
  | .leaf t => [t]
  | .node _ ts => tokensAll ts

def tokensAll : List Tree → List Token
  | [] => []
  | t :: ts => tokens t ++ tokensAll ts

end

mutual

def rules : Tree → List String
  | .leaf _ => []
  | .node r ts => r :: rulesAll ts

def rulesAll : List Tree → List String
  | [] => []
  | t :: ts => rules t ++ rulesAll ts

end

end Tree

end Boardwright.Syntax

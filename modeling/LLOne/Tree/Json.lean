import LLOne.Token.Json
import LLOne.Tree.Basic

/-!
# Parse trees in JSON

A node is an object of its label and its children, a leaf is the object of its token.
-/

namespace LLOne

open Json (Value)

def nodeJson (label : String) (children : List Value) : Value :=
  .ofMembers [("label", .ofString label), ("children", .array children)]

def Forest.toJson : Forest → List Value
  | nil => []
  | leaf token rest => token.toJson :: rest.toJson
  | node _ _ label children rest => nodeJson label children.toJson :: rest.toJson

def Tree.toJson (t : Tree) : Value := nodeJson t.label t.children.toJson

end LLOne

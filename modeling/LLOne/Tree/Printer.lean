import LLOne.Tree.Basic
import LLOne.Text.Align
import LLOne.Text.Quoted

/-!
# Printed trees

One line for each node and leaf, two blanks further to the right than its parent: the label
of a node, the quoted text of a leaf.
-/

namespace LLOne

def indented (level : Nat) (line : String) : String := Text.blanks (2 * level) ++ line ++ "\n"

def Forest.print (level : Nat) : Forest → String
  | nil => ""
  | leaf token rest => indented level (Text.quoted token.text) ++ rest.print level
  | node _ _ label children rest =>
    indented level label ++ children.print (level + 1) ++ rest.print level

def Tree.print (t : Tree) : String := t.toForest.print 0

end LLOne

import LLOne.Token

/-!
# Parse trees

A node stands for a non-terminal and carries the number under which it was opened, counted
from zero at the root. The children of a node are leaves and nodes in any mixture; they
form a forest, in which each child is followed by its later siblings.
-/

namespace LLOne

inductive Forest where
  | nil
  | leaf (token : Token) (rest : Forest)
  | node (id symbol : Nat) (label : String) (children rest : Forest)
deriving DecidableEq, Repr

structure Tree where
  id : Nat
  symbol : Nat
  label : String
  children : Forest
deriving DecidableEq, Repr

namespace Forest

instance : Inhabited Forest := ⟨nil⟩

def append : Forest → Forest → Forest
  | nil, g => g
  | leaf token rest, g => leaf token (rest.append g)
  | node id symbol label children rest, g => node id symbol label children (rest.append g)

instance : Append Forest := ⟨append⟩

@[simp] theorem nil_append (f : Forest) : nil ++ f = f := rfl

@[simp] theorem leaf_append (t : Token) (f g : Forest) : leaf t f ++ g = leaf t (f ++ g) := rfl

@[simp] theorem node_append (id symbol : Nat) (label : String) (c f g : Forest) :
    node id symbol label c f ++ g = node id symbol label c (f ++ g) := rfl

@[simp] theorem append_nil (f : Forest) : f ++ nil = f := by
  induction f <;> simp_all

theorem append_assoc (f g h : Forest) : f ++ g ++ h = f ++ (g ++ h) := by
  induction f <;> simp_all

def width : Forest → Nat
  | nil => 0
  | leaf _ rest => rest.width + 1
  | node _ _ _ _ rest => rest.width + 1

def leaves : Forest → List Token
  | nil => []
  | leaf token rest => token :: rest.leaves
  | node _ _ _ children rest => children.leaves ++ rest.leaves

@[simp] theorem leaves_append (f g : Forest) : (f ++ g).leaves = f.leaves ++ g.leaves := by
  induction f with
  | nil => rfl
  | leaf token rest ih => simp [leaves, ih]
  | node id symbol label children rest _ ih => simp [leaves, ih]

@[simp] theorem width_append (f g : Forest) : (f ++ g).width = f.width + g.width := by
  induction f with
  | nil => simp [width]
  | leaf token rest ih => simp only [leaf_append, width, ih]; omega
  | node id symbol label children rest _ ih => simp only [node_append, width, ih]; omega

/-- Every node before the nodes below it, and these before its later siblings. -/
def nodes : Forest → List Tree
  | nil => []
  | leaf _ rest => rest.nodes
  | node id symbol label children rest =>
    ⟨id, symbol, label, children⟩ :: (children.nodes ++ rest.nodes)

@[simp] theorem nodes_append (f g : Forest) : (f ++ g).nodes = f.nodes ++ g.nodes := by
  induction f with
  | nil => rfl
  | leaf token rest ih => simp [nodes, ih]
  | node id symbol label children rest _ ih => simp [nodes, ih]

end Forest

namespace Tree

def toForest (t : Tree) : Forest := .node t.id t.symbol t.label t.children .nil

def leaves (t : Tree) : List Token := t.children.leaves

@[simp] theorem leaves_toForest (t : Tree) : t.toForest.leaves = t.leaves := by
  simp [toForest, Forest.leaves, leaves]

def nodes (t : Tree) : List Tree := t :: t.children.nodes

@[simp] theorem nodes_toForest (t : Tree) : t.toForest.nodes = t.nodes := by
  simp [toForest, Forest.nodes, nodes]

def size (t : Tree) : Nat := t.nodes.length

def location (t : Tree) : Option Location := Location.mergeAll (t.leaves.map Token.location)

def literals (t : Tree) : String := String.join (t.leaves.map Token.text)

end Tree

end LLOne

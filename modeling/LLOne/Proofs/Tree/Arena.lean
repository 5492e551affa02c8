import LLOne.Tree.Json
import LLOne.Tree.Printer

/-!
# Trees in an arena

A tree can be kept as the list of its nodes, in which a child that is a node is only a number. With
the nodes numbered in the order in which they come, this list has for each number the node, every
number but that of the root is the number of exactly one child, and children have larger numbers
than their parents. So a traversal that follows the numbers from the root comes to an end, and it
visits every node once, in the order of the numbers.
-/

namespace LLOne

inductive Child where
  | leaf (token : Token)
  | node (id : Nat)
deriving DecidableEq, Repr

structure ArenaNode where
  symbol : Nat
  label : String
  children : List Child
deriving DecidableEq, Repr

abbrev Arena := List ArenaNode

def Child.id? : Child → Option Nat
  | leaf _ => none
  | node id => some id

/-- The numbers of the children that are nodes. -/
def ArenaNode.childIds (n : ArenaNode) : List Nat := n.children.filterMap Child.id?

namespace Arena

def addChild (a : Arena) (parent : Nat) (child : Child) : Arena :=
  a.modify parent fun n => { n with children := n.children ++ [child] }

/-- Adds a node as the last one and as a child of its parent. The first node is the root. -/
def addNode (a : Arena) (parent : Option Nat) (symbol : Nat) (label : String) : Arena :=
  match a with
  | [] => [⟨symbol, label, []⟩]
  | n :: nodes =>
    addChild (n :: nodes ++ [⟨symbol, label, []⟩]) (parent.getD 0) (.node (nodes.length + 1))

def addLeaf (a : Arena) (parent : Option Nat) (t : Token) : Arena :=
  match parent with
  | some parent => a.addChild parent (.leaf t)
  | none => a

/-- Visits a child and all below it, to some depth at most, with what is made of a leaf and of a
node when its children are done: the numbers of the nodes in the order in which they are visited,
and the result. -/
def visit {β : Type} (a : Arena) (leaf : Token → β) (node : ArenaNode → List β → β) :
    Nat → Child → Option (List Nat × β)
  | _, .leaf t => some ([], leaf t)
  | 0, .node _ => none
  | depth + 1, .node id => do
    let n ← a[id]?
    let parts ← n.children.mapM (a.visit leaf node depth)
    return (id :: parts.flatMap Prod.fst, node n (parts.map Prod.snd))

def collectLeaves (a : Arena) (depth id : Nat) : Option (List Nat × List Token) :=
  a.visit (fun t => [t]) (fun _ parts => parts.flatten) depth (.node id)

def printNode (a : Arena) (depth level id : Nat) : Option (List Nat × String) :=
  (a.visit (fun t level => indented level (Text.quoted t.text))
    (fun n parts level => indented level n.label ++ String.join (parts.map (· (level + 1))))
    depth (.node id)).map fun (ids, text) => (ids, text level)

def outputNode (a : Arena) (depth id : Nat) : Option (List Nat × Json.Value) :=
  a.visit Token.toJson (fun n parts => nodeJson n.label parts) depth (.node id)

/-- Follows the numbers from the root: the children of a node are nodes that come later, every node
but the root is a child once, and in pre-order the nodes come one after the other. -/
structure PreOrdered (a : Arena) : Prop where
  child_bounds : ∀ id n, a[id]? = some n → ∀ child ∈ n.childIds, id < child ∧ child < a.length
  childIds_perm : (a.flatMap ArenaNode.childIds).Perm (List.range' 1 (a.length - 1))
  visit_eq {β : Type} (leaf : Token → β) (node : ArenaNode → List β → β) {depth : Nat}
    (hd : a.length ≤ depth) :
    ∃ result, a.visit leaf node depth (.node 0) = some (List.range a.length, result)

end Arena

/-! ## The arena of a tree -/

namespace Forest

def links : Forest → List Child
  | nil => []
  | leaf token rest => .leaf token :: rest.links
  | node id _ _ _ rest => .node id :: rest.links

def roots : Forest → List Nat
  | nil => []
  | leaf _ rest => rest.roots
  | node id _ _ _ rest => id :: rest.roots

def fold {β : Type} (leaf : Token → β) (node : ArenaNode → List β → β) : Forest → List β
  | .nil => []
  | .leaf token rest => leaf token :: rest.fold leaf node
  | .node _ symbol label children rest =>
    node ⟨symbol, label, children.links⟩ (children.fold leaf node) :: rest.fold leaf node

end Forest

def Tree.record (t : Tree) : ArenaNode := ⟨t.symbol, t.label, t.children.links⟩

def Forest.arena (f : Forest) : Arena := f.nodes.map Tree.record

def Tree.arena (t : Tree) : Arena := t.toForest.arena

/-- The arena has every node of the forest under its number. -/
def Arena.Holds (a : Arena) (f : Forest) : Prop := ∀ t ∈ f.nodes, a[t.id]? = some t.record

def Forest.Numbered (f : Forest) : Prop := f.nodes.map Tree.id = List.range f.nodes.length

namespace Forest

variable {f g : Forest}

@[simp] theorem links_append (f g : Forest) : (f ++ g).links = f.links ++ g.links := by
  induction f with
  | nil => rfl
  | leaf token rest ih => simp [links, ih]
  | node id symbol label children rest _ ih => simp [links, ih]

@[simp] theorem arena_append (f g : Forest) : (f ++ g).arena = f.arena ++ g.arena := by
  simp [arena]

@[simp] theorem length_arena (f : Forest) : f.arena.length = f.nodes.length := by
  simp [arena]

theorem childIds_mk (symbol : Nat) (label : String) (f : Forest) :
    ArenaNode.childIds ⟨symbol, label, f.links⟩ = f.roots := by
  induction f with
  | nil => rfl
  | leaf token rest ih => exact ih
  | node id _ _ children rest _ ih => exact congrArg (id :: ·) ih

theorem roots_subset (f : Forest) : f.roots ⊆ f.nodes.map Tree.id := by
  induction f with
  | nil => exact List.Subset.refl _
  | leaf token rest ih => exact ih
  | node id symbol label children rest _ ih =>
    simp only [roots, nodes, List.map_cons, List.map_append]
    exact List.cons_subset_cons id (List.Subset.trans ih (List.subset_append_right _ _))

/-- What lies below a node of the forest lies in the forest. -/
theorem nodes_subset {t : Tree} (ht : t ∈ f.nodes) : t.children.nodes ⊆ f.nodes := by
  induction f with
  | nil => cases ht
  | leaf token rest ih => exact ih ht
  | node id symbol label children rest ihc ih =>
    intro u hu
    apply List.mem_cons_of_mem
    rcases List.mem_cons.1 ht with rfl | ht
    · exact List.mem_append_left _ hu
    · rcases List.mem_append.1 ht with ht | ht
      · exact List.mem_append_left _ (ihc ht hu)
      · exact List.mem_append_right _ (ih ht hu)

/-- Where the numbers ascend, those below a node are larger. -/
theorem id_lt_of_pairwise (hf : (f.nodes.map Tree.id).Pairwise (· < ·)) {t u : Tree}
    (ht : t ∈ f.nodes) (hu : u ∈ t.children.nodes) : t.id < u.id := by
  induction f with
  | nil => cases ht
  | leaf token rest ih => exact ih hf ht
  | node id symbol label children rest ihc ih =>
    simp only [nodes, List.map_cons, List.map_append, List.pairwise_cons] at hf
    obtain ⟨hroot, hbelow⟩ := hf
    obtain ⟨hchildren, hrest, -⟩ := List.pairwise_append.1 hbelow
    rcases List.mem_cons.1 ht with rfl | ht
    · exact hroot _ (List.mem_append_left _ (List.mem_map_of_mem hu))
    · rcases List.mem_append.1 ht with ht | ht
      · exact ihc hchildren ht
      · exact ih hrest ht

/-- A node is the child of one other node, or one of those side by side. -/
theorem childIds_perm (f : Forest) :
    (f.arena.flatMap ArenaNode.childIds ++ f.roots).Perm (f.nodes.map Tree.id) := by
  induction f with
  | nil => exact .refl _
  | leaf token rest ih => exact ih
  | node id symbol label children rest ihc ih =>
    rw [List.perm_iff_count] at ihc ih ⊢
    intro x
    have hc := ihc x
    have hr := ih x
    simp only [arena, nodes, roots, Tree.record, List.map_cons, List.map_append,
      List.flatMap_cons, List.flatMap_append, List.count_append, List.count_cons, childIds_mk]
      at hc hr ⊢
    omega

/-! ## Traversals -/

theorem flatten_fold (f : Forest) :
    (f.fold (fun t => [t]) (fun _ parts => parts.flatten)).flatten = f.leaves := by
  induction f with
  | nil => rfl
  | leaf token rest ih => exact congrArg (token :: ·) ih
  | node id symbol label children rest ihc ih => simp [fold, leaves, ihc, ih]

theorem join_fold (f : Forest) (level : Nat) :
    String.join ((f.fold (fun t level => indented level (Text.quoted t.text))
      (fun n parts level =>
        indented level n.label ++ String.join (parts.map (· (level + 1))))).map (· level)) =
      f.print level := by
  induction f generalizing level with
  | nil => rfl
  | leaf token rest ih => simp [fold, print, ih]
  | node id symbol label children rest ihc ih => simp [fold, print, ihc, ih]

theorem fold_toJson (f : Forest) :
    f.fold Token.toJson (fun n parts => nodeJson n.label parts) = f.toJson := by
  induction f with
  | nil => rfl
  | leaf token rest ih => simp [fold, toJson, ih]
  | node id symbol label children rest ihc ih => simp [fold, toJson, ihc, ih]

end Forest

namespace Arena

variable {a : Arena} {f : Forest}

/-- The depth is used up no faster than the nodes. -/
theorem mapM_visit_links {β : Type} (leaf : Token → β) (node : ArenaNode → List β → β)
    (hf : a.Holds f) {depth : Nat} (hd : f.nodes.length ≤ depth) :
    ∃ parts, f.links.mapM (a.visit leaf node depth) = some parts ∧
      parts.flatMap Prod.fst = f.nodes.map Tree.id ∧ parts.map Prod.snd = f.fold leaf node := by
  induction f generalizing depth with
  | nil => exact ⟨[], rfl, rfl, rfl⟩
  | leaf token rest ih =>
    obtain ⟨parts, hparts, hids, hfold⟩ := ih hf hd
    refine ⟨([], leaf token) :: parts, ?_, hids, congrArg (leaf token :: ·) hfold⟩
    simp [Forest.links, visit, hparts]
  | node id symbol label children rest ihc ih =>
    obtain ⟨hroot, hbelow⟩ := List.forall_mem_cons.1 hf
    obtain ⟨hchildren, hrest⟩ := List.forall_mem_append.1 hbelow
    simp only [Forest.nodes, List.length_cons, List.length_append] at hd
    obtain ⟨depth, rfl⟩ := Nat.exists_eq_add_one_of_ne_zero (by omega : depth ≠ 0)
    obtain ⟨inner, hinner, hinnerIds, hinnerFold⟩ := ihc hchildren (by omega : _ ≤ depth)
    obtain ⟨parts, hparts, hids, hfold⟩ := ih hrest (by omega : _ ≤ depth + 1)
    have hnode : a[id]? = some ⟨symbol, label, children.links⟩ := hroot
    refine ⟨(id :: inner.flatMap Prod.fst, node ⟨symbol, label, children.links⟩
      (inner.map Prod.snd)) :: parts, ?_, ?_, ?_⟩
    · simp [Forest.links, visit, hnode, hinner, hparts]
    · simp [Forest.nodes, hinnerIds, hids]
    · simp [Forest.fold, hinnerFold, hfold]

end Arena

/-! ## Numbered trees -/

namespace Forest.Numbered

variable {f : Forest}

/-- Each node is at the place that its number says. -/
theorem id_eq (hf : f.Numbered) {i : Nat} (hi : i < f.nodes.length) : f.nodes[i].id = i := by
  have h := congrArg (·[i]?) hf
  simpa [hi] using h

theorem holds (hf : f.Numbered) : f.arena.Holds f := by
  intro t ht
  obtain ⟨i, hi, rfl⟩ := List.getElem_of_mem ht
  rw [hf.id_eq hi]
  simp [arena, hi]

theorem pairwise (hf : f.Numbered) : (f.nodes.map Tree.id).Pairwise (· < ·) := by
  rw [hf]
  exact List.pairwise_lt_range

theorem child_bounds (hf : f.Numbered) {id : Nat} {n : ArenaNode} (hn : f.arena[id]? = some n)
    {child : Nat} (hc : child ∈ n.childIds) : id < child ∧ child < f.arena.length := by
  obtain ⟨hi, rfl⟩ := List.getElem?_eq_some_iff.1 hn
  rw [length_arena] at hi ⊢
  have ht : f.nodes[id] ∈ f.nodes := List.getElem_mem hi
  have hroots : child ∈ f.nodes[id].children.roots := by
    simpa only [arena, List.getElem_map, Tree.record, childIds_mk] using hc
  obtain ⟨u, hu, rfl⟩ := List.mem_map.1 (roots_subset _ hroots)
  have hlt := id_lt_of_pairwise hf.pairwise ht hu
  have hmem : u.id ∈ f.nodes.map Tree.id := List.mem_map_of_mem (nodes_subset ht hu)
  rw [hf, List.mem_range] at hmem
  rw [hf.id_eq hi] at hlt
  exact ⟨hlt, hmem⟩

end Forest.Numbered

namespace Tree

variable {t : Tree}

theorem length_arena (t : Tree) : t.arena.length = t.size := by
  rw [arena, Forest.length_arena, nodes_toForest, size]

variable (ht : t.toForest.Numbered)

include ht

theorem id_eq_zero : t.id = 0 := ht.id_eq (i := 0) (by simp [toForest, Forest.nodes])

theorem map_id_nodes : 0 :: t.children.nodes.map Tree.id = List.range t.size := by
  have hsize : t.toForest.nodes.length = t.size := by rw [nodes_toForest, size]
  rw [← hsize, ← ht, nodes_toForest, nodes, List.map_cons, id_eq_zero ht]

/-- A traversal from the root visits all nodes in the order of their numbers. -/
theorem visit_arena {β : Type} (leaf : Token → β) (node : ArenaNode → List β → β) {depth : Nat}
    (hd : t.size ≤ depth) :
    t.arena.visit leaf node depth (.node 0) =
      some (List.range t.size, node t.record (t.children.fold leaf node)) := by
  have hsize : t.size = t.children.nodes.length + 1 := rfl
  obtain ⟨depth, rfl⟩ := Nat.exists_eq_add_one_of_ne_zero (by omega : depth ≠ 0)
  have hroot : t.arena[0]? = some t.record := rfl
  have hchildren : t.arena.Holds t.children := by
    intro u hu
    apply ht.holds
    rw [nodes_toForest]
    exact List.mem_cons_of_mem t hu
  obtain ⟨parts, hparts, hids, hfold⟩ :=
    Arena.mapM_visit_links leaf node hchildren (by omega : _ ≤ depth)
  have hlinks : t.record.children.mapM (t.arena.visit leaf node depth) = some parts := hparts
  simp [Arena.visit, hroot, hlinks, hids, hfold, map_id_nodes ht]

theorem preOrdered_arena : t.arena.PreOrdered where
  child_bounds _ _ hn _ hc := ht.child_bounds hn hc
  childIds_perm := by
    have hperm := t.toForest.childIds_perm
    have hrange : t.toForest.nodes.map Tree.id = 0 :: List.range' 1 t.children.nodes.length := by
      rw [ht, List.range_eq_range', nodes_toForest, nodes, List.length_cons, List.range'_succ]
    have hroots : t.toForest.roots = [0] := congrArg ([·]) (id_eq_zero ht)
    rw [hrange, hroots] at hperm
    have hlength : t.arena.length - 1 = t.children.nodes.length := by
      rw [length_arena, size, nodes, List.length_cons, Nat.add_sub_cancel]
    rw [hlength]
    exact (List.perm_cons 0).1 ((List.perm_append_singleton 0 _).symm.trans hperm)
  visit_eq leaf node depth hd := by
    rw [length_arena] at hd ⊢
    exact ⟨_, visit_arena ht leaf node hd⟩

theorem collectLeaves_arena {depth : Nat} (hd : t.size ≤ depth) :
    t.arena.collectLeaves depth 0 = some (List.range t.size, t.leaves) := by
  rw [Arena.collectLeaves, visit_arena ht _ _ hd, t.children.flatten_fold, leaves]

theorem printNode_arena {depth : Nat} (hd : t.size ≤ depth) :
    t.arena.printNode depth 0 0 = some (List.range t.size, t.print) := by
  simp [Arena.printNode, visit_arena ht _ _ hd, t.children.join_fold, print, toForest,
    Forest.print, record]

theorem outputNode_arena {depth : Nat} (hd : t.size ≤ depth) :
    t.arena.outputNode depth 0 = some (List.range t.size, t.toJson) := by
  rw [Arena.outputNode, visit_arena ht _ _ hd, t.children.fold_toJson, toJson, record]

end Tree

end LLOne

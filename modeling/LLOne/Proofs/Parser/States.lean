import LLOne.Proofs.Parser.Runs

/-!
# The states of a run

A step closes the innermost node, opens a node in it, or takes a terminal or an end marker. What is
grown so far is a forest: the open nodes with all of their children, each closed as it is. A node is
only ever added behind all others of this forest, and so in every state of a run the nodes are
numbered from zero on in the order in which they come.
-/

namespace LLOne

/-- The open nodes, the innermost first, all closed and with the forest inside. -/
def closeAll : List OpenNode → Forest → Forest
  | [], f => f
  | n :: outer, f => closeAll outer (.node n.id n.symbol n.label (n.children ++ f) .nil)

/-- What comes inside of the innermost node comes behind all other nodes. -/
theorem map_id_nodes_closeAll (nodes : List OpenNode) (f : Forest) :
    (closeAll nodes f).nodes.map Tree.id =
      (closeAll nodes .nil).nodes.map Tree.id ++ f.nodes.map Tree.id := by
  induction nodes generalizing f with
  | nil => rfl
  | cons n outer ih =>
    simp only [closeAll]
    rw [ih, ih (.node n.id n.symbol n.label (n.children ++ .nil) .nil)]
    simp [Forest.nodes]

theorem id_mem_closeAll {nodes : List OpenNode} {n : OpenNode} (hn : n ∈ nodes) (f : Forest) :
    n.id ∈ (closeAll nodes f).nodes.map Tree.id := by
  induction nodes generalizing f with
  | nil => cases hn
  | cons m outer ih =>
    rcases List.mem_cons.1 hn with rfl | hn
    · rw [closeAll, map_id_nodes_closeAll]
      exact List.mem_append_right _ List.mem_cons_self
    · exact ih hn _

namespace ParseState

def forest (s : ParseState) : Forest :=
  match s.nodes, s.root with
  | [], some tree => tree.toForest
  | nodes, _ => closeAll nodes .nil

variable {s : ParseState}

theorem forest_of_nodes {n : OpenNode} {outer : List OpenNode} (h : s.nodes = n :: outer) :
    s.forest = closeAll s.nodes .nil := by
  simp only [forest, h]

theorem forest_of_root_none (h : s.root = none) : s.forest = closeAll s.nodes .nil := by
  cases hn : s.nodes <;> simp only [forest, h, hn]

theorem forest_drop (s : ParseState) : s.drop.forest = s.forest := by
  obtain ⟨nodes, outside, root, opened, input, last⟩ := s
  cases nodes <;> rfl

theorem forest_closeNode (s : ParseState) : s.closeNode.forest = s.forest := by
  obtain ⟨nodes, outside, root, opened, input, last⟩ := s
  match nodes with
  | [] => rfl
  | [n] => simp [closeNode, forest, closeAll, OpenNode.tree, Tree.toForest]
  | n :: m :: outer => simp [closeNode, addChild, forest, closeAll, OpenNode.tree, Tree.toForest]

theorem forest_openNode (s : ParseState) (x : Nat) (label : String) (expected : List Nat) :
    (s.openNode x label expected).forest = closeAll s.nodes (.node s.opened x label .nil .nil) := by
  simp [openNode, forest, closeAll]

theorem forest_addChild {n : OpenNode} {outer : List OpenNode} (h : s.nodes = n :: outer)
    (child : Forest) : (s.addChild child).forest = closeAll s.nodes child := by
  simp [addChild, h, forest, closeAll]

/-- A leaf is no node. -/
theorem map_id_nodes_addChild_leaf (s : ParseState) (t : Token) :
    (s.addChild (.leaf t .nil)).forest.nodes.map Tree.id = s.forest.nodes.map Tree.id := by
  cases hn : s.nodes with
  | nil => simp only [addChild, hn]
  | cons n outer =>
    rw [forest_addChild hn, forest_of_nodes hn, map_id_nodes_closeAll]
    exact List.append_nil _

@[simp] theorem opened_drop (s : ParseState) : s.drop.opened = s.opened := by
  unfold drop
  split <;> rfl

@[simp] theorem opened_addChild (s : ParseState) (child : Forest) :
    (s.addChild child).opened = s.opened := by
  unfold addChild
  split <;> rfl

@[simp] theorem opened_closeNode (s : ParseState) : s.closeNode.opened = s.opened := by
  unfold closeNode
  split
  · rfl
  · rfl
  · rw [opened_addChild]

end ParseState

namespace Parser

variable (p : Parser)

/-- What a step can do to a state in which only symbols other than `λ` are expected. -/
inductive Transition (s : ParseState) : ParseState → Prop
  | close {n : OpenNode} {outer : List OpenNode} (hn : s.nodes = n :: outer)
    (hx : n.expected = []) : Transition s s.closeNode
  | expand {x q : Nat} (hx : s.next? = some x) (hn : p.grammar.isNonTerminal x = true)
    (hq : (p.lookahead (p.splitFirst s.input)).bind (p.table.get? x) = some q) :
    Transition s ((p.taken s).openNode x (p.nameOf x) (p.symbolsOf q))
  | token {x : Nat} {t : Token} {rest : List Token} (hx : s.next? = some x)
    (hi : p.splitFirst s.input = t :: rest) (ht : p.classOf t = some x) :
    Transition s (({ p.taken s with input := rest }).addChild (.leaf t .nil))
  | beyond (hx : s.next? = some Symbol.endIndex) (hi : p.splitFirst s.input = []) :
    Transition s (p.taken s)

inductive Stage : List OpenNode → List Nat → Option Tree → Prop
  | before : Stage [] [p.start, Symbol.endIndex] none
  | inside (n : OpenNode) (outer : List OpenNode) : Stage (n :: outer) [Symbol.endIndex] none
  | behind (tree : Tree) : Stage [] [Symbol.endIndex] (some tree)
  | done (tree : Tree) : Stage [] [] (some tree)

def Kinds (nodes : List OpenNode) : Prop :=
  ∀ n ∈ nodes, ∀ x ∈ n.expected,
    p.grammar.isNonTerminal x = true ∨ p.grammar.isLookahead x = true

/-- What holds in every state of a run. -/
structure Regular (s : ParseState) : Prop where
  stage : p.Stage s.nodes s.outside s.root
  kinds : p.Kinds s.nodes
  numbered : s.forest.nodes.map Tree.id = List.range s.opened

variable {p}

/-! ## Steps -/

theorem readToken_cases {x : Nat} {s s' : ParseState} (h : p.readToken x s = .next s') :
    (∃ t rest, s.input = t :: rest ∧ p.classOf t = some x ∧
      s' = ({ s with input := rest }).addChild (.leaf t .nil)) ∨
    x = Symbol.endIndex ∧ s.input = [] ∧ s' = s := by
  unfold readToken at h
  split at h
  next hi =>
    split at h
    next hx => exact .inr ⟨hx, hi, (ParseStep.next.inj h).symm⟩
    · cases h
  next t rest hi =>
    split at h
    next ht => exact .inl ⟨t, rest, hi, ht, (ParseStep.next.inj h).symm⟩
    · split at h <;> cases h

theorem expand_cases {x : Nat} {s s' : ParseState} (h : p.expand x s = .next s') :
    ∃ q, (p.lookahead s.input).bind (p.table.get? x) = some q ∧
      s' = s.openNode x (p.nameOf x) (p.symbolsOf q) := by
  unfold expand at h
  split at h
  next q hq => exact ⟨q, hq, (ParseStep.next.inj h).symm⟩
  · split at h <;> cases h

theorem Regular.kind_of_next? {s : ParseState} (hp : p.Built) (hs : p.Regular s) {x : Nat}
    (hx : s.next? = some x) :
    p.grammar.isNonTerminal x = true ∨ p.grammar.isLookahead x = true := by
  obtain ⟨nodes, outside, root, opened, input, last⟩ := s
  cases hs.stage with
  | before =>
    obtain rfl := Option.some.inj hx
    exact .inl hp.nonTerminal
  | inside n outer => exact hs.kinds n List.mem_cons_self x (List.mem_of_mem_head? hx)
  | behind tree =>
    obtain rfl := Option.some.inj hx
    exact .inr hp.consistent.isLookahead_endIndex
  | done tree => cases hx

theorem transition_of_step {s s' : ParseState} (hp : p.Built) (hs : p.Regular s)
    (h : p.step s = .next s') : p.Transition s s' := by
  unfold step at h
  cases hx : s.next? with
  | none =>
    rw [hx] at h
    cases hn : s.nodes with
    | nil => simp [hn] at h
    | cons n outer =>
      simp only [hn, List.isEmpty_cons, Bool.false_eq_true, if_false, ParseStep.next.injEq] at h
      subst h
      have hexpected : n.expected = [] := by simpa [ParseState.next?, hn] using hx
      exact .close hn hexpected
  | some x =>
    simp only [hx] at h
    rcases hs.kind_of_next? hp hx with hn | hl
    · obtain ⟨name, hname⟩ := Grammar.isNonTerminal_iff.1 hn
      simp only [hname] at h
      obtain ⟨q, hq, rfl⟩ := expand_cases h
      exact .expand hx hn hq
    · have hread : p.readToken x (p.taken s) = .next s' := by
        rcases Grammar.isLookahead_iff.1 hl with hsymbol | ⟨name, hsymbol⟩ <;>
          simpa only [hsymbol] using h
      rcases readToken_cases hread with ⟨t, rest, hi, ht, rfl⟩ | ⟨rfl, hi, rfl⟩
      · exact .token hx hi ht
      · exact .beyond hx hi

/-! ## What every step keeps -/

theorem Kinds.drop {s : ParseState} (h : p.Kinds s.nodes) : p.Kinds s.drop.nodes := by
  obtain ⟨nodes, outside, root, opened, input, last⟩ := s
  cases nodes with
  | nil => exact h
  | cons n outer =>
    obtain ⟨hn, houter⟩ := List.forall_mem_cons.1 h
    exact List.forall_mem_cons.2 ⟨fun x hx => hn x (List.mem_of_mem_tail hx), houter⟩

theorem Kinds.addChild {s : ParseState} (h : p.Kinds s.nodes) (child : Forest) :
    p.Kinds (s.addChild child).nodes := by
  obtain ⟨nodes, outside, root, opened, input, last⟩ := s
  cases nodes with
  | nil => exact h
  | cons n outer => exact List.forall_mem_cons.2 (List.forall_mem_cons.1 h)

theorem Kinds.closeNode {s : ParseState} (h : p.Kinds s.nodes) : p.Kinds s.closeNode.nodes := by
  obtain ⟨nodes, outside, root, opened, input, last⟩ := s
  match nodes with
  | [] => exact h
  | [n] => exact List.forall_mem_nil _
  | n :: m :: outer =>
    exact Kinds.addChild (s := ⟨m :: outer, outside, root, opened, input, last⟩)
      (List.forall_mem_cons.1 h).2 _

/-- Only the start symbol is a non-terminal outside of all nodes, and only at the beginning. -/
theorem Stage.root_eq_none {s : ParseState} (hp : p.Built)
    (h : p.Stage s.nodes s.outside s.root) {x : Nat} (hx : s.next? = some x)
    (hn : p.grammar.isNonTerminal x = true) :
    s.drop.root = none ∧ s.drop.outside = [Symbol.endIndex] := by
  obtain ⟨nodes, outside, root, opened, input, last⟩ := s
  cases h with
  | before => exact ⟨rfl, rfl⟩
  | inside n outer => exact ⟨rfl, rfl⟩
  | behind tree =>
    obtain rfl := Option.some.inj hx
    exact absurd hn (not_isNonTerminal_endIndex hp)
  | done tree => cases hx

theorem Stage.drop {s : ParseState} (hp : p.Built) (h : p.Stage s.nodes s.outside s.root) {x : Nat}
    (hx : s.next? = some x) (hl : p.grammar.isLookahead x = true) :
    p.Stage s.drop.nodes s.drop.outside s.drop.root := by
  obtain ⟨nodes, outside, root, opened, input, last⟩ := s
  cases h with
  | before =>
    obtain rfl := Option.some.inj hx
    exact absurd rfl (Grammar.ne_of_isLookahead hl hp.nonTerminal)
  | inside n outer => exact .inside _ outer
  | behind tree => exact .done tree
  | done tree => cases hx

theorem Stage.addChild {s : ParseState} (h : p.Stage s.nodes s.outside s.root) (child : Forest) :
    p.Stage (s.addChild child).nodes (s.addChild child).outside (s.addChild child).root := by
  obtain ⟨nodes, outside, root, opened, input, last⟩ := s
  cases h with
  | before => exact .before
  | inside n outer => exact .inside _ outer
  | behind tree => exact .behind tree
  | done tree => exact .done tree

theorem Stage.closeNode {s : ParseState} {n : OpenNode} {outer : List OpenNode}
    (hn : s.nodes = n :: outer) (h : p.Stage s.nodes s.outside s.root) :
    p.Stage s.closeNode.nodes s.closeNode.outside s.closeNode.root := by
  obtain ⟨nodes, outside, root, opened, input, last⟩ := s
  subst hn
  cases h
  cases outer with
  | nil => exact .behind _
  | cons m outer => exact .inside _ outer

theorem regular_initial (p : Parser) (tokens : List Token) : p.Regular (p.initial tokens) where
  stage := .before
  kinds := List.forall_mem_nil _
  numbered := rfl

theorem Regular.numbered_taken {s : ParseState} (hs : p.Regular s) :
    (p.taken s).forest.nodes.map Tree.id = List.range (p.taken s).opened := by
  change s.drop.forest.nodes.map Tree.id = List.range s.drop.opened
  rw [s.forest_drop, s.opened_drop]
  exact hs.numbered

/-- A step keeps what holds in every state. -/
theorem Transition.regular {s s' : ParseState} (hp : p.Built) (hs : p.Regular s)
    (h : p.Transition s s') : p.Regular s' := by
  cases h with
  | close hn hx =>
    refine ⟨hs.stage.closeNode hn, hs.kinds.closeNode, ?_⟩
    rw [s.forest_closeNode, s.opened_closeNode]
    exact hs.numbered
  | @expand x q hx hn hq =>
    obtain ⟨hroot, houtside⟩ := hs.stage.root_eq_none hp hx hn
    refine ⟨?_, ?_, ?_⟩
    · change p.Stage (_ :: s.drop.nodes) s.drop.outside s.drop.root
      rw [hroot, houtside]
      exact .inside _ _
    · exact List.forall_mem_cons.2 ⟨hp.mem_symbolsOf hq, hs.kinds.drop⟩
    · rw [ParseState.forest_openNode, map_id_nodes_closeAll]
      have hnodes : closeAll (p.taken s).nodes .nil = (p.taken s).forest :=
        (ParseState.forest_of_root_none hroot).symm
      rw [hnodes, hs.numbered_taken]
      exact List.range_succ.symm
  | @token x t rest hx hi ht =>
    have hdrop := hs.stage.drop hp hx (isLookahead_of_classOf ht)
    refine ⟨Stage.addChild (s := { p.taken s with input := rest }) hdrop _,
      Kinds.addChild (s := { p.taken s with input := rest }) hs.kinds.drop _, ?_⟩
    rw [ParseState.map_id_nodes_addChild_leaf, ParseState.opened_addChild]
    exact hs.numbered_taken
  | beyond hx hi =>
    exact ⟨hs.stage.drop hp hx hp.consistent.isLookahead_endIndex, hs.kinds.drop,
      hs.numbered_taken⟩

theorem Steps.regular {n : Nat} {s s' : ParseState} (h : p.Steps n s s') (hp : p.Built)
    (hs : p.Regular s) : p.Regular s' := by
  induction h with
  | zero => exact hs
  | succ hstep _ ih => exact ih ((transition_of_step hp hs hstep).regular hp hs)

theorem Regular.id_lt {s : ParseState} (hs : p.Regular s) {a : Tree} (ha : a ∈ s.forest.nodes) :
    a.id < s.opened := by
  rw [← List.mem_range, ← hs.numbered]
  exact List.mem_map_of_mem ha

theorem Regular.id_lt_of_open {s : ParseState} (hs : p.Regular s) {n : OpenNode}
    (hn : n ∈ s.nodes) : n.id < s.opened := by
  obtain ⟨m, outer, hm⟩ := List.exists_cons_of_ne_nil (List.ne_nil_of_mem hn)
  rw [← List.mem_range, ← hs.numbered, ParseState.forest_of_nodes hm]
  exact id_mem_closeAll hn .nil

end Parser

end LLOne

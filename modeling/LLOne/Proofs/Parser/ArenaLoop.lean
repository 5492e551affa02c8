import LLOne.Proofs.Parser.Halting
import LLOne.Proofs.Parser.States
import LLOne.Proofs.Tree.Arena

/-!
# Growing a tree in an arena

All symbols that are still expected can be kept on one stack, each with the number of the node to
which it is to be attached, while the nodes and leaves found so far are in an arena. The number of a
symbol then is that of the open node in which it is expected, the arena is that of the tree as far
as it is grown, and each turn of this loop is a step, where the steps that close a node are no
turns. So a tree that is parsed comes as its arena.
-/

namespace LLOne

structure LoopState where
  /-- The symbols that are expected and the numbers of the nodes to which they are attached. -/
  stack : List (Nat × Option Nat)
  arena : Arena
  input : List Token
  /-- The location of the last token of the whole input. -/
  last : Option Location

inductive LoopStep where
  | next (s : LoopState)
  | stop (result : Except SyntaxError Arena)

namespace Parser

variable (p : Parser)

def attachToken (x : Nat) (parent : Option Nat) (s : LoopState) : LoopStep :=
  match s.input with
  | [] =>
    if x = Symbol.endIndex then .next s
    else .stop (.error (p.unexpectedEnd x s.last none))
  | t :: rest =>
    if p.classOf t = some x then
      .next { s with arena := s.arena.addLeaf parent t, input := rest }
    else if x = Symbol.endIndex ∧ parent.isNone then .stop (.error (trailingInput t))
    else .stop (.error (p.mismatch x t))

def attachNode (x : Nat) (parent : Option Nat) (s : LoopState) : LoopStep :=
  match (p.lookahead s.input).bind (p.table.get? x) with
  | some production =>
    .next { s with
      stack := (p.symbolsOf production).map (·, some s.arena.length) ++ s.stack
      arena := s.arena.addNode parent x (p.nameOf x) }
  | none =>
    match s.input with
    | [] =>
      let message := p.messages.lookup (p.nameOf x) Symbol.endMarkerName
      .stop (.error (p.unexpectedEnd x s.last message))
    | t :: _ => .stop (.error (p.noProduction x t))

def arenaOf (s : LoopState) : Except SyntaxError Arena :=
  match s.input, s.arena with
  | t :: _, _ => .error (trailingInput t)
  | [], [] => .error (p.unexpectedEnd p.start s.last none)
  | [], n :: nodes => .ok (n :: nodes)

def turn (s : LoopState) : LoopStep :=
  match s.stack with
  | [] => .stop (p.arenaOf s)
  | (x, parent) :: stack =>
    let s := { s with stack, input := p.splitFirst s.input }
    match p.grammar.symbols[x]? with
    | none => .next s
    | some .lambda => .next s
    | some (.nonTerminal _) => p.attachNode x parent s
    | some _ => p.attachToken x parent s

/-- The result of at most so many turns, if they lead to one. -/
def loop : Nat → LoopState → Option (Except SyntaxError Arena)
  | 0, _ => none
  | fuel + 1, s =>
    match p.turn s with
    | .next s' => loop fuel s'
    | .stop result => some result

def loopStart (tokens : List Token) : LoopState :=
  ⟨[(p.start, none), (Symbol.endIndex, none)], [], tokens, tokens.getLast?.map Token.location⟩

end Parser

def ParseState.parent (s : ParseState) : Option Nat := s.nodes.head?.map OpenNode.id

/-- The state as one stack and an arena. -/
def ParseState.toLoop (s : ParseState) : LoopState where
  stack := s.nodes.flatMap (fun n => n.expected.map (·, some n.id)) ++ s.outside.map (·, none)
  arena := s.forest.arena
  input := s.input
  last := s.last

@[simp] theorem ParseState.arena_toLoop (s : ParseState) : s.toLoop.arena = s.forest.arena := rfl

@[simp] theorem ParseState.input_toLoop (s : ParseState) : s.toLoop.input = s.input := rfl

def ParseStep.toLoop : ParseStep → LoopStep
  | next s => .next s.toLoop
  | stop result => .stop (result.map Tree.arena)

/-! ## The arena of open nodes -/

/-- The open nodes and what is closed inside of them, with further children of the innermost. -/
def openArena : List OpenNode → List Child → Arena
  | [], _ => []
  | n :: outer, links =>
    openArena outer [.node n.id] ++
      ⟨n.symbol, n.label, n.children.links ++ links⟩ :: n.children.arena

theorem arena_closeAll (nodes : List OpenNode) (f : Forest) :
    (closeAll nodes f).arena = openArena nodes f.links ++ f.arena := by
  induction nodes generalizing f with
  | nil => rfl
  | cons n outer ih =>
    rw [closeAll, ih, openArena]
    simp [Forest.links, Forest.arena, Forest.nodes, Tree.record]

theorem length_openArena (nodes : List OpenNode) (links : List Child) :
    (openArena nodes links).length = (closeAll nodes .nil).nodes.length := by
  have h := congrArg List.length (arena_closeAll nodes .nil)
  rw [Forest.length_arena] at h
  rw [h]
  cases nodes <;> simp [openArena, Forest.arena, Forest.nodes]

namespace Arena

theorem addNode_of_ne_nil {a : Arena} (ha : a ≠ []) (parent : Option Nat) (symbol : Nat)
    (label : String) : a.addNode parent symbol label =
      addChild (a ++ [⟨symbol, label, []⟩]) (parent.getD 0) (.node a.length) := by
  cases a with
  | nil => exact absurd rfl ha
  | cons n nodes => rfl

theorem addChild_append (before after : Arena) (n : ArenaNode) (child : Child) :
    addChild (before ++ n :: after) before.length child =
      before ++ { n with children := n.children ++ [child] } :: after := by
  induction before with
  | nil => rfl
  | cons m before ih => exact congrArg (m :: ·) ih

end Arena

namespace ParseState

variable {s : ParseState} (hs : s.forest.nodes.map Tree.id = List.range s.opened)

include hs

/-- The number of an open node is its place. -/
theorem id_eq_length {n : OpenNode} {outer : List OpenNode} (hn : s.nodes = n :: outer)
    (links : List Child) : n.id = (openArena outer links).length := by
  rw [forest_of_nodes hn, hn, closeAll, map_id_nodes_closeAll] at hs
  have hlength := congrArg List.length hs
  have hplace := congrArg (·[(closeAll outer .nil).nodes.length]?) hs
  simp only [Forest.nodes, List.map_cons, List.length_append, List.length_cons, List.length_map,
    List.length_range] at hlength
  have hlt : (closeAll outer .nil).nodes.length < s.opened := by omega
  rw [length_openArena]
  simpa [Forest.nodes, hlt] using hplace

/-- What is attached to the innermost node. -/
theorem openArena_singleton {n : OpenNode} {outer : List OpenNode} (hn : s.nodes = n :: outer)
    (child : Child) (after : Arena) :
    openArena s.nodes [child] ++ after = Arena.addChild (s.forest.arena ++ after) n.id child := by
  have hid := s.id_eq_length hs hn [.node n.id]
  rw [forest_of_nodes hn, arena_closeAll, hn, openArena, openArena]
  simp only [Forest.links, Forest.arena, Forest.nodes, List.map_nil, List.append_nil,
    List.append_assoc, List.cons_append]
  conv => rhs; arg 2; rw [hid]
  rw [Arena.addChild_append]

theorem length_forest_arena : s.forest.arena.length = s.opened := by
  have hlength := congrArg List.length hs
  rwa [List.length_map, List.length_range, ← Forest.length_arena] at hlength

theorem arena_addLeaf (t : Token) :
    (s.addChild (.leaf t .nil)).forest.arena = s.forest.arena.addLeaf s.parent t := by
  cases hn : s.nodes with
  | nil => simp only [addChild, parent, hn, List.head?_nil, Option.map_none, Arena.addLeaf]
  | cons n outer =>
    rw [forest_addChild hn, arena_closeAll]
    change openArena s.nodes [.leaf t] ++ [] = _
    rw [s.openArena_singleton hs hn, List.append_nil, parent, hn]
    rfl

theorem arena_addNode (hroot : s.root = none) (x : Nat) (label : String) (expected : List Nat) :
    (s.openNode x label expected).forest.arena = s.forest.arena.addNode s.parent x label := by
  rw [forest_openNode, arena_closeAll]
  cases hn : s.nodes with
  | nil =>
    have hempty : s.forest.arena = [] := by
      rw [forest_of_root_none hroot, hn]
      rfl
    rw [hempty]
    rfl
  | cons n outer =>
    have hne : s.forest.arena ≠ [] := by
      rw [forest_of_nodes hn, arena_closeAll, hn, openArena]
      simp
    have hparent : s.parent.getD 0 = n.id := by
      rw [parent, hn]
      rfl
    rw [Arena.addNode_of_ne_nil hne, s.length_forest_arena hs, hparent, ← hn]
    exact s.openArena_singleton hs hn (.node s.opened) [⟨x, label, []⟩]

end ParseState

namespace Parser

variable {p : Parser} {s : ParseState}

/-! ## Turns and steps -/

theorem isNone_parent (s : ParseState) : s.parent.isNone = s.nodes.isEmpty := by
  cases hn : s.nodes <;> simp [ParseState.parent, hn]

/-- The symbol that comes next is on top of the stack. -/
theorem stack_toLoop {x : Nat} (hx : s.next? = some x) :
    s.toLoop.stack = (x, s.parent) :: s.drop.toLoop.stack := by
  obtain ⟨nodes, outside, root, opened, input, last⟩ := s
  cases nodes with
  | nil =>
    obtain ⟨rest, rfl⟩ : ∃ rest, outside = x :: rest := List.head?_eq_some_iff.1 hx
    rfl
  | cons n outer =>
    obtain ⟨rest, hrest⟩ := List.head?_eq_some_iff.1 hx
    simp [ParseState.toLoop, ParseState.drop, ParseState.parent, hrest]

theorem parent_drop (s : ParseState) : s.drop.parent = s.parent := by
  obtain ⟨nodes, outside, root, opened, input, last⟩ := s
  cases nodes <;> rfl

theorem toLoop_taken (p : Parser) (s : ParseState) :
    (p.taken s).toLoop =
      { s.toLoop with stack := s.drop.toLoop.stack, input := p.splitFirst s.input } := by
  obtain ⟨nodes, outside, root, opened, input, last⟩ := s
  cases nodes <;> rfl

theorem toLoop_addChild (s : ParseState) (child : Forest) :
    (s.addChild child).toLoop = { s.toLoop with arena := (s.addChild child).forest.arena } := by
  obtain ⟨nodes, outside, root, opened, input, last⟩ := s
  cases nodes <;> rfl

/-- Nothing is expected in the node that is closed. -/
theorem toLoop_closeNode {n : OpenNode} {outer : List OpenNode} (hn : s.nodes = n :: outer)
    (hx : n.expected = []) : s.closeNode.toLoop = s.toLoop := by
  have harena := congrArg Forest.arena s.forest_closeNode
  obtain ⟨nodes, outside, root, opened, input, last⟩ := s
  subst hn
  cases outer <;>
    simpa [ParseState.toLoop, ParseState.closeNode, ParseState.addChild, hx] using harena

/-- A leaf is attached to the innermost open node. -/
theorem attachToken_toLoop (hs : s.forest.nodes.map Tree.id = List.range s.opened) (x : Nat) :
    p.attachToken x s.parent s.toLoop = (p.readToken x s).toLoop := by
  simp only [attachToken, readToken, ParseState.input_toLoop]
  cases hi : s.input with
  | nil =>
    by_cases hx : x = Symbol.endIndex
    · simp only [if_pos hx, ParseStep.toLoop]
    · simp only [if_neg hx, ParseStep.toLoop]
      rfl
  | cons t rest =>
    by_cases ht : p.classOf t = some x
    · have harena := ParseState.arena_addLeaf (s := { s with input := rest }) hs t
      simp only [if_pos ht, ParseStep.toLoop, toLoop_addChild, harena]
      rfl
    · by_cases hx : x = Symbol.endIndex ∧ s.nodes.isEmpty = true
      · simp only [if_neg ht, isNone_parent, if_pos hx, ParseStep.toLoop]
        rfl
      · simp only [if_neg ht, isNone_parent, if_neg hx, ParseStep.toLoop]
        rfl

theorem attachNode_toLoop (hs : s.forest.nodes.map Tree.id = List.range s.opened)
    (hroot : s.root = none) (x : Nat) :
    p.attachNode x s.parent s.toLoop = (p.expand x s).toLoop := by
  simp only [attachNode, expand, ParseState.input_toLoop]
  cases hq : (p.lookahead s.input).bind (p.table.get? x) with
  | none => cases hi : s.input <;> rfl
  | some q =>
    have harena := s.arena_addNode hs hroot x (p.nameOf x) (p.symbolsOf q)
    simp only [ParseState.arena_toLoop, s.length_forest_arena hs, ← harena, ParseStep.toLoop]
    simp [ParseState.toLoop, ParseState.openNode]

/-- Where a symbol comes next, a turn is a step. -/
theorem turn_toLoop (hp : p.Built) (hs : p.Regular s) {x : Nat} (hx : s.next? = some x) :
    p.turn s.toLoop = (p.step s).toLoop := by
  have hparent : (p.taken s).parent = s.parent := parent_drop s
  simp only [turn, step, hx, stack_toLoop hx, ParseState.input_toLoop, ← toLoop_taken, ← hparent]
  cases hsymbol : p.grammar.symbols[x]? with
  | none => rfl
  | some symbol =>
    cases symbol with
    | lambda => rfl
    | endMarker => exact attachToken_toLoop hs.numbered_taken x
    | terminal name => exact attachToken_toLoop hs.numbered_taken x
    | nonTerminal name =>
      have hn : p.grammar.isNonTerminal x = true := Grammar.isNonTerminal_iff.2 ⟨name, hsymbol⟩
      exact attachNode_toLoop hs.numbered_taken (hs.stage.root_eq_none hp hx hn).1 x

theorem turn_toLoop_of_empty (hs : p.Regular s) (hx : s.next? = none) (hn : s.nodes = []) :
    p.turn s.toLoop = (p.step s).toLoop := by
  obtain ⟨nodes, outside, root, opened, input, last⟩ := s
  subst hn
  cases hs.stage with
  | before => cases hx
  | behind tree => cases hx
  | done tree => cases input <;> rfl

theorem step_of_none {n : OpenNode} {outer : List OpenNode} (hn : s.nodes = n :: outer)
    (hx : s.next? = none) : p.step s = .next s.closeNode := by
  simp only [step, hx, hn, List.isEmpty_cons, Bool.false_eq_true, if_false]

theorem length_nodes_closeNode {n : OpenNode} {outer : List OpenNode} (hn : s.nodes = n :: outer) :
    s.closeNode.nodes.length = outer.length := by
  obtain ⟨nodes, outside, root, opened, input, last⟩ := s
  subst hn
  cases outer <;> rfl

/-- Closing nodes changes nothing, until the next step is a turn. -/
theorem exists_turn_toLoop (hp : p.Built) (hs : p.Regular s) :
    ∃ n s', p.Steps n s s' ∧ p.Regular s' ∧ p.turn s.toLoop = (p.step s').toLoop := by
  induction hl : s.nodes.length generalizing s with
  | zero =>
    refine ⟨0, s, .zero s, hs, ?_⟩
    cases hx : s.next? with
    | none => exact turn_toLoop_of_empty hs hx (List.length_eq_zero_iff.1 hl)
    | some x => exact turn_toLoop hp hs hx
  | succ k ih =>
    cases hx : s.next? with
    | some x => exact ⟨0, s, .zero s, hs, turn_toLoop hp hs hx⟩
    | none =>
      obtain ⟨n, outer, hn⟩ := List.exists_cons_of_length_eq_add_one hl
      have hstep := step_of_none (p := p) hn hx
      have hlength : s.closeNode.nodes.length = k := by
        rw [hn, List.length_cons] at hl
        rw [length_nodes_closeNode hn]
        omega
      have hempty : n.expected = [] := by simpa [ParseState.next?, hn] using hx
      obtain ⟨m, s', hm, hs', hturn⟩ := ih
        ((transition_of_step hp hs hstep).regular hp hs) hlength
      rw [toLoop_closeNode hn hempty] at hturn
      exact ⟨m + 1, s', .succ hstep hm, hs', hturn⟩

theorem exists_loop_of_run (hp : p.Built) (hs : p.Regular s) {n : Nat} {r : Except SyntaxError Tree}
    (h : p.run n s = some r) : ∃ k, p.loop k s.toLoop = some (r.map Tree.arena) := by
  induction n using Nat.strong_induction_on generalizing s with
  | _ n ih =>
    obtain ⟨m, s', hm, hs', hturn⟩ := exists_turn_toLoop hp hs
    obtain ⟨j, rfl, hj⟩ := hm.of_run h
    cases j with
    | zero => cases hj
    | succ j =>
      rw [run] at hj
      cases hstep : p.step s' with
      | next s'' =>
        rw [hstep] at hj hturn
        obtain ⟨k, hk⟩ := ih j (by omega) ((transition_of_step hp hs' hstep).regular hp hs') hj
        exact ⟨k + 1, by rw [loop, hturn]; exact hk⟩
      | stop r' =>
        rw [hstep] at hj hturn
        obtain rfl := Option.some.inj hj
        exact ⟨1, by rw [loop, hturn]; rfl⟩

theorem exists_steps_of_loop (hp : p.Built) (hs : p.Regular s) {k : Nat}
    {result : Except SyntaxError Arena} (h : p.loop k s.toLoop = some result) :
    ∃ m s' r, p.Steps m s s' ∧ p.step s' = .stop r ∧ result = r.map Tree.arena := by
  induction k generalizing s with
  | zero => cases h
  | succ k ih =>
    obtain ⟨m, s', hm, hs', hturn⟩ := exists_turn_toLoop hp hs
    rw [loop, hturn] at h
    cases hstep : p.step s' with
    | next s'' =>
      rw [hstep] at h
      obtain ⟨j, s₁, r, hj, hstop, hr⟩ :=
        ih ((transition_of_step hp hs' hstep).regular hp hs') h
      exact ⟨_, s₁, r, hm.trans (.succ hstep hj), hstop, hr⟩
    | stop r =>
      rw [hstep] at h
      exact ⟨m, s', r, hm, hstep, (Option.some.inj h).symm⟩

/-- The loop comes to the results to which the steps lead, and a tree comes as its arena. -/
theorem exists_loop_iff (hp : p.Built) (tokens : List Token) {result : Except SyntaxError Arena} :
    (∃ k, p.loop k (p.loopStart tokens) = some result) ↔
      ∃ n r, p.run n (p.initial tokens) = some r ∧ result = r.map Tree.arena := by
  have hs := regular_initial p tokens
  constructor
  · rintro ⟨k, h⟩
    obtain ⟨m, s', r, hm, hstop, hr⟩ := exists_steps_of_loop hp hs h
    exact ⟨m + 1, r, hm.run_of_stop hstop (Nat.lt_succ_self m), hr⟩
  · rintro ⟨n, r, h, rfl⟩
    exact exists_loop_of_run hp hs h

/-! ## Parsed trees -/

/-- A reading numbers its nodes in the order in which they come. -/
theorem Reads.map_id_nodes {k : Nat} {u : List Nat} {i i' : List Token} {d : Shape} {f : Forest}
    (h : p.Reads k u i d f i') : f.nodes.map Tree.id = List.range' k d.size := by
  induction h with
  | nil => rfl
  | token _ _ ih => exact ih
  | beyond _ ih => exact ih
  | @node k x q u i i₁ i' c d fc f _ _ _ _ ihc ih =>
    rw [Forest.nodes, List.map_cons, List.map_append, ihc, ih, Shape.size, Nat.add_assoc 1,
      Nat.add_comm 1, List.range'_succ, List.range'_append_1]

theorem Reads.numbered {u : List Nat} {i i' : List Token} {d : Shape} {f : Forest}
    (h : p.Reads 0 u i d f i') : f.Numbered := by
  have hlength := congrArg List.length h.map_id_nodes
  rw [List.length_map, List.length_range'] at hlength
  rw [Forest.Numbered, h.map_id_nodes, hlength, List.range_eq_range']

/-- The loop with the arena and the parser find the same trees. In the arena of such a tree the
nodes come in pre-order, so that every traversal from the root ends and visits each of them once. -/
theorem parse_arena {lines : List String} {g : Grammar} {messages : MessageTable}
    (hload : Grammar.load lines = .ok g)
    (hp : (ofGrammar g).map (withMessages · messages) = .ok p) {tokens : List Token} {tree : Tree}
    (h : p.parse tokens = some (.ok tree)) :
    (∃ n, p.loop n (p.loopStart tokens) = some (.ok tree.arena)) ∧ tree.arena.PreOrdered ∧
    ∀ depth, tree.arena.length ≤ depth →
      tree.arena.collectLeaves depth 0 = some (List.range tree.arena.length, tree.leaves) ∧
      tree.arena.printNode depth 0 0 = some (List.range tree.arena.length, tree.print) ∧
      tree.arena.outputNode depth 0 = some (List.range tree.arena.length, tree.toJson) := by
  obtain ⟨-, hb⟩ := built_of_load hload hp
  have hne : tokens ≠ [] := by
    rintro rfl
    cases h
  obtain ⟨d, i', hd, -⟩ := exists_reads_of_parse hb h
  have ht := hd.numbered
  refine ⟨?_, tree.preOrdered_arena ht, ?_⟩
  · obtain ⟨n, hrun⟩ := (parse_eq_some_iff hb hne).1 h
    exact (exists_loop_iff hb tokens).2 ⟨n, .ok tree, hrun, rfl⟩
  · intro depth hd
    rw [tree.length_arena] at hd ⊢
    exact ⟨tree.collectLeaves_arena ht hd, tree.printNode_arena ht hd, tree.outputNode_arena ht hd⟩

theorem parse_arena_tally :
    tallyTree.arena.PreOrdered ∧
      tallyTree.arena = [⟨2, "<S>", [.node 1, .leaf ⟨⟨1, 2⟩, .word, "b"⟩]⟩,
        ⟨3, "<A>", [.leaf ⟨⟨0, 1⟩, .word, "a"⟩, .node 2]⟩, ⟨3, "<A>", []⟩] := by
  obtain ⟨-, h, -⟩ := parse_arena load_tally ofGrammar_tally parse_tally
  exact ⟨h, rfl⟩

end Parser

end LLOne

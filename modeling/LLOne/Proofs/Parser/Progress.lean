import LLOne.Proofs.Parser.Halting
import LLOne.Proofs.Parser.States

/-!
# Opening nodes makes progress

As long as no terminal and no end marker is taken, a symbol is expanded only behind symbols that
have vanished. So each node opened meanwhile derives, in one step or more, a form that begins with
the symbol expected next, and none of them is opened inside another one of the same symbol, which
would be left recursive. The ways through left corners come to an end, and so does the opening: a
terminal or an end marker is taken, nothing is expected any more, or the run stops with an error.
-/

namespace LLOne

/-- No node numbered from `k` on lies below another one that is, and that has the same symbol. -/
def Forest.Distinct (k : Nat) (f : Forest) : Prop :=
  ∀ a ∈ f.nodes, ∀ b ∈ a.children.nodes, k ≤ a.id → k ≤ b.id → b.symbol ≠ a.symbol

namespace Forest

variable {k : Nat}

theorem distinct_nil (k : Nat) : Forest.Distinct k .nil := by
  intro a ha
  cases ha

theorem distinct_append {f g : Forest} :
    (f ++ g).Distinct k ↔ f.Distinct k ∧ g.Distinct k := by
  simp only [Distinct, nodes_append, List.forall_mem_append]

theorem distinct_node {id x : Nat} {label : String} {c : Forest} :
    (Forest.node id x label c .nil).Distinct k ↔
      (∀ b ∈ c.nodes, k ≤ id → k ≤ b.id → b.symbol ≠ x) ∧ c.Distinct k := by
  simp only [Distinct, nodes, List.append_nil, List.forall_mem_cons]

end Forest

/-- What comes inside of the innermost node lies below all open nodes. -/
theorem distinct_closeAll {k : Nat} {nodes : List OpenNode} {f : Forest} :
    (closeAll nodes f).Distinct k ↔ (closeAll nodes .nil).Distinct k ∧ f.Distinct k ∧
      ∀ n ∈ nodes, ∀ b ∈ f.nodes, k ≤ n.id → k ≤ b.id → b.symbol ≠ n.symbol := by
  induction nodes generalizing f with
  | nil => simp [closeAll, Forest.distinct_nil]
  | cons n outer ih =>
    simp only [closeAll]
    rw [ih, ih (f := .node n.id n.symbol n.label (n.children ++ .nil) .nil)]
    simp only [Forest.distinct_node, Forest.distinct_append, Forest.nodes, Forest.nodes_append,
      List.append_nil, List.forall_mem_cons, List.forall_mem_append, Forest.append_nil, imp_and,
      forall_and]
    tauto

namespace Parser

/-- So many steps, none of which takes a terminal or an end marker. -/
abbrev Expands (p : Parser) : Nat → ParseState → ParseState → Prop :=
  Walk fun s s' => (∀ x, s.next? = some x → p.grammar.isLookahead x = false) ∧ p.step s = .next s'

/-- The next step takes a terminal or an end marker, or nothing is expected any more, or the run
stops with an error. -/
def Pauses (p : Parser) (s : ParseState) : Prop :=
  (∃ x, s.next? = some x ∧ p.grammar.isLookahead x = true) ∨ (s.nodes = [] ∧ s.outside = []) ∨
    ∃ e, p.step s = .stop (.error e)

/-- Every open node that is numbered from `k` on derives what is still expected in it and in the
nodes inside of it, where `u` is expected in front of all that. -/
def Derived (g : Grammar) (k : Nat) : List Nat → List OpenNode → Prop
  | _, [] => True
  | u, n :: outer => (k ≤ n.id → Relation.TransGen g.Step [n.symbol] (u ++ n.expected)) ∧
    Derived g k (u ++ n.expected) outer

variable {p : Parser} {g : Grammar} {k : Nat}

/-! ## No node inside another one of its symbol -/

theorem Derived.mono {nodes : List OpenNode} {u w : List Nat} (h : Derived g k u nodes)
    (hd : g.Derives u w) : Derived g k w nodes := by
  induction nodes generalizing u w with
  | nil => trivial
  | cons n outer ih =>
    obtain ⟨hn, houter⟩ := h
    have hd' := Grammar.Derives.append hd (.refl n.expected)
    exact ⟨fun hk => (hn hk).trans_left hd', ih houter hd'⟩

theorem Derived.exists_form {nodes : List OpenNode} {u : List Nat} (h : Derived g k u nodes)
    {n : OpenNode} (hn : n ∈ nodes) (hk : k ≤ n.id) :
    ∃ v, Relation.TransGen g.Step [n.symbol] (u ++ v) := by
  induction nodes generalizing u with
  | nil => cases hn
  | cons m outer ih =>
    rcases List.mem_cons.1 hn with rfl | hn
    · exact ⟨_, h.1 hk⟩
    · obtain ⟨v, hv⟩ := ih h.2 hn
      rw [List.append_assoc] at hv
      exact ⟨_, hv⟩

theorem derived_of_lt {nodes : List OpenNode} (h : ∀ n ∈ nodes, n.id < k) (u : List Nat) :
    Derived g k u nodes := by
  induction nodes generalizing u with
  | nil => trivial
  | cons n outer ih =>
    obtain ⟨hn, houter⟩ := List.forall_mem_cons.1 h
    exact ⟨fun hk => absurd hk (Nat.not_le.2 hn), ih houter _⟩

/-- What has been opened from the `k`th node on. -/
structure Growing (p : Parser) (k : Nat) (s : ParseState) : Prop where
  derived : Derived p.grammar k [] s.nodes
  distinct : s.forest.Distinct k

theorem growing_self {s : ParseState} (hs : p.Regular s) : p.Growing s.opened s where
  derived := derived_of_lt (fun _ hn => hs.id_lt_of_open hn) []
  distinct _ ha _ _ hk := absurd hk (Nat.not_le.2 (hs.id_lt ha))

theorem Derived.drop {s : ParseState} (h : Derived g k [] s.nodes) {x : Nat}
    (hx : s.next? = some x) : Derived g k [x] s.drop.nodes := by
  obtain ⟨nodes, outside, root, opened, input, last⟩ := s
  cases nodes with
  | nil => trivial
  | cons n outer =>
    obtain ⟨rest, hrest⟩ := List.head?_eq_some_iff.1 hx
    simp only [Derived, List.nil_append, hrest] at h
    simp only [ParseState.drop, Derived, hrest, List.tail_cons, List.singleton_append]
    exact h

theorem step_of_cell (hp : p.Built) {i : List Token} {x q : Nat}
    (hq : (p.lookahead i).bind (p.table.get? x) = some q) : p.grammar.Step [x] (p.symbolsOf q) := by
  obtain ⟨production, hm, rfl, hs⟩ := hp.of_cell hq
  exact Grammar.step_singleton_iff.2 ⟨_, p.grammar.mem_rightsOf.2 hm, hs⟩

theorem Growing.close {s : ParseState} (hg : p.Growing k s) {n : OpenNode} {outer : List OpenNode}
    (hn : s.nodes = n :: outer) (hx : n.expected = []) : p.Growing k s.closeNode := by
  obtain ⟨hderived, hdistinct⟩ := hg
  refine ⟨?_, by rwa [s.forest_closeNode]⟩
  obtain ⟨nodes, outside, root, opened, input, last⟩ := s
  subst hn
  have houter : Derived p.grammar k [] outer := by
    have h := hderived.2
    rwa [hx] at h
  cases outer with
  | nil => trivial
  | cons m outer => exact houter

/-- The symbol that is expanded begins what each of the open nodes derives, so it is none of
theirs. -/
theorem Growing.expand {s : ParseState} (hp : p.Built) (hs : p.Regular s) (hg : p.Growing k s)
    {x q : Nat} (hx : s.next? = some x) (hn : p.grammar.isNonTerminal x = true)
    (hq : (p.lookahead (p.splitFirst s.input)).bind (p.table.get? x) = some q) :
    p.Growing k ((p.taken s).openNode x (p.nameOf x) (p.symbolsOf q)) := by
  have hstep := step_of_cell hp hq
  have hderived := hg.derived.drop hx
  obtain ⟨hroot, -⟩ := hs.stage.root_eq_none hp hx hn
  refine ⟨⟨fun _ => .single hstep, hderived.mono (.single hstep)⟩, ?_⟩
  rw [ParseState.forest_openNode, distinct_closeAll]
  refine ⟨?_, ?_, ?_⟩
  · change (closeAll s.drop.nodes .nil).Distinct k
    rw [← ParseState.forest_of_root_none hroot, s.forest_drop]
    exact hg.distinct
  · exact Forest.distinct_node.2 ⟨by simp [Forest.nodes], Forest.distinct_nil k⟩
  · intro n hmem b hb hk _
    obtain rfl := List.mem_singleton.1 hb
    rintro rfl
    obtain ⟨v, hv⟩ := hderived.exists_form hmem hk
    exact hp.not_leftRecursive _ v hv

theorem Expands.growing {n : Nat} {s s' : ParseState} (h : p.Expands n s s') (hp : p.Built)
    (hs : p.Regular s) (hg : p.Growing k s) : p.Growing k s' := by
  induction h with
  | zero => exact hg
  | succ hstep _ ih =>
    obtain ⟨hx, hstep⟩ := hstep
    have htransition := transition_of_step hp hs hstep
    apply ih (htransition.regular hp hs)
    cases htransition with
    | close hn hempty => exact hg.close hn hempty
    | expand hnext hn hq => exact hg.expand hp hs hnext hn hq
    | token hnext _ ht =>
      have hl := hx _ hnext
      rw [isLookahead_of_classOf ht] at hl
      cases hl
    | beyond hnext _ =>
      have hl := hx _ hnext
      rw [hp.consistent.isLookahead_endIndex] at hl
      cases hl

/-! ## The end of the opening -/

/-- What is expanded with all of the input in pieces is expanded with the tokens. -/
theorem Expands.of_split {n : Nat} {s s'' : ParseState} {last : Option Location}
    (h : p.Expands n (p.split s last) s'') :
    ∃ s', p.Expands n s s' ∧ s'' = p.split s' last := by
  refine Walk.of_map (f := fun s => p.split s last) (fun hstep => ?_) h
  obtain ⟨s', hs, he⟩ := exists_next_of_split hstep.2
  exact ⟨s', ⟨hstep.1, hs⟩, he⟩

theorem Pauses.of_split {s : ParseState} {last : Option Location}
    (h : p.Pauses (p.split s last)) : p.Pauses s := by
  rcases h with h | h | ⟨e, h⟩
  · exact .inl h
  · exact .inr (.inl h)
  · obtain ⟨e', h', -⟩ := exists_stop_of_split h
    exact .inr (.inr ⟨e', h'⟩)

theorem pauses_of_isLookahead {s : ParseState} {x : Nat} (hx : s.next? = some x)
    (hl : p.grammar.isLookahead x = true) : p.Pauses s := .inl ⟨x, hx, hl⟩

theorem pauses_of_none {s : ParseState} {x : Nat} (hi : p.FirstInPieces s.input)
    (hx : s.next? = some x) (hn : p.grammar.isNonTerminal x = true)
    (hq : (p.lookahead s.input).bind (p.table.get? x) = none) : p.Pauses s := by
  have hstep := step_of_isNonTerminal hi hx hn
  rw [expand_of_none hn (by rwa [input_drop])] at hstep
  exact .inr (.inr ⟨_, hstep⟩)

/-- A step that opens a node. -/
theorem Expands.open {m : Nat} {s s' s'' : ParseState} {x : Nat} (hx : s.next? = some x)
    (hn : p.grammar.isNonTerminal x = true) (h : p.step s = .next s') (hs : p.Expands m s' s'') :
    p.Expands (m + 1) s s'' := by
  refine .succ ⟨?_, h⟩ hs
  intro y hy
  obtain rfl := Option.some.inj (hx.symm.trans hy)
  by_contra hl
  exact Grammar.ne_of_isLookahead (Bool.eq_true_of_not_eq_false hl) hn rfl

/-- Where the form is to be read next, opening nodes leads to a pause, or the form vanishes and
nothing of it is expected any more. -/
def Settles (p : Parser) (i : List Token) (u : List Nat) : Prop :=
  ∀ (s : ParseState) (n : OpenNode) (children : Forest) (v : List Nat) (k : Nat),
    ∃ m s', p.Expands m (s.inside (n.holding children (u ++ v)) k i) s' ∧
      (p.Pauses s' ∨ p.grammar.Vanishes u ∧
        ∃ f k', s' = s.inside (n.holding (children ++ f) v) k' i)

section Settles

variable {i : List Token} (hp : p.Built) (hi : p.FirstInPieces i)

/-- A form settles if all symbols do to which it leads. -/
theorem settles_of_leads {u : List Nat} (h : ∀ b, p.grammar.Leads u b → p.Settles i [b]) :
    p.Settles i u := by
  intro s n children v k
  induction u generalizing children k with
  | nil => exact ⟨0, _, .zero _, .inr ⟨Grammar.vanishes_nil, .nil, k, by simp⟩⟩
  | cons x u ih =>
    have hfirst := h x (Grammar.leads_cons_iff.2 (.inl rfl))
    obtain ⟨m, s', hs, hpause | ⟨hx, f, k', rfl⟩⟩ := hfirst s n children (u ++ v) k
    · exact ⟨m, s', hs, .inl hpause⟩
    · have hrest : ∀ b, p.grammar.Leads u b → p.Settles i [b] :=
        fun b hb => h b (Grammar.leads_cons_iff.2 (.inr ⟨hx, hb⟩))
      obtain ⟨m', s'', hs', hend⟩ := ih hrest (children ++ f) k'
      refine ⟨m + m', s'', hs.trans hs', hend.imp_right ?_⟩
      rintro ⟨hu, f', k'', rfl⟩
      exact ⟨Grammar.vanishes_append_iff (u := [x]).2 ⟨hx, hu⟩, f ++ f', k'',
        by rw [Forest.append_assoc]⟩

include hp hi

/-- The induction goes down the left corners of the symbol. -/
theorem settles_symbol {x : Nat} (hf : p.grammar.Founded x)
    (hx : p.grammar.isNonTerminal x = true ∨ p.grammar.isLookahead x = true) :
    p.Settles i [x] := by
  induction hf with
  | intro x _ ih =>
    intro s n children v k
    rcases hx with hx | hx
    · cases hq : (p.lookahead i).bind (p.table.get? x) with
      | none => exact ⟨0, _, .zero _, .inl (pauses_of_none hi rfl hx hq)⟩
      | some q =>
        obtain ⟨production, hm, rfl, hsymbols⟩ := hp.of_cell hq
        have hchildren : p.Settles i (p.symbolsOf q) := by
          apply settles_of_leads
          intro b hb
          obtain ⟨u, w, he, -⟩ := id hb
          have hkind := hp.mem_symbolsOf hq b (he ▸ List.mem_append_right u List.mem_cons_self)
          exact ih b ⟨_, p.grammar.mem_rightsOf.2 hm, hsymbols ▸ hb⟩ hkind
        obtain ⟨m, s', hs, hend⟩ := hchildren (s.inside (n.holding children v) k i)
          (p.fresh k production.left) .nil [] (k + 1)
        rw [List.append_nil] at hs
        have hopen := Expands.open rfl hx (step_node hi hx hq) hs
        rcases hend with hpause | ⟨hvanish, f, k', rfl⟩
        · exact ⟨_, s', hopen, .inl hpause⟩
        · have hclose := hopen.trans (.succ ⟨nofun, step_close⟩ (.zero _))
          exact ⟨_, _, hclose, .inr ⟨.head (step_of_cell hp hq) hvanish, _, k', rfl⟩⟩
    · exact ⟨0, _, .zero _, .inl (pauses_of_isLookahead rfl hx)⟩

theorem settles {u : List Nat}
    (hu : ∀ x ∈ u, p.grammar.isNonTerminal x = true ∨ p.grammar.isLookahead x = true) :
    p.Settles i u := by
  apply settles_of_leads
  rintro b ⟨v, w, rfl, -⟩
  have hb := hu b (List.mem_append_right v List.mem_cons_self)
  refine settles_symbol hp hi ?_ hb
  rcases hb with hb | hb
  · obtain ⟨-, -, -, hfirst, -⟩ := Grammar.parts_of_firstFollow hp.sets
    exact hp.consistent.founded_of_firstTable hfirst hb
  · exact hp.consistent.founded_lookahead hb

/-- What is expected in the innermost node settles, then what is expected in the next one. -/
theorem exists_pause_of_nodes {n : OpenNode} {outer : List OpenNode} (hs : p.Kinds (n :: outer))
    (root : Option Tree) (k : Nat) (last : Option Location) :
    ∃ m s', p.Expands m ⟨n :: outer, [Symbol.endIndex], root, k, i, last⟩ s' ∧ p.Pauses s' := by
  induction outer generalizing n root k with
  | nil =>
    have hn := (List.forall_mem_cons.1 hs).1
    obtain ⟨m, s', hm, hend⟩ := settles hp hi hn ⟨[], [Symbol.endIndex], root, k, i, last⟩ n
      n.children [] k
    rw [List.append_nil] at hm
    rcases hend with hpause | ⟨-, f, k', rfl⟩
    · exact ⟨m, s', hm, hpause⟩
    · exact ⟨_, _, hm.trans (.succ ⟨nofun, rfl⟩ (.zero _)),
        pauses_of_isLookahead rfl hp.consistent.isLookahead_endIndex⟩
  | cons o outer ih =>
    obtain ⟨hn, houter⟩ := List.forall_mem_cons.1 hs
    obtain ⟨m, s', hm, hend⟩ := settles hp hi hn ⟨o :: outer, [Symbol.endIndex], root, k, i, last⟩
      n n.children [] k
    rw [List.append_nil] at hm
    rcases hend with hpause | ⟨-, f, k', rfl⟩
    · exact ⟨m, s', hm, hpause⟩
    · have hkinds : p.Kinds (o.holding
          (o.children ++ (n.holding (n.children ++ f) []).tree.toForest) o.expected :: outer) :=
        List.forall_mem_cons.2 (List.forall_mem_cons.1 houter)
      obtain ⟨m', s', hm', hpause⟩ := ih hkinds root k'
      exact ⟨_, s', hm.trans (.succ ⟨nofun, rfl⟩ hm'), hpause⟩

end Settles

/-- From every state some pause is reached by opening and closing nodes. -/
theorem exists_pause {s : ParseState} (hp : p.Built) (hs : p.Regular s) :
    ∃ m s', p.Expands m s s' ∧ p.Pauses s' := by
  have hi : p.FirstInPieces (p.splitAll s.input) := (inPieces_splitAll s.input).first
  have hsplit : ∃ m s', p.Expands m (p.split s none) s' ∧ p.Pauses s' := by
    obtain ⟨nodes, outside, root, opened, input, last⟩ := s
    cases hs.stage with
    | before =>
      cases hq : (p.lookahead (p.splitAll input)).bind (p.table.get? p.start) with
      | none => exact ⟨0, _, .zero _, pauses_of_none hi rfl hp.nonTerminal hq⟩
      | some q =>
        have hstep := (step_of_isNonTerminal (s := p.split ⟨[], _, none, opened, input, last⟩ none)
          hi rfl hp.nonTerminal).trans (expand_of_some hq)
        have hkinds : p.Kinds [(p.fresh opened p.start).holding .nil (p.symbolsOf q)] :=
          List.forall_mem_singleton.2 (hp.mem_symbolsOf hq)
        obtain ⟨m, s', hm, hpause⟩ := exists_pause_of_nodes hp hi hkinds none (opened + 1) none
        exact ⟨m + 1, s', .open rfl hp.nonTerminal hstep hm, hpause⟩
    | inside n outer => exact exists_pause_of_nodes hp hi hs.kinds none opened none
    | behind tree =>
      exact ⟨0, _, .zero _, pauses_of_isLookahead rfl hp.consistent.isLookahead_endIndex⟩
    | done tree => exact ⟨0, _, .zero _, .inr (.inl ⟨rfl, rfl⟩)⟩
  obtain ⟨m, s'', hm, hpause⟩ := hsplit
  obtain ⟨s', hm', rfl⟩ := hm.of_split
  exact ⟨m, s', hm', hpause.of_split⟩

/-- Before the next terminal or end marker is taken, no node is opened inside another one that is
opened meanwhile and has the same symbol, and from every state of a run such a symbol is reached, or
nothing is expected any more, or an error. The nodes opened so far are those of the forest, numbered
from zero on, so the ones opened later have the numbers that follow. -/
theorem opening_progress {lines : List String} {g : Grammar} {messages : MessageTable}
    (hload : Grammar.load lines = .ok g)
    (hp : (ofGrammar g).map (withMessages · messages) = .ok p) {tokens : List Token} {n : Nat}
    {s : ParseState} (h : p.Steps n (p.initial tokens) s) :
    s.forest.nodes.map Tree.id = List.range s.opened ∧
    (∀ m s', p.Expands m s s' → s'.forest.Distinct s.opened) ∧
    ∃ m s', p.Expands m s s' ∧ p.Pauses s' := by
  obtain ⟨-, hb⟩ := built_of_load hload hp
  have hs := h.regular hb (regular_initial p tokens)
  exact ⟨hs.numbered, fun m s' hm => (hm.growing hb hs (growing_self hs)).distinct,
    exists_pause hb hs⟩

/-- Behind the root of the tree of `ab` a node for `<A>` is opened, and then `a` is expected. -/
theorem opening_progress_tally :
    ∃ s, tallyParser.Steps 1 (tallyParser.initial [⟨⟨0, 2⟩, .word, "ab"⟩]) s ∧
      ∃ m s', tallyParser.Expands m s s' ∧ tallyParser.Pauses s' :=
  have h := Steps.one (p := tallyParser) (s := tallyParser.initial [⟨⟨0, 2⟩, .word, "ab"⟩]) rfl
  ⟨_, h, (opening_progress load_tally ofGrammar_tally h).2.2⟩

end Parser

end LLOne

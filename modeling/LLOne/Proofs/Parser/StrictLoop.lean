import LLOne.Proofs.Parser.ArenaLoop

/-!
# What the loop never falls back on

The loop passes over much that would be wrong: a symbol or production that does not exist, `λ` on
the stack, a token that no node takes, a node without a place below the root. The strict loop gives
up on each of these. It never does, which follows from what every turn keeps: on the stack, all but
the end marker at the bottom is to be attached to a node of the arena, as soon as there is one.
-/

namespace LLOne

/-- What the strict loop gives up on. -/
inductive Lapse where
  | noSymbol (x : Nat)
  | lambda
  | noProduction (q : Nat)
  /-- The table gives the production of another symbol. -/
  | foreign (x q : Nat)
  | noNode (id : Nat)
  /-- The node has no parent although there is a root, or a parent although there is none. -/
  | stray (x : Nat)
  /-- The token is not attached to any node. -/
  | lost (t : Token)
  | noTree
deriving DecidableEq, Repr

namespace Arena

def strictNode (a : Arena) (parent : Option Nat) (symbol : Nat) (label : String) :
    Except Lapse Arena :=
  match a, parent with
  | [], none => .ok [⟨symbol, label, []⟩]
  | n :: nodes, some id =>
    if id < (n :: nodes).length then
      .ok (addChild (n :: nodes ++ [⟨symbol, label, []⟩]) id (.node (n :: nodes).length))
    else .error (.noNode id)
  | _, _ => .error (.stray symbol)

def strictLeaf (a : Arena) (parent : Option Nat) (t : Token) : Except Lapse Arena :=
  match parent with
  | some id => if id < a.length then .ok (a.addChild id (.leaf t)) else .error (.noNode id)
  | none => .error (.lost t)

@[simp] theorem length_addChild (a : Arena) (parent : Nat) (child : Child) :
    (a.addChild parent child).length = a.length :=
  List.length_modify ..

@[simp] theorem length_addLeaf (a : Arena) (parent : Option Nat) (t : Token) :
    (a.addLeaf parent t).length = a.length := by
  cases parent <;> simp [addLeaf]

@[simp] theorem length_addNode (a : Arena) (parent : Option Nat) (symbol : Nat) (label : String) :
    (a.addNode parent symbol label).length = a.length + 1 := by
  cases a <;> simp [addNode]

variable {a : Arena} {parent : Option Nat}

theorem strictNode_eq (h : a = [] ∧ parent = none ∨ ∃ id < a.length, parent = some id)
    (symbol : Nat) (label : String) :
    a.strictNode parent symbol label = .ok (a.addNode parent symbol label) := by
  rcases h with ⟨rfl, rfl⟩ | ⟨id, hid, rfl⟩
  · rfl
  · cases a with
    | nil => exact absurd hid (Nat.not_lt_zero id)
    | cons n nodes => exact if_pos hid

theorem strictLeaf_eq (h : ∃ id < a.length, parent = some id) (t : Token) :
    a.strictLeaf parent t = .ok (a.addLeaf parent t) := by
  obtain ⟨id, hid, rfl⟩ := h
  exact if_pos hid

end Arena

namespace Parser

variable (p : Parser)

def strictToken (x : Nat) (parent : Option Nat) (s : LoopState) : Except Lapse LoopStep :=
  match s.input with
  | [] => .ok (p.attachToken x parent s)
  | t :: rest =>
    if p.classOf t = some x then
      if x = Symbol.endIndex ∧ parent = none ∧ s.stack = [] then
        .ok (.next { s with input := rest })
      else do
        let arena ← s.arena.strictLeaf parent t
        .ok (.next { s with arena, input := rest })
    else .ok (p.attachToken x parent s)

def strictExpand (x : Nat) (parent : Option Nat) (s : LoopState) : Except Lapse LoopStep :=
  match (p.lookahead s.input).bind (p.table.get? x) with
  | none => .ok (p.attachNode x parent s)
  | some q =>
    match p.grammar.productions[q]? with
    | none => .error (.noProduction q)
    | some production =>
      if production.left ≠ x then .error (.foreign x q)
      else
        match production.right.find? fun y => p.grammar.symbols.length ≤ y with
        | some y => .error (.noSymbol y)
        | none => do
          let arena ← s.arena.strictNode parent x (p.nameOf x)
          .ok (.next { s with
            stack := (p.grammar.form production.right).map (·, some s.arena.length) ++ s.stack
            arena })

def strictTurn (s : LoopState) : Except Lapse LoopStep :=
  match s.stack with
  | [] =>
    match s.input, s.arena with
    | [], [] => .error .noTree
    | _, _ => .ok (.stop (p.arenaOf s))
  | (x, parent) :: stack =>
    let s := { s with stack, input := p.splitFirst s.input }
    match p.grammar.symbols[x]? with
    | none => .error (.noSymbol x)
    | some .lambda => .error .lambda
    | some (.nonTerminal _) => p.strictExpand x parent s
    | some _ => p.strictToken x parent s

def strictLoop : Nat → LoopState → Except Lapse (Option (Except SyntaxError Arena))
  | 0, _ => .ok none
  | fuel + 1, s =>
    match p.strictTurn s with
    | .error lapse => .error lapse
    | .ok (.next s') => strictLoop fuel s'
    | .ok (.stop result) => .ok (some result)

/-- The states to which the loop comes. -/
inductive Reached (tokens : List Token) : LoopState → Prop
  | start : Reached tokens (p.loopStart tokens)
  | turn {s s' : LoopState} (hs : Reached tokens s) (h : p.turn s = .next s') : Reached tokens s'

end Parser

def Attached (n : Nat) (entries : List (Nat × Option Nat)) : Prop :=
  ∀ entry ∈ entries, ∃ id < n, entry.2 = some id

/-- All is to be attached to one of `n` nodes, but for the end marker at the bottom. -/
def Placed (n : Nat) (stack : List (Nat × Option Nat)) : Prop :=
  stack = [] ∨ ∃ above, stack = above ++ [(Symbol.endIndex, none)] ∧ Attached n above

/-- What holds in every state of the loop. -/
structure Parser.Orderly (p : Parser) (tokens : List Token) (s : LoopState) : Prop where
  kinds : ∀ entry ∈ s.stack,
    p.grammar.isNonTerminal entry.1 = true ∨ p.grammar.isLookahead entry.1 = true
  placed : s = p.loopStart tokens ∨ s.arena ≠ [] ∧ Placed s.arena.length s.stack

/-! ## The stack -/

theorem Attached.mono {n m : Nat} {entries : List (Nat × Option Nat)} (h : Attached n entries)
    (hnm : n ≤ m) : Attached m entries := by
  intro entry hentry
  obtain ⟨id, hid, he⟩ := h entry hentry
  exact ⟨id, hid.trans_le hnm, he⟩

theorem Attached.push {n id : Nat} (hid : id < n) (xs : List Nat)
    {entries : List (Nat × Option Nat)} (h : Attached n entries) :
    Attached n (xs.map (·, some id) ++ entries) := by
  intro entry hentry
  rcases List.mem_append.1 hentry with hentry | hentry
  · obtain ⟨x, -, rfl⟩ := List.mem_map.1 hentry
    exact ⟨id, hid, rfl⟩
  · exact h entry hentry

theorem Placed.cons_cases {n x : Nat} {parent : Option Nat} {stack : List (Nat × Option Nat)}
    (h : Placed n ((x, parent) :: stack)) :
    (x = Symbol.endIndex ∧ parent = none ∧ stack = []) ∨
      (∃ id < n, parent = some id) ∧
        ∃ above, stack = above ++ [(Symbol.endIndex, none)] ∧ Attached n above := by
  rcases h with h | ⟨above, h, habove⟩
  · cases h
  · cases above with
    | nil =>
      obtain ⟨hentry, rfl⟩ := List.cons.inj h
      obtain ⟨rfl, rfl⟩ := Prod.mk.inj hentry
      exact .inl ⟨rfl, rfl, rfl⟩
    | cons entry above =>
      obtain ⟨rfl, rfl⟩ := List.cons.inj h
      rw [Attached, List.forall_mem_cons] at habove
      exact .inr ⟨habove.1, above, rfl, habove.2⟩

namespace Parser

variable {p : Parser} {tokens : List Token} {s s' : LoopState}

/-! ## Turns -/

def popped (p : Parser) (s : LoopState) (stack : List (Nat × Option Nat)) : LoopState :=
  { s with stack, input := p.splitFirst s.input }

/-- A turn adds a node for a non-terminal, adds a leaf, or does no more than to take the symbol. -/
theorem turn_cases (h : p.turn s = .next s') :
    ∃ x parent stack, s.stack = (x, parent) :: stack ∧
      ((p.grammar.isNonTerminal x = true ∧
        ∃ q, (p.lookahead (p.splitFirst s.input)).bind (p.table.get? x) = some q ∧
          s' = { p.popped s stack with
            stack := (p.symbolsOf q).map (·, some s.arena.length) ++ stack
            arena := s.arena.addNode parent x (p.nameOf x) }) ∨
      p.grammar.isNonTerminal x = false ∧ s'.stack = stack ∧
        s'.arena.length = s.arena.length) := by
  unfold turn at h
  split at h
  · cases h
  next x parent stack hstack =>
    refine ⟨x, parent, stack, hstack, ?_⟩
    dsimp only at h
    split at h
    next hx =>
      obtain rfl := LoopStep.next.inj h
      exact .inr ⟨by simp [Grammar.isNonTerminal, hx], rfl, rfl⟩
    next hx =>
      obtain rfl := LoopStep.next.inj h
      exact .inr ⟨Grammar.not_isNonTerminal_of_getElem? hx (by simp), rfl, rfl⟩
    next name hx =>
      refine .inl ⟨Grammar.isNonTerminal_iff.2 ⟨name, hx⟩, ?_⟩
      unfold attachNode at h
      split at h
      next q hq => exact ⟨q, hq, (LoopStep.next.inj h).symm⟩
      · split at h <;> cases h
    next symbol _ hnt hx =>
      refine .inr ⟨Grammar.not_isNonTerminal_of_getElem? hx hnt, ?_⟩
      unfold attachToken at h
      split at h
      · split at h
        · obtain rfl := LoopStep.next.inj h
          exact ⟨rfl, rfl⟩
        · cases h
      next t rest hi =>
        split at h
        · obtain rfl := LoopStep.next.inj h
          exact ⟨rfl, Arena.length_addLeaf ..⟩
        · split at h <;> cases h

theorem orderly_loopStart (hp : p.Built) (tokens : List Token) :
    p.Orderly tokens (p.loopStart tokens) where
  kinds := by
    refine List.forall_mem_cons.2 ⟨.inl hp.nonTerminal, List.forall_mem_cons.2 ⟨.inr ?_, ?_⟩⟩
    · exact hp.consistent.isLookahead_endIndex
    · exact List.forall_mem_nil _
  placed := .inl rfl

/-- What is on top: the start symbol at first, and from then on the end marker at the bottom or
what is to be attached to a node. -/
theorem Orderly.top (h : p.Orderly tokens s) {x : Nat} {parent : Option Nat}
    {stack : List (Nat × Option Nat)} (hs : s.stack = (x, parent) :: stack) :
    (x = p.start ∧ parent = none ∧ stack = [(Symbol.endIndex, none)] ∧ s.arena = []) ∨
      s.arena ≠ [] ∧ ((x = Symbol.endIndex ∧ parent = none ∧ stack = []) ∨
        (∃ id < s.arena.length, parent = some id) ∧
          ∃ above, stack = above ++ [(Symbol.endIndex, none)] ∧
            Attached s.arena.length above) := by
  rcases h.placed with rfl | ⟨ha, hplaced⟩
  · obtain ⟨hentry, rfl⟩ := List.cons.inj hs
    obtain ⟨rfl, rfl⟩ := Prod.mk.inj hentry
    exact .inl ⟨rfl, rfl, rfl, rfl⟩
  · rw [hs] at hplaced
    exact .inr ⟨ha, hplaced.cons_cases⟩

/-- A turn keeps what holds in every state. -/
theorem Orderly.turn (hp : p.Built) (h : p.Orderly tokens s) (ht : p.turn s = .next s') :
    p.Orderly tokens s' := by
  obtain ⟨x, parent, stack, hstack, hcases⟩ := turn_cases ht
  have hkinds := h.kinds
  rw [hstack, List.forall_mem_cons] at hkinds
  rcases hcases with ⟨hn, q, hq, rfl⟩ | ⟨hn, rfl, hlength⟩
  · obtain ⟨above, rfl, habove⟩ : ∃ above, stack = above ++ [(Symbol.endIndex, none)] ∧
        Attached s.arena.length above := by
      rcases h.top hstack with ⟨-, -, rfl, -⟩ | ⟨-, ⟨rfl, -⟩ | ⟨-, habove⟩⟩
      · exact ⟨[], rfl, List.forall_mem_nil _⟩
      · exact absurd hn (not_isNonTerminal_endIndex hp)
      · exact habove
    refine ⟨fun entry hentry => ?_, .inr ⟨?_, .inr ⟨_, (List.append_assoc ..).symm, ?_⟩⟩⟩
    · rcases List.mem_append.1 hentry with hentry | hentry
      · obtain ⟨y, hy, rfl⟩ := List.mem_map.1 hentry
        exact hp.mem_symbolsOf hq y hy
      · exact hkinds.2 entry hentry
    · exact List.ne_nil_of_length_pos (by simp)
    · rw [Arena.length_addNode]
      exact (habove.mono (Nat.le_succ _)).push (Nat.lt_succ_self _) _
  · refine ⟨hkinds.2, .inr ?_⟩
    rw [← List.length_pos_iff, hlength, List.length_pos_iff]
    rcases h.top hstack with ⟨rfl, -⟩ | ⟨ha, ⟨-, -, hnil⟩ | ⟨-, habove⟩⟩
    · rw [hp.nonTerminal] at hn
      cases hn
    · exact ⟨ha, .inl hnil⟩
    · exact ⟨ha, .inr habove⟩

theorem Reached.orderly (hp : p.Built) (h : p.Reached tokens s) : p.Orderly tokens s := by
  induction h with
  | start => exact orderly_loopStart hp tokens
  | turn _ ht ih => exact ih.turn hp ht

/-- The table gives productions of the symbol whose right sides are in range. -/
theorem Built.production_of_cell (hp : p.Built) {input : List Token} {x q : Nat}
    (hq : (p.lookahead input).bind (p.table.get? x) = some q) :
    ∃ production, p.grammar.productions[q]? = some production ∧ production.left = x ∧
      ∀ y ∈ production.right, y < p.grammar.symbols.length := by
  obtain ⟨t, -, hq⟩ := Option.bind_eq_some_iff.1 hq
  obtain ⟨⟨production, hg, hl, -⟩, -⟩ :=
    (hp.consistent.get?_eq_some_iff hp.sets hp.table x t q).1 hq
  exact ⟨production, hg, hl, hp.consistent.right production (List.mem_of_getElem? hg)⟩

theorem strictToken_eq {x : Nat} {parent : Option Nat}
    (h : (x = Symbol.endIndex ∧ parent = none ∧ s.stack = []) ∨
      ∃ id < s.arena.length, parent = some id) :
    p.strictToken x parent s = .ok (p.attachToken x parent s) := by
  unfold strictToken
  split
  · rfl
  next t rest hi =>
    split
    next ht =>
      have hattach : p.attachToken x parent s =
          .next { s with arena := s.arena.addLeaf parent t, input := rest } := by
        simp only [attachToken, hi, if_pos ht]
      rcases h with ⟨rfl, rfl, hstack⟩ | hid
      · rw [if_pos ⟨rfl, rfl, hstack⟩, hattach]
        rfl
      · have hparent : ¬ (x = Symbol.endIndex ∧ parent = none ∧ s.stack = []) := by
          obtain ⟨id, -, rfl⟩ := hid
          simp
        rw [if_neg hparent, Arena.strictLeaf_eq hid, hattach]
        rfl
    · rfl

theorem strictExpand_eq (hp : p.Built) {x : Nat} {parent : Option Nat}
    (h : s.arena = [] ∧ parent = none ∨ ∃ id < s.arena.length, parent = some id) :
    p.strictExpand x parent s = .ok (p.attachNode x parent s) := by
  unfold strictExpand
  split
  · rfl
  next q hq =>
    obtain ⟨production, hg, hl, hright⟩ := hp.production_of_cell hq
    have hfind : production.right.find? (fun y => p.grammar.symbols.length ≤ y) = none := by
      simpa using hright
    simp only [hg, hl, ne_eq, not_true_eq_false, if_false, hfind, Arena.strictNode_eq h,
      attachNode, hq, hp.symbolsOf_eq hg]
    rfl

/-- In an orderly state, nothing is missing that the strict loop asks for. -/
theorem Orderly.strictTurn_eq (hp : p.Built) (h : p.Orderly tokens s) :
    p.strictTurn s = .ok (p.turn s) := by
  cases hstack : s.stack with
  | nil =>
    have harena : s.arena ≠ [] := by
      rcases h.placed with rfl | ⟨ha, -⟩
      · cases hstack
      · exact ha
    simp only [strictTurn, Parser.turn, hstack]
    split
    next ha => exact absurd ha harena
    next => rfl
  | cons entry stack =>
    obtain ⟨x, parent⟩ := entry
    simp only [strictTurn, Parser.turn, hstack]
    rcases h.kinds (x, parent) (hstack ▸ List.mem_cons_self) with hn | hl
    · obtain ⟨name, hx⟩ := Grammar.isNonTerminal_iff.1 hn
      simp only [hx]
      apply strictExpand_eq hp
      rcases h.top hstack with ⟨-, hparent, -, ha⟩ | ⟨-, ⟨rfl, -⟩ | ⟨hid, -⟩⟩
      · exact .inl ⟨ha, hparent⟩
      · exact absurd hn (not_isNonTerminal_endIndex hp)
      · exact .inr hid
    · have hattach : p.strictToken x parent (p.popped s stack) =
          .ok (p.attachToken x parent (p.popped s stack)) := by
        apply strictToken_eq
        rcases h.top hstack with ⟨rfl, -⟩ | ⟨-, hbottom | ⟨hid, -⟩⟩
        · exact absurd rfl (Grammar.ne_of_isLookahead hl hp.nonTerminal)
        · exact .inl hbottom
        · exact .inr hid
      rcases Grammar.isLookahead_iff.1 hl with hx | ⟨name, hx⟩
      · simp only [hx]
        exact hattach
      · simp only [hx]
        exact hattach

theorem strictLoop_eq (hp : p.Built) (fuel : Nat) (h : p.Reached tokens s) :
    p.strictLoop fuel s = .ok (p.loop fuel s) := by
  induction fuel generalizing s with
  | zero => rfl
  | succ fuel ih =>
    rw [strictLoop, loop, (h.orderly hp).strictTurn_eq hp]
    cases ht : p.turn s with
    | next s' => exact ih (h.turn ht)
    | stop result => rfl

/-- Every state of the loop is orderly, and a cell that it looks up holds a production of the symbol
on top. So the strict loop never gives up and does the same, and it finds what the parser finds. -/
theorem loop_never_lapses {lines : List String} {g : Grammar} {messages : MessageTable}
    (hload : Grammar.load lines = .ok g)
    (hp : (ofGrammar g).map (withMessages · messages) = .ok p) {tokens : List Token}
    (hne : tokens ≠ []) :
    (∀ s, p.Reached tokens s → p.Orderly tokens s ∧ p.strictTurn s = .ok (p.turn s) ∧
      ∀ x parent stack q, s.stack = (x, parent) :: stack →
        (p.lookahead (p.splitFirst s.input)).bind (p.table.get? x) = some q →
        ∃ production, p.grammar.productions[q]? = some production ∧ production.left = x ∧
          ∀ y ∈ production.right, y < p.grammar.symbols.length) ∧
    (∀ name x, p.grammar.indexOf? name = some x → x < p.grammar.symbols.length) ∧
    (∀ k, p.strictLoop k (p.loopStart tokens) = .ok (p.loop k (p.loopStart tokens))) ∧
    ∀ result, (∃ k, p.strictLoop k (p.loopStart tokens) = .ok (some result)) ↔
      ∃ r, p.parse tokens = some r ∧ result = r.map Tree.arena := by
  obtain ⟨-, hb⟩ := built_of_load hload hp
  have hstrict : ∀ k, p.strictLoop k (p.loopStart tokens) = .ok (p.loop k (p.loopStart tokens)) :=
    fun k => strictLoop_eq hb k .start
  refine ⟨fun s hs => ⟨hs.orderly hb, (hs.orderly hb).strictTurn_eq hb, ?_⟩,
    hb.consistent.named, hstrict, fun result => ?_⟩
  · intro x parent stack q _ hq
    exact hb.production_of_cell hq
  · simp only [hstrict, Except.ok.injEq, exists_loop_iff hb, parse_eq_some_iff hb hne]
    constructor
    · rintro ⟨n, r, hn, hr⟩
      exact ⟨r, ⟨n, hn⟩, hr⟩
    · rintro ⟨r, ⟨n, hn⟩, hr⟩
      exact ⟨n, r, hn, hr⟩

theorem loop_never_lapses_tally :
    ∃ k, tallyParser.strictLoop k (tallyParser.loopStart [⟨⟨0, 2⟩, .word, "ab"⟩]) =
      .ok (some (.ok tallyTree.arena)) := by
  have hne : [(⟨⟨0, 2⟩, .word, "ab"⟩ : Token)] ≠ [] := List.cons_ne_nil _ _
  obtain ⟨-, -, -, hfound⟩ := loop_never_lapses load_tally ofGrammar_tally hne
  exact (hfound _).2 ⟨.ok tallyTree, parse_tally, rfl⟩

end Parser

end LLOne

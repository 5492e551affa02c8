import LLOne.Proofs.Parser.Reading

/-!
# Runs are readings

A run does with the symbols expected in a node what a reading of them does, step by step, whatever
nodes are open around it. Where the reading gets stuck, the run stops with an error. So a run that
comes to an end reads the start symbol and the end marker behind it to the end, or gets stuck.
-/

namespace LLOne

theorem Tree.toForest_inj {t t' : Tree} (h : t.toForest = t'.toForest) : t = t' := by
  cases t
  cases t'
  cases h
  rfl

def OpenNode.holding (n : OpenNode) (children : Forest) (expected : List Nat) : OpenNode :=
  { n with children, expected }

def ParseState.inside (s : ParseState) (n : OpenNode) (opened : Nat) (input : List Token) :
    ParseState :=
  { s with nodes := n :: s.nodes, opened, input }

/-- So many steps, each related by `r`, lead from one state to the other. -/
inductive Walk {σ : Type} (r : σ → σ → Prop) : Nat → σ → σ → Prop
  | zero (s : σ) : Walk r 0 s s
  | succ {n : Nat} {s s' s'' : σ} (h : r s s') (hs : Walk r n s' s'') : Walk r (n + 1) s s''

namespace Walk

variable {σ : Type} {r : σ → σ → Prop} {n m : Nat} {s s' s'' : σ}

theorem trans (h : Walk r n s s') (h' : Walk r m s' s'') : Walk r (n + m) s s'' := by
  induction h with
  | zero => rwa [Nat.zero_add]
  | succ h _ ih =>
    rw [Nat.add_right_comm]
    exact .succ h (ih h')

/-- If every step from an image is the image of a step, then so is every walk from an image. -/
theorem of_map {f : σ → σ} (hf : ∀ {s s'' : σ}, r (f s) s'' → ∃ s', r s s' ∧ s'' = f s')
    (h : Walk r n (f s) s'') : ∃ s', Walk r n s s' ∧ s'' = f s' := by
  generalize ha : f s = a at h
  induction h generalizing s with
  | zero => exact ⟨s, .zero s, ha.symm⟩
  | succ hstep _ ih =>
    subst ha
    obtain ⟨_, hb, rfl⟩ := hf hstep
    obtain ⟨s', hs, heq⟩ := ih rfl
    exact ⟨s', .succ hb hs, heq⟩

end Walk

namespace Parser

def fresh (p : Parser) (k x : Nat) : OpenNode := ⟨k, x, p.nameOf x, .nil, []⟩

abbrev Steps (p : Parser) : Nat → ParseState → ParseState → Prop :=
  Walk fun s s' => p.step s = .next s'

variable {p : Parser}

/-- The error where `x` is expected in the root and the next token, or the end of the input, does
not allow it. -/
def refusal (p : Parser) (x : Nat) (last : Option Location) : List Token → SyntaxError
  | [] =>
    p.unexpectedEnd x last
      (if p.grammar.isNonTerminal x then p.messages.lookup (p.nameOf x) Symbol.endMarkerName
      else none)
  | t :: _ => if p.grammar.isNonTerminal x then p.noProduction x t else p.mismatch x t

/-! ## Refusals -/

theorem refusal_alike (x : Nat) (last last' : Option Location) (i : List Token) :
    (p.refusal x last i).Alike (p.refusal x last' i) := by
  cases i with
  | nil => exact unexpectedEnd_alike x last last' _
  | cons t rest => exact .refl _

theorem refusal_kind (x : Nat) (last : Option Location) (t : Token) (rest : List Token) :
    (p.refusal x last (t :: rest)).kind =
      if p.grammar.isNonTerminal x then .noProduction else .mismatch := by
  dsimp only [refusal]
  split <;> rfl

theorem refusal_kind_cases (x : Nat) (last : Option Location) (t : Token) (rest : List Token) :
    (p.refusal x last (t :: rest)).kind = .mismatch ∨
      (p.refusal x last (t :: rest)).kind = .noProduction := by
  rw [refusal_kind]
  split
  · exact .inr rfl
  · exact .inl rfl

theorem refusal_expected (x : Nat) (last : Option Location) (i : List Token) :
    (p.refusal x last i).expected = some (p.nameOf x) := by
  cases i with
  | nil => rfl
  | cons t rest =>
    dsimp only [refusal]
    split <;> rfl

/-! ## Steps and runs -/

/-- A step with all of the input in pieces is one of the tokens. -/
theorem exists_next_of_split {s s'' : ParseState} {last : Option Location}
    (h : p.step (p.split s last) = .next s'') :
    ∃ s', p.step s = .next s' ∧ s'' = p.split s' last := by
  have hstep := step_split (p := p) last s
  generalize hb : p.step s = b at hstep
  rw [h] at hstep
  cases hstep
  exact ⟨_, rfl, rfl⟩

namespace Steps

variable {n m : Nat} {s s' s'' : ParseState} {r : Except SyntaxError Tree}

theorem one (h : p.step s = .next s') : p.Steps 1 s s' := .succ h (.zero s')

/-- A run that leads to a result does so behind all steps. -/
theorem of_run (h : p.Steps m s s') (hr : p.run n s = some r) :
    ∃ j, n = m + j ∧ p.run j s' = some r := by
  induction h generalizing n with
  | zero => exact ⟨n, (Nat.zero_add n).symm, hr⟩
  | @succ m _ _ _ h _ ih =>
    cases n with
    | zero => cases hr
    | succ n =>
      rw [run, h] at hr
      obtain ⟨j, rfl, hj⟩ := ih hr
      exact ⟨j, Nat.add_right_comm m j 1, hj⟩

theorem run_of_stop (h : p.Steps m s s') (hs : p.step s' = .stop r) (hn : m < n) :
    p.run n s = some r := by
  induction h generalizing n with
  | zero =>
    obtain ⟨n, rfl⟩ := Nat.exists_eq_succ_of_ne_zero (Nat.ne_of_gt hn)
    rw [run, hs]
  | succ h _ ih =>
    obtain ⟨n, rfl⟩ := Nat.exists_eq_succ_of_ne_zero (Nat.ne_of_gt (Nat.zero_lt_of_lt hn))
    rw [run, h]
    exact ih hs (Nat.lt_of_succ_lt_succ hn)

/-- There is one state in which a run stops. -/
theorem unique (h : p.Steps n s s') (hs : p.step s' = .stop r) {r' : Except SyntaxError Tree}
    (h' : p.Steps m s s'') (hs' : p.step s'' = .stop r') : s' = s'' ∧ r = r' := by
  induction h generalizing m with
  | zero =>
    cases h' with
    | zero =>
      rw [hs] at hs'
      exact ⟨rfl, ParseStep.stop.inj hs'⟩
    | succ h' _ =>
      rw [hs] at h'
      cases h'
  | succ h _ ih =>
    cases h' with
    | zero =>
      rw [hs'] at h
      cases h
    | succ h₁ h' =>
      rw [h] at h₁
      obtain rfl := ParseStep.next.inj h₁
      exact ih hs h'

/-- The same steps lead through the states with all of the input in pieces. -/
theorem split (h : p.Steps n s s') (last : Option Location) :
    p.Steps n (p.split s last) (p.split s' last) := by
  induction h with
  | zero => exact .zero _
  | @succ _ s s' _ h _ ih =>
    have hstep := step_split (p := p) last s
    generalize hb : p.step (p.split s last) = b at hstep
    rw [h] at hstep
    cases hstep
    exact .succ hb ih

/-- Steps with all of the input in pieces are those of the tokens. -/
theorem of_split {last : Option Location} (h : p.Steps n (p.split s last) s'') :
    ∃ s', p.Steps n s s' ∧ s'' = p.split s' last :=
  Walk.of_map (f := fun s => p.split s last) exists_next_of_split h

end Steps

theorem exists_stop_split {s : ParseState} {e : SyntaxError} (h : p.step s = .stop (.error e))
    (last : Option Location) :
    ∃ e', p.step (p.split s last) = .stop (.error e') ∧ e.Alike e' := by
  have hstep := step_split (p := p) last s
  generalize hb : p.step (p.split s last) = b at hstep
  rw [h] at hstep
  obtain ⟨⟩ | ⟨⟨⟩ | ⟨halike⟩⟩ := hstep
  exact ⟨_, rfl, halike⟩

theorem exists_stop_of_split {s : ParseState} {last : Option Location} {e' : SyntaxError}
    (h : p.step (p.split s last) = .stop (.error e')) :
    ∃ e, p.step s = .stop (.error e) ∧ e.Alike e' := by
  have hstep := step_split (p := p) last s
  generalize hb : p.step s = b at hstep
  rw [h] at hstep
  obtain ⟨⟩ | ⟨⟨⟩ | ⟨halike⟩⟩ := hstep
  exact ⟨_, rfl, halike⟩

theorem exists_steps_of_run {n : Nat} {s : ParseState} {r : Except SyntaxError Tree}
    (h : p.run n s = some r) : ∃ m s', p.Steps m s s' ∧ p.step s' = .stop r := by
  induction n generalizing s with
  | zero => cases h
  | succ n ih =>
    unfold run at h
    cases hs : p.step s with
    | next s' =>
      rw [hs] at h
      obtain ⟨m, s'', hm, hstop⟩ := ih h
      exact ⟨m + 1, s'', .succ hs hm, hstop⟩
    | stop r' =>
      rw [hs] at h
      obtain rfl := Option.some.inj h
      exact ⟨0, s, .zero s, hs⟩

theorem run_unique {n m : Nat} {s : ParseState} {r r' : Except SyntaxError Tree}
    (h : p.run n s = some r) (h' : p.run m s = some r') : r = r' := by
  obtain ⟨_, _, hs, hstop⟩ := exists_steps_of_run h
  obtain ⟨_, _, hs', hstop'⟩ := exists_steps_of_run h'
  exact (hs.unique hstop hs' hstop').2

/-! ## Steps inside of a node -/

section Steps

variable {s : ParseState} {n : OpenNode} {children : Forest} {k x : Nat} {u : List Nat}
  {i : List Token}

theorem InPieces.first (hi : p.InPieces i) : p.FirstInPieces i := by
  cases i with
  | nil => exact .nil
  | cons t rest => exact .cons (hi t List.mem_cons_self) rest

theorem taken_eq_drop {s : ParseState} (hi : p.FirstInPieces s.input) : p.taken s = s.drop := by
  have hf : p.splitFirst s.input = s.drop.input := by
    rw [input_drop]
    generalize s.input = i at hi
    cases hi with
    | nil => rfl
    | cons ht rest => rw [splitFirst, ht, List.singleton_append]
  rw [taken, hf]

theorem step_of_isLookahead {s : ParseState} (hi : p.FirstInPieces s.input)
    (hs : s.next? = some x) (hx : p.grammar.isLookahead x = true) :
    p.step s = p.readToken x s.drop := by
  unfold step
  rw [hs, taken_eq_drop hi]
  rcases Grammar.isLookahead_iff.1 hx with hx | ⟨name, hx⟩ <;> simp only [hx]

theorem step_of_isNonTerminal {s : ParseState} (hi : p.FirstInPieces s.input)
    (hs : s.next? = some x) (hx : p.grammar.isNonTerminal x = true) :
    p.step s = p.expand x s.drop := by
  unfold step
  rw [hs, taken_eq_drop hi]
  obtain ⟨name, hx⟩ := Grammar.isNonTerminal_iff.1 hx
  simp only [hx]

theorem readToken_of_classOf {s : ParseState} {t : Token} {rest : List Token}
    (hs : s.input = t :: rest) (hx : p.classOf t = some x) :
    p.readToken x s = .next (({ s with input := rest }).addChild (.leaf t .nil)) := by
  simp only [readToken, hs, hx, if_pos]

theorem expand_of_some {s : ParseState} {q : Nat}
    (hq : (p.lookahead s.input).bind (p.table.get? x) = some q) :
    p.expand x s = .next (s.openNode x (p.nameOf x) (p.symbolsOf q)) := by
  simp only [expand, hq]

theorem step_token {t : Token} {rest : List Token} (hi : p.FirstInPieces (t :: rest))
    (hx : p.classOf t = some x) :
    p.step (s.inside (n.holding children (x :: u)) k (t :: rest)) =
      .next (s.inside (n.holding (children ++ .leaf t .nil) u) k rest) := by
  rw [step_of_isLookahead (x := x) hi rfl (isLookahead_of_classOf hx)]
  exact readToken_of_classOf rfl hx

theorem step_beyond (hx : p.grammar.isLookahead Symbol.endIndex = true) :
    p.step (s.inside (n.holding children (Symbol.endIndex :: u)) k []) =
      .next (s.inside (n.holding children u) k []) := by
  rw [step_of_isLookahead (x := Symbol.endIndex) .nil rfl hx]
  rfl

theorem readToken_of_ne {s : ParseState} (hx : p.grammar.isLookahead x = true)
    (h : p.lookahead s.input ≠ some x) (hs : s.nodes ≠ []) :
    p.readToken x s = .stop (.error (p.refusal x s.last s.input)) := by
  have hn : ¬ p.grammar.isNonTerminal x = true := by
    rw [Grammar.not_isNonTerminal_of_isLookahead hx]
    exact Bool.false_ne_true
  unfold readToken refusal
  cases hi : s.input with
  | nil =>
    have hend : x ≠ Symbol.endIndex := by
      rintro rfl
      exact h (by rw [hi]; rfl)
    simp only [if_neg hend, if_neg hn]
  | cons t rest =>
    have ht : p.classOf t ≠ some x := by
      rw [hi] at h
      exact h
    have houtside : ¬ (x = Symbol.endIndex ∧ s.nodes.isEmpty = true) :=
      fun hc => hs (List.isEmpty_iff.1 hc.2)
    simp only [if_neg ht, if_neg houtside, if_neg hn]

theorem readToken_outside {s : ParseState} {t : Token} {rest : List Token}
    (hs : s.input = t :: rest) (ht : p.classOf t ≠ some Symbol.endIndex) (hn : s.nodes = []) :
    p.readToken Symbol.endIndex s = .stop (.error (trailingInput t)) := by
  simp only [readToken, hs, if_neg ht, hn, List.isEmpty_nil, and_self, if_true]

theorem expand_of_none {s : ParseState} (hx : p.grammar.isNonTerminal x = true)
    (h : (p.lookahead s.input).bind (p.table.get? x) = none) :
    p.expand x s = .stop (.error (p.refusal x s.last s.input)) := by
  unfold expand refusal
  rw [h]
  cases hi : s.input <;> simp only [if_pos hx]

theorem step_node {q : Nat} (hi : p.FirstInPieces i) (hx : p.grammar.isNonTerminal x = true)
    (hq : (p.lookahead i).bind (p.table.get? x) = some q) :
    p.step (s.inside (n.holding children (x :: u)) k i) =
      .next ((s.inside (n.holding children u) k i).inside
        ((p.fresh k x).holding .nil (p.symbolsOf q)) (k + 1) i) := by
  rw [step_of_isNonTerminal (x := x) hi rfl hx]
  exact expand_of_some hq

theorem step_close {inner : OpenNode} {fc : Forest} {k' : Nat} {i' : List Token} :
    p.step ((s.inside (n.holding children u) k i).inside (inner.holding fc []) k' i') =
      .next (s.inside (n.holding (children ++ (inner.holding fc []).tree.toForest) u) k' i') := rfl

end Steps

/-! ## Readings inside of a node -/

section Inside

variable (hp : p.Built) {k : Nat} {u : List Nat} {i i' : List Token} (hi : p.InPieces i)

include hp hi

/-- A reading is so many steps. -/
theorem Reads.steps_inside {d : Shape} {f : Forest} (h : p.Reads k u i d f i') (s : ParseState)
    (n : OpenNode) (children : Forest) (v : List Nat) :
    p.Steps d.steps (s.inside (n.holding children (u ++ v)) k i)
      (s.inside (n.holding (children ++ f) v) (k + d.size) i') := by
  induction h generalizing s n children v with
  | nil k i =>
    rw [Forest.append_nil]
    exact .zero _
  | @token k x u t i i' d f hx _ ih =>
    have hrest := ih (List.forall_mem_cons.1 hi).2 s n (children ++ .leaf t .nil) v
    rw [Forest.append_assoc] at hrest
    rw [Shape.steps, Nat.add_comm]
    exact .succ (step_token hi.first hx) hrest
  | beyond _ ih =>
    rw [Shape.steps, Nat.add_comm]
    exact .succ (step_beyond hp.consistent.isLookahead_endIndex) (ih hi s n children v)
  | @node k x q u i i₁ i' c d fc f hx hq hc _ ihc ih =>
    have hinner := ihc hi (s.inside (n.holding children (u ++ v)) k i) (p.fresh k x) .nil []
    have hrest := ih (hc.inPieces hi) s n
      (children ++ ((p.fresh k x).holding fc []).tree.toForest) v
    have hsteps : (Shape.node x c d).steps = 1 + (c.steps + (d.steps + 1)) := by
      simp only [Shape.steps]; omega
    have hsize : k + (Shape.node x c d).size = k + 1 + c.size + d.size := by
      simp only [Shape.size]; omega
    rw [List.append_nil] at hinner
    rw [Forest.append_assoc] at hrest
    rw [hsteps, hsize]
    exact .trans (Steps.one (step_node hi.first hx hq)) (hinner.trans (.succ step_close hrest))

/-- Where a reading is stuck, the run stops with an error. -/
theorem Stuck.stops_inside {m z : Nat} {y : List Nat} (h : p.Stuck u i m y z i')
    (s : ParseState) (n : OpenNode) (children : Forest) (v : List Nat) (k : Nat) :
    ∃ s', p.Steps m (s.inside (n.holding children (u ++ v)) k i) s' ∧ s'.input = i' ∧
      p.step s' = .stop (.error (p.refusal z s.last i')) := by
  induction h generalizing s n children v k with
  | @terminal x i hx hne u =>
    have hstop := readToken_of_ne (s := s.inside (n.holding children (u ++ v)) k i) hx hne
      (List.cons_ne_nil _ _)
    exact ⟨_, .zero _, rfl, (step_of_isLookahead hi.first rfl hx).trans hstop⟩
  | @nonTerminal x i hx hq u =>
    have hstop := expand_of_none (s := s.inside (n.holding children (u ++ v)) k i) hx hq
    exact ⟨_, .zero _, rfl, (step_of_isNonTerminal hi.first rfl hx).trans hstop⟩
  | @inside x q m z y i i' hx hq _ u ih =>
    obtain ⟨s', hs, hs', hstop⟩ := ih hi (s.inside (n.holding children (u ++ v)) k i)
      (p.fresh k x) .nil [] (k + 1)
    rw [List.append_nil] at hs
    exact ⟨s', .succ (step_node hi.first hx hq) hs, hs', hstop⟩
  | @behind k' x m z u y i i₁ i' d f hd _ ih =>
    obtain ⟨f₂, hd⟩ := hd.renumber k
    obtain ⟨s', hs, hs', hstop⟩ := ih (hd.inPieces hi) s n (children ++ f₂) v (k + d.size)
    exact ⟨s', (hd.steps_inside hp hi s n children (u ++ v)).trans hs, hs', hstop⟩

/-- Where a run comes to an end, it reads what is expected in the innermost node or is stuck. -/
theorem reads_or_stuck_of_run {r : Except SyntaxError Tree} {n : Nat} {s : ParseState}
    {node : OpenNode} {children : Forest} {v : List Nat}
    (hu : ∀ x ∈ u, p.grammar.isNonTerminal x = true ∨ p.grammar.isLookahead x = true)
    (h : p.run n (s.inside (node.holding children (u ++ v)) k i) = some r) :
    (∃ d f i', p.Reads k u i d f i') ∨ ∃ m y z i', p.Stuck u i m y z i' := by
  induction n using Nat.strong_induction_on generalizing k u i s node children v with
  | _ n ih =>
    cases u with
    | nil => exact .inl ⟨.nil, .nil, i, .nil k i⟩
    | cons x u =>
      rw [List.forall_mem_cons] at hu
      have hrest : ∀ {d f i₁}, p.Reads k [x] i d f i₁ →
          (∃ d f i', p.Reads k (x :: u) i d f i') ∨ ∃ m y z i', p.Stuck (x :: u) i m y z i' := by
        intro d f i₁ hd
        obtain ⟨m, rfl, hm⟩ := (hd.steps_inside hp hi s node children (u ++ v)).of_run h
        have hpos := hd.one_le_steps
        rcases ih m (by omega) (hd.inPieces hi) hu.2 hm with
          ⟨e, f', i', he⟩ | ⟨m, y, z, i', he⟩
        · exact .inl ⟨_, _, i', hd.append he⟩
        · exact .inr ⟨_, _, z, i', .behind hd he⟩
      rcases symbol_cases k hu.1 u i with hstuck | ⟨-, d, f, i', hd⟩ | ⟨hx, q, hq⟩
      · exact .inr ⟨0, [], x, i, hstuck⟩
      · exact hrest hd
      · obtain ⟨m, rfl, hm⟩ := (Steps.one (step_node hi.first hx hq)).of_run h
        rw [← List.append_nil (p.symbolsOf q)] at hm
        rcases ih m (by omega) hi (hp.mem_symbolsOf hq) hm with
          ⟨c, fc, i₁, hc⟩ | ⟨n, y, z, i', hc⟩
        · exact hrest (.node hx hq hc (.nil _ i₁))
        · exact .inr ⟨_, y, z, i', .inside hx hq hc u⟩

end Inside

/-! ## Whole runs -/

def awaiting (p : Parser) (i : List Token) : ParseState :=
  { p.initial i with outside := [Symbol.endIndex] }

def closed (p : Parser) (i : List Token) (tree : Tree) (k : Nat) (i' : List Token) : ParseState :=
  { p.awaiting i with root := some tree, opened := k, input := i' }

theorem step_root {i : List Token} {q : Nat} (hp : p.Built) (hi : p.FirstInPieces i)
    (hq : (p.lookahead i).bind (p.table.get? p.start) = some q) :
    p.step (p.initial i) =
      .next ((p.awaiting i).inside ((p.fresh 0 p.start).holding .nil (p.symbolsOf q)) 1 i) := by
  rw [step_of_isNonTerminal (x := p.start) hi rfl hp.nonTerminal]
  exact expand_of_some hq

theorem step_close_root {i i' : List Token} {n : OpenNode} {f : Forest} {k : Nat} :
    p.step ((p.awaiting i).inside (n.holding f []) k i') =
      .next (p.closed i (n.holding f []).tree k i') := rfl

/-- Of the start symbol alone a reading is a single node. -/
theorem Reads.start_cases {k : Nat} {i i' : List Token} {d : Shape} {f : Forest}
    (h : p.Reads k [p.start] i d f i') (hp : p.Built) :
    ∃ q c fc, (p.lookahead i).bind (p.table.get? p.start) = some q ∧
      p.Reads (k + 1) (p.symbolsOf q) i c fc i' ∧ d = .node p.start c .nil ∧
      f = ((p.fresh k p.start).holding fc []).tree.toForest := by
  have hend := hp.consistent.isLookahead_endIndex
  generalize hu : [p.start] = u at h
  cases h with
  | nil => cases hu
  | token hx _ =>
    have hs := (List.cons.inj hu).1
    exact absurd hs (Grammar.ne_of_isLookahead (isLookahead_of_classOf hx) hp.nonTerminal)
  | beyond _ =>
    have hs := (List.cons.inj hu).1
    exact absurd hs (Grammar.ne_of_isLookahead hend hp.nonTerminal)
  | node _ hq hc hd =>
    obtain ⟨rfl, rfl⟩ := List.cons.inj hu
    cases hd
    exact ⟨_, _, _, hq, hc, rfl, rfl⟩

def finished (p : Parser) (i : List Token) (tree : Tree) (k : Nat) (i' : List Token) : ParseState :=
  { p.closed i tree k i' with outside := [] }

theorem step_finished {i : List Token} {tree : Tree} {k : Nat} :
    p.step (p.finished i tree k []) = .stop (.ok tree) := rfl

theorem step_finished_cons {i rest : List Token} {tree : Tree} {k : Nat} {t : Token} :
    p.step (p.finished i tree k (t :: rest)) = .stop (.error (trailingInput t)) := rfl

section EndMarker

variable (hp : p.Built) {k n z : Nat} {y : List Nat} {i i' : List Token} {d : Shape} {f : Forest}

include hp

theorem not_isNonTerminal_endIndex : ¬ p.grammar.isNonTerminal Symbol.endIndex = true := by
  rw [Grammar.not_isNonTerminal_of_isLookahead hp.consistent.isLookahead_endIndex]
  exact Bool.false_ne_true

theorem ends_iff : p.Ends i ↔ ∃ d f, p.Reads k [Symbol.endIndex] i d f [] := by
  constructor
  · intro h
    rcases h with rfl | ⟨t, ht, rfl⟩
    · exact ⟨_, _, .beyond (.nil k [])⟩
    · exact ⟨_, _, .token ht (.nil k [])⟩
  · rintro ⟨d, f, h⟩
    cases h with
    | token ht h =>
      cases h
      exact .inr ⟨_, ht, rfl⟩
    | beyond => exact .inl rfl
    | node hx => exact absurd hx (not_isNonTerminal_endIndex hp)

theorem step_closed (i : List Token) (tree : Tree) (k : Nat) (hi : p.FirstInPieces i') :
    p.step (p.closed i tree k i') =
      p.readToken Symbol.endIndex { p.closed i tree k i' with outside := [] } :=
  step_of_isLookahead hi rfl hp.consistent.isLookahead_endIndex

theorem Reads.step_closed (h : p.Reads k [Symbol.endIndex] i d f i') (hi : p.FirstInPieces i)
    (i₀ : List Token) (tree : Tree) (k' : Nat) :
    d.steps = 1 ∧ p.step (p.closed i₀ tree k' i) = .next (p.finished i₀ tree k' i') := by
  have hstep := Parser.step_closed hp i₀ tree k' hi
  cases h with
  | token ht h =>
    cases h
    exact ⟨rfl, hstep.trans (readToken_of_classOf rfl ht)⟩
  | beyond h =>
    cases h
    exact ⟨rfl, hstep⟩
  | node hx => exact absurd hx (not_isNonTerminal_endIndex hp)

theorem step_closed_cons {t : Token} {rest : List Token} (hi : p.FirstInPieces (t :: rest))
    (ht : p.classOf t ≠ some Symbol.endIndex) (i₀ : List Token) (tree : Tree) (k' : Nat) :
    p.step (p.closed i₀ tree k' (t :: rest)) = .stop (.error (trailingInput t)) :=
  (Parser.step_closed hp i₀ tree k' hi).trans (readToken_outside rfl ht rfl)

theorem Stuck.endIndex_cases (h : p.Stuck [Symbol.endIndex] i n y z i') :
    n = 0 ∧ i' = i ∧ ∃ t rest, i = t :: rest ∧ p.classOf t ≠ some Symbol.endIndex := by
  cases h with
  | terminal _ hne =>
    cases i with
    | nil => exact absurd rfl hne
    | cons t rest => exact ⟨rfl, rfl, t, rest, rfl, hne⟩
  | nonTerminal hx => exact absurd hx (not_isNonTerminal_endIndex hp)
  | inside hx => exact absurd hx (not_isNonTerminal_endIndex hp)
  | behind _ h => cases h

end EndMarker

section Whole

variable (hp : p.Built) {i i' : List Token} (hi : p.InPieces i)

include hp hi

theorem Reads.steps_closed {k : Nat} {d : Shape} {f : Forest}
    (h : p.Reads k [p.start] i d f i') :
    ∃ tree k', p.Steps d.steps (p.initial i) (p.closed i tree k' i') ∧
      (k = 0 → f = tree.toForest) := by
  obtain ⟨f₀, h₀⟩ := h.renumber 0
  obtain ⟨q, c, fc, hq, hc, rfl, rfl⟩ := h₀.start_cases hp
  have hinner := hc.steps_inside hp hi (p.awaiting i) (p.fresh 0 p.start) .nil []
  have hsteps : (Shape.node p.start c .nil).steps = 1 + (c.steps + 1) := by
    simp only [Shape.steps]; omega
  rw [List.append_nil] at hinner
  rw [hsteps]
  have hroot := Steps.one (step_root hp hi.first hq)
  exact ⟨_, _, hroot.trans (hinner.trans (Steps.one step_close_root)),
    fun hk => (h.unique hp h₀).2.2 hk⟩

theorem Reads.steps_finished {k k' : Nat} {d e : Shape} {f f' : Forest} {i₁ : List Token}
    (h : p.Reads k [p.start] i d f i₁) (h' : p.Reads k' [Symbol.endIndex] i₁ e f' i') :
    ∃ tree k'', p.Steps (d.steps + 1) (p.initial i) (p.finished i tree k'' i') ∧
      (k = 0 → f = tree.toForest) := by
  obtain ⟨tree, k'', hs, hf⟩ := h.steps_closed hp hi
  obtain ⟨-, hclose⟩ := h'.step_closed hp (h.inPieces hi).first i tree k''
  exact ⟨tree, k'', hs.trans (Steps.one hclose), hf⟩

/-- Where the start symbol is not read to the end, the run stops with an error. -/
theorem Stuck.stops_start {n z : Nat} {y : List Nat} (h : p.Stuck [p.start] i n y z i') :
    ∃ s, p.Steps n (p.initial i) s ∧ s.input = i' ∧
      p.step s = .stop (.error (p.refusal z (p.initial i).last i')) := by
  generalize hu : [p.start] = u at h
  cases h with
  | terminal hx =>
    obtain ⟨rfl, -⟩ := List.cons.inj hu
    exact absurd rfl (Grammar.ne_of_isLookahead hx hp.nonTerminal)
  | nonTerminal hx hq =>
    obtain ⟨rfl, -⟩ := List.cons.inj hu
    have hstop := expand_of_none (s := (p.initial i).drop) hx hq
    exact ⟨_, .zero _, rfl, (step_of_isNonTerminal hi.first rfl hx).trans hstop⟩
  | @inside _ q _ _ _ _ _ _ hq h =>
    obtain ⟨rfl, -⟩ := List.cons.inj hu
    obtain ⟨s, hs, hs', hstop⟩ := h.stops_inside hp hi (p.awaiting i) (p.fresh 0 p.start) .nil
      [] 1
    rw [List.append_nil] at hs
    exact ⟨s, .succ (step_root hp hi.first hq) hs, hs', hstop⟩
  | behind _ h =>
    obtain ⟨-, rfl⟩ := List.cons.inj hu
    cases h

/-- Where the start symbol is read and a token is left over, the run stops with an error. -/
theorem Reads.stops_closed {k : Nat} {d : Shape} {f : Forest} {t : Token} {rest : List Token}
    (h : p.Reads k [p.start] i d f (t :: rest)) (ht : p.classOf t ≠ some Symbol.endIndex) :
    ∃ tree k', p.Steps d.steps (p.initial i) (p.closed i tree k' (t :: rest)) ∧
      p.step (p.closed i tree k' (t :: rest)) = .stop (.error (trailingInput t)) := by
  obtain ⟨tree, k', hs, -⟩ := h.steps_closed hp hi
  exact ⟨tree, k', hs, step_closed_cons hp (h.inPieces hi).first ht i tree k'⟩

/-- Where the start symbol or the end marker behind it is not read to the end, the run stops with
an error. -/
theorem Stuck.stops {n z : Nat} {y : List Nat}
    (h : p.Stuck [p.start, Symbol.endIndex] i n y z i') :
    ∃ s e, p.Steps n (p.initial i) s ∧ s.input = i' ∧ p.step s = .stop (.error e) := by
  rcases h.cons_cases with hstart | ⟨k, n', y', i₁, d, f, hd, hend, rfl, rfl⟩
  · obtain ⟨s, hs, hs', hstop⟩ := hstart.stops_start hp hi
    exact ⟨s, _, hs, hs', hstop⟩
  · obtain ⟨rfl, rfl, t, rest, rfl, ht⟩ := hend.endIndex_cases hp
    obtain ⟨tree, k', hs, hstop⟩ := hd.stops_closed hp hi ht
    exact ⟨_, _, hs, rfl, hstop⟩

/-- Where a run comes to an end, the start symbol and the end marker behind it are read, or the
reading is stuck. -/
theorem reads_or_stuck_of_run_initial {r : Except SyntaxError Tree} {n : Nat}
    (h : p.run n (p.initial i) = some r) :
    (∃ d f i₁ k e f' i', p.Reads 0 [p.start] i d f i₁ ∧
      p.Reads k [Symbol.endIndex] i₁ e f' i') ∨
    ∃ m y z i', p.Stuck [p.start, Symbol.endIndex] i m y z i' := by
  have hend : p.grammar.isNonTerminal Symbol.endIndex = true ∨
      p.grammar.isLookahead Symbol.endIndex = true := .inr hp.consistent.isLookahead_endIndex
  rcases symbol_cases 0 (.inl hp.nonTerminal) [Symbol.endIndex] i with
    hstuck | ⟨hx, -⟩ | ⟨hx, q, hq⟩
  · exact .inr ⟨0, [], p.start, i, hstuck⟩
  · exact absurd rfl (Grammar.ne_of_isLookahead hx hp.nonTerminal)
  obtain ⟨m, rfl, hm⟩ := (Steps.one (step_root hp hi.first hq)).of_run h
  rw [← List.append_nil (p.symbolsOf q)] at hm
  rcases reads_or_stuck_of_run hp hi (hp.mem_symbolsOf hq) hm with
    ⟨c, fc, i₁, hc⟩ | ⟨n, y, z, i', hc⟩
  · have hd := Reads.node hx hq hc (.nil _ i₁)
    rcases symbol_cases 0 hend [] i₁ with hstuck | ⟨-, e, f', i', he⟩ | ⟨hx, -⟩
    · exact .inr ⟨_, _, _, i₁, .behind hd hstuck⟩
    · exact .inl ⟨_, _, i₁, 0, e, f', i', hd, he⟩
    · exact absurd hx (not_isNonTerminal_endIndex hp)
  · exact .inr ⟨_, y, z, i', .inside hx hq hc _⟩

/-- A reading of the start symbol up to the end is a run that leads to its tree. -/
theorem run_initial_of_reads {d : Shape} {tree : Tree}
    (h : p.Reads 0 [p.start] i d tree.toForest i') (he : p.Ends i') (m : Nat) :
    p.run (d.steps + 2 + m) (p.initial i) = some (.ok tree) := by
  obtain ⟨e, f', h'⟩ := (ends_iff hp (k := 0)).1 he
  obtain ⟨tree', k, hs, hf⟩ := h.steps_finished hp hi h'
  obtain rfl := Tree.toForest_inj (hf rfl)
  exact hs.run_of_stop step_finished (by omega)

/-- A run that leads to a tree is a reading of the start symbol up to the end. -/
theorem exists_reads_of_run_initial {n : Nat} {tree : Tree}
    (h : p.run n (p.initial i) = some (.ok tree)) :
    ∃ d i', p.Reads 0 [p.start] i d tree.toForest i' ∧ p.Ends i' := by
  obtain ⟨m, s, hs, hstop⟩ := exists_steps_of_run h
  rcases reads_or_stuck_of_run_initial hp hi h with
    ⟨d, f, i₁, k, e, f', i', hd, he⟩ | ⟨m', y, z, i', hstuck⟩
  · obtain ⟨tree', k', hs', hf⟩ := hd.steps_finished hp hi he
    cases i' with
    | nil =>
      obtain rfl := Except.ok.inj (hs.unique hstop hs' step_finished).2
      exact ⟨d, i₁, hf rfl ▸ hd, (ends_iff hp).2 ⟨e, f', he⟩⟩
    | cons t rest => cases (hs.unique hstop hs' step_finished_cons).2
  · obtain ⟨s', e, hs', -, hstop'⟩ := hstuck.stops hp hi
    cases (hs.unique hstop hs' hstop').2

end Whole

end Parser

end LLOne

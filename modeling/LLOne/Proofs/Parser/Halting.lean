import LLOne.Proofs.Grammar.LeftRecursion
import LLOne.Proofs.Parser.Viability

/-!
# When parsing comes to an end

Before a token is read, no node is opened inside another one of the same symbol, since that would
be left recursion. Behind the last token a node can be: end markers are read there as often as they
are expected, so a non-terminal that derives itself behind some of them is expanded for ever. This
is the only way in which a run does not end, and a run that ends does so within the bound.
-/

namespace LLOne.Parser

/-- From the start symbol and the end marker derive the classes of the input, with any number of
end markers behind them, in front of a symbol that derives itself behind end markers only. -/
def Endless (p : Parser) (i : List Token) : Prop :=
  ∃ w a u k v, p.Shows i w ∧ p.grammar.Derives [p.start, Symbol.endIndex] (w ++ a :: u) ∧
    Relation.TransGen p.grammar.Step [a] (List.replicate k Symbol.endIndex ++ a :: v)

def tokenCost (p : Parser) : Nat := 2 * (p.grammar.nonTerminals.length * p.nodeCost)

/-- The symbols are read, or the reading is stuck within what they, `r` more nodes inside each other
and the tokens used up allow. -/
def Concludes (p : Parser) (u : List Nat) (i : List Token) (r : Nat) : Prop :=
  (∃ d f i', p.Reads 0 u i d f i') ∨
    ∃ n y z i', p.Stuck u i n y z i' ∧ n + i'.length * p.tokenCost ≤
      u.length * p.symbolCost + r * p.nodeCost + i.length * p.tokenCost

/-- Some form derived from the start symbol and the end marker has the symbols behind what was
consumed of the whole input. -/
def Awaits (p : Parser) (whole : List Token) (u : List Nat) (i : List Token) : Prop :=
  ∃ y v, p.Consumes whole y i ∧ p.grammar.Derives [p.start, Symbol.endIndex] (y ++ (u ++ v))

/-- The non-terminals in `V` were opened since a token was read, and the symbols are what is to be
read next in the innermost of them. -/
structure Opened (p : Parser) (V : Finset Nat) (u : List Nat) (i : List Token) : Prop where
  nonTerminal : ∀ a ∈ V, p.grammar.isNonTerminal a = true
  derives : ∀ a ∈ V, ∃ y v, p.Consumes i y i ∧
    Relation.TransGen p.grammar.Step [a] (y ++ (u ++ v))

/-- No number of steps leads to a result. Without tokens there is no run. -/
def Loops (p : Parser) (tokens : List Token) : Prop :=
  tokens ≠ [] ∧ ∀ n, p.run n (p.initial tokens) = none

/-- Both parsers give results that are related, or both loop. -/
inductive AnswerAlike (related : Except SyntaxError Tree → Except SyntaxError Tree → Prop)
    (p q : Parser) (tokens : List Token) : Prop
  | results {r r' : Except SyntaxError Tree} (hp : p.parse tokens = some r)
    (hq : q.parse tokens = some r') (h : related r r')
  | loops (hp : p.Loops tokens) (hq : q.Loops tokens)

variable {p : Parser}

/-! ## Runs without end -/

theorem Built.not_leftRecursive (hp : p.Built) (a : Nat) (v : List Nat) :
    ¬ Relation.TransGen p.grammar.Step [a] (a :: v) := by
  intro h
  obtain ⟨w, hs, -⟩ := Relation.TransGen.head'_iff.1 h
  obtain ⟨right, hr, -⟩ := Grammar.step_singleton_iff.1 hs
  obtain ⟨-, -, -, hfirst, -⟩ := Grammar.parts_of_firstFollow hp.sets
  have ha := hp.consistent.left _ (p.grammar.mem_rightsOf.1 hr)
  exact hp.consistent.not_leftRecursive hfirst ha ⟨v, h⟩

/-- Any number of end markers can be read. -/
theorem Endless.derives (hp : p.Built) {i : List Token} (h : p.Endless i) {w : List Nat}
    (hw : p.Shows i w) : ∃ v, p.grammar.Derives [p.start, Symbol.endIndex] (w ++ v) := by
  obtain ⟨_, a, u, k, v, ⟨c, j, hc, rfl⟩, hd, hloop⟩ := h
  obtain ⟨c', m, hc', rfl⟩ := hw
  obtain rfl : c = c' := (List.map_inj_right fun _ _ => Option.some.inj).1 (hc.symm.trans hc')
  have hk : k ≠ 0 := by
    rintro rfl
    exact hp.not_leftRecursive a v hloop
  have hmany : ∀ n, ∃ j u, n ≤ j ∧ p.grammar.Derives [p.start, Symbol.endIndex]
      (c ++ List.replicate j Symbol.endIndex ++ a :: u) := by
    intro n
    induction n with
    | zero => exact ⟨j, u, Nat.zero_le j, hd⟩
    | succ n ih =>
      obtain ⟨j, u, hj, hd⟩ := ih
      refine ⟨j + k, v ++ u, by omega, hd.trans ?_⟩
      have hnext := Grammar.Derives.append (.refl (c ++ List.replicate j Symbol.endIndex))
        (Grammar.Derives.append hloop.to_reflTransGen (.refl u))
      simpa only [List.replicate_add, List.append_assoc, List.cons_append,
        List.nil_append] using hnext
  obtain ⟨j, u, hj, hd⟩ := hmany m
  obtain ⟨j, rfl⟩ := Nat.exists_eq_add_of_le hj
  rw [List.replicate_add, ← List.append_assoc, List.append_assoc] at hd
  exact ⟨_, hd⟩

/-- Whatever is consumed, the next token can follow. -/
theorem Endless.goes_on (hp : p.Built) {i i' : List Token} (h : p.Endless i) {y : List Nat}
    (hy : p.Consumes i y i') :
    ∃ w, p.Meets i' w ∧ p.grammar.Derives [p.start, Symbol.endIndex] (y ++ w) := by
  obtain ⟨_, _, _, _, _, ⟨c, -, hc, -⟩, -⟩ := id h
  obtain ⟨front, rfl⟩ := hy.exists_eq_append
  rw [List.map_append] at hc
  obtain ⟨-, c', -, -, hc'⟩ := List.map_eq_append_iff.1 hc.symm
  have hshows : p.Shows i' (c' ++ [Symbol.endIndex]) := ⟨c', 1, hc'.symm, rfl⟩
  obtain ⟨v, hv⟩ := h.derives hp (hy.shows hshows)
  rw [List.append_assoc] at hv
  refine ⟨_, ?_, hv⟩
  cases c' with
  | nil => exact ⟨_, _, hshows.lookahead, rfl⟩
  | cons t c' => exact ⟨_, _, hshows.lookahead, rfl⟩

theorem not_endless_of_run (hp : p.Built) {i : List Token} (hi : p.InPieces i) {n : Nat}
    {r : Except SyntaxError Tree} (h : p.run n (p.initial i) = some r) : ¬ p.Endless i := by
  intro hend
  have hstart : p.grammar.Derives [p.start, Symbol.endIndex]
      ([] ++ ([p.start, Symbol.endIndex] ++ [])) := .refl _
  rcases reads_or_stuck_of_run_initial hp hi h with
    ⟨d, f, i₁, k, e, f', i', hd, he⟩ | ⟨m, y, z, i', hstuck⟩
  · obtain ⟨f', he⟩ := he.renumber (0 + d.size)
    have hread := hd.append he
    obtain ⟨w, hw, hv⟩ := hend.goes_on hp hread.consumes
    have hnil := hread.derives_behind hp hstart hw hv
    obtain ⟨t, v, -, rfl⟩ := hw
    cases Grammar.derives_nil_iff.1 hnil
  · obtain ⟨w, hw, hv⟩ := hend.goes_on hp hstuck.consumes
    exact hstuck.not_derives hp hstart hw hv

/-! ## Readings come to an end -/

section

variable {whole i i₁ : List Token} {V : Finset Nat} {x k : Nat} {u : List Nat} {d : Shape}
  {f : Forest}

theorem Awaits.inside {q : Nat} (hp : p.Built)
    (hq : (p.lookahead i).bind (p.table.get? x) = some q) (h : p.Awaits whole (x :: u) i) :
    p.Awaits whole (p.symbolsOf q) i := by
  obtain ⟨y, v, hy, hd⟩ := h
  exact ⟨y, u ++ v, hy, derives_of_cell hp hq hd⟩

/-- What is read of a symbol replaces it. -/
theorem Reads.derives_yield (hp : p.Built) (hd : p.Reads k [x] i d f i₁) (before after : List Nat) :
    p.grammar.Derives (before ++ x :: after) (before ++ d.yield ++ after) := by
  rw [List.append_assoc]
  exact .append (.refl before) ((hd.isDerivation hp).derives.append (.refl after))

theorem Awaits.behind (hp : p.Built) (hd : p.Reads k [x] i d f i₁)
    (h : p.Awaits whole (x :: u) i) : p.Awaits whole u i₁ := by
  obtain ⟨y, v, hy, hs⟩ := h
  exact ⟨y ++ d.yield, v, hy.trans hd.consumes, hs.trans (hd.derives_yield hp y (u ++ v))⟩

theorem opened_empty (p : Parser) (u : List Nat) (i : List Token) : p.Opened ∅ u i where
  nonTerminal a ha := absurd ha (Finset.notMem_empty a)
  derives a ha := absurd ha (Finset.notMem_empty a)

theorem Opened.inside {q : Nat} (hp : p.Built) (hx : p.grammar.isNonTerminal x = true)
    (hq : (p.lookahead i).bind (p.table.get? x) = some q) (h : p.Opened V (x :: u) i) :
    p.Opened (insert x V) (p.symbolsOf q) i := by
  obtain ⟨production, hm, hl, hsymbols⟩ := hp.of_cell hq
  have hstep : ∀ before after, p.grammar.Step (before ++ x :: after)
      (before ++ (p.symbolsOf q ++ after)) := by
    intro before after
    rw [hsymbols, ← hl]
    exact .replace before production after hm
  refine ⟨fun a ha => ?_, fun a ha => ?_⟩
  · rcases Finset.mem_insert.1 ha with rfl | ha
    · exact hx
    · exact h.nonTerminal a ha
  · rcases Finset.mem_insert.1 ha with rfl | ha
    · exact ⟨[], [], .nil i, .single (hstep [] [])⟩
    · obtain ⟨y, v, hy, hd⟩ := h.derives a ha
      exact ⟨y, u ++ v, hy, hd.tail (hstep y (u ++ v))⟩

theorem Opened.behind (hp : p.Built) (hd : p.Reads k [x] i d f i) (h : p.Opened V (x :: u) i) :
    p.Opened V u i := by
  refine ⟨h.nonTerminal, fun a ha => ?_⟩
  obtain ⟨y, v, hy, ht⟩ := h.derives a ha
  exact ⟨y ++ d.yield, v, hy.trans hd.consumes, ht.trans_left (hd.derives_yield hp y (u ++ v))⟩

/-- A symbol in which it is opened again derives itself behind end markers. -/
theorem Opened.not_mem (hp : p.Built) (hend : ¬ p.Endless whole)
    (hawait : p.Awaits whole (x :: u) i) (h : p.Opened V (x :: u) i) : x ∉ V := by
  intro hx
  obtain ⟨y, v, hy, hd⟩ := h.derives x hx
  cases i with
  | nil =>
    obtain ⟨-, k, rfl⟩ := consumes_nil_iff.1 hy
    obtain ⟨w, v', hw, hs⟩ := hawait
    have hshows : p.Shows whole (w ++ []) := hw.shows ⟨[], 0, rfl, rfl⟩
    rw [List.append_nil] at hshows
    exact hend ⟨w, x, _, k, _, hshows, hs, hd⟩
  | cons t i =>
    cases y with
    | nil => exact hp.not_leftRecursive x _ hd
    | cons z y =>
      cases hy with
      | token _ hy =>
        obtain ⟨front, hfront⟩ := hy.exists_eq_append
        have hl := congrArg List.length hfront
        rw [List.length_append, List.length_cons] at hl
        omega

theorem Opened.card_insert {r : Nat} (hx : p.grammar.isNonTerminal x = true) (hV : x ∉ V)
    (h : p.Opened V u i) (hr : V.card + r = p.grammar.nonTerminals.length) :
    ∃ r', r = r' + 1 ∧ (insert x V).card + r' = p.grammar.nonTerminals.length := by
  have hsub : insert x V ⊆ p.grammar.nonTerminals.toFinset := by
    intro a ha
    rw [List.mem_toFinset, Grammar.mem_nonTerminals]
    rcases Finset.mem_insert.1 ha with rfl | ha
    · exact hx
    · exact h.nonTerminal a ha
  have hcard := Nat.le_trans (Finset.card_le_card hsub) (List.toFinset_card_le _)
  rw [Finset.card_insert_of_notMem hV] at hcard ⊢
  exact ⟨r - 1, by omega, by omega⟩

theorem mul_tokenCost (p : Parser) (n : Nat) :
    n * p.tokenCost = 2 * (n * (p.grammar.nonTerminals.length * p.nodeCost)) := by
  rw [tokenCost, Nat.mul_left_comm]

/-- A symbol that is read without any token costs no more than a symbol. -/
theorem Concludes.of_quiet {r : Nat} (hp : p.Built) (hd : p.Reads k [x] i d f i₁)
    (hf : f.leaves = []) (h : p.Concludes u i₁ r) : p.Concludes (x :: u) i r := by
  have hsteps := hd.steps_le_of_quiet_of_guarded_empty hp hf
  obtain rfl := hd.eq_of_quiet hf
  rcases h with ⟨e, f', i', he⟩ | ⟨n, y, z, i', he, hn⟩
  · exact .inl (hd.exists_cons he)
  · refine .inr ⟨_, _, z, i', .behind hd he, ?_⟩
    rw [List.length_singleton] at hsteps
    rw [List.length_cons, Nat.add_mul]
    omega

/-- The first of the tokens that are read for a symbol pays for the nodes opened behind it. -/
theorem Concludes.of_read {r : Nat} (hp : p.Built) (hd : p.Reads k [x] i d f i₁)
    (hf : f.leaves ≠ []) (h : p.Concludes u i₁ p.grammar.nonTerminals.length) :
    p.Concludes (x :: u) i r := by
  have hsteps := hd.steps_le hp
  have hlength : i.length = f.leaves.length + i₁.length := by
    rw [hd.input_eq, List.length_append]
  rcases h with ⟨e, f', i', he⟩ | ⟨n, y, z, i', he, hn⟩
  · exact .inl (hd.exists_cons he)
  · refine .inr ⟨_, _, z, i', .behind hd he, ?_⟩
    have hfirst := Nat.mul_le_mul_right (p.grammar.nonTerminals.length * p.nodeCost)
      (List.length_pos_iff.2 hf)
    have htokens := p.mul_tokenCost f.leaves.length
    rw [List.length_cons, hlength, Nat.add_mul, Nat.add_mul]
    omega

end

/-! ## The induction -/

/-- All that is awaited on this input concludes when `r` non-terminals are not open. -/
def AllConclude (p : Parser) (whole i : List Token) (r : Nat) : Prop :=
  ∀ u V, (∀ x ∈ u, p.grammar.isNonTerminal x = true ∨ p.grammar.isLookahead x = true) →
    p.Awaits whole u i → p.Opened V u i → V.card + r = p.grammar.nonTerminals.length →
    p.Concludes u i r

/-- What is open bounds how deep nodes can still be nested before the next token, and every token
makes room for all non-terminals again. -/
theorem allConclude_of_shorter (hp : p.Built) {whole i : List Token} (hend : ¬ p.Endless whole)
    {r : Nat} (hshort : ∀ i', i'.length < i.length →
      p.AllConclude whole i' p.grammar.nonTerminals.length)
    (hdeep : ∀ r', r = r' + 1 → p.AllConclude whole i r') : p.AllConclude whole i r := by
  intro u V hu hawait hV hr
  induction u with
  | nil => exact .inl ⟨_, _, i, .nil 0 i⟩
  | cons x u ih =>
    obtain ⟨hx, hu⟩ := List.forall_mem_cons.1 hu
    have hrest : ∀ {d f i₁}, p.Reads 0 [x] i d f i₁ → p.Concludes (x :: u) i r := by
      intro d f i₁ hd
      by_cases hf : f.leaves = []
      · obtain rfl := hd.eq_of_quiet hf
        exact (ih hu (hawait.behind hp hd) (hV.behind hp hd)).of_quiet hp hd hf
      · have hlt : i₁.length < i.length := by
          rw [hd.input_eq, List.length_append]
          exact Nat.lt_add_of_pos_left (List.length_pos_iff.2 hf)
        exact (hshort i₁ hlt u ∅ hu (hawait.behind hp hd) (opened_empty p u i₁)
          (by rw [Finset.card_empty, Nat.zero_add])).of_read hp hd hf
    rcases symbol_cases 0 hx u i with hstuck | ⟨-, d, f, i', hd⟩ | ⟨hx, q, hq⟩
    · exact .inr ⟨0, [], x, i, hstuck, by omega⟩
    · exact hrest hd
    · obtain ⟨r', rfl, hr'⟩ := hV.card_insert hx (hV.not_mem hp hend hawait) hr
      rcases hdeep r' rfl (p.symbolsOf q) (insert x V) (hp.mem_symbolsOf hq)
          (hawait.inside hp hq) (hV.inside hp hx hq) hr' with
        ⟨c, fc, i₁, hc⟩ | ⟨n, y, z, i', hc, hn⟩
      · obtain ⟨fc, hc⟩ := hc.renumber 1
        exact hrest (.node hx hq hc (.nil _ i₁))
      · have hwidth := Nat.mul_le_mul_right p.symbolCost (p.length_symbolsOf_le q)
        have hcost : p.nodeCost = 2 + p.breadth * p.symbolCost := rfl
        refine .inr ⟨n + 1, y, z, i', .inside hx hq hc u, ?_⟩
        rw [List.length_cons, Nat.add_mul, Nat.add_mul]
        omega

theorem allConclude (hp : p.Built) {whole : List Token} (hend : ¬ p.Endless whole) (i : List Token)
    (r : Nat) : p.AllConclude whole i r := by
  induction hi : i.length using Nat.strong_induction_on generalizing i r with
  | _ n ih =>
    subst hi
    have hshort : ∀ i', i'.length < i.length →
        p.AllConclude whole i' p.grammar.nonTerminals.length :=
      fun i' hlt => ih i'.length hlt i' _ rfl
    induction r with
    | zero => exact allConclude_of_shorter hp hend hshort nofun
    | succ r ihr =>
      refine allConclude_of_shorter hp hend hshort fun r' hr' => ?_
      obtain rfl := Nat.succ.inj hr'
      exact ihr

/-! ## Parsing -/

theorem exists_run_of_not_endless (hp : p.Built) {tokens : List Token}
    (hend : ¬ p.Endless (p.splitAll tokens)) :
    ∃ r, p.run (p.stepBound tokens) (p.initial tokens) = some r := by
  have hi := inPieces_splitAll (p := p) tokens
  have hstart : ∀ x ∈ [p.start],
      p.grammar.isNonTerminal x = true ∨ p.grammar.isLookahead x = true := by
    intro x hx
    rw [List.mem_singleton.1 hx]
    exact .inl hp.nonTerminal
  rw [← exists_run_splitAll_iff]
  rcases allConclude hp hend (p.splitAll tokens) p.grammar.nonTerminals.length [p.start] ∅ hstart
      ⟨[], [Symbol.endIndex], .nil _, .refl _⟩ (opened_empty p _ _)
      (by rw [Finset.card_empty, Nat.zero_add]) with ⟨d, f, i₁, hd⟩ | ⟨n, y, z, i', hstuck, hn⟩
  · have hsteps := hd.steps_le_stepBound hp
    rcases symbol_cases 0 (.inr hp.consistent.isLookahead_endIndex) [] i₁ with
      hstuck | ⟨-, e, f', i', he⟩ | ⟨hx, -⟩
    · obtain ⟨s, e, hs, -, hstop⟩ := (Stuck.behind hd hstuck).stops hp hi
      exact ⟨_, hs.run_of_stop hstop (by omega)⟩
    · obtain ⟨tree, k, hs, -⟩ := hd.steps_finished hp hi he
      cases i' with
      | nil => exact ⟨_, hs.run_of_stop step_finished (by omega)⟩
      | cons t rest => exact ⟨_, hs.run_of_stop step_finished_cons (by omega)⟩
    · exact absurd hx (not_isNonTerminal_endIndex hp)
  · obtain ⟨s, e, hs, -, hstop⟩ := (hstuck.append [Symbol.endIndex]).stops hp hi
    have hbound : n + 2 ≤ p.stepBound tokens := by
      apply add_two_le_stepBound
      have htokens := p.mul_tokenCost (p.splitAll tokens).length
      rw [List.length_singleton] at hn
      rw [Nat.add_mul, Nat.mul_assoc]
      omega
    exact ⟨_, hs.run_of_stop hstop (by omega)⟩

theorem exists_run_iff (hp : p.Built) (tokens : List Token) :
    (∃ n r, p.run n (p.initial tokens) = some r) ↔ ¬ p.Endless (p.splitAll tokens) := by
  constructor
  · rintro ⟨n, hr⟩
    obtain ⟨r, hr⟩ := exists_run_splitAll_iff.2 hr
    exact not_endless_of_run hp (inPieces_splitAll tokens) hr
  · intro hend
    exact ⟨_, exists_run_of_not_endless hp hend⟩

/-- The bound does not cut off any run. -/
theorem parse_eq_some_iff (hp : p.Built) {tokens : List Token} (hne : tokens ≠ [])
    {r : Except SyntaxError Tree} :
    p.parse tokens = some r ↔ ∃ n, p.run n (p.initial tokens) = some r := by
  have hempty : tokens.isEmpty = false := List.isEmpty_eq_false_iff.2 hne
  have hparse : p.parse tokens = p.run (p.stepBound tokens) (p.initial tokens) := by
    rw [parse, hempty]
    rfl
  rw [hparse]
  constructor
  · intro h
    exact ⟨_, h⟩
  · rintro ⟨n, h⟩
    obtain ⟨r', h'⟩ := exists_run_of_not_endless hp ((exists_run_iff hp tokens).1 ⟨n, r, h⟩)
    rw [h', run_unique h h']

theorem parse_eq_none_iff (hp : p.Built) (tokens : List Token) :
    p.parse tokens = none ↔ p.Loops tokens := by
  by_cases hne : tokens = []
  · subst hne
    exact ⟨nofun, fun h => absurd rfl h.1⟩
  simp only [Loops, Option.eq_none_iff_forall_ne_some, ne_eq, parse_eq_some_iff hp hne, not_exists]
  exact ⟨fun h => ⟨hne, fun n r => h r n⟩, fun h r n => h.2 n r⟩

theorem answerAlike_of_rel {q : Parser} (hp : p.Built) (hq : q.Built)
    {related : Except SyntaxError Tree → Except SyntaxError Tree → Prop} {tokens : List Token}
    (h : Option.Rel related (p.parse tokens) (q.parse tokens)) :
    AnswerAlike related p q tokens := by
  have hloops := parse_eq_none_iff hp tokens
  have hloops' := parse_eq_none_iff hq tokens
  generalize hr : p.parse tokens = answer at h hloops
  generalize hr' : q.parse tokens = answer' at h hloops'
  cases h with
  | some h => exact .results hr hr' h
  | none => exact .loops (hloops.1 rfl) (hloops'.1 rfl)

theorem Built.loops_of_endless (hp : p.Built) {tokens : List Token} (hne : tokens ≠ [])
    (h : p.Endless (p.splitAll tokens)) : p.Loops tokens := by
  refine ⟨hne, fun n => Option.eq_none_iff_forall_ne_some.2 fun r hr => ?_⟩
  exact (exists_run_iff hp tokens).1 ⟨n, r, hr⟩ h

/-- Trees are parsed where the pieces are read to the end. -/
theorem parse_eq_ok_iff (hp : p.Built) {tokens : List Token} (hne : tokens ≠ []) {tree : Tree} :
    p.parse tokens = some (.ok tree) ↔
      ∃ d i', p.Reads 0 [p.start] (p.splitAll tokens) d tree.toForest i' ∧ p.Ends i' := by
  constructor
  · exact exists_reads_of_parse hp
  · rintro ⟨d, i', hd, he⟩
    have hrun := run_initial_of_reads hp (inPieces_splitAll tokens) hd he 0
    exact (parse_eq_some_iff hp hne).2 ⟨_, run_splitAll_eq_ok_iff.1 hrun⟩

theorem not_endless_of_no_endMarker (hp : p.Built)
    (hright : ∀ production ∈ p.grammar.productions, Symbol.endIndex ∉ production.right)
    (i : List Token) : ¬ p.Endless i := by
  rintro ⟨-, a, -, k, v, -, -, hloop⟩
  obtain ⟨w, hs, -⟩ := Relation.TransGen.head'_iff.1 hloop
  obtain ⟨right, hr, -⟩ := Grammar.step_singleton_iff.1 hs
  have ha := hp.consistent.left _ (p.grammar.mem_rightsOf.1 hr)
  have hne := Grammar.ne_of_isLookahead hp.consistent.isLookahead_endIndex ha
  have hnot := Grammar.Derives.not_mem hright hloop.to_reflTransGen
    (fun hm => hne (List.mem_singleton.1 hm).symm)
  cases k with
  | zero => exact hp.not_leftRecursive a v hloop
  | succ k => exact hnot List.mem_cons_self

/-- The loop comes to an end unless, where all tokens are used up, a non-terminal is expanded that
derives end markers and itself behind them; it always does if no right side has the end marker. If
it does, the number of steps that parsing allows is enough. -/
theorem halting_exact {lines : List String} {g : Grammar} {messages : MessageTable}
    (hload : Grammar.load lines = .ok g)
    (hp : (ofGrammar g).map (withMessages · messages) = .ok p) (tokens : List Token) :
    ((∃ n r, p.run n (p.initial tokens) = some r) ↔ ¬ p.Endless (p.splitAll tokens)) ∧
    ((∀ production ∈ g.productions, Symbol.endIndex ∉ production.right) →
      ∃ n r, p.run n (p.initial tokens) = some r) ∧
    (tokens ≠ [] → ∀ r, p.parse tokens = some r ↔ ∃ n, p.run n (p.initial tokens) = some r) := by
  obtain ⟨rfl, hb⟩ := built_of_load hload hp
  refine ⟨exists_run_iff hb tokens, fun hright => ?_, fun hne r => parse_eq_some_iff hb hne⟩
  exact (exists_run_iff hb tokens).2 (not_endless_of_no_endMarker hb hright _)

/-- `<S>` calls for itself behind an end marker. -/
def echoing : Grammar where
  symbols := [.lambda, .endMarker, .nonTerminal "<S>", .terminal "a"]
  names := [("a", 3), ("<S>", 2), ("$", 1), ("lambda", 0), ("λ", 0)]
  productions := [⟨2, [1, 2]⟩, ⟨2, [3]⟩]
  start := some 2

def echoingParser : Parser where
  grammar := echoing
  sets := ⟨⟨[(2, .ofList [1, 3])]⟩, ⟨[(2, .ofList [1])]⟩⟩
  table := ⟨[((2, 1), 0), ((2, 3), 1)]⟩
  start := 2
  messages := ∅

theorem load_echoing : Grammar.load ["<S> -> $ <S>", "<S> -> a"] = .ok echoing := rfl

theorem ofGrammar_echoing : (ofGrammar echoing).map (withMessages · ∅) = .ok echoingParser := rfl

theorem endless_echoing :
    echoingParser.Endless (echoingParser.splitAll [⟨⟨0, 1⟩, .punctuation, "$"⟩]) := by
  have hmem : (⟨2, [1, 2]⟩ : Production) ∈ echoing.productions := List.mem_cons_self
  refine ⟨[1], 2, [1], 1, [], ⟨[1], 0, rfl, rfl⟩, ?_, ?_⟩
  · exact .single (.replace [] ⟨2, [1, 2]⟩ [1] hmem)
  · exact .single (.replace [] ⟨2, [1, 2]⟩ [] hmem)

theorem loops_echoing (messages : MessageTable) :
    (echoingParser.withMessages messages).Loops [⟨⟨0, 1⟩, .punctuation, "$"⟩] := by
  have hmap : (ofGrammar echoing).map (withMessages · messages) =
      .ok (echoingParser.withMessages messages) := rfl
  obtain ⟨-, hb⟩ := built_of_load load_echoing hmap
  exact hb.loops_of_endless (List.cons_ne_nil _ _) endless_echoing

theorem halting_exact_echoing :
    ¬ ∃ r, echoingParser.parse [⟨⟨0, 1⟩, .punctuation, "$"⟩] = some r := by
  rintro ⟨r, hr⟩
  obtain ⟨hiff, -, hparse⟩ := halting_exact load_echoing ofGrammar_echoing
    [⟨⟨0, 1⟩, .punctuation, "$"⟩]
  obtain ⟨n, hn⟩ := (hparse (List.cons_ne_nil _ _) r).1 hr
  exact hiff.1 ⟨n, r, hn⟩ endless_echoing

theorem not_halting_echoing :
    ¬ ∃ n r,
      echoingParser.run n (echoingParser.initial [⟨⟨0, 1⟩, .punctuation, "$"⟩]) = some r := by
  rintro ⟨n, r, hr⟩
  obtain ⟨-, hb⟩ := built_of_load load_echoing ofGrammar_echoing
  exact not_endless_of_run hb (inPieces_splitAll [⟨⟨0, 1⟩, .punctuation, "$"⟩]) hr endless_echoing

end LLOne.Parser

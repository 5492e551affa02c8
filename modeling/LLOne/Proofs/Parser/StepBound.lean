import LLOne.Proofs.Parser.Reading
import Mathlib.Data.Finset.Card
import Mathlib.Tactic.Ring

/-!
# The length of runs

As long as no token is read, no node is opened inside another one of the same symbol: both would
be read alike, and the inner one would be as large as the outer. So between two tokens the nodes
are nested at most as deep as there are non-terminals, which bounds what is read for a single
symbol. Each token adds at most this much for every symbol still expected in the nodes that were
opened since the last one.
-/

namespace LLOne.Parser

/-- The most steps for one symbol when no token is read and no node is deeper than `r`, where `b`
symbols are expected in each node. -/
def quietCost (b : Nat) : Nat → Nat
  | 0 => 1
  | r + 1 => 2 + b * quietCost b r

theorem one_le_quietCost (b r : Nat) : 1 ≤ quietCost b r := by
  cases r with
  | zero => exact Nat.le_refl 1
  | succ r => simp only [quietCost]; omega

theorem quietCost_le_succ (b r : Nat) : quietCost b r ≤ quietCost b (r + 1) := by
  induction r with
  | zero => simp only [quietCost]; omega
  | succ r ih =>
    have hm := Nat.mul_le_mul_left b ih
    simp only [quietCost] at hm ⊢
    omega

theorem quietCost_mono (b : Nat) {r r' : Nat} (h : r ≤ r') : quietCost b r ≤ quietCost b r' := by
  induction h with
  | refl => exact Nat.le_refl _
  | step _ ih => exact Nat.le_trans ih (quietCost_le_succ b _)

theorem quietCost_le_pow (b r : Nat) : quietCost b r ≤ (b + 2) ^ r := by
  induction r with
  | zero => exact Nat.le_refl 1
  | succ r ih =>
    have hone := one_le_quietCost b r
    calc quietCost b (r + 1) ≤ (b + 2) * quietCost b r := by
          simp only [quietCost, Nat.add_mul]; omega
      _ ≤ (b + 2) * (b + 2) ^ r := Nat.mul_le_mul_left _ ih
      _ = (b + 2) ^ (r + 1) := by rw [Nat.pow_succ, Nat.mul_comm]

variable (p : Parser)

def symbolCost : Nat := quietCost p.breadth p.grammar.nonTerminals.length

def nodeCost : Nat := 2 + p.breadth * p.symbolCost

def Exceeds (i : List Token) (n y : Nat) : Prop :=
  ∃ k e f i', p.Reads k [y] i e f i' ∧ n < e.steps

/-- In what takes `n` steps, none of the non-terminals in `V` is opened before a token is read, so
that nodes are nested at most `r` deep. -/
structure Guarded (V : Finset Nat) (r : Nat) (i : List Token) (n : Nat) : Prop where
  nonTerminal : ∀ y ∈ V, p.grammar.isNonTerminal y = true
  exceeds : ∀ y ∈ V, p.Exceeds i n y
  card : V.card + r = p.grammar.nonTerminals.length

variable {p}

theorem guarded_empty (i : List Token) (n : Nat) :
    p.Guarded ∅ p.grammar.nonTerminals.length i n where
  nonTerminal y hy := absurd hy (Finset.notMem_empty y)
  exceeds y hy := absurd hy (Finset.notMem_empty y)
  card := by rw [Finset.card_empty, Nat.zero_add]

theorem Guarded.mono {V : Finset Nat} {r n m : Nat} {i : List Token} (h : p.Guarded V r i n)
    (hm : m ≤ n) : p.Guarded V r i m where
  nonTerminal := h.nonTerminal
  exceeds y hy := by
    obtain ⟨k, e, f, i', he, hn⟩ := h.exceeds y hy
    exact ⟨k, e, f, i', he, Nat.lt_of_le_of_lt hm hn⟩
  card := h.card

/-- The children of a node are guarded against its symbol too. -/
theorem Guarded.children {V : Finset Nat} {r k x q : Nat} {i i₁ : List Token} {c d : Shape}
    {fc : Forest} (hp : p.Built) (h : p.Guarded V r i (Shape.node x c d).steps)
    (hx : p.grammar.isNonTerminal x = true)
    (hq : (p.lookahead i).bind (p.table.get? x) = some q)
    (hc : p.Reads (k + 1) (p.symbolsOf q) i c fc i₁) :
    ∃ r', r = r' + 1 ∧ p.Guarded (insert x V) r' i c.steps := by
  have hsingle := Reads.node hx hq hc (.nil _ i₁)
  have hnot : x ∉ V := by
    intro hV
    obtain ⟨k₂, e, f, i', he, hn⟩ := h.exceeds x hV
    obtain ⟨rfl, -⟩ := he.unique hp hsingle
    simp only [Shape.steps] at hn
    omega
  have hkind : ∀ y ∈ insert x V, p.grammar.isNonTerminal y = true := by
    intro y hy
    rcases Finset.mem_insert.1 hy with rfl | hy
    · exact hx
    · exact h.nonTerminal y hy
  have hcard : (insert x V).card ≤ p.grammar.nonTerminals.length := by
    have hsub : insert x V ⊆ p.grammar.nonTerminals.toFinset := by
      intro y hy
      rw [List.mem_toFinset, Grammar.mem_nonTerminals]
      exact hkind y hy
    exact Nat.le_trans (Finset.card_le_card hsub) (List.toFinset_card_le _)
  rw [Finset.card_insert_of_notMem hnot] at hcard
  have htotal := h.card
  refine ⟨r - 1, by omega, hkind, ?_, ?_⟩
  · intro y hy
    rcases Finset.mem_insert.1 hy with rfl | hy
    · refine ⟨k, _, _, i₁, hsingle, ?_⟩
      simp only [Shape.steps]
      omega
    · have hle : c.steps ≤ (Shape.node x c d).steps := by
        simp only [Shape.steps]; omega
      exact (h.mono hle).exceeds y hy
  · rw [Finset.card_insert_of_notMem hnot]
    omega

theorem length_symbolsOf_le (p : Parser) (q : Nat) : (p.symbolsOf q).length ≤ p.breadth := by
  unfold symbolsOf
  split
  next production hq =>
    have hm : production.right.length ∈ p.grammar.productions.map (·.right.length) :=
      List.mem_map.2 ⟨production, List.mem_of_getElem? hq, rfl⟩
    apply Nat.le_trans (List.length_filter_le ..)
    unfold breadth
    generalize p.grammar.productions.map (·.right.length) = lengths at hm
    induction lengths with
    | nil => cases hm
    | cons n rest ih =>
      rcases List.mem_cons.1 hm with rfl | hm
      · exact Nat.le_max_left ..
      · exact Nat.le_trans (ih hm) (Nat.le_max_right ..)
  next => exact Nat.zero_le _

theorem Reads.eq_of_quiet {k : Nat} {u : List Nat} {i i' : List Token} {d : Shape} {f : Forest}
    (h : p.Reads k u i d f i') (hf : f.leaves = []) : i' = i := by
  rw [h.input_eq, hf, List.nil_append]

/-- The steps in which no token is read. -/
theorem Reads.steps_le_of_quiet {k : Nat} {u : List Nat} {i i' : List Token} {d : Shape}
    {f : Forest} (h : p.Reads k u i d f i') (hp : p.Built) {V : Finset Nat} {r : Nat}
    (hV : p.Guarded V r i d.steps) (hf : f.leaves = []) :
    d.steps ≤ u.length * quietCost p.breadth r := by
  induction h generalizing V r with
  | nil => exact Nat.zero_le _
  | token => cases hf
  | @beyond k u i' d f _ ih =>
    have hle : d.steps ≤ (Shape.leaf Symbol.endIndex d).steps := by
      simp only [Shape.steps]; omega
    have hrest := ih (hV.mono hle) hf
    have hone := one_le_quietCost p.breadth r
    simp only [Shape.steps, List.length_cons, Nat.add_mul]
    omega
  | @node k x q u i i₁ i' c d fc f hx hq hc h ihc ih =>
    obtain ⟨hfc, hf⟩ := List.append_eq_nil_iff.1 hf
    obtain rfl := hc.eq_of_quiet hfc
    obtain ⟨r', rfl, hV'⟩ := hV.children hp hx hq hc
    have hle : d.steps ≤ (Shape.node x c d).steps := by
      simp only [Shape.steps]; omega
    have hrest := ih (hV.mono hle) hf
    have hchildren := Nat.le_trans (ihc hV' hfc)
      (Nat.mul_le_mul_right (quietCost p.breadth r') (p.length_symbolsOf_le q))
    have hcost : quietCost p.breadth (r' + 1) = 2 + p.breadth * quietCost p.breadth r' := rfl
    simp only [Shape.steps, List.length_cons, Nat.add_mul]
    omega

theorem Reads.steps_le_of_quiet_of_guarded_empty {k : Nat} {u : List Nat} {i i' : List Token}
    {d : Shape} {f : Forest} (h : p.Reads k u i d f i') (hp : p.Built) (hf : f.leaves = []) :
    d.steps ≤ u.length * p.symbolCost := h.steps_le_of_quiet hp (guarded_empty i d.steps) hf

/-- The steps in which tokens are read. Every token pays for the nodes opened before the next. -/
theorem Reads.steps_le_of_read {k : Nat} {u : List Nat} {i i' : List Token} {d : Shape}
    {f : Forest} (h : p.Reads k u i d f i') (hp : p.Built) {V : Finset Nat} {r : Nat}
    (hV : p.Guarded V r i d.steps) (hf : f.leaves ≠ []) :
    d.steps + p.grammar.nonTerminals.length * p.nodeCost ≤ u.length * p.symbolCost +
      (r * p.nodeCost + f.leaves.length * (p.grammar.nonTerminals.length * p.nodeCost)) := by
  have hone : 1 ≤ p.symbolCost := one_le_quietCost _ _
  induction h generalizing V r with
  | nil => exact absurd rfl hf
  | @token k x u t i i' d f _ h ih =>
    simp only [Shape.steps, Forest.leaves, List.length_cons, Nat.add_mul, Nat.one_mul]
    by_cases hrest : f.leaves = []
    · have hquiet := h.steps_le_of_quiet_of_guarded_empty hp hrest
      omega
    · have hread := ih (guarded_empty i d.steps) hrest
      omega
  | beyond h _ => exact absurd (List.append_eq_nil_iff.1 h.input_eq.symm).1 hf
  | @node k x q u i i₁ i' c d fc f hx hq hc h ihc ih =>
    have hle : d.steps ≤ (Shape.node x c d).steps := by
      simp only [Shape.steps]; omega
    have hcost : p.nodeCost = 2 + p.breadth * p.symbolCost := rfl
    obtain ⟨r', rfl, hV'⟩ := hV.children hp hx hq hc
    have hlevels : (r' + 1) * p.nodeCost = r' * p.nodeCost + p.nodeCost := Nat.succ_mul ..
    have hwidth := Nat.mul_le_mul_right p.symbolCost (p.length_symbolsOf_le q)
    simp only [Forest.leaves, List.length_append, List.length_cons, Shape.steps, Nat.add_mul,
      Nat.one_mul] at hf ⊢
    by_cases hfc : fc.leaves = []
    · obtain rfl := hc.eq_of_quiet hfc
      rw [hfc, List.nil_append] at hf
      have hread := ih (hV.mono hle) hf
      have hquiet := hc.steps_le_of_quiet hp hV' hfc
      have hlevel := Nat.mul_le_mul_right (quietCost p.breadth r') (p.length_symbolsOf_le q)
      have hsymbol : 2 + p.breadth * quietCost p.breadth r' ≤ p.symbolCost := by
        have htotal : r' + 1 ≤ p.grammar.nonTerminals.length := by
          rw [← hV.card]
          exact Nat.le_add_left ..
        exact quietCost_mono p.breadth htotal
      rw [hfc, List.length_nil, Nat.zero_mul]
      omega
    · have hread := ihc hV' hfc
      by_cases hrest : f.leaves = []
      · have hquiet := h.steps_le_of_quiet_of_guarded_empty hp hrest
        omega
      · have hread' := ih (guarded_empty i₁ d.steps) hrest
        omega

/-- The steps of a symbol are bounded by the number of tokens read for it. -/
theorem Reads.steps_le {k x : Nat} {i i' : List Token} {d : Shape} {f : Forest}
    (h : p.Reads k [x] i d f i') (hp : p.Built) :
    d.steps ≤ p.symbolCost +
      f.leaves.length * (p.grammar.nonTerminals.length * p.nodeCost) := by
  by_cases hf : f.leaves = []
  · have hquiet := h.steps_le_of_quiet_of_guarded_empty hp hf
    rw [List.length_singleton, Nat.one_mul] at hquiet
    omega
  · have hread := h.steps_le_of_read hp (guarded_empty i d.steps) hf
    rw [List.length_singleton, Nat.one_mul] at hread
    omega

/-! ## The bound -/

theorem length_splitAll_le (tokens : List Token) :
    (p.splitAll tokens).length ≤
      (tokens.map fun t => max 1 t.text.length).foldr (· + ·) 0 := by
  induction tokens with
  | nil => exact Nat.le_refl 0
  | cons t rest ih =>
    have ht := length_pieces_le (p := p) t
    rw [splitAll_cons, List.length_append, List.map_cons, List.foldr_cons]
    omega

theorem nodeCost_le (p : Parser) :
    p.nodeCost ≤ (p.breadth + 2) ^ (p.grammar.nonTerminals.length + 1) := by
  have hone : 1 ≤ p.symbolCost := one_le_quietCost _ _
  have hpow : p.symbolCost ≤ (p.breadth + 2) ^ p.grammar.nonTerminals.length :=
    quietCost_le_pow _ _
  calc p.nodeCost ≤ (p.breadth + 2) * p.symbolCost := by
        simp only [nodeCost, Nat.add_mul]; omega
    _ ≤ (p.breadth + 2) * (p.breadth + 2) ^ p.grammar.nonTerminals.length :=
        Nat.mul_le_mul_left _ hpow
    _ = (p.breadth + 2) ^ (p.grammar.nonTerminals.length + 1) := by
        rw [Nat.pow_succ, Nat.mul_comm]

/-- The bound leaves room for what the tokens and two symbols cost, and for two more steps. -/
theorem add_two_le_cube {steps symbol pieces count cost nodes : Nat}
    (hsteps : steps ≤ 2 * symbol + (2 * pieces + 1) * (count * cost)) (hsymbol : symbol ≤ nodes)
    (hcount : count + 2 ≤ nodes) (hcost : cost ≤ nodes) :
    steps + 2 ≤ ((pieces + 2) * nodes) ^ 3 := by
  have hsize : 2 * nodes ≤ (pieces + 2) * nodes :=
    Nat.mul_le_mul_right nodes (Nat.le_add_left 2 pieces)
  have hpieces : (2 * pieces + 1) * (count * cost) ≤ (pieces + 2) * nodes * (2 * nodes) := by
    calc (2 * pieces + 1) * (count * cost) ≤ (2 * (pieces + 2)) * (nodes * nodes) :=
          Nat.mul_le_mul (by omega) (Nat.mul_le_mul (by omega) hcost)
      _ = (pieces + 2) * nodes * (2 * nodes) := by ring
  have hroom : 2 ≤ (pieces + 2) * nodes := by omega
  generalize (pieces + 2) * nodes = size at *
  have hsquare : size * 2 ≤ size * size := Nat.mul_le_mul_left size hroom
  have hproduct : size * (2 * nodes) ≤ size * size := Nat.mul_le_mul_left size hsize
  calc steps + 2 ≤ size * size + size * size := by omega
    _ = size * size * 2 := by rw [Nat.mul_two]
    _ ≤ size * size * size := Nat.mul_le_mul_left _ hroom
    _ = size ^ 3 := by rw [Nat.pow_succ, Nat.pow_two]

theorem add_two_le_stepBound {tokens : List Token} {steps : Nat}
    (h : steps ≤ 2 * p.symbolCost + (2 * (p.splitAll tokens).length + 1) *
      (p.grammar.nonTerminals.length * p.nodeCost)) : steps + 2 ≤ p.stepBound tokens := by
  have hsymbol : p.symbolCost ≤ (p.breadth + 2) ^ (p.grammar.nonTerminals.length + 1) :=
    Nat.le_trans (quietCost_le_pow _ _) (Nat.pow_le_pow_right (by omega) (Nat.le_succ _))
  have hcount : p.grammar.nonTerminals.length + 2 ≤
      (p.breadth + 2) ^ (p.grammar.nonTerminals.length + 1) := by
    have hpow : 2 ^ (p.grammar.nonTerminals.length + 1) ≤
        (p.breadth + 2) ^ (p.grammar.nonTerminals.length + 1) := Nat.pow_le_pow_left (by omega) _
    have hlt := Nat.lt_two_pow_self (n := p.grammar.nonTerminals.length + 1)
    omega
  have hpieces := Nat.add_le_add_right
    (Nat.mul_le_mul_left 2 (p.length_splitAll_le tokens)) 1
  exact add_two_le_cube (Nat.le_trans h (Nat.add_le_add_left
    (Nat.mul_le_mul_right _ hpieces) _)) hsymbol hcount p.nodeCost_le

/-- A reading of one symbol, and what follows it, fits into the bound. -/
theorem Reads.steps_le_stepBound {k x : Nat} {tokens i' : List Token} {d : Shape} {f : Forest}
    (h : p.Reads k [x] (p.splitAll tokens) d f i') (hp : p.Built) :
    d.steps + 2 ≤ p.stepBound tokens := by
  have hleaves : f.leaves.length ≤ (p.splitAll tokens).length := by
    rw [h.input_eq, List.length_append]
    exact Nat.le_add_right ..
  have hcost := Nat.mul_le_mul_right (p.grammar.nonTerminals.length * p.nodeCost) hleaves
  have hsteps := h.steps_le hp
  apply add_two_le_stepBound
  rw [Nat.add_mul, Nat.mul_assoc]
  omega

end LLOne.Parser

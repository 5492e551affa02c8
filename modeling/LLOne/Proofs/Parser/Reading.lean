import LLOne.Proofs.Grammar.DerivationTree
import LLOne.Proofs.Parser.Built
import LLOne.Proofs.Parser.Splitting

/-!
# Reading by descent

What a run does with the symbols that are expected in a node depends on them and on the input
alone. `Reads` describes it by recursion on the symbols, without the open nodes around them. A
reading has a shape, in which the end markers behind the input are leaves like all others, and a
forest, from which they are missing. A reading that gets `Stuck` is one of the symbols in front of
the first that the next token does not allow.
-/

namespace LLOne

namespace Shape

def size : Shape → Nat
  | nil => 0
  | leaf _ rest => rest.size
  | node _ children rest => 1 + children.size + rest.size

def steps : Shape → Nat
  | nil => 0
  | leaf _ rest => 1 + rest.steps
  | node _ children rest => 2 + children.steps + rest.steps

end Shape

namespace Parser

/-- With `k` nodes opened before, the symbols are read from the first input, which leaves the
second. -/
inductive Reads (p : Parser) :
    Nat → List Nat → List Token → Shape → Forest → List Token → Prop
  | nil (k : Nat) (i : List Token) : Reads p k [] i .nil .nil i
  | token {k x : Nat} {u : List Nat} {t : Token} {i i' : List Token} {d : Shape} {f : Forest}
    (hx : p.classOf t = some x) (h : Reads p k u i d f i') :
    Reads p k (x :: u) (t :: i) (.leaf x d) (.leaf t f) i'
  | beyond {k : Nat} {u : List Nat} {i' : List Token} {d : Shape} {f : Forest}
    (h : Reads p k u [] d f i') :
    Reads p k (Symbol.endIndex :: u) [] (.leaf Symbol.endIndex d) f i'
  | node {k x q : Nat} {u : List Nat} {i i₁ i' : List Token} {c d : Shape} {fc f : Forest}
    (hx : p.grammar.isNonTerminal x = true)
    (hq : (p.lookahead i).bind (p.table.get? x) = some q)
    (hc : Reads p (k + 1) (p.symbolsOf q) i c fc i₁)
    (h : Reads p (k + 1 + c.size) u i₁ d f i') :
    Reads p k (x :: u) i (.node x c d) (.node k x (p.nameOf x) fc f) i'

/-- The symbols are the classes of the tokens in front of the rest; behind the last token they are
end markers. -/
inductive Consumes (p : Parser) : List Token → List Nat → List Token → Prop
  | nil (i : List Token) : Consumes p i [] i
  | token {t : Token} {x : Nat} {i i' : List Token} {y : List Nat} (hx : p.classOf t = some x)
    (h : Consumes p i y i') : Consumes p (t :: i) (x :: y) i'
  | beyond {y : List Nat} {i' : List Token} (h : Consumes p [] y i') :
    Consumes p [] (Symbol.endIndex :: y) i'

/-- In `n` steps the symbols are read from the first input as far as `y`. Then `z` is expected, and
the rest of the input does not allow it. -/
inductive Stuck (p : Parser) : List Nat → List Token → Nat → List Nat → Nat → List Token → Prop
  | terminal {x : Nat} {i : List Token} (hx : p.grammar.isLookahead x = true)
    (hi : p.lookahead i ≠ some x) (u : List Nat) : Stuck p (x :: u) i 0 [] x i
  | nonTerminal {x : Nat} {i : List Token} (hx : p.grammar.isNonTerminal x = true)
    (hq : (p.lookahead i).bind (p.table.get? x) = none) (u : List Nat) :
    Stuck p (x :: u) i 0 [] x i
  | inside {x q n z : Nat} {y : List Nat} {i i' : List Token}
    (hx : p.grammar.isNonTerminal x = true)
    (hq : (p.lookahead i).bind (p.table.get? x) = some q)
    (h : Stuck p (p.symbolsOf q) i n y z i') (u : List Nat) : Stuck p (x :: u) i (n + 1) y z i'
  | behind {k x n z : Nat} {u y : List Nat} {i i₁ i' : List Token} {d : Shape} {f : Forest}
    (hd : Reads p k [x] i d f i₁) (h : Stuck p u i₁ n y z i') :
    Stuck p (x :: u) i (d.steps + n) (d.yield ++ y) z i'

/-- The input is used up except for an end marker that stands last. -/
def Ends (p : Parser) (input : List Token) : Prop :=
  input = [] ∨ ∃ t, p.classOf t = some Symbol.endIndex ∧ input = [t]

variable {p : Parser}

/-! ## What is consumed -/

namespace Consumes

variable {y : List Nat} {i i' : List Token}

theorem trans {w : List Nat} {i'' : List Token} (h : p.Consumes i y i')
    (h' : p.Consumes i' w i'') : p.Consumes i (y ++ w) i'' := by
  induction h with
  | nil => exact h'
  | token hx _ ih => exact .token hx (ih h')
  | beyond _ ih => exact .beyond (ih h')

theorem exists_eq_append (h : p.Consumes i y i') : ∃ front, i = front ++ i' := by
  induction h with
  | nil i => exact ⟨[], rfl⟩
  | @token t _ _ _ _ _ _ ih =>
    obtain ⟨front, rfl⟩ := ih
    exact ⟨t :: front, rfl⟩
  | beyond _ ih => exact ih

/-- What is consumed are the classes of some tokens and behind the last one end markers. -/
theorem exists_classes (h : p.Consumes i y i') : ∃ front c m, i = front ++ i' ∧
    front.map p.classOf = c.map some ∧ y = c ++ List.replicate m Symbol.endIndex ∧
    (i' = [] ∨ m = 0) := by
  induction h with
  | nil i => exact ⟨[], [], 0, rfl, rfl, rfl, .inr rfl⟩
  | @token t x _ _ _ hx _ ih =>
    obtain ⟨front, c, m, rfl, hc, rfl, hm⟩ := ih
    exact ⟨t :: front, x :: c, m, rfl, by rw [List.map_cons, hc, hx, List.map_cons], rfl, hm⟩
  | beyond _ ih =>
    obtain ⟨front, c, m, hi, hc, rfl, -⟩ := ih
    obtain ⟨rfl, rfl⟩ := List.append_eq_nil_iff.1 hi.symm
    obtain rfl : c = [] := List.map_eq_nil_iff.1 hc.symm
    exact ⟨[], [], m + 1, rfl, rfl, rfl, .inl rfl⟩

end Consumes

theorem consumes_nil_iff {y : List Nat} {i' : List Token} :
    p.Consumes [] y i' ↔ i' = [] ∧ ∃ m, y = List.replicate m Symbol.endIndex := by
  constructor
  · intro h
    induction y with
    | nil =>
      cases h
      exact ⟨rfl, 0, rfl⟩
    | cons x y ih =>
      cases h with
      | beyond h =>
        obtain ⟨rfl, m, rfl⟩ := ih h
        exact ⟨rfl, m + 1, rfl⟩
  · rintro ⟨rfl, m, rfl⟩
    induction m with
    | zero => exact .nil []
    | succ m ih => exact .beyond ih

/-! ## Readings and their input -/

namespace Reads

variable {k : Nat} {u : List Nat} {i i' : List Token} {d : Shape} {f : Forest}

theorem input_eq (h : p.Reads k u i d f i') : i = f.leaves ++ i' := by
  induction h with
  | nil => rfl
  | token _ _ ih => rw [ih]; rfl
  | beyond _ ih => exact ih
  | node _ _ _ _ ihc ih => rw [ihc, ih, Forest.leaves, List.append_assoc]

theorem inPieces (h : p.Reads k u i d f i') (hi : p.InPieces i) : p.InPieces i' := by
  intro t ht
  apply hi
  rw [h.input_eq]
  exact List.mem_append_right _ ht

/-- Leaves that the input does not reach take up none of it. -/
theorem length_input (h : p.Reads k u i d f i') : i'.length = i.length - d.yield.length := by
  induction h with
  | nil => rfl
  | token _ _ ih => simp only [Shape.yield, List.length_cons]; omega
  | beyond _ ih => simpa only [List.length_nil, Nat.zero_sub] using ih
  | node _ _ _ _ ihc ih => simp only [Shape.yield, List.length_append]; omega

theorem leaves_eq_take (h : p.Reads k u i d f i') : f.leaves = i.take d.yield.length := by
  have hi := h.input_eq
  have hl := congrArg List.length hi
  have hl' := h.length_input
  rw [List.length_append] at hl
  by_cases hle : i.length ≤ d.yield.length
  · obtain rfl : i' = [] := List.length_eq_zero_iff.1 (by omega)
    rw [List.take_of_length_le hle, hi, List.append_nil]
  · have hd : d.yield.length = f.leaves.length := by omega
    rw [hd, hi, List.take_left]

/-- Symbols and input determine the reading, up to the numbers of its nodes. -/
theorem unique (hp : p.Built) (h : p.Reads k u i d f i') {k₂ : Nat} {i₂ : List Token}
    {d₂ : Shape} {f₂ : Forest} (h₂ : p.Reads k₂ u i d₂ f₂ i₂) :
    d = d₂ ∧ i' = i₂ ∧ (k = k₂ → f = f₂) := by
  have hend := hp.consistent.isLookahead_endIndex
  induction h generalizing k₂ i₂ d₂ f₂ with
  | nil =>
    cases h₂
    exact ⟨rfl, rfl, fun _ => rfl⟩
  | token hx _ ih =>
    cases h₂ with
    | token _ h₂ =>
      obtain ⟨rfl, rfl, hf⟩ := ih h₂
      exact ⟨rfl, rfl, fun hk => by rw [hf hk]⟩
    | node hn => exact absurd rfl (Grammar.ne_of_isLookahead (isLookahead_of_classOf hx) hn)
  | beyond _ ih =>
    cases h₂ with
    | beyond h₂ =>
      obtain ⟨rfl, rfl, hf⟩ := ih h₂
      exact ⟨rfl, rfl, hf⟩
    | node hn => exact absurd rfl (Grammar.ne_of_isLookahead hend hn)
  | node hn hq _ _ ihc ih =>
    cases h₂ with
    | token hx => exact absurd rfl (Grammar.ne_of_isLookahead (isLookahead_of_classOf hx) hn)
    | beyond => exact absurd rfl (Grammar.ne_of_isLookahead hend hn)
    | node _ hq₂ hc₂ h₂ =>
      obtain rfl := Option.some.inj (hq.symm.trans hq₂)
      obtain ⟨rfl, rfl, hfc⟩ := ihc hc₂
      obtain ⟨rfl, rfl, hf⟩ := ih h₂
      refine ⟨rfl, rfl, ?_⟩
      intro hk
      subst hk
      rw [hfc rfl, hf rfl]

theorem append {v : List Nat} {i₁ : List Token} {e : Shape} {f' : Forest}
    (h : p.Reads k u i d f i₁) (h' : p.Reads (k + d.size) v i₁ e f' i') :
    p.Reads k (u ++ v) i (d ++ e) (f ++ f') i' := by
  induction h with
  | nil => exact h'
  | token hx _ ih => exact .token hx (ih h')
  | beyond _ ih => exact .beyond (ih h')
  | @node k x q u i i₁ i' c d fc f hx hq hc _ _ ih =>
    have hk : k + (Shape.node x c d).size = k + 1 + c.size + d.size := by
      simp only [Shape.size]; omega
    exact .node hx hq hc (ih (hk ▸ h'))

/-- The nodes may be counted from another number. -/
theorem renumber (h : p.Reads k u i d f i') (k₂ : Nat) : ∃ f₂, p.Reads k₂ u i d f₂ i' := by
  induction h generalizing k₂ with
  | nil _ i => exact ⟨.nil, .nil k₂ i⟩
  | token hx _ ih =>
    obtain ⟨f₂, h₂⟩ := ih k₂
    exact ⟨_, .token hx h₂⟩
  | beyond _ ih =>
    obtain ⟨f₂, h₂⟩ := ih k₂
    exact ⟨f₂, .beyond h₂⟩
  | @node k x q u i i₁ i' c d fc f hx hq _ _ ihc ih =>
    obtain ⟨fc₂, hc₂⟩ := ihc (k₂ + 1)
    obtain ⟨f₂, h₂⟩ := ih (k₂ + 1 + c.size)
    exact ⟨_, .node hx hq hc₂ h₂⟩

/-- A reading of the first symbol and one of the others are one of all. -/
theorem exists_cons {x k' : Nat} {i₁ : List Token} {e : Shape} {f' : Forest}
    (h : p.Reads k [x] i d f i₁) (h' : p.Reads k' u i₁ e f' i') :
    ∃ d f i', p.Reads 0 (x :: u) i d f i' := by
  obtain ⟨_, h⟩ := h.renumber 0
  obtain ⟨_, h'⟩ := h'.renumber (0 + d.size)
  exact ⟨_, _, i', h.append h'⟩

theorem one_le_steps {x : Nat} (h : p.Reads k (x :: u) i d f i') : 1 ≤ d.steps := by
  cases h <;> simp only [Shape.steps] <;> omega

theorem consumes (h : p.Reads k u i d f i') : p.Consumes i d.yield i' := by
  induction h with
  | nil k i => exact .nil i
  | token hx _ ih => exact .token hx ih
  | beyond _ ih => exact .beyond ih
  | node _ _ _ _ ihc ih => exact ihc.trans ih

end Reads

/-! ## Readings that get stuck -/

theorem Stuck.consumes {u y : List Nat} {n z : Nat} {i i' : List Token}
    (h : p.Stuck u i n y z i') : p.Consumes i y i' := by
  induction h with
  | terminal => exact .nil _
  | nonTerminal => exact .nil _
  | inside _ _ _ _ ih => exact ih
  | behind hd _ ih => exact hd.consumes.trans ih

theorem Stuck.append {u y : List Nat} {n z : Nat} {i i' : List Token} (h : p.Stuck u i n y z i')
    (v : List Nat) : p.Stuck (u ++ v) i n y z i' := by
  induction h with
  | terminal hx hi u => exact .terminal hx hi (u ++ v)
  | nonTerminal hx hq u => exact .nonTerminal hx hq (u ++ v)
  | inside hx hq h u _ => exact .inside hx hq h (u ++ v)
  | behind hd _ ih => exact .behind hd ih

theorem Stuck.exists_symbol {u y : List Nat} {n z : Nat} {i i' : List Token}
    (h : p.Stuck u i n y z i') : ∃ symbol, p.grammar.symbols[z]? = some symbol := by
  induction h with
  | terminal hx => rcases Grammar.isLookahead_iff.1 hx with hx | ⟨name, hx⟩ <;> exact ⟨_, hx⟩
  | nonTerminal hx =>
    obtain ⟨name, hx⟩ := Grammar.isNonTerminal_iff.1 hx
    exact ⟨_, hx⟩
  | inside _ _ _ _ ih => exact ih
  | behind _ _ ih => exact ih

/-- The first symbol is what a reading gets stuck in, or it is read and the others are. -/
theorem Stuck.cons_cases {x n z : Nat} {u y : List Nat} {i i' : List Token}
    (h : p.Stuck (x :: u) i n y z i') :
    p.Stuck [x] i n y z i' ∨ ∃ k n' y' i₁ d f, p.Reads k [x] i d f i₁ ∧
      p.Stuck u i₁ n' y' z i' ∧ n = d.steps + n' ∧ y = d.yield ++ y' := by
  cases h with
  | terminal hx hi => exact .inl (.terminal hx hi [])
  | nonTerminal hx hq => exact .inl (.nonTerminal hx hq [])
  | inside hx hq h => exact .inl (.inside hx hq h [])
  | behind hd h => exact .inr ⟨_, _, _, _, _, _, hd, h, rfl, rfl⟩

/-- A symbol stands in the way, or it is read, or it has a cell for the next token. -/
theorem symbol_cases (k : Nat) {x : Nat}
    (hx : p.grammar.isNonTerminal x = true ∨ p.grammar.isLookahead x = true) (u : List Nat)
    (i : List Token) :
    p.Stuck (x :: u) i 0 [] x i ∨
    (p.grammar.isLookahead x = true ∧ ∃ d f i', p.Reads k [x] i d f i') ∨
    p.grammar.isNonTerminal x = true ∧ ∃ q, (p.lookahead i).bind (p.table.get? x) = some q := by
  rcases hx with hx | hx
  · cases hq : (p.lookahead i).bind (p.table.get? x) with
    | none => exact .inl (.nonTerminal hx hq u)
    | some q => exact .inr (.inr ⟨hx, q, rfl⟩)
  · by_cases hi : p.lookahead i = some x
    · refine .inr (.inl ⟨hx, ?_⟩)
      cases i with
      | nil =>
        obtain rfl := Option.some.inj hi
        exact ⟨_, _, [], .beyond (.nil k [])⟩
      | cons t i => exact ⟨_, _, i, .token hi (.nil k i)⟩
    · exact .inl (.terminal hx hi u)

end Parser

end LLOne

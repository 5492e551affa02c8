import LLOne.Proofs.Parser.Soundness
import LLOne.Proofs.Parser.StepBound

/-!
# Every sentence is parsed, in one way only

The input of a parser goes on with end markers behind its last token. If it begins with the yield
of a derivation, and what comes next was to be expected there, the table gives the production of
the derivation at every node: the lookahead is what the right side begins with, or it follows the
non-terminal. So the derivation is read, whichever it is; since a reading is unique, there is no
second derivation.
-/

namespace LLOne

namespace Grammar

variable (g : Grammar)

/-- When `t` comes behind the form, all that can come behind a non-terminal in it follows that
non-terminal. -/
def Anticipates (start : Nat) (u : List Nat) (t : Nat) : Prop :=
  ∀ before a after, u = before ++ a :: after → g.isNonTerminal a = true →
    ∀ x, g.isLookahead x = true → g.Begins after x ∨ g.Vanishes after ∧ x = t →
      g.Follows start a x

variable {g} {start t : Nat}

theorem Anticipates.tail {x : Nat} {u : List Nat} (h : g.Anticipates start (x :: u) t) :
    g.Anticipates start u t := by
  intro before a after hu
  exact h (x :: before) a after (by rw [hu, List.cons_append])

theorem Anticipates.head {a x : Nat} {u : List Nat} (h : g.Anticipates start (a :: u) t)
    (ha : g.isNonTerminal a = true) (hx : g.isLookahead x = true)
    (hu : g.Begins u x ∨ g.Vanishes u ∧ x = t) : g.Follows start a x :=
  h [] a u rfl ha x hx hu

theorem anticipates_start (hg : g.WellFormed) (start : Nat) :
    g.Anticipates start [start] Symbol.endIndex := by
  intro before a after hu _ x _ hx
  obtain ⟨rfl, hc⟩ | ⟨_, hc⟩ := List.append_eq_singleton_iff.1 hu.symm
  · obtain ⟨rfl, rfl⟩ := List.cons.inj hc
    rcases hx with hx | ⟨-, rfl⟩
    · exact absurd hx (not_begins_nil x)
    · exact (followRules_follows hg a).start
  · cases hc

theorem anticipates_right (hg : g.WellFormed) {p : Production} (hp : p ∈ g.productions)
    (ht : g.Follows start p.left t) : g.Anticipates start (g.form p.right) t := by
  have hrules := followRules_follows hg start
  intro before a after hu ha x hx h
  rcases h with hb | ⟨hv, rfl⟩
  · exact hrules.behind p hp before a after x hu ha hx hb
  · exact hrules.left p hp before a after x hu ha hv ht

end Grammar

namespace Parser

variable {p : Parser}

/-! ## Input with end markers behind it -/

def Shows (p : Parser) (i : List Token) (w : List Nat) : Prop :=
  ∃ c j, i.map p.classOf = c.map some ∧ w = c ++ List.replicate j Symbol.endIndex

theorem shows_nil_cons_iff {x : Nat} {w : List Nat} :
    p.Shows [] (x :: w) ↔ x = Symbol.endIndex ∧ p.Shows [] w := by
  constructor
  · intro h
    obtain ⟨c, j, hc, hw⟩ := h
    obtain rfl : c = [] := List.map_eq_nil_iff.1 hc.symm
    cases j with
    | zero => cases hw
    | succ j =>
      obtain ⟨hx, hw⟩ := List.cons.inj hw
      exact ⟨hx, [], j, rfl, hw⟩
  · intro h
    obtain ⟨rfl, c, j, hc, rfl⟩ := h
    obtain rfl : c = [] := List.map_eq_nil_iff.1 hc.symm
    exact ⟨[], j + 1, rfl, rfl⟩

theorem shows_cons_cons_iff {t : Token} {i : List Token} {x : Nat} {w : List Nat} :
    p.Shows (t :: i) (x :: w) ↔ p.classOf t = some x ∧ p.Shows i w := by
  constructor
  · intro h
    obtain ⟨c, j, hc, hw⟩ := h
    cases c with
    | nil => cases hc
    | cons y c =>
      obtain ⟨rfl, rfl⟩ := List.cons.inj hw
      obtain ⟨hy, hc⟩ := List.cons.inj hc
      exact ⟨hy, c, j, hc, rfl⟩
  · intro h
    obtain ⟨hx, c, j, hc, rfl⟩ := h
    exact ⟨x :: c, j, by rw [List.map_cons, List.map_cons, hx, hc], rfl⟩

theorem Shows.lookahead {i : List Token} {x : Nat} {w : List Nat} (h : p.Shows i (x :: w)) :
    p.lookahead i = some x := by
  cases i with
  | nil =>
    obtain ⟨rfl, -⟩ := shows_nil_cons_iff.1 h
    rfl
  | cons t i => exact (shows_cons_cons_iff.1 h).1

theorem Shows.isLookahead (hp : p.Built) {i : List Token} {w : List Nat} (h : p.Shows i w) :
    ∀ x ∈ w, p.grammar.isLookahead x = true := by
  obtain ⟨c, j, hc, rfl⟩ := h
  intro x hx
  rcases List.mem_append.1 hx with hx | hx
  · have hm : some x ∈ i.map p.classOf := hc ▸ List.mem_map_of_mem hx
    obtain ⟨t, -, ht⟩ := List.mem_map.1 hm
    exact isLookahead_of_classOf ht
  · rw [List.eq_of_mem_replicate hx]
    exact hp.consistent.isLookahead_endIndex

theorem Consumes.shows {i i' : List Token} {y w : List Nat} (h : p.Consumes i y i')
    (hw : p.Shows i' w) : p.Shows i (y ++ w) := by
  induction h with
  | nil => exact hw
  | token hx _ ih => exact shows_cons_cons_iff.2 ⟨hx, ih hw⟩
  | beyond _ ih => exact shows_nil_cons_iff.2 ⟨rfl, ih hw⟩

theorem shows_end_iff {i : List Token} : p.Shows i [Symbol.endIndex] ↔ p.Ends i := by
  cases i with
  | nil => exact ⟨fun _ => .inl rfl, fun _ => ⟨[], 1, rfl, rfl⟩⟩
  | cons t i =>
    rw [shows_cons_cons_iff]
    constructor
    · intro h
      obtain ⟨ht, c, j, hc, hw⟩ := h
      obtain ⟨rfl, -⟩ := List.append_eq_nil_iff.1 hw.symm
      obtain rfl : i = [] := List.map_eq_nil_iff.1 hc
      exact .inr ⟨t, ht, rfl⟩
    · intro h
      rcases h with h | ⟨t', ht, h⟩
      · cases h
      · obtain ⟨rfl, rfl⟩ := List.cons.inj h
        exact ⟨ht, [], 0, rfl, rfl⟩

/-! ## Derivations are read -/

/-- A production is predicted by the first symbol of its part of the input and the rest. -/
theorem predicts_of_derivation (hp : p.Built) {production : Production}
    {c : Shape} (hc : p.grammar.IsDerivation (p.grammar.form production.right) c) {t x : Nat}
    {w v : List Nat} (hl : p.grammar.isNonTerminal production.left = true)
    (ht : p.grammar.Follows p.start production.left t) (hw : c.yield ++ t :: w = x :: v) :
    p.grammar.Predicts p.sets production x := by
  have hd := hc.derives
  have hx := hc.isLookahead
  cases hy : c.yield with
  | nil =>
    rw [hy] at hd hw
    obtain ⟨rfl, -⟩ := List.cons.inj hw
    refine .inr ⟨hd, ?_⟩
    rw [hp.consistent.mem_follow_iff hp.start hp.nonTerminal hp.sets hl]
    exact ht
  | cons y ys =>
    rw [hy] at hd hx hw
    obtain ⟨rfl, -⟩ := List.cons.inj hw
    exact .inl ⟨hx y List.mem_cons_self, ys, hd⟩

theorem exists_reads_of_derivation (hp : p.Built) {u : List Nat} {d : Shape}
    (hd : p.grammar.IsDerivation u d) (k : Nat) {i : List Token} {t : Nat} {w : List Nat}
    (hi : p.Shows i (d.yield ++ t :: w)) (hu : p.grammar.Anticipates p.start u t) :
    ∃ f i', p.Reads k u i d f i' ∧ p.Shows i' (t :: w) := by
  induction hd generalizing k i t w with
  | nil => exact ⟨.nil, i, .nil k i, hi⟩
  | @leaf x u d hx _ ih =>
    cases i with
    | nil =>
      obtain ⟨rfl, hrest⟩ := shows_nil_cons_iff.1 hi
      obtain ⟨f, i', hr, hi'⟩ := ih k hrest hu.tail
      exact ⟨f, i', .beyond hr, hi'⟩
    | cons token i =>
      obtain ⟨hc, hrest⟩ := shows_cons_cons_iff.1 hi
      obtain ⟨f, i', hr, hi'⟩ := ih k hrest hu.tail
      exact ⟨.leaf token f, i', .token hc hr, hi'⟩
  | @node production u c d hm hc hd ihc ih =>
    have hl := hp.consistent.left production hm
    rw [Shape.yield, List.append_assoc] at hi
    have hall := hi.isLookahead hp
    obtain ⟨t₁, w₁, hrest, hfollows⟩ : ∃ t₁ w₁, d.yield ++ t :: w = t₁ :: w₁ ∧
        p.grammar.Follows p.start production.left t₁ := by
      have hd' := hd.derives
      have hx := hd.isLookahead
      cases hy : d.yield with
      | nil =>
        rw [hy] at hd'
        have ht : p.grammar.isLookahead t = true := hall t (by simp)
        exact ⟨t, w, rfl, hu.head hl ht (.inr ⟨hd', rfl⟩)⟩
      | cons y ys =>
        rw [hy] at hd' hx
        exact ⟨y, _, rfl, hu.head hl (hx y List.mem_cons_self) (.inl ⟨ys, hd'⟩)⟩
    rw [hrest] at hi
    obtain ⟨x, v, hfirst⟩ : ∃ x v, c.yield ++ t₁ :: w₁ = x :: v := by
      cases c.yield with
      | nil => exact ⟨t₁, w₁, rfl⟩
      | cons y ys => exact ⟨y, _, rfl⟩
    obtain ⟨q, hq, hs⟩ := hp.exists_cell hm (predicts_of_derivation hp hc hl hfollows hfirst)
    have hcell : (p.lookahead i).bind (p.table.get? production.left) = some q := by
      rw [hfirst] at hi
      rw [hi.lookahead]
      exact hq
    obtain ⟨fc, i₁, hrc, hi₁⟩ := ihc (k + 1) hi
      (Grammar.anticipates_right hp.consistent.toWellFormed hm hfollows)
    rw [← hrest] at hi₁
    obtain ⟨f, i', hr, hi'⟩ := ih (k + 1 + c.size) hi₁ hu.tail
    rw [← hs] at hrc
    exact ⟨_, i', .node hl hcell hrc hr, hi'⟩

/-! ## Readings are derivations -/

namespace Reads

variable {k : Nat} {u : List Nat} {i i' : List Token} {d : Shape} {f : Forest}

theorem isDerivation (h : p.Reads k u i d f i') (hp : p.Built) :
    p.grammar.IsDerivation u d := by
  induction h with
  | nil => exact .nil
  | token hx _ ih => exact .leaf (isLookahead_of_classOf hx) ih
  | beyond _ ih => exact .leaf hp.consistent.isLookahead_endIndex ih
  | node _ hq _ _ ihc ih =>
    obtain ⟨production, hm, rfl, hs⟩ := hp.of_cell hq
    rw [hs] at ihc
    exact .node hm ihc ih

theorem shows (h : p.Reads k u i d f i') {w : List Nat} (hw : p.Shows i' w) :
    p.Shows i (d.yield ++ w) := h.consumes.shows hw

end Reads

/-- The forest has the nodes of the shape with their names, and for each leaf a token of that
class. -/
inductive Fills (p : Parser) : Shape → Forest → Prop
  | nil : Fills p .nil .nil
  | leaf {x : Nat} {t : Token} {d : Shape} {f : Forest} (hx : p.classOf t = some x)
    (h : Fills p d f) : Fills p (.leaf x d) (.leaf t f)
  | node {id x : Nat} {c d : Shape} {children f : Forest} (hc : Fills p c children)
    (h : Fills p d f) : Fills p (.node x c d) (.node id x (p.nameOf x) children f)

/-- Without the leaves behind the input, the shape of a reading is that of its forest. -/
theorem Reads.fills {k : Nat} {u : List Nat} {i i' : List Token} {d : Shape} {f : Forest}
    (h : p.Reads k u i d f i') : p.Fills (d.keep i.length) f := by
  induction h with
  | nil => simpa only [Shape.keep] using Fills.nil
  | token hx _ ih => exact .leaf hx ih
  | beyond _ ih => exact ih
  | node _ _ hc _ ihc ih =>
    rw [hc.length_input] at ih
    simp only [Shape.keep]
    exact .node ihc ih

/-! ## Parsing -/

/-- A derivation that the pieces show is the shape of the parsed tree. -/
theorem parse_of_derivation (hp : p.Built) {tokens : List Token} (hne : tokens ≠ []) {d : Shape}
    (hd : p.grammar.IsDerivation [p.start] d)
    (hs : p.Shows (p.splitAll tokens) (d.yield ++ [Symbol.endIndex])) :
    ∃ tree i', p.parse tokens = some (.ok tree) ∧
      p.Reads 0 [p.start] (p.splitAll tokens) d tree.toForest i' := by
  obtain ⟨f, i', hr, hi'⟩ := exists_reads_of_derivation hp hd 0 hs
    (Grammar.anticipates_start hp.consistent.toWellFormed p.start)
  obtain ⟨q, c, fc, -, -, -, rfl⟩ := hr.start_cases hp
  refine ⟨_, i', ?_, hr⟩
  obtain ⟨m, hm⟩ := Nat.exists_eq_add_of_le (hr.steps_le_stepBound hp)
  have hrun := run_initial_of_reads hp (inPieces_splitAll tokens) hr (shows_end_iff.1 hi') m
  rw [run_splitAll_eq_ok_iff, ← hm] at hrun
  have hempty : tokens.isEmpty = false := List.isEmpty_eq_false_iff.2 hne
  rw [parse, hempty]
  exact hrun

/-- The parsed tree comes from a derivation that the pieces show. -/
theorem exists_derivation_of_parse (hp : p.Built) {tokens : List Token} {tree : Tree}
    (h : p.parse tokens = some (.ok tree)) :
    ∃ d i', p.Reads 0 [p.start] (p.splitAll tokens) d tree.toForest i' ∧
      p.grammar.IsDerivation [p.start] d ∧
      p.Shows (p.splitAll tokens) (d.yield ++ [Symbol.endIndex]) := by
  obtain ⟨d, i', hr, he⟩ := exists_reads_of_parse hp h
  exact ⟨d, i', hr, hr.isDerivation hp, hr.shows (shows_end_iff.2 he)⟩

theorem derives_start_iff (hp : p.Built) {w : List Nat}
    (hw : ∀ x ∈ w, p.grammar.isLookahead x = true) :
    p.grammar.Derives [p.start, Symbol.endIndex] w ↔
      ∃ d, p.grammar.IsDerivation [p.start] d ∧ d.yield ++ [Symbol.endIndex] = w := by
  have hend := hp.consistent.isLookahead_endIndex
  constructor
  · intro h
    obtain ⟨v, u, rfl, hv, hu⟩ := Grammar.derives_cons_iff.1 h
    obtain rfl := (hp.consistent.derives_lookahead hend).1 hu
    obtain ⟨d, hd, rfl⟩ := (Grammar.derives_iff_exists_derivation
      (List.forall_mem_append.1 hw).1).1 hv
    exact ⟨d, hd, rfl⟩
  · intro h
    obtain ⟨d, hd, rfl⟩ := h
    exact hd.derives.append (.refl [Symbol.endIndex])

/-- The parser returns a tree if and only if the classes of the pieces, with some number of end
markers behind them, derive from the start symbol and an end marker. Then this number is unique,
and so is the derivation, which has the shape, the names and the leaves of the tree. -/
theorem parse_complete {lines : List String} {g : Grammar} {messages : MessageTable}
    (hload : Grammar.load lines = .ok g)
    (hp : (ofGrammar g).map (withMessages · messages) = .ok p) {tokens : List Token}
    (hne : tokens ≠ []) {c : List Nat} (hc : (p.splitAll tokens).map p.classOf = c.map some) :
    g.start = some p.start ∧
    ((∃ j, g.Derives [p.start, Symbol.endIndex] (c ++ List.replicate j Symbol.endIndex)) ↔
      ∃ tree, p.parse tokens = some (.ok tree)) ∧
    ∀ tree, p.parse tokens = some (.ok tree) →
      (∃! j, g.Derives [p.start, Symbol.endIndex] (c ++ List.replicate j Symbol.endIndex)) ∧
      (∃! d, g.IsDerivation [p.start] d ∧
        ∃ j, d.yield ++ [Symbol.endIndex] = c ++ List.replicate j Symbol.endIndex) ∧
      ∀ d j, g.IsDerivation [p.start] d →
        d.yield ++ [Symbol.endIndex] = c ++ List.replicate j Symbol.endIndex →
        p.Fills (d.keep c.length) tree.toForest ∧
          tree.leaves = (p.splitAll tokens).take d.yield.length := by
  obtain ⟨rfl, hb⟩ := built_of_load hload hp
  have hshows : ∀ j, p.Shows (p.splitAll tokens) (c ++ List.replicate j Symbol.endIndex) :=
    fun j => ⟨c, j, hc, rfl⟩
  have hlength : (p.splitAll tokens).length = c.length := by
    have hl := congrArg List.length hc
    rwa [List.length_map, List.length_map] at hl
  have hderives := fun j => derives_start_iff hb ((hshows j).isLookahead hb)
  refine ⟨hb.start, ⟨?_, ?_⟩, ?_⟩
  · intro h
    obtain ⟨j, hj⟩ := h
    obtain ⟨d, hd, hy⟩ := (hderives j).1 hj
    obtain ⟨tree, i', htree, -⟩ := parse_of_derivation hb hne hd (hy ▸ hshows j)
    exact ⟨tree, htree⟩
  · intro h
    obtain ⟨tree, h⟩ := h
    obtain ⟨d, i', -, hd, c', j, hc', hy⟩ := exists_derivation_of_parse hb h
    obtain rfl : c' = c :=
      (List.map_inj_right fun _ _ => Option.some.inj).1 (hc'.symm.trans hc)
    exact ⟨j, (hderives j).2 ⟨d, hd, hy⟩⟩
  · intro tree h
    obtain ⟨d, i', hr, hd, c', j, hc', hy⟩ := exists_derivation_of_parse hb h
    obtain rfl : c' = c :=
      (List.map_inj_right fun _ _ => Option.some.inj).1 (hc'.symm.trans hc)
    have hunique : ∀ d' j', p.grammar.IsDerivation [p.start] d' →
        d'.yield ++ [Symbol.endIndex] = c' ++ List.replicate j' Symbol.endIndex → d' = d := by
      intro d' j' hd' hy'
      obtain ⟨tree', i'', -, hr'⟩ := parse_of_derivation hb hne hd' (hy' ▸ hshows j')
      exact (hr'.unique hb hr).1
    refine ⟨⟨j, (hderives j).2 ⟨d, hd, hy⟩, ?_⟩, ⟨d, ⟨hd, j, hy⟩, ?_⟩, ?_⟩
    · intro j' hj'
      obtain ⟨d', hd', hy'⟩ := (hderives j').1 hj'
      obtain rfl := hunique d' j' hd' hy'
      have hl := congrArg List.length (hy'.symm.trans hy)
      simpa only [List.length_append, List.length_replicate, Nat.add_left_cancel_iff] using hl
    · rintro d' ⟨hd', j', hy'⟩
      exact hunique d' j' hd' hy'
    · intro d' j' hd' hy'
      obtain rfl := hunique d' j' hd' hy'
      have hleaves := hr.leaves_eq_take
      rw [Tree.leaves_toForest] at hleaves
      exact ⟨hlength ▸ hr.fills, hleaves⟩

theorem parse_complete_tally :
    (∃! j, tally.Derives [2, 1] ([5, 4] ++ List.replicate j 1)) ∧
      ∃! d, tally.IsDerivation [2] d ∧ ∃ j, d.yield ++ [1] = [5, 4] ++ List.replicate j 1 := by
  have hne : [(⟨⟨0, 2⟩, .word, "ab"⟩ : Token)] ≠ [] := List.cons_ne_nil _ _
  obtain ⟨-, -, h⟩ := parse_complete load_tally ofGrammar_tally hne (c := [5, 4]) rfl
  obtain ⟨hj, hd, -⟩ := h tallyTree parse_tally
  exact ⟨hj, hd⟩

end Parser

end LLOne

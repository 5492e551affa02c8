import LLOne.Proofs.Grammar.LeftRecursion
import LLOne.Proofs.Grammar.Loading
import LLOne.Proofs.Grammar.Prediction

/-!
# What can vanish begins with nothing that follows it

The table tolerates it that one right side claims a cell twice, once for what it begins with and
once for what follows its left side. No such cell is left in a finished table: the right side would
vanish and begin with the lookahead, so one of its symbols would do the same, with only vanishing
symbols around it, and what follows the left side follows this symbol too. The symbol is a left
corner, so the way down ends at a non-terminal with two right sides for one lookahead.
-/

namespace LLOne.Grammar

variable (g : Grammar)

structure Overlaps (ff : FirstFollow) (a x : Nat) : Prop where
  isLookahead : g.isLookahead x = true
  vanishes : g.Vanishes [a]
  begins : g.Begins [a] x
  follows : x ∈ ff.follow.get a

variable {g}

/-- One symbol of a form that vanishes and begins with `t` does both, and all around it vanishes. -/
theorem exists_symbol_of_vanishes_of_begins {w : List Nat} {t : Nat} (hv : g.Vanishes w)
    (hb : g.Begins w t) : ∃ u x v, w = u ++ x :: v ∧ g.Vanishes u ∧ g.Vanishes [x] ∧
      g.Begins [x] t ∧ g.Vanishes v := by
  induction w with
  | nil => exact absurd hb (not_begins_nil t)
  | cons x w ih =>
    obtain ⟨hx, hw⟩ := vanishes_append_iff (u := [x]).1 hv
    rcases begins_append_iff (u := [x]).1 hb with hbx | ⟨-, hbw⟩
    · exact ⟨[], x, w, rfl, vanishes_nil, hx, hbx, hw⟩
    · obtain ⟨u, y, v, rfl, hu, hy, hby, hv⟩ := ih hw hbw
      exact ⟨x :: u, y, v, rfl, vanishes_append_iff (u := [x]).2 ⟨hx, hu⟩, hy, hby, hv⟩

namespace WellFormed

variable (hg : g.WellFormed) {start : Nat} (hstart : g.start = some start)
  (hs : g.isNonTerminal start = true) {ff : FirstFollow} (h : g.firstFollow = .ok ff) {t : Table}
  (ht : g.table ff = .ok t)

include hg h ht

/-- In a grammar with a table it is one right side that vanishes and begins with the lookahead. -/
theorem exists_right_of_overlaps {a x : Nat} (ha : g.isNonTerminal a = true)
    (ho : g.Overlaps ff a x) :
    ∃ right ∈ g.rightsOf a, g.Vanishes (g.form right) ∧ g.Begins (g.form right) x := by
  obtain ⟨right, hr, hv⟩ := vanishes_nonTerminal.1 ho.vanishes
  obtain ⟨right', hr', hb⟩ := (begins_nonTerminal ha ho.isLookahead).1 ho.begins
  have hp : g.Predicts ff ⟨a, right⟩ x := .inr ⟨hv, ho.follows⟩
  have hp' : g.Predicts ff ⟨a, right'⟩ x := .inl ⟨ho.isLookahead, hb⟩
  have hone := (hg.exists_table_iff h).1 ⟨t, ht⟩ _ (g.mem_rightsOf.1 hr) _
    (g.mem_rightsOf.1 hr') rfl
  have hsame : right = right' := by
    by_contra hne
    exact hone hne x ⟨hp, hp'⟩
  exact ⟨right, hr, hv, hsame ▸ hb⟩

include hstart hs

/-- An overlap is passed down to a left corner. -/
theorem exists_corner_of_overlaps {a x : Nat} (ha : g.isNonTerminal a = true)
    (ho : g.Overlaps ff a x) :
    ∃ b, g.isNonTerminal b = true ∧ g.Corner a b ∧ g.Overlaps ff b x := by
  obtain ⟨right, hr, hv, hb⟩ := hg.exists_right_of_overlaps h ht ha ho
  obtain ⟨u, b, v, he, hu, hvb, hbb, hv'⟩ := exists_symbol_of_vanishes_of_begins hv hb
  have hp : (⟨a, right⟩ : Production) ∈ g.productions := g.mem_rightsOf.1 hr
  have hmem : b ∈ g.form right := by
    rw [he]
    exact List.mem_append_right u List.mem_cons_self
  have hnb : g.isNonTerminal b = true := by
    rcases hg.mem_form_right hp hmem with hn | hl
    · exact hn
    · exact absurd hvb (hg.not_vanishes_lookahead hl)
  have hfollows : g.Follows start a x := (hg.mem_follow_iff hstart hs h ha x).1 ho.follows
  have hfb : g.Follows start b x :=
    (followRules_follows hg start).left ⟨a, right⟩ hp u b v x he hnb hv' hfollows
  refine ⟨b, hnb, ⟨right, hr, u, v, he, hu⟩, ho.isLookahead, hvb, hbb, ?_⟩
  exact (hg.mem_follow_iff hstart hs h hnb x).2 hfb

theorem not_overlaps {a : Nat} (ha : g.isNonTerminal a = true) (x : Nat) :
    ¬ g.Overlaps ff a x := by
  obtain ⟨-, -, -, hfirst, -⟩ := parts_of_firstFollow h
  induction hg.founded_of_firstTable hfirst ha with
  | intro a _ ih =>
    intro ho
    obtain ⟨b, hb, hc, hob⟩ := hg.exists_corner_of_overlaps hstart hs h ht ha ho
    exact ih b hc hb hob

end WellFormed

/-- In a loaded grammar with a table, a non-terminal that derives the empty text begins with no
lookahead that can follow it. -/
theorem first_disjoint_follow {lines : List String} (hload : load lines = .ok g)
    {ff : FirstFollow} (h : g.firstFollow = .ok ff) {t : Table} (ht : g.table ff = .ok t) {a : Nat}
    (ha : g.isNonTerminal a = true) (hv : g.Derives [a] []) :
    ∃ first follow, ff.first.get? a = some first ∧ ff.follow.get? a = some follow ∧
      ∀ x ∈ first, x ≠ Symbol.lambdaIndex → x ∉ follow := by
  have hg := (consistent_of_load hload).toWellFormed
  obtain ⟨start, -, hstart, hfirst, -⟩ := parts_of_firstFollow h
  have hs := isNonTerminal_start_of_load hload hstart
  obtain ⟨first, hset, hexact⟩ := hg.firstTable_spec hfirst ha
  obtain ⟨follow, hfollow⟩ :=
    Option.isSome_iff_exists.1 ((hg.keyed_follow hstart hs h a).trans ha)
  refine ⟨first, follow, hset, hfollow, fun x hx hne hxf => ?_⟩
  obtain ⟨hl, hb⟩ := (inFirst_of_ne hne).1 ((hexact x).1 hx)
  refine hg.not_overlaps hstart hs h ht ha x ⟨hl, hv, hb, ?_⟩
  rwa [SetTable.get, hfollow]

/-- The one right side of `<A>` vanishes, so it is claimed for what `<A>` begins with and for what
follows. -/
def layered : Grammar where
  symbols := [.lambda, .endMarker, .nonTerminal "<S>", .nonTerminal "<A>", .nonTerminal "<B>",
    .nonTerminal "<C>", .terminal "x", .terminal "b", .terminal "c"]
  names := [("c", 8), ("b", 7), ("x", 6), ("<C>", 5), ("<B>", 4), ("<A>", 3), ("<S>", 2), ("$", 1),
    ("lambda", 0), ("λ", 0)]
  productions := [⟨2, [3, 6]⟩, ⟨3, [4, 5]⟩, ⟨4, [7]⟩, ⟨4, [0]⟩, ⟨5, [8]⟩, ⟨5, [0]⟩]
  start := some 2

def layeredSets : FirstFollow where
  first := ⟨[(4, .ofList [0, 7]), (5, .ofList [0, 8]), (3, .ofList [0, 7, 8]),
    (2, .ofList [6, 7, 8])]⟩
  follow := ⟨[(2, .ofList [1]), (3, .ofList [6]), (4, .ofList [6, 8]), (5, .ofList [6])]⟩

theorem vanishes_layered : layered.Derives [3] [] := by
  have hA : layered.Step [3] [4, 5] := .replace [] ⟨3, [4, 5]⟩ [] (by decide)
  have hB : layered.Step [4, 5] [5] := .replace [] ⟨4, [0]⟩ [5] (by decide)
  have hC : layered.Step [5] [] := .replace [] ⟨5, [0]⟩ [] (by decide)
  exact .tail (.tail (.single hA) hB) hC

theorem first_disjoint_follow_layered :
    ∃ first follow, layeredSets.first.get? 3 = some first ∧
      layeredSets.follow.get? 3 = some follow ∧
      7 ∈ first ∧ 8 ∈ first ∧ 7 ∉ follow ∧ 8 ∉ follow := by
  have hload : load ["<S> -> <A> x", "<A> -> <B> <C>", "<B> -> b", "<B> -> lambda", "<C> -> c",
    "<C> -> lambda"] = .ok layered := rfl
  have hsets : layered.firstFollow = .ok layeredSets := rfl
  have htable : layered.table layeredSets = .ok
    ⟨[((2, 6), 0), ((2, 7), 0), ((2, 8), 0), ((3, 7), 1), ((3, 8), 1), ((3, 6), 1), ((4, 7), 2),
      ((4, 6), 3), ((4, 8), 3), ((5, 8), 4), ((5, 6), 5)]⟩ := rfl
  obtain ⟨first, follow, hfirst, hfollow, hdisjoint⟩ :=
    first_disjoint_follow hload hsets htable (a := 3) rfl vanishes_layered
  have he : some (SymbolSet.ofList [0, 7, 8]) = some first := hfirst
  obtain rfl := Option.some.inj he
  exact ⟨_, follow, hfirst, hfollow, by decide, by decide, hdisjoint 7 (by decide) (by decide),
    hdisjoint 8 (by decide) (by decide)⟩

end LLOne.Grammar

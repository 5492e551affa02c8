import LLOne.Proofs.Grammar.LeftRecursion
import LLOne.Proofs.Grammar.Prediction
import LLOne.Proofs.Grammar.Representation

/-!
# No alternative is dead

Where left corners come to an end and every non-terminal has a right side, every form can begin with
a lookahead or vanish. What stands behind a non-terminal in a right side then hands it a lookahead,
its own or one that follows the left side. So something follows every non-terminal that can be
reached from the start symbol, each of its productions is predicted, and in a finished table some
cell of its row stands for each of its right sides.
-/

namespace LLOne.Grammar

variable (g : Grammar)

inductive Reachable (start : Nat) : Nat → Prop
  | start : Reachable start start
  | right {a b : Nat} {right : List Nat} (ha : Reachable start a) (hr : right ∈ g.rightsOf a)
    (hb : b ∈ right) : Reachable start b

def Opens (u : List Nat) : Prop := ∃ t, g.InFirst u t

def HasRights : Prop := ∀ a, g.isNonTerminal a = true → ∃ right, right ∈ g.rightsOf a

variable {g}

theorem Opens.begins_or_vanishes {u : List Nat} (h : g.Opens u) :
    (∃ t, g.isLookahead t = true ∧ g.Begins u t) ∨ g.Vanishes u := by
  obtain ⟨t, ⟨ht, hb⟩ | ⟨-, hv⟩⟩ := h
  · exact .inl ⟨t, ht, hb⟩
  · exact .inr hv

namespace WellFormed

variable (hg : g.WellFormed)

include hg

/-! ## What every form begins with -/

/-- Only the symbols to which a form leads decide whether it opens. -/
theorem opens_of_leads {u : List Nat}
    (hu : ∀ x ∈ u, g.isNonTerminal x = true ∨ g.isLookahead x = true)
    (ho : ∀ b, g.isNonTerminal b = true → g.Leads u b → g.Opens [b]) : g.Opens u := by
  induction u with
  | nil => exact ⟨Symbol.lambdaIndex, inFirst_nil.2 rfl⟩
  | cons x u ih =>
    rw [List.forall_mem_cons] at hu
    simp only [leads_cons_iff] at ho
    rcases hu.1 with hx | hx
    · obtain ⟨t, ht⟩ := ho x hx (.inl rfl)
      by_cases hl : t = Symbol.lambdaIndex
      · subst hl
        have hv := hg.inFirst_lambdaIndex.1 ht
        obtain ⟨t', ht'⟩ := ih hu.2 fun b hb hlead => ho b hb (.inr ⟨hv, hlead⟩)
        exact ⟨t', (hg.inFirst_cons u).2 (.inr ⟨ht, ht'⟩)⟩
      · exact ⟨t, (hg.inFirst_cons u).2 (.inl ⟨hl, ht⟩)⟩
    · exact ⟨x, (hg.inFirst_cons_lookahead hx u).2 rfl⟩

theorem isNonTerminal_of_mem_rightsOf {a : Nat} {right : List Nat} (hr : right ∈ g.rightsOf a) :
    g.isNonTerminal a = true := hg.left _ (g.mem_rightsOf.1 hr)

/-- The induction is along left corners, which come to an end. -/
theorem opens_nonTerminal (hrights : g.HasRights) {a : Nat} (ha : g.isNonTerminal a = true)
    (hf : g.Founded a) : g.Opens [a] := by
  induction hf with
  | intro a _ ih =>
    obtain ⟨right, hr⟩ := hrights a ha
    have hsymbols := fun x => hg.mem_form_right (x := x) (g.mem_rightsOf.1 hr)
    obtain ⟨t, ht⟩ := hg.opens_of_leads hsymbols fun b hb hlead => ih b ⟨right, hr, hlead⟩ hb
    exact ⟨t, (hg.inFirst_nonTerminal ha).2 ⟨right, hr, ht⟩⟩

theorem opens {first : SetTable} (hfirst : g.firstTable = .ok first) (hrights : g.HasRights)
    {u : List Nat} (hu : ∀ x ∈ u, g.isNonTerminal x = true ∨ g.isLookahead x = true) :
    g.Opens u :=
  hg.opens_of_leads hu fun _ hb _ =>
    hg.opens_nonTerminal hrights hb (hg.founded_of_firstTable hfirst hb)

/-! ## What follows and what predicts -/

variable {first : SetTable} (hfirst : g.firstTable = .ok first) (hrights : g.HasRights)

include hfirst hrights

/-- The induction is along the way from the start symbol: what can stand behind a non-terminal in a
right side follows it, and what follows the left side does if nothing has to stand there. -/
theorem exists_follows_of_reachable {start a : Nat} (h : g.Reachable start a)
    (ha : g.isNonTerminal a = true) : ∃ t, g.Follows start a t := by
  have hrules := followRules_follows hg start
  induction h with
  | start => exact ⟨_, hrules.start⟩
  | @right a b right _ hr hb ih =>
    have hp := g.mem_rightsOf.1 hr
    have hm : b ∈ g.form right := mem_form.2 ⟨hb, ne_lambda_of_isNonTerminal ha⟩
    obtain ⟨u, v, he⟩ := List.mem_iff_append.1 hm
    have hv : g.Opens v := hg.opens hfirst hrights fun x hx =>
      hg.mem_form_right hp (he ▸ List.mem_append_right u (List.mem_cons_of_mem b hx))
    rcases hv.begins_or_vanishes with ⟨t, ht, hbegins⟩ | hvanishes
    · exact ⟨t, hrules.behind _ hp u b v t he ha ht hbegins⟩
    · obtain ⟨t, ht⟩ := ih (hg.isNonTerminal_of_mem_rightsOf hr)
      exact ⟨t, hrules.left _ hp u b v t he ha hvanishes ht⟩

theorem exists_predicts {ff : FirstFollow} {p : Production} (hp : p ∈ g.productions)
    (hfollow : ∃ t, t ∈ ff.follow.get p.left ∧ g.isLookahead t = true) :
    ∃ t, g.isLookahead t = true ∧ g.Predicts ff p t := by
  have hopens := hg.opens hfirst hrights fun x => hg.mem_form_right (x := x) hp
  rcases hopens.begins_or_vanishes with ⟨t, ht, hb⟩ | hv
  · exact ⟨t, ht, .inl ⟨ht, hb⟩⟩
  · obtain ⟨t, hm, ht⟩ := hfollow
    exact ⟨t, ht, .inr ⟨hv, hm⟩⟩

end WellFormed

/-! ## Loaded grammars -/

theorem hasRights_of_load {lines : List String} (hload : load lines = .ok g) : g.HasRights := by
  intro a ha
  have hc := collects_of_load hload
  obtain ⟨name, hs⟩ := isNonTerminal_iff.1 ha
  have hname : g.name? a = some name := by rw [name?, hs]; rfl
  obtain ⟨entry, hentry, hleft⟩ := mem_leftSides_iff.1 (hc.mem_lefts_of_name? ha hname)
  obtain ⟨p, hp, rfl⟩ := List.mem_map.1 (written_of_load hload ▸ hentry)
  obtain rfl : p.left = a := hc.indexed.eq_of_name? hleft hname
  exact ⟨p.right, g.mem_rightsOf.2 hp⟩

/-- Where the table of a loaded grammar is finished, FIRST of every non-terminal and FOLLOW of every
one that can be reached hold something, and each production of one that can be reached has a
lookahead for which the table gives a production of the same sides. -/
theorem table_covers {lines : List String} (hload : load lines = .ok g) {ff : FirstFollow}
    (hff : g.firstFollow = .ok ff) {t : Table} (ht : g.table ff = .ok t) :
    (∀ a, g.isNonTerminal a = true →
      ∃ first, ff.first.get? a = some first ∧ ∃ x, x ∈ first) ∧
    ∃ start, g.start = some start ∧
      (∀ a, g.isNonTerminal a = true → g.Reachable start a →
        ∃ follow, ff.follow.get? a = some follow ∧ ∃ x, x ∈ follow) ∧
      ∀ p ∈ g.productions, g.Reachable start p.left →
        ∃ x n q, g.isLookahead x = true ∧ t.get? p.left x = some n ∧
          g.productions[n]? = some q ∧ q.left = p.left ∧ q.right = p.right := by
  have hg := (consistent_of_load hload).toWellFormed
  have hrights := hasRights_of_load hload
  obtain ⟨start, -, hstart, hfirst, -, -⟩ := parts_of_firstFollow hff
  have hs := isNonTerminal_start_of_load hload hstart
  have hfollow : ∀ a, g.isNonTerminal a = true → g.Reachable start a →
      ∃ x, x ∈ ff.follow.get a ∧ g.isLookahead x = true := by
    intro a ha hr
    obtain ⟨x, hx⟩ := hg.exists_follows_of_reachable hfirst hrights hr ha
    exact ⟨x, (hg.mem_follow_iff hstart hs hff ha x).2 hx, hx.1⟩
  refine ⟨fun a ha => ?_, start, hstart, fun a ha hr => ?_, fun p hp hr => ?_⟩
  · obtain ⟨first, hget, hmem⟩ := hg.firstTable_spec hfirst ha
    obtain ⟨x, hx⟩ := hg.opens hfirst hrights (u := [a]) (by simp [ha])
    exact ⟨first, hget, x, (hmem x).2 hx⟩
  · obtain ⟨x, hx, -⟩ := hfollow a ha hr
    have hkeyed := hg.keyed_follow hstart hs hff a
    rw [ha] at hkeyed
    obtain ⟨follow, hget⟩ := Option.isSome_iff_exists.1 hkeyed
    rw [SetTable.get, hget] at hx
    exact ⟨follow, hget, x, hx⟩
  · obtain ⟨x, hx, hpx⟩ := hg.exists_predicts hfirst hrights hp (hfollow p.left (hg.left p hp) hr)
    obtain ⟨n, q, hn, hq, hright⟩ := hg.exists_cell_of_predicts hff ht hp hpx
    obtain ⟨⟨q', hq', hleft, -⟩, -⟩ := (hg.get?_eq_some_iff hff ht p.left x n).1 hn
    obtain rfl : q = q' := Option.some.inj (hq.symm.trans hq')
    exact ⟨x, n, q, hx, hn, hq, hleft, hright⟩

def sparseLines : List String :=
  ["<S> -> <A> a", "<A> -> b <A>", "<A> -> lambda", "<A> -> λ", "<C> -> <S> <A>"]

def sparse : Grammar where
  symbols := [.lambda, .endMarker, .nonTerminal "<S>", .nonTerminal "<A>", .nonTerminal "<C>",
    .terminal "a", .terminal "b"]
  names := [("b", 6), ("a", 5), ("<C>", 4), ("<A>", 3), ("<S>", 2), ("$", 1), ("lambda", 0),
    ("λ", 0)]
  productions := [⟨2, [3, 5]⟩, ⟨3, [6, 3]⟩, ⟨3, [0]⟩, ⟨3, [0]⟩, ⟨4, [2, 3]⟩]
  start := some 2

def sparseSets : FirstFollow where
  first := ⟨[(3, .ofList [0, 6]), (2, .ofList [5, 6]), (4, .ofList [5, 6])]⟩
  follow := ⟨[(2, .ofList [1, 6]), (3, .ofList [5]), (4, .ofList [])]⟩

def sparseTable : Table where
  cells := [((2, 5), 0), ((2, 6), 0), ((3, 6), 1), ((3, 5), 2), ((4, 5), 4), ((4, 6), 4)]

theorem table_covers_sparse :
    (∃ follow, sparseSets.follow.get? 3 = some follow ∧ ∃ x, x ∈ follow) ∧
      ∃ x n q, sparse.isLookahead x = true ∧ sparseTable.get? 3 x = some n ∧
        sparse.productions[n]? = some q ∧ q.left = 3 ∧ q.right = [0] := by
  obtain ⟨-, start, hstart, hfollow, hcell⟩ :=
    table_covers (rfl : load sparseLines = .ok sparse)
      (rfl : sparse.firstFollow = .ok sparseSets) (rfl : sparse.table sparseSets = .ok sparseTable)
  obtain rfl : 2 = start := Option.some.inj hstart
  have hr : sparse.Reachable 2 3 :=
    .right .start (by decide : [3, 5] ∈ sparse.rightsOf 2) (by decide)
  exact ⟨hfollow 3 rfl hr, hcell ⟨3, [0]⟩ (by decide) hr⟩

end LLOne.Grammar

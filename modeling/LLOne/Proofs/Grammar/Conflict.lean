import LLOne.Proofs.Grammar.Loading
import LLOne.Proofs.Grammar.Prediction

/-!
# The first conflict

The claim at which the table fails is the first that disagrees with an earlier claim. In front of it
stand all claims of earlier rows and of earlier productions of the same row, and those of the same
production for earlier lookaheads. So the error names the first non-terminal that has a conflict,
its first production that has one, and the first lookahead of that production that has one.
-/

namespace LLOne

namespace Grammar

open Claim

variable (g : Grammar)

/-- The lookahead `x` predicts production `n` of `a` and an earlier one with another right side. -/
def Clashes (ff : FirstFollow) (a n x : Nat) : Prop :=
  ∃ p m q, g.Offers ff a x n p ∧ g.Offers ff a x m q ∧ m < n ∧ q.right ≠ p.right

/-- No clash is in an earlier row, none in this row is of an earlier production, and none of this
production is for an earlier one of its lookaheads, of which come first those that its right side
begins with and then those that follow, both by increasing index. -/
structure FirstClash (ff : FirstFollow) (a n x : Nat) (p : Production) : Prop where
  clashes : g.Clashes ff a n x
  production : g.productions[n]? = some p
  row : ∀ b m y, g.Clashes ff b m y → a ≤ b
  number : ∀ m y, g.Clashes ff a m y → n ≤ m
  lookahead : ∃ begins follows before after : List Nat,
    begins.Pairwise (· < ·) ∧ follows.Pairwise (· < ·) ∧
    (∀ y, y ∈ begins ↔ g.isLookahead y = true ∧ g.Begins (g.form p.right) y) ∧
    (∀ y, y ∈ follows ↔ g.Vanishes (g.form p.right) ∧ y ∈ ff.follow.get p.left) ∧
    begins ++ follows = before ++ x :: after ∧ ∀ y ∈ before, ¬ g.Clashes ff a n y

variable {g}

/-! ## The order of the claims -/

/-- What stands in front of a claim: all claims of earlier rows and productions, and those of its
production for earlier lookaheads. -/
theorem front_of_claims {ff : FirstFollow} {before after : List Claim}
    {c : Claim} (he : g.claims ff = before ++ c :: after) :
    (∀ d ∈ g.claims ff, d.production.left < c.production.left → d ∈ before) ∧
    (∀ d ∈ g.claims ff, d.production.left = c.production.left → d.number < c.number →
      d ∈ before) ∧
    ∃ pre post, g.lookaheadsOf ff c.production = pre ++ c.lookahead :: post ∧
      ∀ x ∈ pre, ⟨c.production, c.number, x⟩ ∈ before := by
  obtain ⟨as, a, as', front, back, has, hrow, rfl⟩ := exists_part_of_flatMap he
  obtain ⟨ps, pn, ps', front', back', hps, hpn, rfl⟩ := exists_part_of_flatMap hrow
  have hc : c ∈ g.rowClaims ff a := hrow ▸ List.mem_append_right _ List.mem_cons_self
  have hcp : c ∈ g.claimsOf ff pn := hpn ▸ List.mem_append_right _ List.mem_cons_self
  obtain ⟨hcn, rfl, -⟩ := mem_rowClaims.1 hc
  obtain ⟨rfl, -⟩ := mem_claimsOf.1 hcp
  have hrows : ∀ d ∈ g.claims ff, d ∈ g.rowClaims ff d.production.left ∧
      d.production.left ∈ g.nonTerminals := by
    intro d hd
    obtain ⟨b, hb, hd⟩ := List.mem_flatMap.1 hd
    obtain ⟨-, rfl, -⟩ := mem_rowClaims.1 hd
    exact ⟨hd, hb⟩
  refine ⟨fun d hd hlt => ?_, fun d hd hl hlt => ?_, ?_⟩
  · obtain ⟨hd, hb⟩ := hrows d hd
    have hfront := mem_front_of_pairwise g.pairwise_nonTerminals has hb (by omega) (by omega)
    exact List.mem_append_left _ (List.mem_flatMap.2 ⟨_, hfront, hd⟩)
  · obtain ⟨hd, -⟩ := hrows d hd
    obtain ⟨hdn, -, hx⟩ := mem_rowClaims.1 hd
    have hmem := g.mem_numberedProductionsOf.2 ⟨hdn, hl⟩
    have hne : (d.production, d.number) ≠ (c.production, c.number) := by
      intro h
      have := (Prod.mk.inj h).2
      omega
    have hfront := mem_front_of_pairwise (g.pairwise_numberedProductionsOf _) hps hmem hne
      (by simp only; omega)
    refine List.mem_append_right _ (List.mem_append_left _ (List.mem_flatMap.2 ⟨_, hfront, ?_⟩))
    exact mem_claimsOf.2 ⟨rfl, hx⟩
  · obtain ⟨pre, rest, hlookaheads, hpre, hrest⟩ := List.map_eq_append_iff.1 hpn
    obtain ⟨x, post, rfl, hx, -⟩ := List.map_eq_cons_iff.1 hrest
    refine ⟨pre, post, by rw [hlookaheads, ← hx], fun y hy => ?_⟩
    rw [← hpre]
    exact List.mem_append_right _ (List.mem_append_right _ (List.mem_map.2 ⟨y, hy, rfl⟩))

/-! ## The claim that fails -/

namespace WellFormed

variable (hg : g.WellFormed) {ff : FirstFollow} (h : g.firstFollow = .ok ff)

include hg h

/-- Behind claims that agree there is no later claim of a clash. -/
theorem not_mem_of_clashes {before after : List Claim} (he : g.claims ff = before ++ after)
    (ha : Agree before) {b m y : Nat} (hc : g.Clashes ff b m y) :
    ∃ c ∈ g.claims ff, c.production.left = b ∧ c.number = m ∧ c.lookahead = y ∧ c ∉ before := by
  obtain ⟨p, m', q, hp, hq, hlt, hr⟩ := hc
  obtain ⟨hpc, rfl⟩ := (hg.offers_iff h).1 hp
  obtain ⟨hqc, hl⟩ := (hg.offers_iff h).1 hq
  refine ⟨_, hpc, rfl, rfl, rfl, fun hb => ?_⟩
  obtain ⟨front, back, rfl⟩ := List.append_of_mem hb
  rw [List.append_assoc, List.cons_append] at he
  have hqb := (front_of_claims he).2.1 _ hqc hl hlt
  exact hr (ha _ (List.mem_append_left _ hqb) _ hb (Prod.ext hl rfl))

theorem firstClash_of_claims {before after : List Claim} {c : Claim}
    (he : g.claims ff = before ++ c :: after) (ha : Agree before)
    (hc : g.Clashes ff c.production.left c.number c.lookahead) :
    g.FirstClash ff c.production.left c.number c.lookahead c.production := by
  have hmem : c ∈ g.claims ff := he ▸ List.mem_append_right _ List.mem_cons_self
  have hp := ((hg.mem_claims h).1 hmem).1
  obtain ⟨hrow, hnumber, pre, post, hsplit, hpre⟩ := front_of_claims he
  refine ⟨hc, hp, fun b m y hclash => ?_, fun m y hclash => ?_, ?_⟩
  · obtain ⟨d, hd, rfl, -, -, hdb⟩ := hg.not_mem_of_clashes h he ha hclash
    exact Nat.le_of_not_lt fun hlt => hdb (hrow d hd hlt)
  · obtain ⟨d, hd, hl, rfl, -, hdb⟩ := hg.not_mem_of_clashes h he ha hclash
    exact Nat.le_of_not_lt fun hlt => hdb (hnumber d hd hl hlt)
  · obtain ⟨begins, follows, hpredict, hb, hf, hbm, hfm⟩ :=
      hg.exists_predict_eq_append h (List.mem_of_getElem? hp)
    have hsame : g.lookaheadsOf ff c.production = begins ++ follows := by
      rw [lookaheadsOf, hpredict]
      rfl
    refine ⟨begins, follows, pre, post, hb, hf, hbm, hfm, hsame.symm.trans hsplit, ?_⟩
    intro y hy hclash
    obtain ⟨⟨q, m, x⟩, hd, -, rfl, rfl, hdb⟩ := hg.not_mem_of_clashes h he ha hclash
    obtain rfl : c.production = q := Option.some.inj (hp.symm.trans ((hg.mem_claims h).1 hd).1)
    exact hdb (hpre _ hy)

/-- The table fails with the first clash. -/
theorem firstClash_of_table {e : GrammarError} (he : g.table ff = .error e) :
    ∃ a n x p m q, g.FirstClash ff a n x p ∧ IsLeast {k | ∃ r, g.Offers ff a x k r} m ∧
      g.productions[m]? = some q ∧ e = g.conflictAt a x q.right p.right := by
  rcases hg.table_cases h with ⟨t, ht, -⟩ | ⟨before, c, after, d, hsplit, ha, hd, hr, herror⟩
  · rw [ht] at he
    cases he
  obtain rfl := Except.error.inj (herror.symm.trans he)
  have hleast : IsLeast {k | ∃ r, g.Offers ff c.production.left c.lookahead k r} d.number := by
    apply hg.isLeast_of_earliest h
    rw [hsplit, earliest, List.find?_append]
    exact Option.or_eq_some_iff.2 (.inl hd)
  obtain ⟨hdb, hcell⟩ := mem_of_earliest hd
  have hdo := (hg.mem_claims h).1 (hsplit ▸ List.mem_append_left _ hdb : d ∈ g.claims ff)
  have hco := (hg.mem_claims h).1
    (hsplit ▸ List.mem_append_right _ List.mem_cons_self : c ∈ g.claims ff)
  obtain ⟨hl, hx⟩ := Prod.mk.inj hcell
  rw [hl, hx] at hdo
  refine ⟨_, _, _, _, _, d.production, hg.firstClash_of_claims h hsplit ha ?_, hleast, hdo.1, rfl⟩
  refine ⟨c.production, d.number, d.production, hco, hdo, ?_, hr⟩
  refine Nat.lt_of_le_of_ne (hleast.2 ⟨c.production, hco⟩) fun hn => hr ?_
  have hsame := hdo.1
  rw [hn, hco.1] at hsame
  exact congrArg Production.right (Option.some.inj hsame).symm

end WellFormed

/-! ## Names in the message -/

theorem exists_nameOf {x : Nat} (hx : x < g.symbols.length) : ∃ name, g.nameOf x = .ok name := by
  refine ⟨g.symbols[x].name, ?_⟩
  simp only [nameOf, name?, List.getElem?_eq_getElem hx, Option.map_some]

theorem exists_rightText {right : List Nat} (hr : ∀ x ∈ right, x < g.symbols.length) :
    ∃ text, g.rightText right = .ok text := by
  have hnames : ∃ names, g.namesOf right = .ok names := by
    induction right with
    | nil => exact ⟨[], rfl⟩
    | cons x right ih =>
      rw [List.forall_mem_cons] at hr
      obtain ⟨name, hn⟩ := exists_nameOf hr.1
      obtain ⟨names, hns⟩ := ih hr.2
      refine ⟨name :: names, ?_⟩
      rw [namesOf] at hns ⊢
      rw [List.mapM_cons, hn, hns]
      rfl
  obtain ⟨names, hn⟩ := hnames
  exact ⟨" ".intercalate names, by rw [rightText, hn]; rfl⟩

theorem conflictAt_eq {a x : Nat} {existing conflicting : List Nat} {row column old new : String}
    (ha : g.nameOf a = .ok row) (hx : g.nameOf x = .ok column)
    (ho : g.rightText existing = .ok old) (hn : g.rightText conflicting = .ok new) :
    g.conflictAt a x existing conflicting = .tableConflict row column old new := by
  simp only [conflictAt, ha, hx, ho, hn]
  rfl

section Predicted

variable (hg : g.WellFormed) {start : Nat} (hstart : g.start = some start)
  (hs : g.isNonTerminal start = true) {ff : FirstFollow} (h : g.firstFollow = .ok ff)
  {p : Production} (hp : p ∈ g.productions) {x : Nat} (hx : g.Predicts ff p x)

include hg hstart hs h hp hx

theorem WellFormed.isLookahead_of_predicts : g.isLookahead x = true := by
  rcases hx with ⟨hl, -⟩ | ⟨-, hf⟩
  · exact hl
  · exact ((hg.mem_follow_iff hstart hs h (hg.left p hp) x).1 hf).1

theorem WellFormed.lt_length_of_predicts : x < g.symbols.length := by
  rcases isLookahead_iff.1 (hg.isLookahead_of_predicts hstart hs h hp hx) with hs | ⟨name, hs⟩ <;>
    exact (List.getElem?_eq_some_iff.1 hs).1

end Predicted

/-- Where a loaded grammar has no table, the names in the message can be found. -/
theorem exists_conflict_of_table {lines : List String} (hload : load lines = .ok g)
    {ff : FirstFollow} (h : g.firstFollow = .ok ff) {e : GrammarError}
    (he : g.table ff = .error e) :
    ∃ a n x p m q row column existing conflicting, g.FirstClash ff a n x p ∧
      IsLeast {k | ∃ r, g.Offers ff a x k r} m ∧ g.productions[m]? = some q ∧
      g.nameOf a = .ok row ∧ g.nameOf x = .ok column ∧
      g.rightText q.right = .ok existing ∧ g.rightText p.right = .ok conflicting ∧
      e = .tableConflict row column existing conflicting := by
  have hg := (consistent_of_load hload).toWellFormed
  obtain ⟨start, -, hstart, -⟩ := parts_of_firstFollow h
  have hs := isNonTerminal_start_of_load hload hstart
  obtain ⟨a, n, x, p, m, q, hclash, hleast, hq, rfl⟩ := hg.firstClash_of_table h he
  obtain ⟨p', -, -, ⟨hp, rfl, hpx⟩, -⟩ := hclash.clashes
  obtain rfl : p = p' := Option.some.inj (hclash.production.symm.trans hp)
  have hpm := List.mem_of_getElem? hp
  obtain ⟨row, ha⟩ := exists_nameOf (g.lt_length_of_isNonTerminal (hg.left p hpm))
  obtain ⟨column, hx⟩ := exists_nameOf (hg.lt_length_of_predicts hstart hs h hpm hpx)
  obtain ⟨existing, ho⟩ := exists_rightText (hg.right q (List.mem_of_getElem? hq))
  obtain ⟨conflicting, hn⟩ := exists_rightText (hg.right p hpm)
  exact ⟨p.left, n, x, p, m, q, row, column, existing, conflicting, hclash, hleast, hq, ha, hx,
    ho, hn, conflictAt_eq ha hx ho hn⟩

/-- A loaded grammar has a table if and only if no lookahead predicts two right sides of one
non-terminal. The cells of the table hold the lowest production that their lookahead predicts. If
there is no table, the error names the first clash and the lowest production that it is with. -/
theorem table_exact {lines : List String} (hload : load lines = .ok g) {ff : FirstFollow}
    (h : g.firstFollow = .ok ff) :
    ((∃ t, g.table ff = .ok t) ↔
      ∀ p ∈ g.productions, ∀ q ∈ g.productions, p.left = q.left → p.right ≠ q.right →
        ∀ x, ¬ (g.Predicts ff p x ∧ g.Predicts ff q x)) ∧
    (∀ t, g.table ff = .ok t → ∀ a x,
      (∀ n, t.get? a x = some n ↔ IsLeast {k | ∃ p, g.Offers ff a x k p} n) ∧
      (t.get? a x = none ↔ ∀ p ∈ g.productions, p.left = a → ¬ g.Predicts ff p x)) ∧
    ∀ e, g.table ff = .error e →
      ∃ a n x p m q row column existing conflicting, g.FirstClash ff a n x p ∧
        IsLeast {k | ∃ r, g.Offers ff a x k r} m ∧ g.productions[m]? = some q ∧
        g.nameOf a = .ok row ∧ g.nameOf x = .ok column ∧
        g.rightText q.right = .ok existing ∧ g.rightText p.right = .ok conflicting ∧
        e = .tableConflict row column existing conflicting := by
  have hg := (consistent_of_load hload).toWellFormed
  exact ⟨hg.exists_table_iff h, fun t ht a x => ⟨hg.get?_eq_some_iff h ht a x,
    hg.get?_eq_none_iff h ht a x⟩, fun e he => exists_conflict_of_table hload h he⟩

def clashing : Grammar where
  symbols := [.lambda, .endMarker, .nonTerminal "<S>", .nonTerminal "<A>", .terminal "a"]
  names := [("a", 4), ("<A>", 3), ("<S>", 2), ("$", 1), ("lambda", 0), ("λ", 0)]
  productions := [⟨2, [3, 4]⟩, ⟨3, [4]⟩, ⟨3, [0]⟩]
  start := some 2

def clashingSets : FirstFollow where
  first := ⟨[(3, .ofList [0, 4]), (2, .ofList [4])]⟩
  follow := ⟨[(2, .ofList [1]), (3, .ofList [4])]⟩

theorem table_exact_clashing : ∃ a n x p, clashing.FirstClash clashingSets a n x p := by
  have hload : load ["<S> -> <A> a", "<A> -> a", "<A> -> lambda"] = .ok clashing := rfl
  have hsets : clashing.firstFollow = .ok clashingSets := rfl
  have he : clashing.table clashingSets = .error (.tableConflict "<A>" "a" "a" "λ") := rfl
  obtain ⟨a, n, x, p, -, -, -, -, -, -, hclash, -⟩ := (table_exact hload hsets).2.2 _ he
  exact ⟨a, n, x, p, hclash⟩

end Grammar

end LLOne

import LLOne.Table
import LLOne.Proofs.Grammar.Follow
import Mathlib.Order.Bounds.Basic

/-!
# The table decides by prediction

A production is predicted by the lookaheads that its right side can begin with and, if the right
side can vanish, by those that follow its left side. The productions claim their cells one by one:
non-terminal after non-terminal, production after production, lookahead after lookahead. As long as
no claim fails, a cell holds the number of the first claim for it, and all claims for one cell agree
in the right side. So a finished table holds the lowest production that a lookahead predicts, and no
lookahead predicts two right sides of one non-terminal.
-/

namespace LLOne

structure Claim where
  production : Production
  number : Nat
  lookahead : Nat

namespace Claim

def cell (c : Claim) : Nat × Nat := (c.production.left, c.lookahead)

def earliest (cs : List Claim) (cell : Nat × Nat) : Option Claim := cs.find? (·.cell == cell)

def Agree (cs : List Claim) : Prop :=
  ∀ c ∈ cs, ∀ d ∈ cs, c.cell = d.cell → c.production.right = d.production.right

/-- The cells hold the numbers of their first claims. -/
def Recorded (cs : List Claim) (t : Table) : Prop :=
  ∀ a x, t.get? a x = (earliest cs (a, x)).map number

theorem mem_of_earliest {cs : List Claim} {cell : Nat × Nat} {d : Claim}
    (h : earliest cs cell = some d) : d ∈ cs ∧ d.cell = cell :=
  ⟨List.mem_of_find?_eq_some h, by simpa using List.find?_some h⟩

theorem earliest_eq_none_iff {cs : List Claim} {cell : Nat × Nat} :
    earliest cs cell = none ↔ ∀ c ∈ cs, c.cell ≠ cell := by
  simp [earliest]

/-- Where claims for one cell come by increasing number, the first has the lowest. -/
theorem number_le_of_earliest {cs : List Claim}
    (hcs : cs.Pairwise fun c d => c.production.left = d.production.left → c.number ≤ d.number)
    {cell : Nat × Nat} {c d : Claim} (h : earliest cs cell = some d) (hc : c ∈ cs)
    (hcell : c.cell = cell) : d.number ≤ c.number := by
  obtain ⟨-, hd⟩ := mem_of_earliest h
  obtain ⟨-, before, after, rfl, hbefore⟩ := List.find?_eq_some_iff_append.1 h
  rcases List.mem_append.1 hc with hc | hc
  · have hne := hbefore c hc
    simp [hcell] at hne
  rcases List.mem_cons.1 hc with rfl | hc
  · exact Nat.le_refl _
  · apply (List.pairwise_cons.1 (List.pairwise_append.1 hcs).2.1).1 c hc
    exact congrArg Prod.fst (hd.trans hcell.symm)

theorem earliest_append_singleton {cs : List Claim} {c : Claim} (cell : Nat × Nat) :
    earliest (cs ++ [c]) cell = (earliest cs cell).or (if c.cell = cell then some c else none) := by
  simp [earliest, List.find?_append, List.find?_singleton]

theorem Agree.append_singleton {cs : List Claim} {c : Claim} (h : Agree cs)
    (hc : ∀ d, earliest cs c.cell = some d → d.production.right = c.production.right) :
    Agree (cs ++ [c]) := by
  have hnew : ∀ d ∈ cs, d.cell = c.cell → d.production.right = c.production.right := by
    intro d hd hcell
    cases hf : earliest cs c.cell with
    | none => exact absurd hcell (earliest_eq_none_iff.1 hf d hd)
    | some e =>
      obtain ⟨he, hecell⟩ := mem_of_earliest hf
      rw [h d hd e he (hcell.trans hecell.symm), hc e hf]
  intro d hd e he hcell
  rcases List.mem_append.1 hd with hd | hd <;> rcases List.mem_append.1 he with he | he
  · exact h d hd e he hcell
  · rw [List.mem_singleton.1 he] at hcell ⊢
    exact hnew d hd hcell
  · rw [List.mem_singleton.1 hd] at hcell ⊢
    exact (hnew e he hcell.symm).symm
  · rw [List.mem_singleton.1 hd, List.mem_singleton.1 he]

end Claim

namespace Grammar

open Claim

variable (g : Grammar)

def Predicts (ff : FirstFollow) (p : Production) (t : Nat) : Prop :=
  g.isLookahead t = true ∧ g.Begins (g.form p.right) t ∨
    g.Vanishes (g.form p.right) ∧ t ∈ ff.follow.get p.left

def enterClaims : List Claim → Table → Except GrammarError Table
  | [], t => .ok t
  | c :: rest, t =>
    match g.claim c.production.left c.production.right c.number c.lookahead t with
    | .error e => .error e
    | .ok t => enterClaims rest t

def lookaheadsOf (ff : FirstFollow) (p : Production) : List Nat :=
  (g.predict ff p.left p.right).toOption.getD []

def claimsOf (ff : FirstFollow) (pn : Production × Nat) : List Claim :=
  (g.lookaheadsOf ff pn.1).map fun x => ⟨pn.1, pn.2, x⟩

def rowClaims (ff : FirstFollow) (a : Nat) : List Claim :=
  (g.numberedProductionsOf a).flatMap (g.claimsOf ff)

def claims (ff : FirstFollow) : List Claim := g.nonTerminals.flatMap (g.rowClaims ff)

def Offers (ff : FirstFollow) (a x n : Nat) (p : Production) : Prop :=
  g.productions[n]? = some p ∧ p.left = a ∧ g.Predicts ff p x

variable {g}

/-! ## Predicted lookaheads -/

namespace WellFormed

variable (hg : g.WellFormed)

include hg

theorem predictSequence_lambda (ff : FirstFollow) (a : Nat) :
    g.predictSequence ff a [Symbol.lambdaIndex] = .ok (ff.follow.get a).members := by
  have hfirst : g.firstOf ff.first [Symbol.lambdaIndex] =
      .ok (SymbolSet.insert Symbol.lambdaIndex ∅) := by
    rw [firstOf, extendFirst, hg.lambda]
    rfl
  have hbegins : ((SymbolSet.insert Symbol.lambdaIndex ∅).erase Symbol.lambdaIndex).members = [] :=
    rfl
  have hvanishes : Symbol.lambdaIndex ∈ SymbolSet.insert Symbol.lambdaIndex ∅ :=
    SymbolSet.mem_insert.2 (.inl rfl)
  rw [predictSequence, hfirst, Except.map, hbegins, if_pos hvanishes, List.nil_append]

theorem predictSequence_single (ff : FirstFollow) (a : Nat) {x : Nat}
    (hx : g.isLookahead x = true) : g.predictSequence ff a [x] = .ok [x] := by
  have hne : x ≠ Symbol.lambdaIndex := hg.ne_lambdaIndex_of_isLookahead hx
  have hfirst : g.firstOf ff.first [x] = .ok (SymbolSet.insert x ∅) := by
    rw [firstOf, extendFirst]
    rcases isLookahead_iff.1 hx with hn | ⟨name, hn⟩ <;> rw [hn]
  have hbegins : ((SymbolSet.insert x ∅).erase Symbol.lambdaIndex).members = [x] :=
    List.filter_eq_self.2 fun y hy => by
      obtain rfl := List.mem_singleton.1 hy
      exact bne_iff_ne.2 hne
  have hvanishes : Symbol.lambdaIndex ∉ SymbolSet.insert x ∅ := by simp [hne.symm]
  rw [predictSequence, hfirst, Except.map, hbegins, if_neg hvanishes, List.append_nil]

/-- What is predicted for `λ` alone and for a single terminal is what the FIRST set of the
right side says, for any sets of the non-terminals. -/
theorem predict_eq (ff : FirstFollow) (a : Nat) (right : List Nat) :
    g.predict ff a right = g.predictSequence ff a right := by
  unfold predict
  split
  next h => rw [h, hg.predictSequence_lambda]
  next =>
    split
    next =>
      split
      next hx => rw [hg.predictSequence_single ff a hx]
      next => rfl
    next => rfl

/-- The lookaheads in the order in which they are entered: those that the right side can begin
with and then those that follow, both by increasing index. -/
theorem exists_predict_eq_append {ff : FirstFollow} (h : g.firstFollow = .ok ff) {p : Production}
    (hp : p ∈ g.productions) :
    ∃ begins follows : List Nat, g.predict ff p.left p.right = .ok (begins ++ follows) ∧
      begins.Pairwise (· < ·) ∧ follows.Pairwise (· < ·) ∧
      (∀ x, x ∈ begins ↔ g.isLookahead x = true ∧ g.Begins (g.form p.right) x) ∧
      ∀ x, x ∈ follows ↔ g.Vanishes (g.form p.right) ∧ x ∈ ff.follow.get p.left := by
  obtain ⟨-, -, -, hf, -⟩ := parts_of_firstFollow h
  obtain ⟨first, hfirst, hmem⟩ := hg.firstOf_spec hf (hg.right p hp)
  have hlam : Symbol.lambdaIndex ∈ first ↔ g.Vanishes (g.form p.right) := by
    rw [hmem, hg.inFirst_lambdaIndex]
  refine ⟨(first.erase Symbol.lambdaIndex).members,
    if Symbol.lambdaIndex ∈ first then (ff.follow.get p.left).members else [],
    by rw [hg.predict_eq, predictSequence, hfirst, Except.map], SymbolSet.sorted _, ?_,
    fun x => ?_, fun x => ?_⟩
  · split
    · exact SymbolSet.sorted _
    · exact .nil
  · rw [SymbolSet.mem_members, SymbolSet.mem_erase, hmem]
    constructor
    · intro h
      obtain ⟨hne, hx⟩ := h
      exact (inFirst_of_ne hne).1 hx
    · intro hx
      exact ⟨hg.ne_lambdaIndex_of_isLookahead hx.1, .inl hx⟩
  · rw [← hlam]
    split
    next hl => rw [SymbolSet.mem_members, and_iff_right hl]
    next hl => simp only [List.not_mem_nil, hl, false_and]

theorem predict_spec {ff : FirstFollow} (h : g.firstFollow = .ok ff) {p : Production}
    (hp : p ∈ g.productions) :
    ∃ xs, g.predict ff p.left p.right = .ok xs ∧ ∀ x, x ∈ xs ↔ g.Predicts ff p x := by
  obtain ⟨begins, follows, hpredict, -, -, hb, hf⟩ := hg.exists_predict_eq_append h hp
  exact ⟨begins ++ follows, hpredict, fun x => by rw [List.mem_append, hb, hf, Predicts]⟩

end WellFormed

/-! ## Entering claims -/

theorem enterClaims_append (cs ds : List Claim) (t : Table) :
    g.enterClaims (cs ++ ds) t = match g.enterClaims cs t with
      | .error e => .error e
      | .ok t => g.enterClaims ds t := by
  induction cs generalizing t with
  | nil => rfl
  | cons c cs ih =>
    simp only [List.cons_append, enterClaims]
    split
    · rfl
    · exact ih _

theorem claimAll_eq (p : Production) (number : Nat) (xs : List Nat) (t : Table) :
    g.claimAll p.left p.right number xs t = g.enterClaims (xs.map fun x => ⟨p, number, x⟩) t := by
  induction xs generalizing t with
  | nil => rfl
  | cons x rest ih =>
    simp only [claimAll, List.map_cons, enterClaims]
    cases g.claim p.left p.right number x t with
    | error e => rfl
    | ok u => exact ih u

theorem WellFormed.lookaheadsOf_spec (hg : g.WellFormed) {ff : FirstFollow}
    (h : g.firstFollow = .ok ff) {p : Production} (hp : p ∈ g.productions) :
    g.predict ff p.left p.right = .ok (g.lookaheadsOf ff p) ∧
      ∀ x, x ∈ g.lookaheadsOf ff p ↔ g.Predicts ff p x := by
  obtain ⟨xs, hxs, hmem⟩ := hg.predict_spec h hp
  have he : g.lookaheadsOf ff p = xs := by rw [lookaheadsOf, hxs]; rfl
  exact ⟨by rw [hxs, he], fun x => he ▸ hmem x⟩

theorem WellFormed.enterProductions_eq (hg : g.WellFormed) {ff : FirstFollow}
    (h : g.firstFollow = .ok ff) {a : Nat} {ps : List (Production × Nat)}
    (hps : ∀ pn ∈ ps, pn ∈ g.numberedProductionsOf a) (t : Table) :
    g.enterProductions ff a ps t = g.enterClaims (ps.flatMap (g.claimsOf ff)) t := by
  induction ps generalizing t with
  | nil => rfl
  | cons pn rest ih =>
    obtain ⟨p, number⟩ := pn
    rw [List.forall_mem_cons] at hps
    obtain ⟨hp, rfl⟩ := g.mem_numberedProductionsOf.1 hps.1
    obtain ⟨hpredict, -⟩ := hg.lookaheadsOf_spec h (List.mem_of_getElem? hp)
    have hall : g.claimAll p.left p.right number (g.lookaheadsOf ff p) t =
        g.enterClaims (g.claimsOf ff (p, number)) t := claimAll_eq p number _ t
    rw [List.flatMap_cons, enterClaims_append]
    simp only [enterProductions, hpredict, hall]
    cases g.enterClaims (g.claimsOf ff (p, number)) t with
    | error e => rfl
    | ok u => exact ih hps.2 u

theorem WellFormed.table_eq (hg : g.WellFormed) {ff : FirstFollow} (h : g.firstFollow = .ok ff) :
    g.table ff = g.enterClaims (g.claims ff) ∅ := by
  have hrows : ∀ as t, g.enterRows ff as t = g.enterClaims (as.flatMap (g.rowClaims ff)) t := by
    intro as
    induction as with
    | nil => exact fun _ => rfl
    | cons a rest ih =>
      intro t
      have hrow : g.enterProductions ff a (g.numberedProductionsOf a) t =
          g.enterClaims (g.rowClaims ff a) t := hg.enterProductions_eq h (fun _ hpn => hpn) t
      rw [List.flatMap_cons, enterClaims_append]
      simp only [enterRows, hrow]
      cases g.enterClaims (g.rowClaims ff a) t with
      | error e => rfl
      | ok u => exact ih u
  exact hrows g.nonTerminals ∅

/-- A claim fails if the first claim for its cell has another right side. -/
theorem claim_of_recorded {cs : List Claim} {t : Table} (ht : Recorded cs t)
    (hcs : ∀ d ∈ cs, g.productions[d.number]? = some d.production) (c : Claim) :
    (∃ d, earliest cs c.cell = some d ∧ d.production.right ≠ c.production.right ∧
      g.claim c.production.left c.production.right c.number c.lookahead t =
        .error (g.conflictAt c.production.left c.lookahead d.production.right
          c.production.right)) ∨
    (∀ d, earliest cs c.cell = some d → d.production.right = c.production.right) ∧
      ∃ u, g.claim c.production.left c.production.right c.number c.lookahead t = .ok u ∧
        Recorded (cs ++ [c]) u := by
  have hcell := ht c.production.left c.lookahead
  cases hf : earliest cs c.cell with
  | none =>
    have hnone : t.get? c.production.left c.lookahead = none := by
      rw [hcell, ← cell, hf]
      rfl
    have hclaim : g.claim c.production.left c.production.right c.number c.lookahead t =
        .ok ⟨t.cells ++ [((c.production.left, c.lookahead), c.number)]⟩ := by
      simp only [claim, hnone]
    refine .inr ⟨by simp, _, hclaim, fun a x => ?_⟩
    rw [g.get?_of_claim hclaim, earliest_append_singleton, hnone, ← cell]
    by_cases hc : c.cell = (a, x)
    · rw [if_pos hc, if_pos hc.symm, ← hc, hf]
      rfl
    · rw [if_neg hc, if_neg (Ne.symm hc), ht, Option.or_none]
  | some d =>
    obtain ⟨hd, hdcell⟩ := mem_of_earliest hf
    have hsome : t.get? c.production.left c.lookahead = some d.number := by
      rw [hcell, ← cell, hf]
      rfl
    by_cases hr : d.production.right = c.production.right
    · have hclaim :
          g.claim c.production.left c.production.right c.number c.lookahead t = .ok t := by
        simp only [claim, hsome, productionAt, hcs d hd, hr, if_pos]
      refine .inr ⟨fun e he => Option.some.inj he ▸ hr, t, hclaim, fun a x => ?_⟩
      rw [earliest_append_singleton, ht]
      by_cases hc : c.cell = (a, x)
      · rw [← hc, hf]
        rfl
      · rw [if_neg hc, Option.or_none]
    · refine .inl ⟨d, rfl, hr, ?_⟩
      simp only [claim, hsome, productionAt, hcs d hd, hr, if_neg, not_false_eq_true]

/-- Either all claims agree and are recorded, or the first that disagrees is reported. -/
theorem enterClaims_cases {cs ds : List Claim} {t : Table} (ht : Recorded cs t) (ha : Agree cs)
    (hcs : ∀ d ∈ cs ++ ds, g.productions[d.number]? = some d.production) :
    (∃ u, g.enterClaims ds t = .ok u ∧ Recorded (cs ++ ds) u ∧ Agree (cs ++ ds)) ∨
    ∃ before c after d, ds = before ++ c :: after ∧ Agree (cs ++ before) ∧
      earliest (cs ++ before) c.cell = some d ∧ d.production.right ≠ c.production.right ∧
      g.enterClaims ds t = .error (g.conflictAt c.production.left c.lookahead
        d.production.right c.production.right) := by
  induction ds generalizing cs t with
  | nil => exact .inl ⟨t, rfl, by rwa [List.append_nil], by rwa [List.append_nil]⟩
  | cons c ds ih =>
    have hold : ∀ d ∈ cs, g.productions[d.number]? = some d.production :=
      fun d hd => hcs d (List.mem_append_left _ hd)
    rcases claim_of_recorded ht hold c with ⟨d, hd, hr, he⟩ | ⟨hr, u, hu, hrec⟩
    · refine .inr ⟨[], c, ds, d, rfl, by rwa [List.append_nil], by rwa [List.append_nil], hr, ?_⟩
      simp only [enterClaims, he]
    · rw [← List.singleton_append, ← List.append_assoc] at hcs
      have hnext : g.enterClaims (c :: ds) t = g.enterClaims ds u := by
        simp only [enterClaims, hu]
      rw [hnext, ← List.singleton_append, ← List.append_assoc]
      rcases ih hrec (ha.append_singleton hr) hcs with hok | ⟨before, c', after, d, rfl, hrest⟩
      · exact .inl hok
      · rw [List.append_assoc] at hrest
        exact .inr ⟨[c] ++ before, c', after, d, by rw [List.append_assoc], hrest⟩

/-! ## The claims of a grammar -/

theorem pairwise_nonTerminals (g : Grammar) : g.nonTerminals.Pairwise (· < ·) :=
  List.pairwise_lt_range.filter _

theorem pairwise_numberedProductionsOf (g : Grammar) (a : Nat) :
    (g.numberedProductionsOf a).Pairwise fun pn qm => pn.2 < qm.2 := by
  apply List.Pairwise.filter
  rw [← List.pairwise_map (f := Prod.snd), List.zipIdx_map_snd]
  exact List.pairwise_lt_range' 1

theorem mem_claimsOf {ff : FirstFollow} {pn : Production × Nat} {c : Claim} :
    c ∈ g.claimsOf ff pn ↔
      (c.production, c.number) = pn ∧ c.lookahead ∈ g.lookaheadsOf ff pn.1 := by
  obtain ⟨p, n⟩ := pn
  obtain ⟨q, m, x⟩ := c
  simp only [claimsOf, List.mem_map, Claim.mk.injEq, Prod.mk.injEq]
  constructor
  · rintro ⟨y, hy, rfl, rfl, rfl⟩
    exact ⟨⟨rfl, rfl⟩, hy⟩
  · rintro ⟨⟨rfl, rfl⟩, hx⟩
    exact ⟨x, hx, rfl, rfl, rfl⟩

theorem mem_rowClaims {ff : FirstFollow} {a : Nat} {c : Claim} :
    c ∈ g.rowClaims ff a ↔ g.productions[c.number]? = some c.production ∧
      c.production.left = a ∧ c.lookahead ∈ g.lookaheadsOf ff c.production := by
  simp only [rowClaims, List.mem_flatMap, mem_claimsOf]
  constructor
  · rintro ⟨_, hpn, rfl, hx⟩
    obtain ⟨hp, hl⟩ := g.mem_numberedProductionsOf.1 hpn
    exact ⟨hp, hl, hx⟩
  · rintro ⟨hp, hl, hx⟩
    exact ⟨_, g.mem_numberedProductionsOf.2 ⟨hp, hl⟩, rfl, hx⟩

theorem pairwise_claims (g : Grammar) (ff : FirstFollow) : (g.claims ff).Pairwise fun c d =>
    c.production.left = d.production.left → c.number ≤ d.number := by
  refine List.pairwise_flatMap.2 ⟨fun a _ => ?_, ?_⟩
  · refine List.pairwise_flatMap.2 ⟨fun pn _ => ?_, ?_⟩
    · refine List.Pairwise.imp_mem.2 (List.pairwise_of_forall fun c d hc hd _ => ?_)
      have hcn := congrArg Prod.snd (mem_claimsOf.1 hc).1
      have hdn := congrArg Prod.snd (mem_claimsOf.1 hd).1
      exact Nat.le_of_eq (hcn.trans hdn.symm)
    · refine (g.pairwise_numberedProductionsOf a).imp fun hlt c hc d hd _ => ?_
      have hcn := congrArg Prod.snd (mem_claimsOf.1 hc).1
      have hdn := congrArg Prod.snd (mem_claimsOf.1 hd).1
      simp only at hcn hdn
      omega
  · refine g.pairwise_nonTerminals.imp fun hlt c hc d hd he => ?_
    have hcl := (mem_rowClaims.1 hc).2.1
    have hdl := (mem_rowClaims.1 hd).2.1
    omega

/-! ## Finished tables -/

namespace WellFormed

variable (hg : g.WellFormed) {ff : FirstFollow} (h : g.firstFollow = .ok ff)

include hg h

theorem mem_claims {c : Claim} : c ∈ g.claims ff ↔
    g.Offers ff c.production.left c.lookahead c.number c.production := by
  simp only [claims, List.mem_flatMap, mem_rowClaims]
  constructor
  · rintro ⟨a, -, hp, -, hx⟩
    exact ⟨hp, rfl, ((hg.lookaheadsOf_spec h (List.mem_of_getElem? hp)).2 _).1 hx⟩
  · rintro ⟨hp, -, hx⟩
    have hmem := List.mem_of_getElem? hp
    exact ⟨_, g.mem_nonTerminals.2 (hg.left _ hmem), hp, rfl,
      ((hg.lookaheadsOf_spec h hmem).2 _).2 hx⟩

theorem offers_iff {a x n : Nat} {p : Production} :
    g.Offers ff a x n p ↔ ⟨p, n, x⟩ ∈ g.claims ff ∧ p.left = a := by
  rw [hg.mem_claims h]
  constructor
  · rintro ⟨hp, rfl, hx⟩
    exact ⟨⟨hp, rfl, hx⟩, rfl⟩
  · rintro ⟨hc, rfl⟩
    exact hc

/-- The first claim for a cell is that of the lowest production which the lookahead predicts. -/
theorem isLeast_of_earliest {a x : Nat} {d : Claim} (hd : earliest (g.claims ff) (a, x) = some d) :
    IsLeast {k | ∃ p, g.Offers ff a x k p} d.number := by
  obtain ⟨hmem, hcell⟩ := mem_of_earliest hd
  obtain ⟨rfl, rfl⟩ := Prod.mk.inj hcell
  refine ⟨⟨d.production, (hg.mem_claims h).1 hmem⟩, ?_⟩
  rintro k ⟨p, hp⟩
  obtain ⟨hp, hl⟩ := (hg.offers_iff h).1 hp
  exact number_le_of_earliest (g.pairwise_claims ff) hd hp (Prod.ext hl rfl)

/-- Either the table records all claims, or it fails with the first that disagrees. -/
theorem table_cases :
    (∃ t, g.table ff = .ok t ∧ Recorded (g.claims ff) t ∧ Agree (g.claims ff)) ∨
    ∃ before c after d, g.claims ff = before ++ c :: after ∧ Agree before ∧
      earliest before c.cell = some d ∧ d.production.right ≠ c.production.right ∧
      g.table ff = .error (g.conflictAt c.production.left c.lookahead
        d.production.right c.production.right) := by
  have hempty : Recorded [] ∅ := fun _ _ => rfl
  have hall : ∀ d ∈ [] ++ g.claims ff, g.productions[d.number]? = some d.production :=
    fun d hd => ((hg.mem_claims h).1 hd).1
  rw [hg.table_eq h]
  exact enterClaims_cases hempty (fun _ hc => nomatch hc) hall

theorem recorded_of_table {t : Table} (ht : g.table ff = .ok t) :
    Recorded (g.claims ff) t ∧ Agree (g.claims ff) := by
  rcases hg.table_cases h with ⟨u, hu, hrec⟩ | ⟨_, _, _, _, -, -, -, -, herror⟩
  · obtain rfl := Except.ok.inj (hu.symm.trans ht)
    exact hrec
  · rw [herror] at ht
    cases ht

/-- A grammar has a table if and only if no lookahead predicts two right sides of one
non-terminal. -/
theorem exists_table_iff : (∃ t, g.table ff = .ok t) ↔
    ∀ p ∈ g.productions, ∀ q ∈ g.productions, p.left = q.left → p.right ≠ q.right →
      ∀ x, ¬ (g.Predicts ff p x ∧ g.Predicts ff q x) := by
  constructor
  · rintro ⟨t, ht⟩ p hp q hq hl hr x ⟨hpx, hqx⟩
    obtain ⟨n, hn⟩ := List.getElem?_of_mem hp
    obtain ⟨m, hm⟩ := List.getElem?_of_mem hq
    have hpc : ⟨p, n, x⟩ ∈ g.claims ff := (hg.mem_claims h).2 ⟨hn, rfl, hpx⟩
    have hqc : ⟨q, m, x⟩ ∈ g.claims ff := (hg.mem_claims h).2 ⟨hm, rfl, hqx⟩
    exact hr ((hg.recorded_of_table h ht).2 _ hpc _ hqc (Prod.ext hl rfl))
  · intro hnone
    rcases hg.table_cases h with ⟨t, ht, -⟩ | ⟨before, c, after, d, he, -, hd, hr, -⟩
    · exact ⟨t, ht⟩
    · obtain ⟨hdb, hcell⟩ := mem_of_earliest hd
      obtain ⟨hl, hx⟩ := Prod.mk.inj hcell
      obtain ⟨hdn, -, hdx⟩ := (hg.mem_claims h).1 (he ▸ List.mem_append_left _ hdb)
      obtain ⟨hcn, -, hcx⟩ := (hg.mem_claims h).1
        (he ▸ List.mem_append_right before List.mem_cons_self : c ∈ g.claims ff)
      exact absurd ⟨hx ▸ hdx, hcx⟩ (hnone _ (List.mem_of_getElem? hdn) _
        (List.mem_of_getElem? hcn) hl hr c.lookahead)

theorem get?_eq_some_iff {t : Table} (ht : g.table ff = .ok t) (a x n : Nat) :
    t.get? a x = some n ↔ IsLeast {k | ∃ p, g.Offers ff a x k p} n := by
  rw [(hg.recorded_of_table h ht).1]
  constructor
  · intro hn
    obtain ⟨d, hd, rfl⟩ := Option.map_eq_some_iff.1 hn
    exact hg.isLeast_of_earliest h hd
  · intro hn
    obtain ⟨p, hp⟩ := hn.1
    obtain ⟨hc, hl⟩ := (hg.offers_iff h).1 hp
    cases hd : earliest (g.claims ff) (a, x) with
    | none => exact (earliest_eq_none_iff.1 hd _ hc (Prod.ext hl rfl)).elim
    | some d => exact congrArg some (IsLeast.unique (hg.isLeast_of_earliest h hd) hn)

theorem get?_eq_none_iff {t : Table} (ht : g.table ff = .ok t) (a x : Nat) :
    t.get? a x = none ↔ ∀ p ∈ g.productions, p.left = a → ¬ g.Predicts ff p x := by
  rw [(hg.recorded_of_table h ht).1, Option.map_eq_none_iff, earliest_eq_none_iff]
  constructor
  · rintro hnone p hp rfl hx
    obtain ⟨n, hn⟩ := List.getElem?_of_mem hp
    exact hnone ⟨p, n, x⟩ ((hg.mem_claims h).2 ⟨hn, rfl, hx⟩) rfl
  · intro hnone c hc hcell
    obtain ⟨hp, -, hx⟩ := (hg.mem_claims h).1 hc
    obtain ⟨hl, rfl⟩ := Prod.mk.inj hcell
    exact hnone _ (List.mem_of_getElem? hp) hl hx

/-- A production that a lookahead predicts has its right side in the cell. -/
theorem exists_cell_of_predicts {t : Table} (ht : g.table ff = .ok t) {p : Production}
    (hp : p ∈ g.productions) {x : Nat} (hx : g.Predicts ff p x) :
    ∃ n q, t.get? p.left x = some n ∧ g.productions[n]? = some q ∧ q.right = p.right := by
  obtain ⟨n, hn⟩ := List.getElem?_of_mem hp
  obtain ⟨hrec, ha⟩ := hg.recorded_of_table h ht
  have hc : ⟨p, n, x⟩ ∈ g.claims ff := (hg.mem_claims h).2 ⟨hn, rfl, hx⟩
  cases hd : earliest (g.claims ff) (p.left, x) with
  | none => exact absurd rfl (earliest_eq_none_iff.1 hd _ hc)
  | some d =>
    obtain ⟨hmem, hcell⟩ := mem_of_earliest hd
    refine ⟨d.number, d.production, ?_, ((hg.mem_claims h).1 hmem).1, ha d hmem _ hc hcell⟩
    rw [hrec, hd]
    rfl

end WellFormed

end Grammar

end LLOne

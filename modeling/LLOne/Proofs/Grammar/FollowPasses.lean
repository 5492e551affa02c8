import LLOne.Proofs.Grammar.FollowFilling
import Mathlib.Data.Nat.Find
import Mathlib.Logic.Function.Iterate

/-!
# The passes of the closure

A pass visits the references of each set in turn. References that a set holds and those that it
has replaced stay apart, so no visit is ever repeated: of `n` non-terminals there are at most
`n * (n - 1)` visits, and as many passes that make one. This asks little of the grammar. Left
sides and the start symbol may be any symbols, and non-terminals may refer to each other in cycles.
-/

namespace LLOne.Grammar

variable (g : Grammar)

namespace Closure

/-! ## Visits -/

/-- The sets after some visits. A visit is a set and the reference that is replaced there. -/
def visitAll (visits : List (Nat × Nat)) (c : Closure) : Closure :=
  visits.foldl (fun c visit => c.replace visit.1 visit.2) c

def passVisits : List Nat → Closure → List (Nat × Nat)
  | [], _ => []
  | a :: rest, c => (c.references g a).map (a, ·) ++ passVisits rest (c.replaceAll g a)

def next (c : Closure) : Closure := (pass g g.nonTerminals (c, false)).1

def changes (c : Closure) : Bool := (pass g g.nonTerminals (c, false)).2

def visits : Nat → Closure → List (Nat × Nat)
  | 0, _ => []
  | k + 1, c => passVisits g g.nonTerminals c ++ visits k (c.next g)

/-- Exactly the first `k` passes replace a new reference, and the one behind them does nothing. -/
structure SettlesAfter (c : Closure) (k : Nat) : Prop where
  changes : ∀ j < k, ((next g)^[j] c).changes g = true
  unchanged : ((next g)^[k] c).changes g = false
  still : (next g)^[k + 1] c = (next g)^[k] c

/-- No visit is repeated, and each replaces a reference that the set holds and has not replaced
before. All the while no set refers to itself, and none holds again what it has replaced. -/
structure VisitsOnce (c : Closure) (visits : List (Nat × Nat)) : Prop where
  nodup : visits.Nodup
  fresh : ∀ us a b vs, visits = us ++ (a, b) :: vs →
    b ∈ (c.visitAll us).references g a ∧ b ∉ (c.visitAll us).replaced.get a
  proper : ∀ us, us <+: visits → ∀ a, g.isNonTerminal a = true →
    a ∉ (c.visitAll us).follow.get a
  gone : ∀ us, us <+: visits → ∀ a b, (a, b) ∈ us → b ∉ (c.visitAll us).follow.get a

/-- The passes until one replaces nothing new, which are given up when more than `bound` of them
have replaced something. -/
def settleWithin (bound : Nat) (c : Closure) (passes : Nat) : Except Nat (Closure × Nat) :=
  match pass g g.nonTerminals (c, false) with
  | (c, false) => .ok (c, passes)
  | (c, true) =>
    if bound < passes + 1 then .error (passes + 1) else settleWithin bound c (passes + 1)
termination_by bound - passes

variable {g}

theorem visitAll_append (us vs : List (Nat × Nat)) (c : Closure) :
    c.visitAll (us ++ vs) = (c.visitAll us).visitAll vs := List.foldl_append

theorem visitAll_references (c : Closure) (a : Nat) :
    c.visitAll ((c.references g a).map (a, ·)) = c.replaceAll g a := List.foldl_map

theorem visitAll_passVisits (as : List Nat) (c : Closure) (changed : Bool) :
    c.visitAll (passVisits g as c) = (pass g as (c, changed)).1 := by
  induction as generalizing c changed with
  | nil => rfl
  | cons a rest ih =>
    rw [passVisits, visitAll_append, visitAll_references]
    exact ih _ _

theorem visitAll_visits (k : Nat) (c : Closure) : c.visitAll (visits g k c) = (next g)^[k] c := by
  induction k generalizing c with
  | zero => rfl
  | succ k ih =>
    rw [visits, visitAll_append, visitAll_passVisits _ _ false, Function.iterate_succ_apply]
    exact ih _

theorem mem_replaced_visitAll (vs : List (Nat × Nat)) (c : Closure) (a b : Nat) :
    b ∈ (c.visitAll vs).replaced.get a ↔ b ∈ c.replaced.get a ∨ (a, b) ∈ vs := by
  induction vs generalizing c with
  | nil => simp [visitAll]
  | cons v vs ih =>
    rw [visitAll, List.foldl_cons, ← visitAll, ih, mem_replaced_replace, List.mem_cons, or_assoc,
      Prod.ext_iff]

/-! ## One visit -/

variable (g) in
structure Tidy (c : Closure) : Prop where
  owner : g.Owned c.follow
  apart : ∀ a b, b ∈ c.replaced.get a → b ∉ c.follow.get a

variable (g) in
/-- Each visit is to a reference that the set holds by then. -/
def Legal : Closure → List (Nat × Nat) → Prop
  | _, [] => True
  | c, (a, b) :: vs => b ∈ c.references g a ∧ Legal (c.replace a b) vs

theorem Tidy.not_mem_replaced {c : Closure} (h : c.Tidy g) {a b : Nat}
    (hb : b ∈ c.references g a) : b ∉ c.replaced.get a :=
  fun hr => h.apart a b hr (mem_references.1 hb).1

theorem Tidy.not_self {c : Closure} (h : c.Tidy g) {a : Nat} (ha : g.isNonTerminal a = true) :
    a ∉ c.follow.get a :=
  fun hm => (h.owner a a hm ha).2 rfl

theorem Tidy.replace {c : Closure} (h : c.Tidy g) {a b : Nat} (hb : b ∈ c.references g a) :
    (c.replace a b).Tidy g where
  owner d x hx hn := by
    rcases (mem_follow_replace c a b d x).1 hx with ⟨hx, -⟩ | ⟨rfl, -, -, hxa, -⟩
    · exact h.owner d x hx hn
    · obtain ⟨hm, hbn⟩ := mem_references.1 hb
      exact ⟨(h.owner d b hm hbn).1, hxa.symm⟩
  apart d x hr hx := by
    rw [mem_replaced_replace] at hr
    rcases (mem_follow_replace c a b d x).1 hx with ⟨hx, hne⟩ | ⟨rfl, -, -, -, hxb, hxr⟩
    · rcases hr with hr | ⟨rfl, rfl⟩
      · exact h.apart d x hr hx
      · exact hne rfl rfl
    · rcases hr with hr | ⟨-, rfl⟩
      · exact hxr hr
      · exact hxb rfl

/-! ## Many visits -/

theorem Legal.append {us vs : List (Nat × Nat)} {c : Closure} (hu : Legal g c us)
    (hv : Legal g (c.visitAll us) vs) : Legal g c (us ++ vs) := by
  induction us generalizing c with
  | nil => exact hv
  | cons u us ih => exact ⟨hu.1, ih hu.2 hv⟩

theorem Legal.of_append {us vs : List (Nat × Nat)} {c : Closure} (h : Legal g c (us ++ vs)) :
    Legal g c us ∧ Legal g (c.visitAll us) vs := by
  induction us generalizing c with
  | nil => exact ⟨trivial, h⟩
  | cons u us ih => exact ⟨⟨h.1, (ih h.2).1⟩, (ih h.2).2⟩

theorem Tidy.visitAll {vs : List (Nat × Nat)} {c : Closure} (h : c.Tidy g) (hv : Legal g c vs) :
    (c.visitAll vs).Tidy g := by
  induction vs generalizing c with
  | nil => exact h
  | cons v vs ih => exact ih (h.replace hv.1) hv.2

/-- What a set has replaced is not visited there any more. -/
theorem Legal.not_mem {vs : List (Nat × Nat)} {c : Closure} (hv : Legal g c vs) (h : c.Tidy g)
    {a b : Nat} (hb : b ∈ c.replaced.get a) : (a, b) ∉ vs := by
  induction vs generalizing c with
  | nil => exact List.not_mem_nil
  | cons v vs ih =>
    rw [List.mem_cons, not_or]
    refine ⟨?_, ih hv.2 (h.replace hv.1) ((mem_replaced_replace c _ _ a b).2 (.inl hb))⟩
    rintro rfl
    exact h.not_mem_replaced hv.1 hb

theorem Legal.nodup {vs : List (Nat × Nat)} {c : Closure} (hv : Legal g c vs) (h : c.Tidy g) :
    vs.Nodup := by
  induction vs generalizing c with
  | nil => exact .nil
  | cons v vs ih =>
    have hnew := hv.2.not_mem (h.replace hv.1) <|
      (mem_replaced_replace c v.1 v.2 v.1 v.2).2 (.inr ⟨rfl, rfl⟩)
    exact List.nodup_cons.2 ⟨hnew, ih hv.2 (h.replace hv.1)⟩

theorem Legal.visitsOnce {vs : List (Nat × Nat)} {c : Closure} (hv : Legal g c vs)
    (h : c.Tidy g) : VisitsOnce g c vs := by
  have hupto : ∀ us, us <+: vs → (c.visitAll us).Tidy g := by
    rintro us ⟨rest, rfl⟩
    exact h.visitAll hv.of_append.1
  refine ⟨hv.nodup h, ?_, fun us hu a ha => (hupto us hu).not_self ha, fun us hu a b hab => ?_⟩
  · rintro us a b rest rfl
    obtain ⟨hus, hb, -⟩ := hv.of_append
    exact ⟨hb, (h.visitAll hus).not_mem_replaced hb⟩
  · exact (hupto us hu).apart a b ((mem_replaced_visitAll us c a b).2 (.inr hab))

theorem Legal.mem_offDiag {vs : List (Nat × Nat)} {c : Closure} (hv : Legal g c vs)
    (h : c.Tidy g) : ∀ v ∈ vs, v ∈ g.nonTerminals.toFinset.offDiag := by
  induction vs generalizing c with
  | nil => exact fun _ hv => absurd hv List.not_mem_nil
  | cons v vs ih =>
    refine List.forall_mem_cons.2 ⟨?_, ih hv.2 (h.replace hv.1)⟩
    obtain ⟨hm, hn⟩ := mem_references.1 hv.1
    obtain ⟨ha, hne⟩ := h.owner v.1 v.2 hm hn
    simp [mem_nonTerminals, ha, hn, hne]

theorem Legal.length_le {vs : List (Nat × Nat)} {c : Closure} (hv : Legal g c vs)
    (h : c.Tidy g) : vs.length ≤ g.nonTerminals.length * (g.nonTerminals.length - 1) := by
  have hcard : g.nonTerminals.toFinset.card = g.nonTerminals.length :=
    List.toFinset_card_of_nodup (List.nodup_range.filter _)
  calc
    vs.length = vs.toFinset.card := (List.toFinset_card_of_nodup (hv.nodup h)).symm
    _ ≤ g.nonTerminals.toFinset.offDiag.card :=
      Finset.card_le_card fun v hm => hv.mem_offDiag h v (List.mem_toFinset.1 hm)
    _ = _ := by rw [Finset.offDiag_card, hcard, Nat.mul_sub_one]

/-! ## Passes -/

/-- The references that a set holds at first are still there when their turn comes. -/
theorem legal_map {a : Nat} {bs : List Nat} (hbs : bs.Nodup) {c : Closure}
    (h : ∀ b ∈ bs, b ∈ c.references g a) : Legal g c (bs.map (a, ·)) := by
  induction bs generalizing c with
  | nil => trivial
  | cons b bs ih =>
    obtain ⟨hb, hbs⟩ := List.nodup_cons.1 hbs
    rw [List.forall_mem_cons] at h
    refine ⟨h.1, ih hbs fun x hx => ?_⟩
    obtain ⟨hm, hn⟩ := mem_references.1 (h.2 x hx)
    refine mem_references.2 ⟨(mem_follow_replace c a b a x).2 (.inl ⟨hm, ?_⟩), hn⟩
    rintro - rfl
    exact hb hx

theorem legal_references (c : Closure) (a : Nat) :
    Legal g c ((c.references g a).map (a, ·)) :=
  legal_map ((c.follow.get a).sorted.imp Nat.ne_of_lt |>.filter _) fun _ hb => hb

theorem legal_passVisits (as : List Nat) (c : Closure) : Legal g c (passVisits g as c) := by
  induction as generalizing c with
  | nil => trivial
  | cons a rest ih =>
    refine (legal_references c a).append ?_
    rw [visitAll_references]
    exact ih _

theorem legal_visits (k : Nat) (c : Closure) : Legal g c (visits g k c) := by
  induction k generalizing c with
  | zero => trivial
  | succ k ih =>
    refine (legal_passVisits g.nonTerminals c).append ?_
    rw [visitAll_passVisits _ _ false]
    exact ih _

theorem Tidy.isOpen_iff {c : Closure} (h : c.Tidy g) {a : Nat} :
    c.isOpen g a = true ↔ c.references g a ≠ [] := by
  rw [Closure.isOpen_iff, ne_eq, List.eq_nil_iff_forall_not_mem, not_forall_not]
  exact exists_congr fun b => and_iff_left_of_imp h.not_mem_replaced

/-- A pass replaces something new if and only if it makes a visit. -/
theorem Tidy.snd_pass {c : Closure} (h : c.Tidy g) (as : List Nat) (changed : Bool) :
    (pass g as (c, changed)).2 = true ↔ changed = true ∨ passVisits g as c ≠ [] := by
  induction as generalizing c changed with
  | nil => simp [pass, passVisits]
  | cons a rest ih =>
    have hnext : (c.replaceAll g a).Tidy g :=
      visitAll_references (g := g) c a ▸ h.visitAll (legal_references c a)
    rw [pass, ih hnext, Bool.or_eq_true, h.isOpen_iff, or_assoc, passVisits, ne_eq, ne_eq, ne_eq,
      List.append_eq_nil_iff, List.map_eq_nil_iff, not_and_or]

theorem Tidy.changes_iff {c : Closure} (h : c.Tidy g) :
    c.changes g = true ↔ passVisits g g.nonTerminals c ≠ [] := by
  simp [changes, h.snd_pass]

theorem Tidy.passVisits_of_unchanged {c : Closure} (h : c.Tidy g) (hc : c.changes g = false) :
    passVisits g g.nonTerminals c = [] := by
  by_contra hne
  rw [h.changes_iff.2 hne] at hc
  cases hc

theorem Tidy.iterate_next {c : Closure} (h : c.Tidy g) (k : Nat) : ((next g)^[k] c).Tidy g :=
  visitAll_visits (g := g) k c ▸ h.visitAll (legal_visits k c)

theorem Tidy.next_of_unchanged {c : Closure} (h : c.Tidy g) (hc : c.changes g = false) :
    c.next g = c := by
  rw [next, ← visitAll_passVisits, h.passVisits_of_unchanged hc]
  rfl

theorem Tidy.no_reference {c : Closure} (h : c.Tidy g) (hc : c.changes g = false) {a x : Nat}
    (hx : x ∈ c.follow.get a) : g.isNonTerminal x = false := by
  by_contra hn
  rw [Bool.not_eq_false] at hn
  have ha := g.mem_nonTerminals.2 (h.owner a x hx hn).1
  have hnext : x ∈ (c.next g).follow.get a := by rwa [h.next_of_unchanged hc]
  obtain ⟨-, -, hnone⟩ := of_pass_unchanged hc
  rw [hnone a ha x hnext] at hn
  cases hn

/-! ## The number of passes -/

theorem Tidy.le_length_visits {k : Nat} {c : Closure} (h : c.Tidy g)
    (hk : ∀ j < k, ((next g)^[j] c).changes g = true) : k ≤ (visits g k c).length := by
  induction k generalizing c with
  | zero => exact Nat.zero_le _
  | succ k ih =>
    have hfirst := List.length_pos_of_ne_nil (h.changes_iff.1 (hk 0 (Nat.succ_pos k)))
    have hrest := ih (h.iterate_next 1) fun j hj => hk (j + 1) (Nat.succ_lt_succ hj)
    rw [Function.iterate_one] at hrest
    rw [visits, List.length_append]
    omega

theorem Tidy.exists_settlesAfter {c : Closure} (h : c.Tidy g) :
    ∃ k, k ≤ g.nonTerminals.length * (g.nonTerminals.length - 1) ∧ SettlesAfter g c k := by
  have hex : ∃ k, k ≤ g.nonTerminals.length * (g.nonTerminals.length - 1) ∧
      ((next g)^[k] c).changes g = false := by
    by_contra! hall
    have hlong := h.le_length_visits
      (k := g.nonTerminals.length * (g.nonTerminals.length - 1) + 1) fun j hj =>
        (Bool.not_eq_false _).mp (hall j (Nat.le_of_lt_succ hj))
    exact absurd (hlong.trans ((legal_visits _ c).length_le h)) (Nat.not_succ_le_self _)
  classical
  obtain ⟨hle, hunchanged⟩ := Nat.find_spec hex
  refine ⟨Nat.find hex, hle, fun j hj => ?_, hunchanged, ?_⟩
  · have hmin := Nat.find_min hex hj
    rw [not_and, Bool.not_eq_false] at hmin
    exact hmin (hj.le.trans hle)
  · rw [Function.iterate_succ_apply']
    exact (h.iterate_next _).next_of_unchanged hunchanged

theorem pass_nonTerminals (c : Closure) :
    pass g g.nonTerminals (c, false) = (c.next g, c.changes g) := rfl

theorem SettlesAfter.tail {c : Closure} {k : Nat} (h : SettlesAfter g c (k + 1)) :
    SettlesAfter g (c.next g) k :=
  ⟨fun j hj => h.changes (j + 1) (Nat.succ_lt_succ hj), h.unchanged, h.still⟩

theorem settle_eq {fuel k : Nat} (hfuel : k < fuel) {c : Closure} (h : SettlesAfter g c k)
    (passes : Nat) : settle g fuel c passes = ((next g)^[k] c, passes + k) := by
  induction fuel generalizing k c passes with
  | zero => exact absurd hfuel (Nat.not_lt_zero k)
  | succ fuel ih =>
    rw [settle, pass_nonTerminals]
    cases k with
    | zero =>
      have hchanges : c.changes g = false := h.unchanged
      have hstill : c.next g = c := h.still
      rw [hchanges, hstill]
      rfl
    | succ k =>
      have hchanges : c.changes g = true := h.changes 0 (Nat.succ_pos k)
      rw [hchanges]
      have hmore := ih (Nat.lt_of_succ_lt_succ hfuel) h.tail (passes + 1)
      rw [Nat.add_right_comm] at hmore
      exact hmore

theorem settleWithin_eq {bound k : Nat} {c : Closure} (h : SettlesAfter g c k) (passes : Nat)
    (hbound : passes + k ≤ bound) :
    settleWithin g bound c passes = .ok ((next g)^[k] c, passes + k) := by
  induction k generalizing c passes with
  | zero =>
    have hchanges : c.changes g = false := h.unchanged
    have hstill : c.next g = c := h.still
    rw [settleWithin, pass_nonTerminals, hchanges, hstill]
    rfl
  | succ k ih =>
    have hchanges : c.changes g = true := h.changes 0 (Nat.succ_pos k)
    rw [settleWithin, pass_nonTerminals, hchanges]
    have hmore := ih h.tail (passes + 1) (by omega)
    rw [Nat.add_right_comm] at hmore
    exact (if_neg (by omega)).trans hmore

end Closure

variable {g}

/-- The closure settles on the sets of the analysis. With `n` non-terminals, at most `n * (n - 1)`
passes change anything, and the next one finds no reference in any set, so the passes that are
given up after `n * n + 1` changes end in the same way. -/
theorem closeFollow_settles (hend : g.isNonTerminal Symbol.endIndex = false)
    (hright : ∀ p ∈ g.productions, ∀ x ∈ p.right, x < g.symbols.length) {start : Nat}
    (hs : g.start = some start) {first : SetTable} (hf : g.firstTable = .ok first) :
    ∃ filled settled k, g.filledFollow first start = .ok filled ∧
      g.closeFollow filled = (settled, k) ∧
      g.firstFollow = .ok ⟨first, settled.follow⟩ ∧
      Closure.SettlesAfter g ⟨filled, ∅⟩ k ∧
      k ≤ g.nonTerminals.length * (g.nonTerminals.length - 1) ∧
      settled = (Closure.next g)^[k] ⟨filled, ∅⟩ ∧
      (∀ j, (Closure.next g)^[j] ⟨filled, ∅⟩ =
          Closure.visitAll (Closure.visits g j ⟨filled, ∅⟩) ⟨filled, ∅⟩ ∧
        Closure.VisitsOnce g ⟨filled, ∅⟩ (Closure.visits g j ⟨filled, ∅⟩)) ∧
      (∀ a x, x ∈ settled.follow.get a → g.isNonTerminal x = false) ∧
      Closure.settleWithin g (g.nonTerminals.length * g.nonTerminals.length + 1) ⟨filled, ∅⟩ 0 =
        .ok (settled, k) := by
  obtain ⟨filled, hfilled, howned⟩ := filledFollow_owned hend hright hf start
  have htidy : Closure.Tidy g ⟨filled, ∅⟩ :=
    ⟨howned, fun _ b hb => absurd hb (SymbolSet.not_mem_empty b)⟩
  obtain ⟨k, hk, hsettles⟩ := htidy.exists_settlesAfter
  have hbound : k ≤ g.nonTerminals.length * g.nonTerminals.length :=
    hk.trans (Nat.mul_le_mul_left _ (Nat.sub_le _ 1))
  have hclose : g.closeFollow filled = ((Closure.next g)^[k] ⟨filled, ∅⟩, k) := by
    rw [closeFollow, Closure.settle_eq (Nat.lt_succ_of_le hbound) hsettles, Nat.zero_add]
  have hwithin : Closure.settleWithin g (g.nonTerminals.length * g.nonTerminals.length + 1)
      ⟨filled, ∅⟩ 0 = .ok ((Closure.next g)^[k] ⟨filled, ∅⟩, k) := by
    rw [Closure.settleWithin_eq hsettles 0 (by omega), Nat.zero_add]
  refine ⟨filled, _, k, hfilled, hclose, ?_, hsettles, hk, rfl, fun j => ⟨?_, ?_⟩, ?_, hwithin⟩
  · simp [firstFollow, hs, hf, hfilled, hclose, bind, Except.bind]
  · exact (Closure.visitAll_visits j _).symm
  · exact (Closure.legal_visits j _).visitsOnce htidy
  · exact fun a x => (htidy.iterate_next k).no_reference hsettles.unchanged

def ring : Grammar where
  symbols := [.lambda, .endMarker, .nonTerminal "<A>", .nonTerminal "<B>", .nonTerminal "<C>",
    .terminal "a"]
  names := []
  productions := [⟨2, [5, 3]⟩, ⟨3, [5, 4]⟩, ⟨4, [5, 2]⟩, ⟨5, [2]⟩]
  start := some 2

def ringFirst : SetTable := ⟨[(2, .ofList [5]), (3, .ofList [5]), (4, .ofList [5])]⟩

def ringFilled : SetTable := ⟨[(2, .ofList [1, 4, 5]), (3, .ofList [2]), (4, .ofList [3])]⟩

theorem closeFollow_settles_ring :
    ∃ settled k, ring.closeFollow ringFilled = (settled, k) ∧ k ≤ 6 ∧
      ring.firstFollow = .ok ⟨ringFirst, settled.follow⟩ ∧
      Closure.settleWithin ring 10 ⟨ringFilled, ∅⟩ 0 = .ok (settled, k) := by
  have hs : ring.start = some 2 := rfl
  have hf : ring.firstTable = .ok ringFirst := rfl
  obtain ⟨filled, settled, k, hfilled, hclose, hff, -, hk, -, -, -, hwithin⟩ :=
    closeFollow_settles rfl (by decide) hs hf
  obtain rfl : ringFilled = filled := Except.ok.inj hfilled
  exact ⟨settled, k, hclose, hk, hff, hwithin⟩

end LLOne.Grammar

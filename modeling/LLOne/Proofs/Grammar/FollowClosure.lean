import LLOne.Grammar.Follow
import Mathlib.Data.Finset.Prod

/-!
# What the closure of FOLLOW sets settles on

The sets that are filled at first hold members and references. In the settled sets, the set of
`a` holds the members of all sets that can be reached from `a` through references, and no
reference is left. Two invariants carry this: whatever is in a set can be reached, and each set
has taken over all members of the sets that it covers, where every reference of a covered set is
covered itself or still stands in the set. The second one survives the references that are
dropped because the set has replaced them before.
-/

namespace LLOne.Grammar

variable (g : Grammar)

def Refers (filled : SetTable) (a b : Nat) : Prop :=
  b ∈ filled.get a ∧ g.isNonTerminal b = true

def Reaches (filled : SetTable) : Nat → Nat → Prop := Relation.ReflTransGen (g.Refers filled)

/-- `x` is a member of a set that can be reached from `a`. -/
def Inherits (filled : SetTable) (a x : Nat) : Prop :=
  ∃ b, g.Reaches filled a b ∧ x ∈ filled.get b ∧ g.isNonTerminal x = false

namespace Closure

structure Sound (filled : SetTable) (c : Closure) : Prop where
  reference : ∀ a b, b ∈ c.follow.get a → g.isNonTerminal b = true → g.Reaches filled a b
  member : ∀ a x, x ∈ c.follow.get a → g.isNonTerminal x = false → g.Inherits filled a x

/-- The set of `a` has the members of the sets that it covers, and the references that it still
has to replace. -/
structure Covers (filled : SetTable) (c : Closure) (covered : Nat → Nat → Prop) : Prop where
  self : ∀ a, covered a a
  replaced : ∀ a b, b ∈ c.replaced.get a → covered a b ∧ g.isNonTerminal b = true
  member : ∀ a b x, covered a b → x ∈ filled.get b → g.isNonTerminal x = false →
    x ∈ c.follow.get a
  reference : ∀ a b d, covered a b → g.Refers filled b d → covered a d ∨ d ∈ c.follow.get a

structure Faithful (filled : SetTable) (c : Closure) : Prop where
  sound : c.Sound g filled
  covers : ∃ covered, c.Covers g filled covered
  proper : ∀ a, a ∉ c.follow.get a

variable {g}

/-! ## One replacement -/

theorem mem_follow_replace (c : Closure) (a b d x : Nat) :
    x ∈ (c.replace a b).follow.get d ↔
      x ∈ c.follow.get d ∧ (d = a → x ≠ b) ∨
        d = a ∧ b ∉ c.replaced.get a ∧ x ∈ c.follow.get b ∧
          x ≠ a ∧ x ≠ b ∧ x ∉ c.replaced.get a := by
  unfold replace
  split
  next hb =>
    rw [SetTable.get_update]
    by_cases hd : d = a
    · subst hd
      simp [hb, and_comm]
    · simp [hd]
  next hb =>
    simp only [SetTable.get_update]
    by_cases hd : d = a
    · subst hd
      simp [hb]
      tauto
    · simp [hd]

theorem mem_replaced_replace (c : Closure) (a b d x : Nat) :
    x ∈ (c.replace a b).replaced.get d ↔ x ∈ c.replaced.get d ∨ d = a ∧ x = b := by
  unfold replace
  split
  next hb =>
    refine (or_iff_left_of_imp ?_).symm
    intro h
    obtain ⟨rfl, rfl⟩ := h
    exact hb
  next hb =>
    simp only [SetTable.get_update]
    by_cases hd : d = a
    · subst hd
      simp [or_comm]
    · simp [hd]

theorem Sound.replace {filled : SetTable} {c : Closure} (h : c.Sound g filled) {a b : Nat}
    (hab : g.Reaches filled a b) : (c.replace a b).Sound g filled where
  reference d x hx hn := by
    rcases (mem_follow_replace c a b d x).1 hx with ⟨hx, -⟩ | ⟨rfl, -, hx, -⟩
    · exact h.reference d x hx hn
    · exact hab.trans (h.reference b x hx hn)
  member d x hx hn := by
    rcases (mem_follow_replace c a b d x).1 hx with ⟨hx, -⟩ | ⟨rfl, -, hx, -⟩
    · exact h.member d x hx hn
    · obtain ⟨e, he, hx⟩ := h.member b x hx hn
      exact ⟨e, hab.trans he, hx⟩

/-- From its first replacement on, the set of `a` covers what that of `b` covers. A reference of
`b` that does not come along is `a`, or `b`, or has been replaced, so it is covered. -/
theorem Covers.replace {filled : SetTable} {c : Closure} {covered : Nat → Nat → Prop}
    (h : c.Covers g filled covered) {a b : Nat} (ha : g.isNonTerminal a = true)
    (hb : g.isNonTerminal b = true) :
    (c.replace a b).Covers g filled fun d e =>
      covered d e ∨ d = a ∧ b ∉ c.replaced.get a ∧ covered b e where
  self d := .inl (h.self d)
  replaced d x hx := by
    rcases (mem_replaced_replace c a b d x).1 hx with hx | ⟨rfl, rfl⟩
    · exact ⟨.inl (h.replaced d x hx).1, (h.replaced d x hx).2⟩
    · refine ⟨?_, hb⟩
      by_cases hr : x ∈ c.replaced.get d
      · exact .inl (h.replaced d x hr).1
      · exact .inr ⟨rfl, hr, h.self x⟩
  member d e x hde hx hn := by
    have hne : ∀ y, g.isNonTerminal y = true → x ≠ y := by
      rintro y hy rfl
      rw [hn] at hy
      cases hy
    rw [mem_follow_replace]
    rcases hde with hde | ⟨rfl, hr, hbe⟩
    · exact .inl ⟨h.member d e x hde hx hn, fun _ => hne b hb⟩
    · refine .inr ⟨rfl, hr, h.member b e x hbe hx hn, hne d ha, hne b hb, fun hxr => ?_⟩
      exact hne x (h.replaced d x hxr).2 rfl
  reference d e x hde hx := by
    rw [mem_follow_replace]
    rcases hde with hde | ⟨rfl, hr, hbe⟩
    · rcases h.reference d e x hde hx with hdx | hf
      · exact .inl (.inl hdx)
      · by_cases hdb : d = a ∧ x = b
        · obtain ⟨rfl, rfl⟩ := hdb
          by_cases hr : x ∈ c.replaced.get d
          · exact .inl (.inl (h.replaced d x hr).1)
          · exact .inl (.inr ⟨rfl, hr, h.self x⟩)
        · exact .inr (.inl ⟨hf, fun hd hxb => hdb ⟨hd, hxb⟩⟩)
    · rcases h.reference b e x hbe hx with hbx | hf
      · exact .inl (.inr ⟨rfl, hr, hbx⟩)
      · by_cases hxd : x = d
        · exact .inl (.inl (hxd ▸ h.self d))
        by_cases hxb : x = b
        · exact .inl (.inr ⟨rfl, hr, hxb ▸ h.self b⟩)
        by_cases hxr : x ∈ c.replaced.get d
        · exact .inl (.inl (h.replaced d x hxr).1)
        · exact .inr (.inr ⟨rfl, hr, hf, hxd, hxb, hxr⟩)

theorem Faithful.replace {filled : SetTable} {c : Closure} (h : c.Faithful g filled) {a b : Nat}
    (ha : g.isNonTerminal a = true) (hb : g.isNonTerminal b = true)
    (hab : g.Reaches filled a b) : (c.replace a b).Faithful g filled where
  sound := h.sound.replace hab
  covers := by
    obtain ⟨covered, hc⟩ := h.covers
    exact ⟨_, hc.replace ha hb⟩
  proper d hd := by
    rcases (mem_follow_replace c a b d d).1 hd with ⟨hd, -⟩ | ⟨rfl, -, -, hne, -⟩
    · exact h.proper d hd
    · exact hne rfl

theorem faithful_filled {filled : SetTable} (h : ∀ a, a ∉ filled.get a) :
    (⟨filled, ∅⟩ : Closure).Faithful g filled where
  sound := {
    reference := fun _ _ hb hn => .single ⟨hb, hn⟩
    member := fun a _ hx hn => ⟨a, .refl, hx, hn⟩ }
  covers := ⟨Eq, {
    self := fun _ => rfl
    replaced := fun _ b hb => absurd hb (SymbolSet.not_mem_empty b)
    member := fun _ _ _ hab hx _ => hab ▸ hx
    reference := fun _ _ _ hab hd => .inr (hab ▸ hd.1) }⟩
  proper := h

/-! ## All references of a set -/

theorem mem_references {c : Closure} {a b : Nat} :
    b ∈ c.references g a ↔ b ∈ c.follow.get a ∧ g.isNonTerminal b = true :=
  List.mem_filter

theorem isOpen_iff {c : Closure} {a : Nat} :
    c.isOpen g a = true ↔ ∃ b ∈ c.references g a, b ∉ c.replaced.get a := by
  simp [isOpen]

theorem Faithful.replaceAll {filled : SetTable} {c : Closure} (h : c.Faithful g filled) {a : Nat}
    (ha : g.isNonTerminal a = true) : (c.replaceAll g a).Faithful g filled := by
  have hrefs : ∀ b ∈ c.references g a, g.isNonTerminal b = true ∧ g.Reaches filled a b := by
    intro b hb
    obtain ⟨hf, hn⟩ := mem_references.1 hb
    exact ⟨hn, h.sound.reference a b hf hn⟩
  unfold Closure.replaceAll
  generalize c.references g a = bs at hrefs
  induction bs generalizing c with
  | nil => exact h
  | cons b bs ih =>
    rw [List.forall_mem_cons] at hrefs
    exact ih (h.replace ha hrefs.1.1 hrefs.1.2) hrefs.2

theorem mem_replaced_replaceAll (c : Closure) (a d x : Nat) :
    x ∈ (c.replaceAll g a).replaced.get d ↔
      x ∈ c.replaced.get d ∨ d = a ∧ x ∈ c.references g a := by
  unfold Closure.replaceAll
  generalize c.references g a = bs
  induction bs generalizing c with
  | nil => simp
  | cons b bs ih =>
    rw [List.foldl_cons, ih, mem_replaced_replace, List.mem_cons, or_assoc, ← and_or_left]

/-- If every reference has been replaced before, nothing happens but that they go. -/
theorem mem_follow_replaceAll_of_not_isOpen {c : Closure} {a : Nat} (h : c.isOpen g a = false)
    (d x : Nat) :
    x ∈ (c.replaceAll g a).follow.get d ↔
      x ∈ c.follow.get d ∧ (d = a → g.isNonTerminal x = false) := by
  have hrefs : ∀ b ∈ c.references g a, b ∈ c.replaced.get a := by
    simpa [isOpen] using h
  have hall : ∀ bs : List Nat, ∀ c : Closure, (∀ b ∈ bs, b ∈ c.replaced.get a) →
      (x ∈ (bs.foldl (fun c b => c.replace a b) c).follow.get d ↔
        x ∈ c.follow.get d ∧ (d = a → x ∉ bs)) := by
    intro bs
    induction bs with
    | nil => simp
    | cons b bs ih =>
      intro c hbs
      rw [List.forall_mem_cons] at hbs
      have hrest : ∀ b' ∈ bs, b' ∈ (c.replace a b).replaced.get a := fun b' hb' =>
        (mem_replaced_replace c a b a b').2 (.inl (hbs.2 b' hb'))
      rw [List.foldl_cons, ih _ hrest, mem_follow_replace]
      simp only [hbs.1, not_true_eq_false, false_and, and_false, or_false, List.mem_cons, not_or]
      tauto
  rw [Closure.replaceAll, hall _ c hrefs]
  simp only [mem_references]
  refine and_congr_right fun hx => imp_congr_right fun hd => ?_
  subst hd
  simp [hx]

/-! ## Passes -/

theorem pass_induct {P : Closure → Prop} {as : List Nat}
    (h : ∀ c, P c → ∀ a ∈ as, P (c.replaceAll g a)) {c : Closure} (hc : P c) (changed : Bool) :
    P (pass g as (c, changed)).1 := by
  induction as generalizing c changed with
  | nil => exact hc
  | cons a rest ih =>
    simp only [List.forall_mem_cons] at h
    exact ih (fun c hc => (h c hc).2) (h c hc).1 _

/-- A pass that replaces nothing new has met no open set, and leaves no reference. -/
theorem of_pass_unchanged {as : List Nat} {c : Closure} {changed : Bool}
    (h : (pass g as (c, changed)).2 = false) :
    changed = false ∧
      (∀ d x, x ∈ (pass g as (c, changed)).1.follow.get d → x ∈ c.follow.get d) ∧
      ∀ a ∈ as, ∀ x ∈ (pass g as (c, changed)).1.follow.get a, g.isNonTerminal x = false := by
  induction as generalizing c changed with
  | nil => exact ⟨h, fun _ _ hx => hx, by simp⟩
  | cons a rest ih =>
    obtain ⟨ho, hsub, hrest⟩ := ih (c := c.replaceAll g a) h
    obtain ⟨hc, ha⟩ := Bool.or_eq_false_iff.1 ho
    have hmem := mem_follow_replaceAll_of_not_isOpen ha
    refine ⟨hc, fun d x hx => ((hmem d x).1 (hsub d x hx)).1, ?_⟩
    rw [List.forall_mem_cons]
    exact ⟨fun x hx => ((hmem a x).1 (hsub a x hx)).2 rfl, hrest⟩

variable (g) in
/-- The pairs of a non-terminal and a reference that its set has replaced. -/
def spent (c : Closure) : Finset (Nat × Nat) :=
  g.nonTerminals.toFinset.offDiag.filter fun ab => ab.2 ∈ c.replaced.get ab.1

theorem mem_spent {c : Closure} {a b : Nat} :
    (a, b) ∈ c.spent g ↔ (g.isNonTerminal a = true ∧ g.isNonTerminal b = true ∧ a ≠ b) ∧
      b ∈ c.replaced.get a := by
  simp [spent, mem_nonTerminals]

theorem card_spent_le (c : Closure) :
    (c.spent g).card ≤ g.nonTerminals.length * g.nonTerminals.length := by
  have hoff := Finset.card_filter_le g.nonTerminals.toFinset.offDiag
    fun ab => ab.2 ∈ c.replaced.get ab.1
  rw [Finset.offDiag_card] at hoff
  have hlen := List.toFinset_card_le g.nonTerminals
  calc
    _ ≤ g.nonTerminals.toFinset.card * g.nonTerminals.toFinset.card := hoff.trans (Nat.sub_le _ _)
    _ ≤ _ := Nat.mul_le_mul hlen hlen

theorem spent_subset_replaceAll (c : Closure) (a : Nat) :
    c.spent g ⊆ (c.replaceAll g a).spent g := by
  rintro ⟨d, x⟩ hx
  rw [mem_spent] at hx ⊢
  exact ⟨hx.1, (mem_replaced_replaceAll c a d x).2 (.inl hx.2)⟩

theorem card_spent_replaceAll {filled : SetTable} {c : Closure} (h : c.Faithful g filled) {a : Nat}
    (ha : g.isNonTerminal a = true) (ho : c.isOpen g a = true) :
    (c.spent g).card < ((c.replaceAll g a).spent g).card := by
  obtain ⟨b, hb, hnew⟩ := isOpen_iff.1 ho
  obtain ⟨hf, hn⟩ := mem_references.1 hb
  refine Finset.card_lt_card (Finset.ssubset_iff_of_subset (spent_subset_replaceAll c a) |>.2 ?_)
  refine ⟨(a, b), mem_spent.2 ⟨⟨ha, hn, ?_⟩, ?_⟩, fun hs => hnew (mem_spent.1 hs).2⟩
  · rintro rfl
    exact h.proper a hf
  · exact (mem_replaced_replaceAll c a a b).2 (.inr ⟨rfl, hb⟩)

/-- A pass that replaces something new uses up a pair. -/
theorem card_spent_pass {filled : SetTable} {as : List Nat}
    (has : ∀ a ∈ as, g.isNonTerminal a = true) {c : Closure} (h : c.Faithful g filled)
    (changed : Bool) :
    (c.spent g).card ≤ ((pass g as (c, changed)).1.spent g).card ∧
      (changed = false → (pass g as (c, changed)).2 = true →
        (c.spent g).card < ((pass g as (c, changed)).1.spent g).card) := by
  induction as generalizing c changed with
  | nil =>
    refine ⟨le_rfl, fun hc ht => ?_⟩
    rw [hc] at ht
    cases ht
  | cons a rest ih =>
    rw [List.forall_mem_cons] at has
    obtain ⟨hle, hlt⟩ := ih has.2 (h.replaceAll has.1) (changed || c.isOpen g a)
    have hstep := Finset.card_le_card (spent_subset_replaceAll (g := g) c a)
    refine ⟨hstep.trans hle, fun hc ht => ?_⟩
    subst hc
    rw [Bool.false_or] at hle hlt
    by_cases ho : c.isOpen g a = true
    · exact (card_spent_replaceAll h has.1 ho).trans_le hle
    · exact hstep.trans_lt (hlt (Bool.not_eq_true _ ▸ ho) ht)

theorem settle_induct {P : Closure → Prop}
    (h : ∀ c, P c → ∀ a, g.isNonTerminal a = true → P (c.replaceAll g a)) (fuel : Nat)
    {c : Closure} (hc : P c) (passes : Nat) : P (settle g fuel c passes).1 := by
  induction fuel generalizing c passes with
  | zero => exact hc
  | succ fuel ih =>
    have hpass : P (pass g g.nonTerminals (c, false)).1 :=
      pass_induct (fun c hc a ha => h c hc a (g.mem_nonTerminals.1 ha)) hc false
    unfold settle
    split
    next c' hc' =>
      rw [hc'] at hpass
      exact ih hpass (passes + 1)
    next c' hc' =>
      rw [hc'] at hpass
      exact hpass

/-- With more passes than there are unused pairs, the last one leaves no reference. -/
theorem settle_closed {filled : SetTable} (fuel : Nat) {c : Closure} (h : c.Faithful g filled)
    (passes : Nat)
    (hfuel : g.nonTerminals.length * g.nonTerminals.length < fuel + (c.spent g).card) {a : Nat}
    (ha : g.isNonTerminal a = true) :
    ∀ x ∈ (settle g fuel c passes).1.follow.get a, g.isNonTerminal x = false := by
  induction fuel generalizing c passes with
  | zero =>
    have := card_spent_le (g := g) c
    omega
  | succ fuel ih =>
    have hpass : (pass g g.nonTerminals (c, false)).1.Faithful g filled :=
      pass_induct (fun c hc a ha => hc.replaceAll (g.mem_nonTerminals.1 ha)) h false
    have hcard := card_spent_pass (fun a => g.mem_nonTerminals.1) h false
    unfold settle
    split
    next c' hc' =>
      rw [hc'] at hpass hcard
      have hlt := hcard.2 rfl rfl
      exact ih hpass (passes + 1) (by omega)
    next c' hc' =>
      obtain ⟨-, -, hnone⟩ := of_pass_unchanged (congrArg Prod.snd hc')
      rw [hc'] at hnone
      exact hnone a (g.mem_nonTerminals.2 ha)

end Closure

variable {g}

/-- In the settled sets there is no reference, and the set of every non-terminal has the members
of all sets that can be reached from it. -/
theorem mem_closeFollow {filled : SetTable} (h : ∀ a, a ∉ filled.get a) {a : Nat}
    (ha : g.isNonTerminal a = true) (x : Nat) :
    x ∈ (g.closeFollow filled).1.follow.get a ↔ g.Inherits filled a x := by
  have hfilled := Closure.faithful_filled (g := g) h
  have hf := Closure.settle_induct (fun c hc a ha => hc.replaceAll ha)
    (g.nonTerminals.length * g.nonTerminals.length + 1) hfilled 0
  have hnone := Closure.settle_closed (g.nonTerminals.length * g.nonTerminals.length + 1)
    hfilled 0 (by omega) ha
  change x ∈ (Closure.settle g _ _ 0).1.follow.get a ↔ _
  constructor
  · intro hx
    exact hf.sound.member a x hx (hnone x hx)
  · intro h
    obtain ⟨b, hab, hx, hn⟩ := h
    obtain ⟨covered, hc⟩ := hf.covers
    have hcov : ∀ b, g.Reaches filled a b → covered a b := by
      intro b hab
      induction hab with
      | refl => exact hc.self a
      | tail _ hr ih =>
        rcases hc.reference a _ _ ih hr with hcd | hm
        · exact hcd
        · have hm := hnone _ hm
          rw [hr.2] at hm
          cases hm
    exact hc.member a b x (hcov b hab) hx hn

end LLOne.Grammar

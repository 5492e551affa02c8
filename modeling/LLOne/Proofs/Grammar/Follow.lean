import LLOne.Proofs.Grammar.First
import LLOne.Proofs.Grammar.FollowClosure
import LLOne.Proofs.Grammar.FollowRules

/-!
# FOLLOW sets are exact

The sets are filled by the rules of `FollowRules` for single productions, with a reference where
a rule speaks of all that follows the left side. What the closure settles on is then the least
relation that obeys the rules.
-/

namespace LLOne.Grammar

variable (g : Grammar)

/-- Behind some `a` in the right side stands `x`, or the rest can vanish and `x` is the left side
as a reference. -/
def FilledBy (left : Nat) (right : List Nat) (a x : Nat) : Prop :=
  ∃ before after, right = before ++ a :: after ∧ g.isNonTerminal a = true ∧
    (x ≠ Symbol.lambdaIndex ∧ g.InFirst (g.form after) x ∨
      g.InFirst (g.form after) Symbol.lambdaIndex ∧ left ≠ a ∧ x = left)

def Keyed (table : SetTable) : Prop := ∀ a, (table.get? a).isSome = g.isNonTerminal a

variable {g}

theorem not_filledBy_nil (left a x : Nat) : ¬ g.FilledBy left [] a x := by
  intro h
  obtain ⟨before, after, h, -⟩ := h
  exact List.append_ne_nil_of_right_ne_nil before (List.cons_ne_nil a after) h.symm

theorem filledBy_cons_iff {left y a x : Nat} {rest : List Nat} :
    g.FilledBy left (y :: rest) a x ↔
      (a = y ∧ g.isNonTerminal a = true ∧
        (x ≠ Symbol.lambdaIndex ∧ g.InFirst (g.form rest) x ∨
          g.InFirst (g.form rest) Symbol.lambdaIndex ∧ left ≠ a ∧ x = left)) ∨
      g.FilledBy left rest a x := by
  constructor
  · intro h
    obtain ⟨before, after, h, ha, hx⟩ := h
    cases before with
    | nil =>
      obtain ⟨rfl, rfl⟩ := List.cons.inj h
      exact .inl ⟨rfl, ha, hx⟩
    | cons z before =>
      obtain ⟨-, rfl⟩ := List.cons.inj h
      exact .inr ⟨before, after, rfl, ha, hx⟩
  · intro h
    rcases h with ⟨rfl, ha, hx⟩ | ⟨before, after, rfl, ha, hx⟩
    · exact ⟨[], rest, rfl, ha, hx⟩
    · exact ⟨y :: before, after, rfl, ha, hx⟩

theorem Keyed.update {table : SetTable} (h : g.Keyed table) {a : Nat}
    (ha : g.isNonTerminal a = true) (f : SymbolSet → SymbolSet) : g.Keyed (table.update a f) := by
  intro b
  rw [SetTable.get?_update]
  split
  next hb => rw [hb, ha]; rfl
  next hb => exact h b

theorem Keyed.replaceAll {c : Closure} (h : g.Keyed c.follow) {a : Nat}
    (ha : g.isNonTerminal a = true) : g.Keyed (c.replaceAll g a).follow := by
  unfold Closure.replaceAll
  generalize c.references g a = bs
  induction bs generalizing c with
  | nil => exact h
  | cons b bs ih =>
    rw [List.foldl_cons]
    apply ih
    unfold Closure.replace
    split
    · exact h.update ha _
    · exact h.update ha _

/-! ## Filling -/

theorem lookup_blank (as : List Nat) (a : Nat) :
    (as.map fun b => (b, (∅ : SymbolSet))).lookup a = if a ∈ as then some ∅ else none := by
  induction as with
  | nil => rfl
  | cons b as ih =>
    rw [List.map_cons, List.lookup_cons, ih]
    by_cases h : a = b
    · simp [h]
    · simp [h, beq_eq_false_iff_ne.2 h]

theorem keyed_startFollow {start : Nat} (hs : g.isNonTerminal start = true) :
    g.Keyed (g.startFollow start) := by
  refine Keyed.update (fun a => ?_) hs _
  rw [SetTable.get?, lookup_blank, ← Bool.coe_iff_coe]
  by_cases ha : a ∈ g.nonTerminals
  · simp [ha, g.mem_nonTerminals.1 ha]
  · simp [ha, mt g.mem_nonTerminals.2 ha]

theorem mem_startFollow {start a x : Nat} :
    x ∈ (g.startFollow start).get a ↔ a = start ∧ x = Symbol.endIndex := by
  have hblank : ∀ b, (⟨g.nonTerminals.map fun a => (a, ∅)⟩ : SetTable).get b = ∅ := by
    intro b
    rw [SetTable.get, SetTable.get?, lookup_blank]
    split <;> rfl
  rw [startFollow, SetTable.get_update, hblank, hblank]
  split
  next h => simp [h]
  next h => simp [h]

namespace WellFormed

variable (hg : g.WellFormed)

include hg

theorem fillRight_spec {first : SetTable} (h : g.firstTable = .ok first) (left : Nat)
    (right : List Nat) (hr : ∀ x ∈ right, x < g.symbols.length) (follow : SetTable) :
    ∃ filled, g.fillRight first left right follow = .ok filled ∧
      (g.Keyed follow → g.Keyed filled) ∧
      ∀ a x, x ∈ filled.get a ↔ x ∈ follow.get a ∨ g.FilledBy left right a x := by
  induction right generalizing follow with
  | nil => exact ⟨follow, rfl, id, fun a x => (or_iff_left (not_filledBy_nil left a x)).symm⟩
  | cons y rest ih =>
    rw [List.forall_mem_cons] at hr
    unfold fillRight
    by_cases hy : g.isNonTerminal y = true
    · obtain ⟨name, hn⟩ := isNonTerminal_iff.1 hy
      obtain ⟨behind, hb, hbehind⟩ := hg.firstOf_spec h hr.2
      obtain ⟨filled, hf, hk, hfilled⟩ := ih hr.2 <|
        if Symbol.lambdaIndex ∈ behind ∧ left ≠ y then
          (follow.update y (· ∪ behind.erase Symbol.lambdaIndex)).update y (·.insert left)
        else follow.update y (· ∪ behind.erase Symbol.lambdaIndex)
      simp only [hn, hb]
      refine ⟨filled, hf, fun hkey => hk ?_, fun a x => ?_⟩
      · split
        · exact (hkey.update hy _).update hy _
        · exact hkey.update hy _
      · rw [hfilled, filledBy_cons_iff, ← hbehind, ← hbehind, ← or_assoc]
        apply or_congr_left
        by_cases ha : a = y
        · subst ha
          split
          next hc => simp [SetTable.get_update, hy, hc.1, hc.2]; tauto
          next hc => simp [SetTable.get_update, hy]; tauto
        · split <;> simp [SetTable.get_update, ha]
    · obtain ⟨filled, hf, hk, hfilled⟩ := ih hr.2 follow
      refine ⟨filled, ?_, hk, fun a x => ?_⟩
      · have hlt := List.getElem?_eq_getElem hr.1
        rw [hlt]
        cases hs : g.symbols[y] with
        | nonTerminal name => exact absurd (isNonTerminal_iff.2 ⟨name, hs ▸ hlt⟩) hy
        | _ => exact hf
      · rw [hfilled, filledBy_cons_iff]
        refine or_congr_right (or_iff_right ?_).symm
        intro h
        obtain ⟨rfl, ha, -⟩ := h
        exact hy ha

theorem fillAll_spec {first : SetTable} (h : g.firstTable = .ok first) (ps : List Production)
    (hps : ∀ p ∈ ps, p ∈ g.productions) (follow : SetTable) :
    ∃ filled, g.fillAll first ps follow = .ok filled ∧ (g.Keyed follow → g.Keyed filled) ∧
      ∀ a x, x ∈ filled.get a ↔
        x ∈ follow.get a ∨ ∃ p ∈ ps, g.FilledBy p.left p.right a x := by
  induction ps generalizing follow with
  | nil => exact ⟨follow, rfl, id, by simp⟩
  | cons p ps ih =>
    rw [List.forall_mem_cons] at hps
    obtain ⟨middle, hm, hkm, hmiddle⟩ :=
      hg.fillRight_spec h p.left p.right (hg.right p hps.1) follow
    obtain ⟨filled, hf, hkf, hfilled⟩ := ih hps.2 middle
    unfold fillAll
    simp only [hm]
    refine ⟨filled, hf, fun hk => hkf (hkm hk), fun a x => ?_⟩
    simp only [hfilled, hmiddle, or_assoc, List.mem_cons, exists_eq_or_imp]

/-- The sets before any reference is replaced. -/
theorem filledFollow_spec {first : SetTable} (h : g.firstTable = .ok first) (start : Nat) :
    ∃ filled, g.filledFollow first start = .ok filled ∧
      (g.isNonTerminal start = true → g.Keyed filled) ∧
      ∀ a x, x ∈ filled.get a ↔ a = start ∧ x = Symbol.endIndex ∨
        ∃ p ∈ g.productions, g.FilledBy p.left p.right a x := by
  obtain ⟨filled, hf, hk, hfilled⟩ :=
    hg.fillAll_spec h g.productions (fun _ hp => hp) (g.startFollow start)
  refine ⟨filled, hf, fun hs => hk (keyed_startFollow hs), fun a x => ?_⟩
  rw [hfilled, mem_startFollow]

/-! ## Settling -/

theorem ne_endIndex_of_isNonTerminal {a : Nat} (ha : g.isNonTerminal a = true) :
    a ≠ Symbol.endIndex := ne_of_isLookahead hg.isLookahead_endIndex ha

theorem not_mem_filled_self {first filled : SetTable} (h : g.firstTable = .ok first) {start : Nat}
    (hs : g.isNonTerminal start = true) (hf : g.filledFollow first start = .ok filled) (a : Nat) :
    a ∉ filled.get a := by
  obtain ⟨filled', hf', -, hfilled⟩ := hg.filledFollow_spec h start
  obtain rfl : filled = filled' := Except.ok.inj (hf.symm.trans hf')
  rw [hfilled]
  intro h
  rcases h with ⟨rfl, he⟩ | ⟨p, -, before, after, -, ha, ⟨hl, hx⟩ | ⟨-, hne, he⟩⟩
  · exact hg.ne_endIndex_of_isNonTerminal hs he
  · have hla := ((inFirst_of_ne hl).1 hx).1
    exact absurd rfl (ne_of_isLookahead hla ha)
  · exact hne he.symm

/-- The members that a set inherits obey the rules. -/
theorem followRules_inherits {first filled : SetTable} (h : g.firstTable = .ok first)
    {start : Nat} (hf : g.filledFollow first start = .ok filled) :
    g.FollowRules start (g.Inherits filled) := by
  obtain ⟨filled', hf', -, hfilled⟩ := hg.filledFollow_spec h start
  obtain rfl : filled = filled' := Except.ok.inj (hf.symm.trans hf')
  have hraw : ∀ {right u v : List Nat} {a : Nat}, g.form right = u ++ a :: v →
      ∃ before after, right = before ++ a :: after ∧ g.form after = v := by
    intro right u v a he
    obtain ⟨before, rest, hr, -, hrest⟩ := List.filter_eq_append_iff.1 he
    obtain ⟨skip, after, hs, -, -, ha⟩ := List.filter_eq_cons_iff.1 hrest
    exact ⟨before ++ skip, after, by rw [hr, hs, List.append_assoc], ha⟩
  constructor
  · refine ⟨start, .refl, (hfilled _ _).2 (.inl ⟨rfl, rfl⟩), ?_⟩
    exact not_isNonTerminal_of_isLookahead hg.isLookahead_endIndex
  · intro p hp u a v t he ha ht hb
    obtain ⟨before, after, hr, rfl⟩ := hraw he
    refine ⟨a, .refl, (hfilled a t).2 (.inr ⟨p, hp, before, after, hr, ha, .inl ⟨?_, ?_⟩⟩),
      not_isNonTerminal_of_isLookahead ht⟩
    · exact hg.ne_lambdaIndex_of_isLookahead ht
    · exact (hg.inFirst_of_isLookahead ht).2 hb
  · intro p hp u a v t he ha hv hl
    obtain ⟨before, after, hr, rfl⟩ := hraw he
    by_cases hne : p.left = a
    · exact hne ▸ hl
    obtain ⟨b, hb, hm, hn⟩ := hl
    refine ⟨b, .head ⟨(hfilled a p.left).2 (.inr ⟨p, hp, before, after, hr, ha, .inr ?_⟩),
      hg.left p hp⟩ hb, hm, hn⟩
    exact ⟨hg.inFirst_lambdaIndex.2 hv, hne, rfl⟩

/-- Nothing else is inherited than what follows. -/
theorem follows_of_inherits {first filled : SetTable} (h : g.firstTable = .ok first)
    {start : Nat} (hs : g.isNonTerminal start = true)
    (hf : g.filledFollow first start = .ok filled) {a t : Nat} (ht : g.Inherits filled a t) :
    g.Follows start a t := by
  obtain ⟨filled', hf', -, hfilled⟩ := hg.filledFollow_spec h start
  obtain rfl : filled = filled' := Except.ok.inj (hf.symm.trans hf')
  have hrules := followRules_follows hg start
  obtain ⟨b, hb, hm, hn⟩ := ht
  have form_append_cons : ∀ {before after : List Nat} {c : Nat}, g.isNonTerminal c = true →
      g.form (before ++ c :: after) = g.form before ++ c :: g.form after := fun hc => by
    rw [form_append, form_cons_of_ne (ne_lambda_of_isNonTerminal hc)]
  have hbt : g.Follows start b t := by
    rcases (hfilled b t).1 hm with ⟨rfl, rfl⟩ | ⟨p, hp, before, after, hr, hb, hx⟩
    · exact hrules.start
    · rcases hx with ⟨hl, hx⟩ | ⟨-, -, rfl⟩
      · obtain ⟨ht, hbeg⟩ := (inFirst_of_ne hl).1 hx
        exact hrules.behind p hp _ _ _ t (hr ▸ form_append_cons hb) hb ht hbeg
      · rw [hg.left p hp] at hn
        cases hn
  induction hb using Relation.ReflTransGen.head_induction_on with
  | refl => exact hbt
  | head hr _ ih =>
    obtain ⟨hm, hn⟩ := hr
    rcases (hfilled _ _).1 hm with ⟨rfl, rfl⟩ | ⟨p, hp, before, after, hr, hc, hx⟩
    · exact absurd rfl (hg.ne_endIndex_of_isNonTerminal hn)
    · rcases hx with ⟨hl, hx⟩ | ⟨hv, -, rfl⟩
      · have hlb := ((inFirst_of_ne hl).1 hx).1
        exact absurd rfl (ne_of_isLookahead hlb hn)
      · exact hrules.left p hp _ _ _ t (hr ▸ form_append_cons hc) hc
          (hg.inFirst_lambdaIndex.1 hv) ih

theorem mem_follow_iff {start : Nat} (hstart : g.start = some start)
    (hs : g.isNonTerminal start = true) {ff : FirstFollow} (h : g.firstFollow = .ok ff) {a : Nat}
    (ha : g.isNonTerminal a = true) (t : Nat) :
    t ∈ ff.follow.get a ↔ g.Follows start a t := by
  obtain ⟨start', filled, hstart', hfirst, hf, hfollow⟩ := parts_of_firstFollow h
  obtain rfl : start = start' := Option.some.inj (hstart.symm.trans hstart')
  rw [hfollow, mem_closeFollow (hg.not_mem_filled_self hfirst hs hf) ha]
  constructor
  · exact hg.follows_of_inherits hfirst hs hf
  · exact (hg.followRules_inherits hfirst hf).of_follows hg ha

theorem keyed_follow {start : Nat} (hstart : g.start = some start)
    (hs : g.isNonTerminal start = true) {ff : FirstFollow} (h : g.firstFollow = .ok ff) :
    g.Keyed ff.follow := by
  obtain ⟨start', filled, hstart', hfirst, hf, hfollow⟩ := parts_of_firstFollow h
  obtain rfl : start = start' := Option.some.inj (hstart.symm.trans hstart')
  obtain ⟨filled', hf', hk, -⟩ := hg.filledFollow_spec hfirst start
  obtain rfl : filled = filled' := Except.ok.inj (hf.symm.trans hf')
  rw [hfollow]
  refine Closure.settle_induct (P := fun c => g.Keyed c.follow) (fun c hc a ha => ?_) _ (hk hs) 0
  exact hc.replaceAll ha

end WellFormed

/-- FOLLOW of a non-terminal holds the lookaheads that stand behind it in some form, and the end
marker if a form derived from the start symbol ends with it. No set holds anything else. -/
theorem follow_exact (hg : g.WellFormed) {start : Nat} (hstart : g.start = some start)
    (hs : g.isNonTerminal start = true) {ff : FirstFollow} (h : g.firstFollow = .ok ff) :
    (∀ a, g.isNonTerminal a = true →
      ∃ set, ff.follow.get? a = some set ∧ ∀ t, t ∈ set ↔ g.isLookahead t = true ∧
        ((∃ x u v, g.isNonTerminal x = true ∧ g.Derives [x] (u ++ a :: t :: v)) ∨
          t = Symbol.endIndex ∧ ∃ u, g.Derives [start] (u ++ [a]))) ∧
    ∀ a set, ff.follow.get? a = some set →
      ∀ t ∈ set, g.isNonTerminal t = false ∧ g.symbols[t]? ≠ some .lambda := by
  have hexact : ∀ a set, ff.follow.get? a = some set → ∀ t, t ∈ set ↔ g.Follows start a t := by
    intro a set hset t
    have hkey := hg.keyed_follow hstart hs h a
    rw [hset] at hkey
    have hmem := hg.mem_follow_iff hstart hs h hkey.symm t
    rwa [SetTable.get, hset] at hmem
  constructor
  · intro a ha
    have hkey := hg.keyed_follow hstart hs h a
    obtain ⟨set, hset⟩ := Option.isSome_iff_exists.1 (hkey.trans ha)
    exact ⟨set, hset, hexact a set hset⟩
  · intro a set hset t ht
    have hl := ((hexact a set hset t).1 ht).1
    exact ⟨not_isNonTerminal_of_isLookahead hl, ne_lambda_of_isLookahead hl⟩

/-- `<A>` ends with `<B>`, which ends with `<A>`, and `<B>` alone is behind an `a`. -/
def knotted : Grammar where
  symbols := [.lambda, .endMarker, .nonTerminal "<S>", .nonTerminal "<A>", .nonTerminal "<B>",
    .terminal "a", .terminal "b"]
  names := []
  productions := [⟨2, [3, 5]⟩, ⟨3, [6, 4]⟩, ⟨4, [5, 3]⟩, ⟨4, []⟩]
  start := some 2

def knottedSets : FirstFollow where
  first := ⟨[(3, .ofList [6]), (2, .ofList [6]), (4, .ofList [0, 5])]⟩
  follow := ⟨[(2, .ofList [1]), (3, .ofList [5]), (4, .ofList [5])]⟩

theorem follow_exact_knotted : ∃ x u v, knotted.Derives [x] (u ++ 4 :: 5 :: v) := by
  have hsets : knotted.firstFollow = .ok knottedSets := rfl
  obtain ⟨set, hset, hexact⟩ := (follow_exact ⟨rfl, rfl, by decide, by decide⟩
    (rfl : knotted.start = some 2) rfl hsets).1 4 rfl
  have he : some (SymbolSet.ofList [5]) = some set := hset
  obtain rfl := Option.some.inj he
  rcases ((hexact 5).1 (by decide)).2 with ⟨x, u, v, -, hd⟩ | ⟨h1, -⟩
  · exact ⟨x, u, v, hd⟩
  · cases h1

end LLOne.Grammar

import LLOne.Proofs.Grammar.WellFormed

/-!
# What can follow a non-terminal

`Follows` speaks of derivations from any non-terminal. The same relation is the least one that
obeys three rules about single productions, which is how the sets are computed.
-/

namespace LLOne.Grammar

variable (g : Grammar)

/-- Some form has `t` directly behind `a`, or `t` is the end marker and a form that derives from
the start symbol ends with `a`. -/
def Follows (start a t : Nat) : Prop :=
  g.isLookahead t = true ∧
    ((∃ x u v, g.isNonTerminal x = true ∧ g.Derives [x] (u ++ a :: t :: v)) ∨
      t = Symbol.endIndex ∧ ∃ u, g.Derives [start] (u ++ [a]))

structure FollowRules (start : Nat) (fol : Nat → Nat → Prop) : Prop where
  start : fol start Symbol.endIndex
  behind : ∀ p ∈ g.productions, ∀ u a v t, g.form p.right = u ++ a :: v →
    g.isNonTerminal a = true → g.isLookahead t = true → g.Begins v t → fol a t
  left : ∀ p ∈ g.productions, ∀ u a v t, g.form p.right = u ++ a :: v →
    g.isNonTerminal a = true → g.Vanishes v → fol p.left t → fol a t

variable {g}

theorem followRules_follows (hg : g.WellFormed) (start : Nat) :
    g.FollowRules start (g.Follows start) where
  start := ⟨hg.isLookahead_endIndex, .inr ⟨rfl, [], .refl [start]⟩⟩
  behind p hp u a v t hf ha ht := by
    intro h
    obtain ⟨w, hw⟩ := h
    have hd := Derives.of_mem hp
    rw [hf] at hd
    refine ⟨ht, .inl ⟨p.left, u, w, hg.left p hp, hd.trans ?_⟩⟩
    exact (Derives.refl u).append ((Derives.refl [a]).append hw)
  left p hp u a v t hf ha hv hl := by
    have hd := Derives.of_mem hp
    rw [hf] at hd
    have hua : g.Derives [p.left] (u ++ [a]) := by
      have hsplit := (Derives.refl (g := g) u).append ((Derives.refl [a]).append hv)
      exact hd.trans hsplit
    obtain ⟨ht, ⟨x, u', v', hx, hd'⟩ | ⟨rfl, u', hd'⟩⟩ := hl
    · refine ⟨ht, .inl ⟨x, u' ++ u, v', hx, hd'.trans ?_⟩⟩
      have := (Derives.refl u').append (hua.append (Derives.refl (g := g) (t :: v')))
      simpa only [List.append_assoc, List.cons_append, List.nil_append] using this
    · refine ⟨ht, .inr ⟨rfl, u' ++ u, hd'.trans ?_⟩⟩
      have := (Derives.refl u').append hua
      simpa only [List.append_assoc] using this

/-- In every form that derives from `x`, the rules give what stands behind `a` there, and all
that follows `x` if the rest of the form can vanish. -/
theorem FollowRules.of_derives (hg : g.WellFormed) {start : Nat} {fol : Nat → Nat → Prop}
    (hrules : g.FollowRules start fol) {x : Nat} {w : List Nat} (hd : g.Derives [x] w)
    (u : List Nat) {a : Nat} (v : List Nat) (hw : w = u ++ a :: v)
    (ha : g.isNonTerminal a = true) :
    (∀ t, g.isLookahead t = true → g.Begins v t → fol a t) ∧
      (g.Vanishes v → ∀ t, fol x t → fol a t) := by
  induction hd generalizing u a v with
  | refl =>
    obtain ⟨-, hc⟩ | ⟨-, hc⟩ := List.append_eq_singleton_iff.1 hw.symm
    · obtain ⟨rfl, rfl⟩ := List.cons.inj hc
      exact ⟨fun t _ hb => absurd hb (not_begins_nil t), fun _ _ ht => ht⟩
    · cases hc
  | tail _ hs ih =>
    obtain ⟨before, p, after, hp⟩ := hs
    rcases eq_append_cons_cases hw with ⟨r, rfl, rfl⟩ | ⟨r, hr, rfl⟩
    · obtain ⟨hb, hv⟩ := ih u (r ++ p.left :: after) (List.append_assoc ..) ha
      have hd : g.Derives (r ++ p.left :: after) (r ++ (g.form p.right ++ after)) :=
        .single (.replace r p after hp)
      exact ⟨fun t ht h => hb t ht (.of_derives hd h), fun h => hv (hd.trans h)⟩
    · rcases eq_append_cons_cases hr with ⟨s, hs, rfl⟩ | ⟨s, rfl, rfl⟩
      · obtain ⟨hb, hv⟩ := ih before after rfl (hg.left p hp)
        refine ⟨fun t ht h => ?_, fun h t ht => ?_⟩
        · rcases begins_append_iff.1 h with h | ⟨hs', h⟩
          · exact hrules.behind p hp _ _ _ t hs ha ht h
          · exact hrules.left p hp _ _ _ t hs ha hs' (hb t ht h)
        · obtain ⟨hs', ha'⟩ := vanishes_append_iff.1 h
          exact hrules.left p hp _ _ _ t hs ha hs' (hv ha' t ht)
      · exact ih (before ++ p.left :: s) v (by simp only [List.append_assoc, List.cons_append]) ha

/-- The rules hold of nothing less. -/
theorem FollowRules.of_follows (hg : g.WellFormed) {start : Nat} {fol : Nat → Nat → Prop}
    (hrules : g.FollowRules start fol) {a t : Nat} (ha : g.isNonTerminal a = true)
    (ht : g.Follows start a t) : fol a t := by
  obtain ⟨hl, ⟨x, u, v, -, hd⟩ | ⟨rfl, u, hd⟩⟩ := ht
  · exact (hrules.of_derives hg hd u (t :: v) rfl ha).1 t hl ⟨v, .refl _⟩
  · exact (hrules.of_derives hg hd u [] rfl ha).2 vanishes_nil _ hrules.start

end LLOne.Grammar

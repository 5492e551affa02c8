import Mathlib.Data.List.Basic

/-!
# Lists

What the other modules need to know of parts of lists: where a member stands in a list that is put
together, and where two parts meet.
-/

namespace LLOne

/-- A member of two parts side by side is a member of one of them. -/
theorem eq_append_cons_cases {α : Type} {s t u v : List α} {a : α} (h : s ++ t = u ++ a :: v) :
    (∃ r, s = u ++ a :: r ∧ v = r ++ t) ∨ ∃ r, t = r ++ a :: v ∧ u = s ++ r := by
  rcases List.append_eq_append_iff.1 h with ⟨r, hu, ht⟩ | ⟨r, hs, hr⟩
  · exact .inr ⟨r, ht, hu⟩
  · cases r with
    | nil =>
      rw [List.append_nil] at hs
      exact .inr ⟨[], hr.symm, by rw [List.append_nil, hs]⟩
    | cons b r =>
      obtain ⟨rfl, rfl⟩ := List.cons.inj hr
      exact .inl ⟨r, hs, rfl⟩

/-- Two parts that end where a property of their members ends. -/
theorem append_inj_of_forall {α : Type} {p : α → Bool} {u v r s : List α}
    (hu : ∀ x ∈ u, p x = true) (hv : ∀ x ∈ v, p x = true)
    (hr : ∀ x ∈ r.head?, p x = false) (hs : ∀ x ∈ s.head?, p x = false)
    (h : u ++ r = v ++ s) : u = v ∧ r = s := by
  have hfront : ∀ {l rest : List α}, (∀ x ∈ l, p x = true) → (∀ x ∈ rest.head?, p x = false) →
      (l ++ rest).takeWhile p = l := by
    intro l rest hl hrest
    have hstop : rest.takeWhile p = [] := by
      cases rest with
      | nil => rfl
      | cons x rest => simp [hrest x rfl]
    rw [List.takeWhile_append_of_pos hl, hstop, List.append_nil]
  obtain rfl : u = v := by rw [← hfront hu hr, h, hfront hv hs]
  exact ⟨rfl, List.append_cancel_left h⟩

/-- A member that does not stand behind `c` stands in front of it. -/
theorem mem_front_of_pairwise {α : Type} {r : α → α → Prop} {l before after : List α} {c d : α}
    (hl : l.Pairwise r) (he : l = before ++ c :: after) (hd : d ∈ l) (hne : d ≠ c)
    (hr : ¬ r c d) : d ∈ before := by
  subst he
  rcases List.mem_append.1 hd with hd | hd
  · exact hd
  rcases List.mem_cons.1 hd with rfl | hd
  · exact absurd rfl hne
  · exact absurd ((List.pairwise_cons.1 (List.pairwise_append.1 hl).2.1).1 d hd) hr

/-- A member of a list put together from parts stands in one of the parts. -/
theorem exists_part_of_flatMap {α β : Type} {f : α → List β} {l : List α} {before after : List β}
    {c : β} (h : l.flatMap f = before ++ c :: after) :
    ∃ l₁ a l₂ front back, l = l₁ ++ a :: l₂ ∧ f a = front ++ c :: back ∧
      before = l₁.flatMap f ++ front := by
  induction l generalizing before with
  | nil =>
    exact absurd h.symm (List.append_ne_nil_of_right_ne_nil before (List.cons_ne_nil c after))
  | cons a l ih =>
    rw [List.flatMap_cons] at h
    rcases eq_append_cons_cases h with ⟨back, ha, -⟩ | ⟨front, hl, rfl⟩
    · exact ⟨[], a, l, before, back, rfl, ha, rfl⟩
    · obtain ⟨l₁, b, l₂, front', back, rfl, hb, rfl⟩ := ih hl
      refine ⟨a :: l₁, b, l₂, front', back, rfl, hb, ?_⟩
      rw [List.flatMap_cons, List.append_assoc]

theorem eraseDups_append_singleton {α : Type} [BEq α] [LawfulBEq α] (l : List α) (a : α)
    [Decidable (a ∈ l)] :
    (l ++ [a]).eraseDups = if a ∈ l then l.eraseDups else l.eraseDups ++ [a] := by
  rw [List.eraseDups_append]
  split
  next ha => simp [List.removeAll, ha]
  next ha => simp [List.removeAll, ha, List.eraseDups_cons]

theorem mapM_eq_pure {α β : Type} {m : Type → Type} [Monad m] [LawfulMonad m] {f : α → m β}
    {k : α → β} {l : List α} (h : ∀ a ∈ l, f a = pure (k a)) : l.mapM f = pure (l.map k) := by
  induction l with
  | nil => exact List.mapM_nil
  | cons a l ih =>
    rw [List.forall_mem_cons] at h
    rw [List.mapM_cons, h.1, ih h.2, pure_bind, pure_bind, List.map_cons]

end LLOne

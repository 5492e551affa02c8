import LLOne.Grammar.Basic
import LLOne.Proofs.Lists
import Mathlib.Logic.Relation

/-!
# Derivations

A form is a sequence of symbols without `λ`. A step replaces a symbol of a form by a right side
of it, from which every `λ` is left out. What derives from two forms side by side is what derives
from each of them, so what a form can begin with and whether it can vanish is found from left to
right, symbol by symbol.
-/

namespace LLOne.Grammar

variable (g : Grammar)

/-- The sequence without the symbols that are `λ`. -/
def form (symbols : List Nat) : List Nat :=
  symbols.filter fun x => g.symbols[x]? != some .lambda

inductive Step : List Nat → List Nat → Prop
  | replace (before : List Nat) (p : Production) (after : List Nat) (h : p ∈ g.productions) :
    Step (before ++ p.left :: after) (before ++ (g.form p.right ++ after))

def Derives : List Nat → List Nat → Prop := Relation.ReflTransGen g.Step

def Begins (u : List Nat) (t : Nat) : Prop := ∃ v, g.Derives u (t :: v)

def Vanishes (u : List Nat) : Prop := g.Derives u []

variable {g}

@[simp] theorem form_nil : g.form [] = [] := rfl

@[simp] theorem form_append (u v : List Nat) : g.form (u ++ v) = g.form u ++ g.form v := by
  simp [form]

theorem form_cons_lambda {x : Nat} (hx : g.symbols[x]? = some .lambda) (u : List Nat) :
    g.form (x :: u) = g.form u := by
  simp [form, hx]

theorem form_cons_of_ne {x : Nat} (hx : g.symbols[x]? ≠ some .lambda) (u : List Nat) :
    g.form (x :: u) = x :: g.form u := by
  simp [form, hx]

theorem mem_form {x : Nat} {u : List Nat} :
    x ∈ g.form u ↔ x ∈ u ∧ g.symbols[x]? ≠ some .lambda := by
  simp [form]

/-! ## Steps in parts of a form -/

theorem Step.append_left {v w : List Nat} (u : List Nat) (h : g.Step v w) :
    g.Step (u ++ v) (u ++ w) := by
  obtain ⟨before, p, after, hp⟩ := h
  simpa only [List.append_assoc] using Step.replace (u ++ before) p after hp

theorem Step.append_right {u w : List Nat} (v : List Nat) (h : g.Step u w) :
    g.Step (u ++ v) (w ++ v) := by
  obtain ⟨before, p, after, hp⟩ := h
  simpa only [List.append_assoc, List.cons_append] using Step.replace before p (after ++ v) hp

/-- A step replaces a symbol of one of two parts. -/
theorem Step.of_append {u v w : List Nat} (h : g.Step (u ++ v) w) :
    (∃ u', w = u' ++ v ∧ g.Step u u') ∨ ∃ v', w = u ++ v' ∧ g.Step v v' := by
  generalize hs : u ++ v = s at h
  obtain ⟨before, p, after, hp⟩ := h
  rcases eq_append_cons_cases hs with ⟨r, rfl, rfl⟩ | ⟨r, rfl, rfl⟩
  · exact .inl ⟨_, by simp only [List.append_assoc], .replace before p r hp⟩
  · exact .inr ⟨_, by simp only [List.append_assoc], .replace r p after hp⟩

theorem Derives.refl (u : List Nat) : g.Derives u u := Relation.ReflTransGen.refl

theorem Derives.trans {u v w : List Nat} (h : g.Derives u v) (h' : g.Derives v w) :
    g.Derives u w := Relation.ReflTransGen.trans h h'

theorem Derives.of_mem {p : Production} (h : p ∈ g.productions) :
    g.Derives [p.left] (g.form p.right) := by
  have hs := Step.replace [] p [] h
  rw [List.nil_append, List.nil_append, List.append_nil] at hs
  exact .single hs

theorem Derives.append {u v u' v' : List Nat} (h : g.Derives u u') (h' : g.Derives v v') :
    g.Derives (u ++ v) (u' ++ v') :=
  .trans (Relation.ReflTransGen.lift (· ++ v) (fun _ _ hs => Step.append_right v hs) _ _ h)
    (Relation.ReflTransGen.lift (u' ++ ·) (fun _ _ hs => Step.append_left u' hs) _ _ h')

theorem derives_append_iff {u v w : List Nat} :
    g.Derives (u ++ v) w ↔ ∃ u' v', w = u' ++ v' ∧ g.Derives u u' ∧ g.Derives v v' := by
  constructor
  · intro h
    induction h with
    | refl => exact ⟨u, v, rfl, .refl u, .refl v⟩
    | tail _ hs ih =>
      obtain ⟨u', v', rfl, hu, hv⟩ := ih
      rcases hs.of_append with ⟨u'', rfl, hs'⟩ | ⟨v'', rfl, hs'⟩
      · exact ⟨u'', v', rfl, hu.tail hs', hv⟩
      · exact ⟨u', v'', rfl, hu, hv.tail hs'⟩
  · intro h
    obtain ⟨u', v', rfl, hu, hv⟩ := h
    exact hu.append hv

theorem derives_cons_iff {x : Nat} {u w : List Nat} :
    g.Derives (x :: u) w ↔ ∃ v u', w = v ++ u' ∧ g.Derives [x] v ∧ g.Derives u u' :=
  derives_append_iff (u := [x])

/-- A derivation from a single symbol is empty or starts with one of its right sides. -/
theorem derives_singleton_iff {a : Nat} {w : List Nat} :
    g.Derives [a] w ↔
      w = [a] ∨ ∃ p ∈ g.productions, p.left = a ∧ g.Derives (g.form p.right) w := by
  constructor
  · intro h
    rcases Relation.ReflTransGen.cases_head h with rfl | ⟨v, hs, hv⟩
    · exact .inl rfl
    · right
      generalize hu : [a] = u at hs
      obtain ⟨before, p, after, hp⟩ := hs
      obtain ⟨rfl, hc⟩ | ⟨_, hc⟩ := List.append_eq_singleton_iff.1 hu.symm
      · obtain ⟨hl, rfl⟩ := List.cons.inj hc
        rw [List.nil_append, List.append_nil] at hv
        exact ⟨p, hp, hl, hv⟩
      · cases hc
  · intro h
    rcases h with rfl | ⟨p, hp, rfl, hw⟩
    · exact .refl _
    · exact (Derives.of_mem hp).trans hw

@[simp] theorem derives_nil_iff {w : List Nat} : g.Derives [] w ↔ w = [] := by
  constructor
  · intro h
    rcases Relation.ReflTransGen.cases_head h with rfl | ⟨v, hs, -⟩
    · rfl
    · generalize hu : ([] : List Nat) = u at hs
      obtain ⟨before, p, after, -⟩ := hs
      cases before <;> cases hu
  · rintro rfl
    exact .refl []

/-- What no production has on its left side stays. -/
theorem derives_singleton_of_not_left {t : Nat} (ht : ∀ p ∈ g.productions, p.left ≠ t)
    {w : List Nat} : g.Derives [t] w ↔ w = [t] := by
  rw [derives_singleton_iff]
  exact or_iff_left fun ⟨p, hp, hl, _⟩ => ht p hp hl

/-- A symbol that is in no right side does not come about. -/
theorem Derives.not_mem {x : Nat} (hx : ∀ p ∈ g.productions, x ∉ p.right) {u w : List Nat}
    (h : g.Derives u w) (hu : x ∉ u) : x ∉ w := by
  induction h with
  | refl => exact hu
  | tail _ hs ih =>
    obtain ⟨before, p, after, hp⟩ := hs
    have hright : x ∉ g.form p.right := fun hm => hx p hp (mem_form.1 hm).1
    simp only [List.mem_append, List.mem_cons, not_or] at ih ⊢
    exact ⟨ih.1, hright, ih.2.2⟩

/-! ## Beginnings -/

@[simp] theorem vanishes_nil : g.Vanishes [] := Derives.refl []

theorem vanishes_append_iff {u v : List Nat} :
    g.Vanishes (u ++ v) ↔ g.Vanishes u ∧ g.Vanishes v := by
  constructor
  · intro h
    obtain ⟨u', v', hw, hu, hv⟩ := derives_append_iff.1 h
    obtain ⟨rfl, rfl⟩ := List.append_eq_nil_iff.1 hw.symm
    exact ⟨hu, hv⟩
  · intro h
    obtain ⟨hu, hv⟩ := h
    exact hu.append hv

theorem not_begins_nil (t : Nat) : ¬ g.Begins [] t := by
  intro h
  obtain ⟨v, hv⟩ := h
  exact List.cons_ne_nil t v (derives_nil_iff.1 hv)

theorem begins_append_iff {u v : List Nat} {t : Nat} :
    g.Begins (u ++ v) t ↔ g.Begins u t ∨ g.Vanishes u ∧ g.Begins v t := by
  constructor
  · intro h
    obtain ⟨w, hw⟩ := h
    obtain ⟨u', v', he, hu, hv⟩ := derives_append_iff.1 hw
    cases u' with
    | nil => exact .inr ⟨hu, w, he ▸ hv⟩
    | cons x u' =>
      obtain ⟨rfl, -⟩ := List.cons.inj he
      exact .inl ⟨u', hu⟩
  · intro h
    rcases h with ⟨w, hw⟩ | ⟨hu, w, hw⟩
    · exact ⟨w ++ v, hw.append (.refl v)⟩
    · exact ⟨w, hu.append hw⟩

theorem Begins.of_derives {u v : List Nat} {t : Nat} (h : g.Derives u v) (hv : g.Begins v t) :
    g.Begins u t := by
  obtain ⟨w, hw⟩ := hv
  exact ⟨w, h.trans hw⟩

end LLOne.Grammar

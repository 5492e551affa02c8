import LLOne.Proofs.Grammar.Derivation

/-!
# Well-formed grammars

In a well-formed grammar `λ` and the end marker have their places, every symbol of a right side
exists, and left sides are non-terminals. Right sides may be empty or hold `λ` anywhere, and a
non-terminal may be without productions. Terminals and end markers then derive only themselves.
-/

namespace LLOne.Grammar

structure WellFormed (g : Grammar) : Prop where
  lambda : g.symbols[Symbol.lambdaIndex]? = some .lambda
  endMarker : g.symbols[Symbol.endIndex]? = some .endMarker
  left : ∀ p ∈ g.productions, g.isNonTerminal p.left = true
  right : ∀ p ∈ g.productions, ∀ x ∈ p.right, x < g.symbols.length

variable {g : Grammar}

/-! ## Kinds of symbols -/

theorem isNonTerminal_iff {x : Nat} :
    g.isNonTerminal x = true ↔ ∃ name, g.symbols[x]? = some (.nonTerminal name) := by
  unfold isNonTerminal
  cases hx : g.symbols[x]? with
  | none => simp
  | some symbol => cases symbol <;> simp [Symbol.isNonTerminal]

theorem not_isNonTerminal_of_getElem? {x : Nat} {symbol : Symbol} (hx : g.symbols[x]? = some symbol)
    (hs : ∀ name, symbol ≠ .nonTerminal name) : g.isNonTerminal x = false := by
  rw [isNonTerminal, hx, Option.any_some]
  cases symbol with
  | nonTerminal name => exact absurd rfl (hs name)
  | _ => rfl

theorem isLookahead_iff {x : Nat} :
    g.isLookahead x = true ↔
      g.symbols[x]? = some .endMarker ∨ ∃ name, g.symbols[x]? = some (.terminal name) := by
  unfold isLookahead
  cases hx : g.symbols[x]? with
  | none => simp
  | some symbol => cases symbol <;> simp [Symbol.isLookahead]

theorem ne_lambda_of_isNonTerminal {x : Nat} (hx : g.isNonTerminal x = true) :
    g.symbols[x]? ≠ some .lambda := by
  obtain ⟨name, hn⟩ := isNonTerminal_iff.1 hx
  simp [hn]

theorem ne_lambda_of_isLookahead {x : Nat} (hx : g.isLookahead x = true) :
    g.symbols[x]? ≠ some .lambda := by
  rcases isLookahead_iff.1 hx with hn | ⟨name, hn⟩ <;> simp [hn]

theorem not_isNonTerminal_of_isLookahead {x : Nat} (hx : g.isLookahead x = true) :
    g.isNonTerminal x = false := by
  rcases isLookahead_iff.1 hx with hn | ⟨name, hn⟩ <;>
    simp [isNonTerminal, hn, Symbol.isNonTerminal]

theorem ne_of_isLookahead {x y : Nat} (hx : g.isLookahead x = true)
    (hy : g.isNonTerminal y = true) : y ≠ x := by
  intro h
  rw [h, not_isNonTerminal_of_isLookahead hx] at hy
  cases hy

/-- A symbol of a form is a non-terminal or can be looked ahead for. -/
theorem isNonTerminal_or_isLookahead {x : Nat} (hx : x < g.symbols.length)
    (hl : g.symbols[x]? ≠ some .lambda) :
    g.isNonTerminal x = true ∨ g.isLookahead x = true := by
  rw [isNonTerminal_iff, isLookahead_iff]
  rw [List.getElem?_eq_getElem hx] at hl ⊢
  generalize g.symbols[x] = symbol at hl
  cases symbol with
  | lambda => exact absurd rfl hl
  | endMarker => exact .inr (.inl rfl)
  | nonTerminal name => exact .inl ⟨name, rfl⟩
  | terminal name => exact .inr (.inr ⟨name, rfl⟩)

/-! ## Right sides -/

/-- A non-terminal begins with what its right sides begin with. -/
theorem begins_nonTerminal {a t : Nat} (ha : g.isNonTerminal a = true)
    (ht : g.isLookahead t = true) :
    g.Begins [a] t ↔ ∃ right ∈ g.rightsOf a, g.Begins (g.form right) t := by
  constructor
  · intro h
    obtain ⟨v, hv⟩ := h
    rcases derives_singleton_iff.1 hv with he | ⟨p, hp, rfl, hd⟩
    · have hat := (List.cons.inj he).1
      exact absurd hat.symm (ne_of_isLookahead ht ha)
    · exact ⟨p.right, g.mem_rightsOf.2 hp, v, hd⟩
  · intro h
    obtain ⟨right, hr, v, hv⟩ := h
    exact ⟨v, (Derives.of_mem (g.mem_rightsOf.1 hr)).trans hv⟩

theorem vanishes_nonTerminal {a : Nat} :
    g.Vanishes [a] ↔ ∃ right ∈ g.rightsOf a, g.Vanishes (g.form right) := by
  constructor
  · intro h
    rcases derives_singleton_iff.1 h with he | ⟨p, hp, rfl, hd⟩
    · cases he
    · exact ⟨p.right, g.mem_rightsOf.2 hp, hd⟩
  · intro h
    obtain ⟨right, hr, hv⟩ := h
    exact (Derives.of_mem (g.mem_rightsOf.1 hr)).trans hv

namespace WellFormed

variable (hg : g.WellFormed)

include hg

theorem isLookahead_endIndex : g.isLookahead Symbol.endIndex = true :=
  isLookahead_iff.2 (.inl hg.endMarker)

theorem not_isLookahead_lambdaIndex : g.isLookahead Symbol.lambdaIndex = false := by
  simp [isLookahead, hg.lambda, Symbol.isLookahead]

theorem ne_lambdaIndex_of_isLookahead {t : Nat} (ht : g.isLookahead t = true) :
    t ≠ Symbol.lambdaIndex := by
  rintro rfl
  rw [hg.not_isLookahead_lambdaIndex] at ht
  cases ht

/-- The symbols of the form of a right side. -/
theorem mem_form_right {p : Production} (hp : p ∈ g.productions) {x : Nat}
    (hx : x ∈ g.form p.right) : g.isNonTerminal x = true ∨ g.isLookahead x = true := by
  obtain ⟨hm, hl⟩ := mem_form.1 hx
  exact isNonTerminal_or_isLookahead (hg.right p hp x hm) hl

/-! ## What begins with what -/

theorem derives_lookahead {t : Nat} (ht : g.isLookahead t = true) {w : List Nat} :
    g.Derives [t] w ↔ w = [t] := by
  apply derives_singleton_of_not_left
  intro p hp
  exact ne_of_isLookahead ht (hg.left p hp)

theorem not_vanishes_lookahead {t : Nat} (ht : g.isLookahead t = true) : ¬ g.Vanishes [t] := by
  intro h
  cases (hg.derives_lookahead ht).1 h

theorem begins_lookahead {x t : Nat} (hx : g.isLookahead x = true) :
    g.Begins [x] t ↔ t = x := by
  constructor
  · intro h
    obtain ⟨v, hv⟩ := h
    exact (List.cons.inj ((hg.derives_lookahead hx).1 hv)).1
  · rintro rfl
    exact ⟨[], .refl [t]⟩

end WellFormed

end LLOne.Grammar

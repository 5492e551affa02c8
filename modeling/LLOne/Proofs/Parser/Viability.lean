import LLOne.Proofs.Parser.Completeness

/-!
# What is read can be continued, and only as it is

What has been read when a reading gets stuck, and the symbol expected then, derive from what was to
be read. Nothing derives from it that goes on with the next token: as long as a derivation shows the
tokens, the table leads along its right sides, so the reading does not get stuck before the
derivation differs from the tokens.
-/

namespace LLOne

namespace Grammar

variable {g : Grammar}

theorem WellFormed.derives_cons_lookahead_iff (hg : g.WellFormed) {x : Nat}
    (hx : g.isLookahead x = true) {u w : List Nat} :
    g.Derives (x :: u) w ↔ ∃ w', w = x :: w' ∧ g.Derives u w' := by
  rw [derives_cons_iff]
  constructor
  · rintro ⟨v, w', rfl, hv, hw⟩
    obtain rfl := (hg.derives_lookahead hx).1 hv
    exact ⟨w', rfl, hw⟩
  · rintro ⟨w', rfl, hw⟩
    exact ⟨[x], w', rfl, .refl [x], hw⟩

/-- What comes behind a symbol in a form that derives from the start symbol with the end marker
follows that symbol. -/
theorem WellFormed.follows_of_derives (hg : g.WellFormed) {start a t : Nat}
    (hs : g.isNonTerminal start = true) (ht : g.isLookahead t = true) {u v : List Nat}
    (h : g.Derives [start, Symbol.endIndex] (u ++ a :: t :: v)) : g.Follows start a t := by
  refine ⟨ht, ?_⟩
  obtain ⟨w, e, he, hw, hend⟩ := derives_cons_iff.1 h
  obtain rfl := (hg.derives_lookahead hg.isLookahead_endIndex).1 hend
  rcases eq_append_cons_cases he.symm with ⟨r, rfl, hr⟩ | ⟨r, hr, -⟩
  · cases r with
    | nil =>
      obtain ⟨rfl, -⟩ := List.cons.inj hr
      exact .inr ⟨rfl, u, hw⟩
    | cons x r =>
      obtain ⟨rfl, -⟩ := List.cons.inj hr
      exact .inl ⟨start, u, r, hs, hw⟩
  · cases r with
    | nil => cases hr
    | cons x r => cases r <;> cases hr

end Grammar

namespace Parser

variable {p : Parser}

def Meets (p : Parser) (i : List Token) (w : List Nat) : Prop :=
  ∃ t v, p.lookahead i = some t ∧ w = t :: v

theorem isLookahead_of_lookahead (hp : p.Built) {i : List Token} {t : Nat}
    (h : p.lookahead i = some t) : p.grammar.isLookahead t = true := by
  cases i with
  | nil =>
    obtain rfl := Option.some.inj h
    exact hp.consistent.isLookahead_endIndex
  | cons _ _ => exact isLookahead_of_classOf h

theorem Consumes.meets {i i' : List Token} {y w : List Nat} (h : p.Consumes i y i')
    (hw : p.Meets i' w) : p.Meets i (y ++ w) := by
  cases h with
  | nil => exact hw
  | token hx _ => exact ⟨_, _, hx, rfl⟩
  | beyond _ => exact ⟨_, _, rfl, rfl⟩

/-! ## Derivations lead through the table -/

section

variable (hp : p.Built) {i i' : List Token} {before after w : List Nat}

include hp

/-- If what derives begins with the next token, the cell for that token has the right side that the
derivation uses. -/
theorem exists_cell_of_derives {x : Nat} (hx : p.grammar.isNonTerminal x = true)
    (hs : p.grammar.Derives [p.start, Symbol.endIndex] (before ++ x :: after))
    (hw : p.Meets i w) (hd : p.grammar.Derives (x :: after) w) :
    ∃ q, (p.lookahead i).bind (p.table.get? x) = some q ∧
      p.grammar.Derives (p.symbolsOf q ++ after) w := by
  obtain ⟨t, v, hi, rfl⟩ := hw
  have ht := isLookahead_of_lookahead hp hi
  obtain ⟨w₁, w₂, hw, hd₁, hd₂⟩ := Grammar.derives_cons_iff.1 hd
  rcases Grammar.derives_singleton_iff.1 hd₁ with rfl | ⟨production, hm, rfl, hr⟩
  · obtain ⟨rfl, -⟩ := List.cons.inj hw
    exact absurd rfl (Grammar.ne_of_isLookahead ht hx)
  have hpredicts : p.grammar.Predicts p.sets production t := by
    cases w₁ with
    | nil =>
      obtain rfl : t :: v = w₂ := hw
      have hform := hs.trans (.append (.refl before) (.append (.refl [production.left]) hd₂))
      refine .inr ⟨hr, ?_⟩
      rw [hp.consistent.mem_follow_iff hp.start hp.nonTerminal hp.sets hx]
      exact hp.consistent.follows_of_derives hp.nonTerminal ht hform
    | cons x w₁ =>
      obtain ⟨rfl, -⟩ := List.cons.inj hw
      exact .inl ⟨ht, w₁, hr⟩
  obtain ⟨q, hq, hsymbols⟩ := hp.exists_cell hm hpredicts
  refine ⟨q, by rw [hi]; exact hq, ?_⟩
  rw [hw, hsymbols]
  exact hr.append hd₂

/-- The right side in a cell replaces the non-terminal. -/
theorem derives_of_cell {u : List Nat} {x q : Nat}
    (hq : (p.lookahead i).bind (p.table.get? x) = some q)
    (h : p.grammar.Derives u (before ++ x :: after)) :
    p.grammar.Derives u (before ++ (p.symbolsOf q ++ after)) := by
  obtain ⟨production, hm, rfl, hsymbols⟩ := hp.of_cell hq
  rw [hsymbols]
  exact h.tail (.replace before production after hm)

/-- What derives from the symbols of a reading and others behind them, and shows what is read and
the next token, derives from the others behind what is read. -/
theorem Reads.derives_behind {k : Nat} {u : List Nat} {d : Shape} {f : Forest}
    (h : p.Reads k u i d f i')
    (hs : p.grammar.Derives [p.start, Symbol.endIndex] (before ++ (u ++ after)))
    (hw : p.Meets i' w) (hd : p.grammar.Derives (u ++ after) (d.yield ++ w)) :
    p.grammar.Derives after w := by
  induction h generalizing before after w with
  | nil => exact hd
  | @token k x u t i i' d f hx _ ih =>
    obtain ⟨w', hw', hd⟩ :=
      (hp.consistent.derives_cons_lookahead_iff (isLookahead_of_classOf hx)).1 hd
    obtain ⟨-, rfl⟩ := List.cons.inj hw'
    rw [List.cons_append, List.append_cons] at hs
    exact ih hs hw hd
  | @beyond k u i' d f _ ih =>
    obtain ⟨w', hw', hd⟩ :=
      (hp.consistent.derives_cons_lookahead_iff hp.consistent.isLookahead_endIndex).1 hd
    obtain ⟨-, rfl⟩ := List.cons.inj hw'
    rw [List.cons_append, List.append_cons] at hs
    exact ih hs hw hd
  | @node k x q u i i₁ i' c d fc f hx hq hc h ihc ih =>
    rw [Shape.yield, List.append_assoc] at hd
    have hw₁ := h.consumes.meets hw
    obtain ⟨q', hq', hd'⟩ := exists_cell_of_derives hp hx hs (hc.consumes.meets hw₁) hd
    obtain rfl := Option.some.inj (hq.symm.trans hq')
    have hrest := ihc (derives_of_cell hp hq hs) hw₁ hd'
    rw [List.cons_append, List.append_cons] at hs
    exact ih hs hw hrest

/-- Nothing derives that goes on with the next token where a reading is stuck. -/
theorem Stuck.not_derives {u y : List Nat} {n z : Nat} (h : p.Stuck u i n y z i')
    (hs : p.grammar.Derives [p.start, Symbol.endIndex] (before ++ (u ++ after)))
    (hw : p.Meets i' w) : ¬ p.grammar.Derives (u ++ after) (y ++ w) := by
  intro hd
  induction h generalizing before after with
  | terminal hx hi u =>
    obtain ⟨t, v, ht, rfl⟩ := hw
    obtain ⟨w', hw', -⟩ := (hp.consistent.derives_cons_lookahead_iff hx).1 hd
    obtain ⟨rfl, -⟩ := List.cons.inj hw'
    exact hi ht
  | nonTerminal hx hq u =>
    obtain ⟨q, hq', -⟩ := exists_cell_of_derives hp hx hs hw hd
    rw [hq] at hq'
    cases hq'
  | inside hx hq h u ih =>
    obtain ⟨q', hq', hd'⟩ := exists_cell_of_derives hp hx hs (h.consumes.meets hw) hd
    obtain rfl := Option.some.inj (hq.symm.trans hq')
    exact ih (derives_of_cell hp hq hs) hw hd'
  | behind hread h ih =>
    rw [List.append_assoc] at hd
    have hrest := hread.derives_behind hp hs (h.consumes.meets hw) hd
    rw [List.cons_append, List.append_cons] at hs
    exact ih hs hw hrest

end

/-- What is read and the symbol expected then derive from what was to be read. -/
theorem Stuck.derives (hp : p.Built) {u y : List Nat} {n z : Nat} {i i' : List Token}
    (h : p.Stuck u i n y z i') : ∃ v, p.grammar.Derives u (y ++ z :: v) := by
  induction h with
  | terminal hx hi u => exact ⟨u, .refl _⟩
  | nonTerminal hx hq u => exact ⟨u, .refl _⟩
  | @inside x q n z y i i' hx hq _ u ih =>
    obtain ⟨v, hv⟩ := ih
    have hd := (derives_of_cell hp hq (.refl ([] ++ x :: u))).trans (hv.append (.refl u))
    rw [List.append_assoc, List.cons_append] at hd
    exact ⟨_, hd⟩
  | behind hd _ ih =>
    obtain ⟨v, hv⟩ := ih
    have hd' := (hd.isDerivation hp).derives.append hv
    rw [← List.append_assoc] at hd'
    exact ⟨v, hd'⟩

end Parser

end LLOne

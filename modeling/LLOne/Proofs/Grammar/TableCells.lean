import LLOne.Proofs.Grammar.Conflict
import LLOne.Proofs.Grammar.SameProductions
import Mathlib.Data.List.ProdSigma
import Mathlib.Data.List.Perm.Basic

/-!
# The cells of a table

A claim enters a cell that is empty or leaves the table as it is, so no cell is entered twice.
What a table of a loaded grammar has is between its non-terminals and its lookaheads, since only
lookaheads predict productions. So the entries of a table are counted by its filled cells.
-/

namespace LLOne

theorem Table.isSome_get?_iff {t : Table} {a x : Nat} :
    (t.get? a x).isSome = true ↔ (a, x) ∈ t.cells.map Prod.fst := by
  rw [Option.isSome_iff_ne_none, Table.get?, ne_eq, List.lookup_eq_none_iff]
  constructor
  · intro h
    by_contra hnot
    refine h fun entry hentry => bne_iff_ne.2 fun he => hnot ?_
    exact List.mem_map.2 ⟨entry, hentry, he.symm⟩
  · intro h hall
    obtain ⟨entry, hentry, he⟩ := List.mem_map.1 h
    exact absurd he.symm (bne_iff_ne.1 (hall entry hentry))

namespace Grammar

variable {g : Grammar}

/-! ## Entering a cell once -/

theorem claim_cases {a p x : Nat} {right : List Nat} {t u : Table}
    (h : g.claim a right p x t = .ok u) :
    t.get? a x = none ∧ u = ⟨t.cells ++ [((a, x), p)]⟩ ∨ u = t := by
  unfold claim at h
  split at h
  next hnone => exact .inl ⟨hnone, (Except.ok.inj h).symm⟩
  · split at h
    · cases h
    · split at h
      · exact .inr (Except.ok.inj h).symm
      · cases h

theorem nodup_claim {a p x : Nat} {right : List Nat} {t u : Table}
    (ht : (t.cells.map Prod.fst).Nodup) (h : g.claim a right p x t = .ok u) :
    (u.cells.map Prod.fst).Nodup := by
  rcases claim_cases h with ⟨hnone, rfl⟩ | rfl
  · have hfresh : (a, x) ∉ t.cells.map Prod.fst := by
      rw [← Table.isSome_get?_iff, hnone]
      exact Bool.false_ne_true
    rw [List.map_append, List.map_singleton]
    exact List.nodup_append_comm.1 (List.nodup_cons.2 ⟨hfresh, ht⟩)
  · exact ht

theorem nodup_enterClaims {cs : List Claim} {t u : Table} (ht : (t.cells.map Prod.fst).Nodup)
    (h : g.enterClaims cs t = .ok u) : (u.cells.map Prod.fst).Nodup := by
  induction cs generalizing t with
  | nil => exact Except.ok.inj h ▸ ht
  | cons c cs ih =>
    rw [enterClaims] at h
    split at h
    · cases h
    next v hv => exact ih (nodup_claim ht hv) h

theorem WellFormed.nodup_table (hg : g.WellFormed) {ff : FirstFollow} (h : g.firstFollow = .ok ff)
    {t : Table} (ht : g.table ff = .ok t) : (t.cells.map Prod.fst).Nodup := by
  have hempty : ((∅ : Table).cells.map Prod.fst).Nodup := List.nodup_nil
  rw [hg.table_eq h] at ht
  exact nodup_enterClaims hempty ht

/-! ## Lookaheads -/

theorem isTerminal_iff {x : Nat} :
    g.isTerminal x = true ↔ ∃ name, g.symbols[x]? = some (.terminal name) := by
  unfold isTerminal
  cases hx : g.symbols[x]? with
  | none => simp
  | some symbol => cases symbol <;> simp [Symbol.isTerminal]

theorem mem_indices_of_isTerminal {x : Nat} (hx : g.isTerminal x = true) : x ∈ g.indices := by
  obtain ⟨name, hs⟩ := isTerminal_iff.1 hx
  exact List.mem_range.2 (List.getElem?_eq_some_iff.1 hs).1

theorem WellFormed.nodup_lookaheads (hg : g.WellFormed) : g.lookaheads.Nodup := by
  have hend : Symbol.endIndex ∉ g.indices.filter g.isTerminal := by
    intro hmem
    obtain ⟨name, hs⟩ := isTerminal_iff.1 (List.mem_filter.1 hmem).2
    rw [hg.endMarker] at hs
    cases hs
  have hterminals : (g.indices.filter g.isTerminal).Nodup := List.nodup_range.filter _
  exact List.nodup_append_comm.1 (List.nodup_cons.2 ⟨hend, hterminals⟩)

/-- The lookaheads are the symbols that a token can match, if there is one end marker. -/
theorem WellFormed.mem_lookaheads_iff (hg : g.WellFormed) (hi : g.Indexed) {x : Nat} :
    x ∈ g.lookaheads ↔ g.isLookahead x = true := by
  rw [lookaheads, List.mem_append, List.mem_singleton, List.mem_filter, isLookahead_iff]
  constructor
  · rintro (⟨-, hx⟩ | rfl)
    · exact .inr (isTerminal_iff.1 hx)
    · exact .inl hg.endMarker
  · rintro (hx | hx)
    · have hname : g.name? x = some Symbol.endMarkerName := by rw [name?, hx]; rfl
      exact .inr (hi.eq_of_name? hname hg.name?_endIndex)
    · have hterminal := isTerminal_iff.2 hx
      exact .inl ⟨mem_indices_of_isTerminal hterminal, hterminal⟩

/-! ## The entries of a loaded grammar -/

section Loaded

variable {lines : List String} (hload : load lines = .ok g) {ff : FirstFollow}
  (h : g.firstFollow = .ok ff) {t : Table} (ht : g.table ff = .ok t)

include hload h ht

/-- An entry is a production of its row, and stands between the rows and columns of the table. -/
theorem production_of_get? {a x n : Nat} (hn : t.get? a x = some n) :
    ∃ p, g.productions[n]? = some p ∧ p.left = a ∧ a ∈ g.nonTerminals ∧ x ∈ g.lookaheads := by
  have hg := (consistent_of_load hload).toWellFormed
  obtain ⟨start, -, hstart, -⟩ := parts_of_firstFollow h
  have hs := isNonTerminal_start_of_load hload hstart
  obtain ⟨⟨p, hp, rfl, hx⟩, -⟩ := (hg.get?_eq_some_iff h ht a x n).1 hn
  have hmem := List.mem_of_getElem? hp
  refine ⟨p, hp, rfl, g.mem_nonTerminals.2 (hg.left p hmem), ?_⟩
  rw [hg.mem_lookaheads_iff (collects_of_load hload).indexed]
  exact hg.isLookahead_of_predicts hstart hs h hmem hx

/-- There are as many filled cells as entries. -/
theorem length_filled :
    ((g.nonTerminals ×ˢ g.lookaheads).filter fun cell => (t.get? cell.1 cell.2).isSome).length =
      t.size := by
  have hg := (consistent_of_load hload).toWellFormed
  have hrows : g.nonTerminals.Nodup := g.pairwise_nonTerminals.imp Nat.ne_of_lt
  have hfilled := (hrows.product hg.nodup_lookaheads).filter
    fun cell => (t.get? cell.1 cell.2).isSome
  rw [Table.size, ← @List.length_map _ _ t.cells Prod.fst]
  refine ((List.perm_ext_iff_of_nodup hfilled (hg.nodup_table h ht)).2 ?_).length_eq
  rintro ⟨a, x⟩
  rw [List.mem_filter, List.mem_product, ← Table.isSome_get?_iff]
  refine and_iff_right_of_imp fun hsome => ?_
  obtain ⟨n, hn⟩ := Option.isSome_iff_exists.1 hsome
  obtain ⟨-, -, -, ha, hx⟩ := production_of_get? hload h ht hn
  exact ⟨ha, hx⟩

end Loaded

end Grammar

end LLOne

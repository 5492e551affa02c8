import LLOne.Proofs.Grammar.LeftRecursion

/-!
# The order in which FIRST sets are completed

The set of a non-terminal is complete when its right sides have been searched through, and by then
the sets of its left corners are complete. None of them is its own, since a non-terminal has no
entry for as long as its set is open. So the search enters every symbol once, behind its corners.
-/

namespace LLOne

namespace SetTable

def symbols (t : SetTable) : List Nat := t.entries.map Prod.fst

variable {t : SetTable} {a : Nat}

theorem isSome_get?_iff : (t.get? a).isSome = true ↔ a ∈ t.symbols := by
  simp only [get?, symbols, List.lookup_isSome_iff, List.mem_map, beq_iff_eq, @eq_comm _ a]

theorem get?_eq_none_iff : t.get? a = none ↔ a ∉ t.symbols := by
  rw [← isSome_get?_iff, Bool.not_eq_true, Option.isSome_eq_false_iff, Option.isNone_iff_eq_none]

theorem exists_entry_of_get? {set : SymbolSet} (h : t.get? a = some set) :
    ∃ j : Nat, t.entries[j]? = some (a, set) := by
  obtain ⟨front, back, he, -⟩ := List.lookup_eq_some_iff.1 h
  exact ⟨front.length, by rw [he, List.getElem?_append_right le_rfl, Nat.sub_self]; rfl⟩

theorem entries_update_of_none (h : t.get? a = none) (f : SymbolSet → SymbolSet) :
    (t.update a f).entries = t.entries ++ [(a, f ∅)] := by
  obtain ⟨entries⟩ := t
  simp only [get?, update] at h ⊢
  induction entries with
  | nil => rfl
  | cons e rest ih => obtain ⟨k, s⟩ := e; grind [updateEntries]

theorem symbols_update_of_none (h : t.get? a = none) (f : SymbolSet → SymbolSet) :
    (t.update a f).symbols = t.symbols ++ [a] := by
  rw [symbols, entries_update_of_none h, List.map_append]
  rfl

end SetTable

namespace Grammar

variable (g : Grammar)

/-- Each of the symbols stands there once and behind the non-terminals among its corners. -/
inductive CornersFirst : List Nat → Prop
  | nil : CornersFirst []
  | snoc {order : List Nat} {a : Nat} (h : CornersFirst order) (ha : g.isNonTerminal a = true)
      (hn : a ∉ order) (hc : ∀ b, g.isNonTerminal b = true → g.Corner a b → b ∈ order) :
      CornersFirst (order ++ [a])

/-- What the table is while the sets of the non-terminals `opened` are open. -/
structure InProgress (opened : List Nat) (table : SetTable) : Prop where
  sets : g.FirstExact table
  order : g.CornersFirst table.symbols
  apart : ∀ o ∈ opened, table.get? o = none

/-- The sets that are open before `visit` are open behind it. -/
def Advances (opened : List Nat) (visit : Nat → SetTable → Search SymbolSet) : Prop :=
  ∀ a first before after, g.isNonTerminal a = true → visit a before = (.ok first, after) →
    g.InProgress opened before → g.InProgress opened after

variable {g}

namespace CornersFirst

variable {order : List Nat}

theorem nodup (h : g.CornersFirst order) : order.Nodup := by
  induction h with
  | nil => exact .nil
  | snoc _ _ hn _ ih => exact List.nodup_append_comm.1 (List.nodup_cons.2 ⟨hn, ih⟩)

theorem isNonTerminal (h : g.CornersFirst order) : ∀ a ∈ order, g.isNonTerminal a = true := by
  induction h with
  | nil => exact fun a ha => absurd ha List.not_mem_nil
  | snoc _ ha _ _ ih => exact List.forall_mem_append.2 ⟨ih, List.forall_mem_singleton.2 ha⟩

/-- The corners of a symbol stand in front of it. -/
theorem exists_lt (h : g.CornersFirst order) {a b j : Nat} (hj : order[j]? = some a)
    (hb : g.isNonTerminal b = true) (hc : g.Corner a b) : ∃ i < j, order[i]? = some b := by
  induction h generalizing j with
  | nil => cases hj
  | @snoc order _ _ _ _ hcorners ih =>
    rcases Nat.lt_or_ge j order.length with hlt | hge
    · rw [List.getElem?_append_left hlt] at hj
      obtain ⟨i, hi, hib⟩ := ih hj
      exact ⟨i, hi, (List.getElem?_append_left (hi.trans hlt)).trans hib⟩
    · rw [List.getElem?_append_right hge] at hj
      obtain rfl := List.mem_singleton.1 (List.mem_of_getElem? hj)
      obtain ⟨i, hib⟩ := List.getElem?_of_mem (hcorners b hb hc)
      have hlt := (List.getElem?_eq_some_iff.1 hib).1
      exact ⟨i, hlt.trans_le hge, (List.getElem?_append_left hlt).trans hib⟩

end CornersFirst

/-- The search behind a table that is completed. -/
theorem firstSearch_eq {first : SetTable} (h : g.firstTable = .ok first) :
    g.firstSearch = (.ok (), first) := by
  unfold firstTable at h
  split at h
  · cases h
  next done hs => rw [hs, Except.ok.inj h]

/-! ## Opening and completing a set -/

namespace InProgress

variable {opened : List Nat} {table : SetTable} {a : Nat}

theorem empty : g.InProgress [] ∅ where
  sets := firstExact_empty
  order := .nil
  apart _ ho := absurd ho List.not_mem_nil

theorem enter (h : g.InProgress opened table) (ha : table.get? a = none) :
    g.InProgress (a :: opened) table where
  sets := h.sets
  order := h.order
  apart := List.forall_mem_cons.2 ⟨ha, h.apart⟩

theorem complete (h : g.InProgress (a :: opened) table) (ha : g.isNonTerminal a = true)
    (hn : a ∉ opened) {set : SymbolSet} (hs : g.FirstExact (table.update a fun _ => set))
    (hc : ∀ b, g.isNonTerminal b = true → g.Corner a b → (table.get? b).isSome = true) :
    g.InProgress opened (table.update a fun _ => set) := by
  obtain ⟨hnone, hopened⟩ := List.forall_mem_cons.1 h.apart
  refine ⟨hs, ?_, fun o ho => ?_⟩
  · rw [SetTable.symbols_update_of_none hnone]
    exact .snoc h.order ha (SetTable.get?_eq_none_iff.1 hnone) fun b hb hcorner =>
      SetTable.isSome_get?_iff.1 (hc b hb hcorner)
  · have hoa : o ≠ a := fun he => hn (he ▸ ho)
    rw [SetTable.get?_update, if_neg hoa]
    exact hopened o ho

end InProgress

/-! ## The search -/

namespace WellFormed

variable (hg : g.WellFormed) {opened : List Nat}

include hg

/-- A search through a right side completes the sets of the non-terminals to which it leads. -/
theorem searchRight_advances {visit : Nat → SetTable → Search SymbolSet} (hv : g.Explores visit)
    (ha : g.Advances opened visit) (right : List Nat) (hr : ∀ x ∈ right, x < g.symbols.length)
    (found first : SymbolSet) (before after : SetTable)
    (h : g.searchRight visit right found before = (.ok first, after))
    (hb : g.InProgress opened before) :
    g.InProgress opened after ∧ ∀ b, g.isNonTerminal b = true → g.Leads (g.form right) b →
      (after.get? b).isSome = true := by
  induction right generalizing found before with
  | nil =>
    obtain ⟨-, rfl⟩ := Prod.mk.inj h
    exact ⟨hb, fun b _ hlead => absurd hlead (not_leads_nil b)⟩
  | cons x rest ih =>
    rw [List.forall_mem_cons] at hr
    unfold searchRight at h
    by_cases hl : g.symbols[x]? = some .lambda
    · simp only [hl] at h
      rw [form_cons_lambda hl]
      exact ih hr.2 found before h hb
    rw [form_cons_of_ne hl]
    simp only [leads_cons_iff]
    rcases isNonTerminal_or_isLookahead hr.1 hl with hx | hx
    · obtain ⟨name, hn⟩ := isNonTerminal_iff.1 hx
      simp only [hn] at h
      split at h
      · cases h
      next set middle hvisit =>
        have hm := ha x set before middle hx hvisit hb
        obtain ⟨-, -, hdone, hset⟩ := hv x set before middle hx hvisit hb.sets
        have hvanish := (hset Symbol.lambdaIndex).trans hg.inFirst_lambdaIndex
        split at h
        next hin =>
          obtain ⟨-, hkeeps, -⟩ := hg.searchRight_spec hv rest _ first middle after h hm.sets
          obtain ⟨hafter, hrest⟩ := ih hr.2 _ middle h hm
          refine ⟨hafter, fun b hb hlead => ?_⟩
          rcases hlead with rfl | ⟨-, hlead⟩
          · exact hkeeps b hdone
          · exact hrest b hb hlead
        next hin =>
          obtain ⟨-, rfl⟩ := Prod.mk.inj h
          refine ⟨hm, fun b _ hlead => ?_⟩
          rcases hlead with rfl | ⟨hvan, -⟩
          · exact hdone
          · exact absurd (hvanish.2 hvan) hin
    · have hafter : before = after := by
        rcases isLookahead_iff.1 hx with hn | ⟨name, hn⟩
        · simp only [hn] at h
          exact (Prod.mk.inj h).2
        · simp only [hn] at h
          exact (Prod.mk.inj h).2
      subst hafter
      refine ⟨hb, fun b hb hlead => ?_⟩
      rcases hlead with rfl | ⟨hvan, -⟩
      · exact absurd rfl (ne_of_isLookahead hx hb)
      · exact absurd hvan (hg.not_vanishes_lookahead hx)

theorem searchRights_advances {visit : Nat → SetTable → Search SymbolSet} (hv : g.Explores visit)
    (ha : g.Advances opened visit) (rights : List (List Nat))
    (hr : ∀ right ∈ rights, ∀ x ∈ right, x < g.symbols.length)
    (found first : SymbolSet) (before after : SetTable)
    (h : g.searchRights visit rights found before = (.ok first, after))
    (hb : g.InProgress opened before) :
    g.InProgress opened after ∧ ∀ right ∈ rights, ∀ b, g.isNonTerminal b = true →
      g.Leads (g.form right) b → (after.get? b).isSome = true := by
  induction rights generalizing found before with
  | nil =>
    obtain ⟨-, rfl⟩ := Prod.mk.inj h
    exact ⟨hb, by simp⟩
  | cons right rights ih =>
    rw [List.forall_mem_cons] at hr
    unfold searchRights at h
    split at h
    · cases h
    next set middle hright =>
      obtain ⟨hm, hfirst⟩ :=
        hg.searchRight_advances hv ha right hr.1 found set before middle hright hb
      obtain ⟨-, hkeeps, -⟩ := hg.searchRights_spec hv rights set first middle after h hm.sets
      obtain ⟨hafter, hrest⟩ := ih hr.2 set middle h hm
      refine ⟨hafter, List.forall_mem_cons.2 ⟨fun b hb hlead => ?_, hrest⟩⟩
      exact hkeeps b (hfirst b hb hlead)

theorem searchFirst_advances (fuel : Nat) (opened : List Nat) :
    g.Advances opened (g.searchFirst fuel opened) := by
  induction fuel generalizing opened with
  | zero =>
    rintro a first before after - h
    cases (Prod.mk.inj h).1
  | succ fuel ih =>
    intro a first before after ha h hb
    obtain ⟨hsets, -⟩ := hg.searchFirst_explores (fuel + 1) opened a first before after ha h hb.sets
    unfold searchFirst at h
    split at h
    · obtain ⟨-, rfl⟩ := Prod.mk.inj h
      exact hb
    next hnone =>
      split at h
      · cases (Prod.mk.inj h).1
      next hmem =>
        split at h
        · cases h
        next set middle hrights =>
          obtain ⟨-, rfl⟩ := Prod.mk.inj h
          obtain ⟨hm, hcorners⟩ := hg.searchRights_advances
            (hg.searchFirst_explores fuel (a :: opened)) (ih (a :: opened)) (g.rightsOf a)
            (fun right hr => hg.right _ (g.mem_rightsOf.1 hr)) ∅ set before middle hrights
            (hb.enter hnone)
          refine hm.complete ha hmem hsets fun b hb hcorner => ?_
          obtain ⟨right, hr, hlead⟩ := hcorner
          exact hcorners right hr b hb hlead

theorem searchAll_advances (as : List Nat) (has : ∀ a ∈ as, g.isNonTerminal a = true)
    (before after : SetTable) (h : g.searchAll as before = (.ok (), after))
    (hb : g.InProgress [] before) : g.InProgress [] after := by
  induction as generalizing before with
  | nil => exact (Prod.mk.inj h).2 ▸ hb
  | cons a rest ih =>
    rw [List.forall_mem_cons] at has
    unfold searchAll at h
    split at h
    · cases h
    next set middle hs =>
      exact ih has.2 middle h (hg.searchFirst_advances _ [] a set before middle has.1 hs hb)

/-- A completed table has one entry for each non-terminal, behind those of its corners. -/
theorem symbols_firstTable {first : SetTable} (h : g.firstTable = .ok first) :
    g.CornersFirst first.symbols ∧ first.symbols.Perm g.nonTerminals := by
  have horder : g.CornersFirst first.symbols :=
    (hg.searchAll_advances g.nonTerminals (fun _ => g.mem_nonTerminals.1) ∅ first
      (firstSearch_eq h) .empty).order
  have hrows : g.nonTerminals.Nodup := List.nodup_range.filter _
  refine ⟨horder, (List.perm_ext_iff_of_nodup horder.nodup hrows).2 fun a => ?_⟩
  rw [g.mem_nonTerminals]
  refine ⟨horder.isNonTerminal a, fun ha => ?_⟩
  obtain ⟨set, hset, -⟩ := hg.firstTable_spec h ha
  exact SetTable.isSome_get?_iff.1 (Option.isSome_iff_exists.2 ⟨set, hset⟩)

end WellFormed

end Grammar

end LLOne

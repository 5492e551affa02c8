import LLOne.Report.Table
import LLOne.Proofs.Grammar.Listing
import LLOne.Proofs.Grammar.TableCells
import Mathlib.Data.List.Forall2
import Mathlib.Tactic.Ring

/-!
# What the report of a table shows

The rows are the non-terminals, the columns are the terminals and the end marker, and a cell shows
the production that the table has there or is empty. In plain text every cell is put behind blanks
until it is as wide as the widest of its column, so all lines have the same length and the bars
between the cells stand one below the other, whatever the names are and also if a name is a bar.
-/

namespace LLOne

namespace Text

/-! ## Texts on one line -/

def Unbroken (text : String) : Prop := ∀ c ∈ text.toList, c ≠ '\n' ∧ c ≠ '\r'

instance (text : String) : Decidable (Unbroken text) :=
  List.decidableBAll (fun c => c ≠ '\n' ∧ c ≠ '\r') text.toList

theorem IsWord.unbroken {word : String} (h : IsWord word) : Unbroken word := by
  intro c hc
  constructor
  · rintro rfl
    exact absurd (h.not_blank _ hc) (by decide)
  · rintro rfl
    exact absurd (h.not_blank _ hc) (by decide)

theorem unbroken_blanks (k : Nat) : Unbroken (blanks k) := by
  intro c hc
  rw [blanks, String.toList_ofList] at hc
  rw [List.eq_of_mem_replicate hc]
  decide

theorem Unbroken.append {a b : String} (ha : Unbroken a) (hb : Unbroken b) : Unbroken (a ++ b) := by
  intro c hc
  rw [String.toList_append, List.mem_append] at hc
  exact hc.elim (ha c) (hb c)

theorem Unbroken.intercalate {separator : String} (hs : Unbroken separator) {texts : List String}
    (h : ∀ text ∈ texts, Unbroken text) : Unbroken (separator.intercalate texts) := by
  induction texts with
  | nil => exact fun c hc => nomatch hc
  | cons text texts ih =>
    rw [List.forall_mem_cons] at h
    cases texts with
    | nil => simpa using h.1
    | cons other texts =>
      rw [String.intercalate_cons_cons]
      exact (h.1.append hs).append (ih h.2)

theorem Unbroken.isLine {text : String} (h : Unbroken text) (hne : text.length ≠ 0) :
    IsLine text where
  ne_nil he := hne (by rw [← String.length_toList, he, List.length_nil])
  feed hc := (h _ hc).1 rfl
  returns he := (h _ (List.mem_of_getLast? he)).2 rfl

theorem length_intercalate (separator : String) (texts : List String) :
    (separator.intercalate texts).length =
      (texts.map String.length).sum + separator.length * (texts.length - 1) := by
  induction texts with
  | nil => rfl
  | cons text texts ih =>
    cases texts with
    | nil => simp
    | cons other texts =>
      rw [String.intercalate_cons_cons, String.length_append, String.length_append, ih]
      simp only [List.map_cons, List.sum_cons, List.length_cons, Nat.add_sub_cancel, Nat.mul_succ]
      omega

end Text

namespace TableReport

/-! ## Columns of one width -/

/-- The line has the cells in their order, each behind blanks, and ` | ` between them. It has
`width` characters, and what stands between two cells starts at the position in `bars`. -/
structure Laid (width : Nat) (bars : List Nat) (cells : List String) (line : String) : Prop where
  length : line.length = width
  columns : cells.length = bars.length + 1
  parts : ∃ padded, List.Forall₂ (fun cell text => ∃ k, text = Text.blanks k ++ cell) cells padded ∧
    line = " | ".intercalate padded ∧
    ∀ j bar, bars[j]? = some bar → ∃ front back, padded = front ++ back ∧ front.length = j + 1 ∧
      line = " | ".intercalate front ++ " | " ++ " | ".intercalate back ∧
      (" | ".intercalate front).length = bar

theorem forall₂_zipWith_max {ls ms : List Nat} (h : ls.length = ms.length) :
    List.Forall₂ (· ≤ ·) ls (List.zipWith max ls ms) ∧
      List.Forall₂ (· ≤ ·) ms (List.zipWith max ls ms) := by
  induction ls generalizing ms with
  | nil =>
    obtain rfl := List.length_eq_zero_iff.1 h.symm
    exact ⟨.nil, .nil⟩
  | cons l ls ih =>
    cases ms with
    | nil => cases h
    | cons m ms =>
      obtain ⟨hl, hm⟩ := ih (Nat.succ.inj h)
      exact ⟨.cons (Nat.le_max_left l m) hl, .cons (Nat.le_max_right l m) hm⟩

theorem forall₂_le_trans {ks ls ms : List Nat} (h : List.Forall₂ (· ≤ ·) ks ls)
    (h' : List.Forall₂ (· ≤ ·) ls ms) : List.Forall₂ (· ≤ ·) ks ms := by
  induction h generalizing ms with
  | nil => exact h'
  | cons hk _ ih =>
    cases h' with
    | cons hl h' => exact .cons (Nat.le_trans hk hl) (ih h')

/-- The widths never shrink, and a column is as wide as each of its cells. -/
theorem foldl_widths {grid : List (List String)} {widths : List Nat}
    (hgrid : ∀ cells ∈ grid, cells.length = widths.length) :
    List.Forall₂ (· ≤ ·) widths
        (grid.foldl (fun ws cells => List.zipWith max ws (cells.map String.length)) widths) ∧
      ∀ cells ∈ grid, List.Forall₂ (· ≤ ·) (cells.map String.length)
        (grid.foldl (fun ws cells => List.zipWith max ws (cells.map String.length)) widths) := by
  induction grid generalizing widths with
  | nil => exact ⟨List.forall₂_same.2 fun _ _ => Nat.le_refl _, fun _ h => nomatch h⟩
  | cons cells grid ih =>
    rw [List.forall_mem_cons] at hgrid
    obtain ⟨hw, hc⟩ := forall₂_zipWith_max
      (show widths.length = (cells.map String.length).length by rw [List.length_map, hgrid.1])
    have hrest : ∀ others ∈ grid, others.length =
        (List.zipWith max widths (cells.map String.length)).length := by
      intro others ho
      rw [hgrid.2 others ho, hw.length_eq]
    obtain ⟨hgrow, hcover⟩ := ih hrest
    rw [List.foldl_cons, List.forall_mem_cons]
    exact ⟨forall₂_le_trans hw hgrow, forall₂_le_trans hc hgrow, hcover⟩

/-- Cells that are put behind blanks are as wide as their columns. -/
theorem padLeft_cells {cells : List String} {widths : List Nat}
    (h : List.Forall₂ (· ≤ ·) (cells.map String.length) widths) :
    (List.zipWith Text.padLeft widths cells).map String.length = widths ∧
      List.Forall₂ (fun cell text => ∃ k, text = Text.blanks k ++ cell) cells
        (List.zipWith Text.padLeft widths cells) := by
  rw [List.forall₂_map_left_iff] at h
  induction h with
  | nil => exact ⟨rfl, .nil⟩
  | @cons cell width cells widths hle _ ih =>
    rw [List.zipWith_cons_cons, List.map_cons, Text.length_padLeft, Nat.max_eq_left hle, ih.1]
    exact ⟨rfl, .cons ⟨width - cell.length, rfl⟩ ih.2⟩

/-- Where the bar behind each column but the last one starts. -/
def barsOf (widths : List Nat) : List Nat :=
  (List.range (widths.length - 1)).map fun j => (widths.take (j + 1)).sum + 3 * j

theorem laid_of_widths {cells : List String} {widths : List Nat} (hne : widths ≠ [])
    (h : List.Forall₂ (· ≤ ·) (cells.map String.length) widths) :
    Laid (widths.sum + 3 * (widths.length - 1)) (barsOf widths) cells
      (" | ".intercalate (List.zipWith Text.padLeft widths cells)) := by
  obtain ⟨hlengths, hblanks⟩ := padLeft_cells h
  have hpos := List.length_pos_iff.2 hne
  have hcount : (List.zipWith Text.padLeft widths cells).length = widths.length :=
    (List.length_map _).symm.trans (congrArg List.length hlengths)
  refine ⟨?_, ?_, _, hblanks, rfl, fun j bar hbar => ?_⟩
  · rw [Text.length_intercalate, hlengths, hcount]
    rfl
  · rw [barsOf, List.length_map, List.length_range, Nat.sub_add_cancel hpos, ← h.length_eq,
      List.length_map]
  · obtain ⟨hj, rfl⟩ : j < widths.length - 1 ∧ (widths.take (j + 1)).sum + 3 * j = bar := by
      simpa [barsOf, List.getElem?_map, List.getElem?_range', Option.map_eq_some_iff,
        List.getElem?_eq_some_iff] using hbar
    have hfront : ((List.zipWith Text.padLeft widths cells).take (j + 1)).length = j + 1 := by
      rw [List.length_take, hcount]
      omega
    refine ⟨_, _, (List.take_append_drop (j + 1) _).symm, hfront, ?_, ?_⟩
    · rw [← String.intercalate_append_of_ne_nil, List.take_append_drop]
      · exact List.ne_nil_of_length_eq_add_one hfront
      · refine List.ne_nil_of_length_pos ?_
        rw [List.length_drop, hcount]
        omega
    · rw [Text.length_intercalate, hfront, List.map_take, hlengths]
      rfl

section Grid

variable {grid : List (List String)} {columns : Nat} (hne : grid ≠ [])
  (hgrid : ∀ cells ∈ grid, cells.length = columns + 1)

include hne hgrid

/-- There is a width for each column, and every cell fits into its column. -/
theorem columnWidths_spec : (columnWidths grid).length = columns + 1 ∧
    ∀ cells ∈ grid, List.Forall₂ (· ≤ ·) (cells.map String.length) (columnWidths grid) := by
  obtain ⟨head, rest, rfl⟩ := List.exists_cons_of_ne_nil hne
  have hhead := hgrid head List.mem_cons_self
  have hstart : ∀ cells ∈ head :: rest, cells.length = (head.map fun _ => 0).length := by
    intro cells hc
    rw [List.length_map, hgrid cells hc, hhead]
  obtain ⟨hgrow, hcover⟩ := foldl_widths hstart
  refine ⟨?_, hcover⟩
  rw [columnWidths, List.head?_cons, Option.getD_some, ← hgrow.length_eq, List.length_map, hhead]

theorem laid_of_mem {cells : List String} (hc : cells ∈ grid) :
    Laid ((columnWidths grid).sum + 3 * columns) (barsOf (columnWidths grid)) cells
      (" | ".intercalate (List.zipWith Text.padLeft (columnWidths grid) cells)) := by
  obtain ⟨hcount, hcover⟩ := columnWidths_spec hne hgrid
  have hlaid := laid_of_widths (List.ne_nil_of_length_eq_add_one hcount) (hcover cells hc)
  rwa [hcount, Nat.add_sub_cancel] at hlaid

/-- All lines of a grid have the same length, and their bars the same places. -/
theorem laid_gridLines : ∃ width bars, bars.length = columns ∧
    List.Forall₂ (Laid width bars) grid (gridLines grid) := by
  refine ⟨(columnWidths grid).sum + 3 * columns, barsOf (columnWidths grid), ?_, ?_⟩
  · rw [barsOf, List.length_map, List.length_range, (columnWidths_spec hne hgrid).1,
      Nat.add_sub_cancel]
  · rw [gridLines, List.forall₂_map_right_iff, List.forall₂_same]
    exact fun cells hc => laid_of_mem hne hgrid hc

/-- With a bar in each of them and without line ends in their cells, the lines are read back. -/
theorem lines_gridLines (hcolumns : columns ≠ 0)
    (hcells : ∀ cells ∈ grid, ∀ cell ∈ cells, Text.Unbroken cell) :
    Text.lines ("\n".intercalate (gridLines grid)) = gridLines grid := by
  have hbar : Text.Unbroken " | " := by decide
  apply Text.lines_intercalate
  rw [gridLines, List.forall_mem_map]
  intro cells hc
  refine (hbar.intercalate fun text ht => ?_).isLine ?_
  · obtain ⟨i, hi, rfl⟩ := List.getElem_of_mem ht
    rw [List.getElem_zipWith]
    exact (Text.unbroken_blanks _).append (hcells cells hc _ (List.getElem_mem _))
  · rw [(laid_of_mem hne hgrid hc).length]
    omega

end Grid

end TableReport

/-! ## What the cells show -/

def Alternatives.ShowsEntry (cell : Alternatives) (g : Grammar) (a : Nat) : Option Nat → Prop
  | none => cell.rights = [] ∧ ∀ width, cell.line width = ""
  | some n => ∃ p names, g.productions[n]? = some p ∧ p.left = a ∧
      g.written p = (some cell.left, names.map some) ∧ cell.rights = [names] ∧
      ∀ width, cell.line width =
        Text.arrowLine (width - cell.left.length) cell.left (" ".intercalate names)

/-- A cell is on one line if all names of the grammar are. -/
theorem Alternatives.ShowsEntry.unbroken_line {cell : Alternatives} {g : Grammar} {a : Nat}
    {entry : Option Nat} (h : cell.ShowsEntry g a entry)
    (hname : ∀ x name, g.name? x = some name → Text.Unbroken name) (width : Nat) :
    Text.Unbroken (cell.line width) := by
  cases entry with
  | none =>
    rw [h.2]
    decide
  | some n =>
    obtain ⟨p, names, -, -, hwritten, -, hline⟩ := h
    obtain ⟨hleft, hright⟩ := Prod.mk.inj hwritten
    have hnames : ∀ name ∈ names, Text.Unbroken name := by
      intro name hn
      obtain ⟨x, -, hx⟩ := List.mem_map.1 (hright ▸ List.mem_map_of_mem hn)
      exact hname x name hx
    have hspace : Text.Unbroken " " := by decide
    have harrow : Text.Unbroken " -> " := by decide
    rw [hline, Text.arrowLine]
    exact (((Text.unbroken_blanks _).append (hname _ _ hleft)).append harrow).append
      (hspace.intercalate hnames)

/-- A row for each non-terminal, a column for each terminal and one for the end marker, and between
them the entries of the table, each of them once. -/
structure TableReport.Presents (r : TableReport) (g : Grammar) (t : Table) : Prop where
  columns : r.columns = g.terminalNames ++ [Symbol.endMarkerName]
  heads : g.lookaheads.map g.name? = r.columns.map some
  lefts : g.nonTerminals.map g.name? = r.rows.map (some ·.left)
  cells : List.Forall₂ (fun a row => List.Forall₂ (fun x cell =>
    cell.left = row.left ∧ cell.ShowsEntry g a (t.get? a x)) g.lookaheads row.cells)
      g.nonTerminals r.rows
  within : ∀ a x n, t.get? a x = some n → a ∈ g.nonTerminals ∧ x ∈ g.lookaheads
  filled : (r.rows.flatMap fun row => row.cells.filter (!·.rights.isEmpty)).length = t.size

namespace Grammar

variable {g : Grammar}

def shownRight (g : Grammar) (n : Nat) : List String :=
  (g.productions[n]?.map fun p => p.right.map g.shown).getD []

def shownCell (g : Grammar) (t : Table) (a x : Nat) : Alternatives :=
  ⟨g.shown a, (t.get? a x).toList.map g.shownRight⟩

def shownReport (g : Grammar) (t : Table) : TableReport :=
  ⟨g.lookaheads.map g.shown, g.nonTerminals.map fun a =>
    ⟨g.shown a, g.lookaheads.map (g.shownCell t a)⟩⟩

theorem map_getElem?_indices (g : Grammar) :
    (g.indices.map fun x => g.symbols[x]?) = g.symbols.map some := by
  apply List.ext_getElem
  · rw [List.length_map, List.length_map, indices, List.length_range]
  · intro x hx hx'
    rw [List.length_map] at hx'
    simp only [List.getElem_map, indices, List.getElem_range, List.getElem?_eq_getElem hx']

theorem map_shown_terminals (g : Grammar) :
    (g.indices.filter g.isTerminal).map g.shown = g.terminalNames := by
  have hsymbols : (g.indices.filter g.isTerminal).map g.shown =
      (((g.indices.map fun x => g.symbols[x]?).filter (Option.any Symbol.isTerminal)).map
        fun symbol? => (symbol?.map Symbol.name).getD "") := by
    rw [List.filter_map, List.map_map]
    rfl
  rw [hsymbols, map_getElem?_indices, List.filter_map, List.map_map, terminalNames,
    ← List.filterMap_eq_map, List.filterMap_filter]
  apply List.filterMap_congr
  rintro (_ | _ | _ | _) - <;> rfl

theorem WellFormed.map_shown_lookaheads (hg : g.WellFormed) :
    g.lookaheads.map g.shown = g.terminalNames ++ [Symbol.endMarkerName] := by
  rw [lookaheads, List.map_append, map_shown_terminals, List.map_singleton, shown,
    hg.name?_endIndex]
  rfl

theorem lt_length_of_mem_lookaheads {lines : List String} (hload : load lines = .ok g) {x : Nat}
    (hx : x ∈ g.lookaheads) : x < g.symbols.length := by
  have hg := (consistent_of_load hload).toWellFormed
  rw [hg.mem_lookaheads_iff (collects_of_load hload).indexed, isLookahead_iff] at hx
  rcases hx with hs | ⟨name, hs⟩ <;> exact (List.getElem?_eq_some_iff.1 hs).1

theorem length_of_mem_grid (g : Grammar) (t : Table) {cells : List String}
    (hc : cells ∈ (g.shownReport t).grid) :
    cells.length = (g.shownReport t).columns.length + 1 := by
  simp only [TableReport.grid, shownReport, List.map_map, List.mem_cons, List.mem_map] at hc
  rcases hc with rfl | ⟨a, -, rfl⟩ <;> simp [shownReport]

section Loaded

variable {lines : List String} (hload : load lines = .ok g) {ff : FirstFollow}
  (h : g.firstFollow = .ok ff) {t : Table} (ht : g.table ff = .ok t)

include hload h ht

theorem cellRights_eq (a x : Nat) : g.cellRights t a x = .ok (g.shownCell t a x).rights := by
  unfold cellRights shownCell
  cases hn : t.get? a x with
  | none => rfl
  | some n =>
    obtain ⟨p, hp, -⟩ := production_of_get? hload h ht hn
    have hright : g.namesOf p.right = .ok (p.right.map g.shown) :=
      mapM_eq_pure fun x hx =>
        nameOf_eq_shown ((consistent_of_load hload).right p (List.mem_of_getElem? hp) x hx)
    simp only [productionAt, hp, bind, Except.bind, hright, shownRight, Option.map_some,
      Option.getD_some, Option.toList_some, List.map_singleton]

theorem tableReport_eq : g.tableReport t = .ok (g.shownReport t) := by
  have hcolumns : g.namesOf g.lookaheads = .ok (g.lookaheads.map g.shown) :=
    mapM_eq_pure fun x hx => nameOf_eq_shown (lt_length_of_mem_lookaheads hload hx)
  have hrow : ∀ a ∈ g.nonTerminals, g.tableRow t a =
      .ok ⟨g.shown a, g.lookaheads.map (g.shownCell t a)⟩ := by
    intro a ha
    have hcells : (g.lookaheads.mapM fun x =>
        (g.cellRights t a x).map (Alternatives.mk (g.shown a))) =
        .ok (g.lookaheads.map (g.shownCell t a)) := by
      refine mapM_eq_pure fun x _ => ?_
      rw [cellRights_eq hload h ht]
      rfl
    rw [tableRow, nameOf_eq_shown (g.lt_length_of_isNonTerminal (g.mem_nonTerminals.1 ha))]
    exact congrArg (Except.map _) hcells
  rw [tableReport, hcolumns, mapM_eq_pure hrow]
  rfl

theorem shownCell_shows (a x : Nat) : (g.shownCell t a x).ShowsEntry g a (t.get? a x) := by
  cases hn : t.get? a x with
  | none =>
    have hrights : (g.shownCell t a x).rights = [] := by
      rw [shownCell, hn]
      rfl
    refine ⟨hrights, fun width => ?_⟩
    rw [Alternatives.line, Alternatives.joined, Alternatives.rightTexts, hrights]
    rfl
  | some n =>
    obtain ⟨p, hp, rfl, ha, -⟩ := production_of_get? hload h ht hn
    have hg := consistent_of_load hload
    have hrights : (g.shownCell t p.left x).rights = [p.right.map g.shown] := by
      rw [shownCell, hn, Option.toList_some, List.map_singleton, shownRight, hp]
      rfl
    have hright : p.right.map g.name? = (p.right.map g.shown).map some := by
      rw [List.map_map]
      exact List.map_congr_left fun y hy =>
        name?_eq_shown (hg.right p (List.mem_of_getElem? hp) y hy)
    refine ⟨p, p.right.map g.shown, hp, rfl, ?_, hrights, fun width => ?_⟩
    · rw [written, hright, name?_nonTerminal (g.mem_nonTerminals.1 ha)]
      rfl
    · simp only [Alternatives.line, Alternatives.joined, Alternatives.rightTexts, hrights,
        List.map_singleton, List.map_nil, String.join_nil, String.append_empty]
      rfl

/-- The cells with a production are those with an entry. -/
theorem length_filled_rows :
    ((g.shownReport t).rows.flatMap fun row => row.cells.filter (!·.rights.isEmpty)).length =
      t.size := by
  have hcell : ∀ a x, (!(g.shownCell t a x).rights.isEmpty) = (t.get? a x).isSome := by
    intro a x
    rw [shownCell]
    cases t.get? a x <;> rfl
  have hrow : ∀ a, ((g.lookaheads.map (g.shownCell t a)).filter (!·.rights.isEmpty)).length =
      ((g.lookaheads.map (Prod.mk a)).filter fun cell => (t.get? cell.1 cell.2).isSome).length := by
    intro a
    rw [List.filter_map, List.filter_map, List.length_map, List.length_map]
    exact congrArg (fun p => (g.lookaheads.filter p).length) (funext (hcell a))
  rw [← length_filled hload h ht, shownReport, List.flatMap_map, List.length_flatMap]
  simp only [hrow]
  rw [← List.length_flatMap, ← List.filter_flatMap]
  rfl

theorem shownReport_presents : (g.shownReport t).Presents g t where
  columns := (consistent_of_load hload).toWellFormed.map_shown_lookaheads
  heads := by
    rw [shownReport, List.map_map]
    exact List.map_congr_left fun x hx => name?_eq_shown (lt_length_of_mem_lookaheads hload hx)
  lefts := by
    rw [shownReport, List.map_map]
    exact List.map_congr_left fun a ha => name?_nonTerminal (g.mem_nonTerminals.1 ha)
  cells := by
    rw [shownReport, List.forall₂_map_right_iff, List.forall₂_same]
    intro a _
    rw [List.forall₂_map_right_iff, List.forall₂_same]
    exact fun x _ => ⟨rfl, shownCell_shows hload h ht a x⟩
  within a x n hn := by
    obtain ⟨-, -, -, ha, hx⟩ := production_of_get? hload h ht hn
    exact ⟨ha, hx⟩
  filled := length_filled_rows hload h ht

theorem unbroken_of_mem_grid {cells : List String} (hc : cells ∈ (g.shownReport t).grid)
    {cell : String} (hcell : cell ∈ cells) : Text.Unbroken cell := by
  have hname : ∀ x name, g.name? x = some name → Text.Unbroken name :=
    fun x name hn => (isWord_of_name? hload hn).unbroken
  rw [TableReport.grid, List.mem_cons, List.mem_map] at hc
  rcases hc with rfl | ⟨row, hrow, rfl⟩
  · rcases List.mem_cons.1 hcell with rfl | hcell
    · decide
    · obtain ⟨x, hx, rfl⟩ := List.mem_map.1 hcell
      exact hname x _ (name?_eq_shown (lt_length_of_mem_lookaheads hload hx))
  · obtain ⟨a, ha, rfl⟩ := List.mem_map.1 hrow
    rcases List.mem_cons.1 hcell with rfl | hcell
    · exact hname a _ (name?_nonTerminal (g.mem_nonTerminals.1 ha))
    · obtain ⟨shown, hshown, rfl⟩ := List.mem_map.1 hcell
      obtain ⟨x, -, rfl⟩ := List.mem_map.1 hshown
      exact (shownCell_shows hload h ht a x).unbroken_line hname _

/-- The report of the table of a loaded grammar has a row for each non-terminal, in the order of the
first lines for them, and a column for each terminal and the end marker. Its cells have the entries
of the table and nothing else. All lines of its plain text have the same length, and the bars
between their cells the same places. -/
theorem tableReport_exact : ∃ r, g.tableReport t = .ok r ∧ r.Presents g t ∧
    r.rows.map TableRow.left = (leftSides lines).eraseDups ∧
    ∃ width bars, bars.length = r.columns.length ∧
      List.Forall₂ (TableReport.Laid width bars) r.grid (Text.lines r.plain) := by
  have hpresents := shownReport_presents hload h ht
  refine ⟨_, tableReport_eq hload h ht, hpresents, ?_, ?_⟩
  · apply List.map_injective_iff.2 (Option.some_injective String)
    rw [← map_name?_nonTerminals hload, hpresents.lefts, List.map_map]
    rfl
  · have hcolumns : (g.shownReport t).columns.length ≠ 0 := by
      rw [hpresents.columns, List.length_append]
      exact Nat.succ_ne_zero _
    have hne : (g.shownReport t).grid ≠ [] := List.cons_ne_nil _ _
    rw [TableReport.plain, TableReport.lines_gridLines hne
      (fun _ hc => length_of_mem_grid g t hc) hcolumns
      (fun _ hc _ hcell => unbroken_of_mem_grid hload h ht hc hcell)]
    exact TableReport.laid_gridLines hne fun _ hc => length_of_mem_grid g t hc

end Loaded

def barred : Grammar where
  symbols := [.lambda, .endMarker, .nonTerminal "<Σ>", .nonTerminal "<É>", .terminal "é",
    .terminal "|"]
  names := [("|", 5), ("é", 4), ("<É>", 3), ("<Σ>", 2), ("$", 1), ("lambda", 0), ("λ", 0)]
  productions := [⟨2, [3, 4]⟩, ⟨3, [5, 3]⟩, ⟨3, [0]⟩]
  start := some 2

def barredSets : FirstFollow where
  first := ⟨[(3, .ofList [0, 5]), (2, .ofList [4, 5])]⟩
  follow := ⟨[(2, .ofList [1]), (3, .ofList [4])]⟩

def barredTable : Table := ⟨[((2, 4), 0), ((2, 5), 0), ((3, 5), 1), ((3, 4), 2)]⟩

theorem tableReport_exact_barred : ∃ r, barred.tableReport barredTable = .ok r ∧
    r.plain = "    |             é |             | | $\n" ++
      "<Σ> |  <Σ> -> <É> é |  <Σ> -> <É> é |  \n" ++
      "<É> |      <É> -> λ |  <É> -> | <É> |  " ∧
    r.columns = ["é", "|", "$"] ∧ r.rows.map TableRow.left = ["<Σ>", "<É>"] ∧
    (r.rows.flatMap fun row => row.cells.filter (!·.rights.isEmpty)).length = 4 ∧
    ∃ width bars, bars.length = 3 ∧
      List.Forall₂ (TableReport.Laid width bars) r.grid (Text.lines r.plain) := by
  have hload : load ["<Σ> -> <É> é", "<É> -> | <É>", "<É> -> lambda"] = .ok barred := rfl
  have hsets : barred.firstFollow = .ok barredSets := rfl
  have htable : barred.table barredSets = .ok barredTable := rfl
  obtain ⟨r, hr, hpresents, hlefts, width, bars, hbars, hlaid⟩ :=
    tableReport_exact hload hsets htable
  have hcolumns : r.columns = ["é", "|", "$"] := hpresents.columns
  refine ⟨r, hr, ?_, hcolumns, hlefts, hpresents.filled, width, bars, ?_, hlaid⟩
  · obtain rfl := Except.ok.inj hr
    decide
  · rw [hbars, hcolumns]
    rfl

end Grammar

end LLOne

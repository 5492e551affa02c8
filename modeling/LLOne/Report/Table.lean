import LLOne.Report.Productions
import LLOne.Table

/-!
# The LL(1) table as text

One row for each non-terminal and one column for each terminal, the end marker last. A
filled cell shows its production.
-/

namespace LLOne

open Json (Value)

structure TableRow where
  left : String
  /-- One for each column, without right sides in an empty cell. -/
  cells : List Alternatives
deriving DecidableEq, Repr

structure TableReport where
  columns : List String
  rows : List TableRow
deriving DecidableEq, Repr

namespace TableReport

variable (r : TableReport)

/-- The cells of all lines, the heads of the columns first. A left side is put at least
as many columns wide as it has bytes. -/
def grid : List (List String) :=
  ("" :: r.columns) ::
    r.rows.map fun row => row.left :: row.cells.map (·.line row.left.utf8ByteSize)

def columnWidths (grid : List (List String)) : List Nat :=
  grid.foldl (fun widths line => List.zipWith max widths (line.map String.length))
    ((grid.head?.getD []).map fun _ => 0)

def gridLines (grid : List (List String)) : List String :=
  grid.map fun line => " | ".intercalate (List.zipWith Text.padLeft (columnWidths grid) line)

def plain : String := "\n".intercalate (gridLines r.grid)

def latexRow (row : TableRow) : String :=
  latexSymbols "" [row.left] ++ " & " ++ " & ".intercalate (row.cells.map Alternatives.latex) ++
    " \\\\\n"

def latex : String :=
  "\\[\\begin\x7barray\x7d\x7bc" ++ String.join (r.columns.map fun _ => "|l") ++ "\x7d\n & " ++
    latexSymbols " & " r.columns ++ " \\\\ \\hline\n" ++ String.join (r.rows.map latexRow) ++
    "\\end\x7barray\x7d\\]"

def toJson : Value :=
  .ofMembers [("terminals", .ofStrings r.columns),
    ("rows", .array (r.rows.map fun row =>
      .array [.ofString row.left, .array (row.cells.map Alternatives.toJson)]))]

end TableReport

namespace Grammar

def cellRights (g : Grammar) (t : Table) (a lookahead : Nat) :
    Except GrammarError (List (List String)) :=
  match t.get? a lookahead with
  | none => .ok []
  | some p => do
    let production ← g.productionAt p
    let right ← g.namesOf production.right
    .ok [right]

def tableRow (g : Grammar) (t : Table) (a : Nat) : Except GrammarError TableRow := do
  let left ← g.nameOf a
  let cells ← g.lookaheads.mapM fun x => (g.cellRights t a x).map (Alternatives.mk left)
  .ok ⟨left, cells⟩

def tableReport (g : Grammar) (t : Table) : Except GrammarError TableReport := do
  let columns ← g.namesOf g.lookaheads
  let rows ← g.nonTerminals.mapM (g.tableRow t)
  .ok ⟨columns, rows⟩

end Grammar

end LLOne

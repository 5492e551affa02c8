import LLOne.Grammar.Follow
import LLOne.Report.Productions

/-!
# FIRST and FOLLOW sets as text

One line or row for each non-terminal, with the names of the members of its sets in the
order of the symbols.
-/

namespace LLOne

open Json (Value)

structure SetsOf where
  name : String
  nullable : Bool
  first : List String
  follow : List String
deriving DecidableEq, Repr

namespace SetsOf

variable (s : SetsOf)

def plain : String :=
  s.name ++ ": first = \x7b " ++ " ".intercalate s.first ++ " \x7d, follow = \x7b " ++
    " ".intercalate s.follow ++ " \x7d"

def latex : String :=
  "$" ++ latexSymbols "" [s.name] ++ "$ & " ++ (if s.nullable then "yes" else "no") ++
    " & $\\\x7b " ++ latexSymbols ", " s.first ++ " \\\x7d$ & $\\\x7b " ++
    latexSymbols ", " s.follow ++ " \\\x7d$"

def toJson : Value :=
  .ofMembers [("name", .ofString s.name), ("nullable", .bool s.nullable),
    ("first", .ofStrings s.first), ("follow", .ofStrings s.follow)]

end SetsOf

abbrev SetsReport := List SetsOf

namespace SetsReport

variable (r : SetsReport)

def plain : String := "\n".intercalate (r.map SetsOf.plain)

def latex : String :=
  "\\begin\x7btabular\x7d\x7bl|c|l|l\x7d\n" ++
    "Non-terminal & Nullable & FIRST & FOLLOW \\\\ \\hline\n" ++
    String.join (r.map fun s => s.latex ++ " \\\\\n") ++ "\\end\x7btabular\x7d"

def toJson : Value := .ofMembers [("data", .array (r.map SetsOf.toJson))]

end SetsReport

namespace Grammar

def namesOfSet (g : Grammar) (set : SymbolSet) : Except GrammarError (List String) :=
  g.namesOf set.members

def setsOf (g : Grammar) (ff : FirstFollow) (a : Nat) : Except GrammarError SetsOf := do
  let name ← g.nameOf a
  let first ← g.namesOfSet (ff.first.get a)
  let follow ← g.namesOfSet (ff.follow.get a)
  .ok ⟨name, ff.nullable a, first, follow⟩

def setsReport (g : Grammar) (ff : FirstFollow) : Except GrammarError SetsReport :=
  g.nonTerminals.mapM (g.setsOf ff)

end Grammar

end LLOne

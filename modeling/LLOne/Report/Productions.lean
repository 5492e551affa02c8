import LLOne.Grammar.Basic
import LLOne.Json.Basic
import LLOne.Text.Align
import LLOne.Text.Latex

/-!
# Productions as text

The productions of one left side are shown together, as alternatives: in plain text with
bars between them, on one line or one below the other with the bars under the arrow; in
LaTeX and in JSON. A left side without productions is shown by nothing at all.
-/

namespace LLOne

open Json (Value)

def latexSymbols (separator : String) (names : List String) : String :=
  separator.intercalate <| names.map fun name =>
    if name = Symbol.lambdaName then "\\lambda" else "\\text\x7b" ++ Text.latex name ++ "\x7d"

structure Alternatives where
  left : String
  rights : List (List String)
deriving DecidableEq, Repr

namespace Alternatives

variable (a : Alternatives)

def rightTexts : List String := a.rights.map (" ".intercalate ·)

def joined (width : Nat) (bar : String) : String :=
  match a.rightTexts with
  | [] => ""
  | first :: others =>
    Text.padLeft width a.left ++ " -> " ++ first ++ String.join (others.map (bar ++ ·))

def line (width : Nat) : String := a.joined width " | "

def block (width : Nat) : String := a.joined width ("\n" ++ Text.blanks width ++ "  | ")

def latexWith (arrow : String) : String :=
  if a.rights.isEmpty then ""
  else latexSymbols "" [a.left] ++ arrow ++
    " \\mid ".intercalate (a.rights.map (latexSymbols "\\ "))

def latex : String := a.latexWith " \\rightarrow "

def latexAligned : String := a.latexWith " & \\rightarrow & "

def toJson : Value :=
  .ofMembers [("left", .ofString a.left), ("rights", .array (a.rights.map Value.ofStrings))]

end Alternatives

abbrev Listing := List Alternatives

namespace Listing

variable (l : Listing)

def plain : String :=
  let width := Text.maxLength (l.map Alternatives.left)
  "\n".intercalate (l.map (·.block width))

def latex : String :=
  "\\[\\begin\x7barray\x7d\x7brcl\x7d\n" ++
    " \\\\\n".intercalate (l.map Alternatives.latexAligned) ++ "\n\\end\x7barray\x7d\\]"

def toJson : Value := .ofMembers [("productions", .array (l.map Alternatives.toJson))]

end Listing

namespace Grammar

def alternativesOf (g : Grammar) (a : Nat) : Except GrammarError Alternatives := do
  let left ← g.nameOf a
  let rights ← (g.rightsOf a).mapM g.namesOf
  .ok ⟨left, rights⟩

def listing (g : Grammar) : Except GrammarError Listing := g.nonTerminals.mapM g.alternativesOf

end Grammar

end LLOne

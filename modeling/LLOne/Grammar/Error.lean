/-!
# What can be wrong with a grammar

The causes for which a text is no grammar, or a grammar has no sets, no table or no
parser. An index of no symbol or production can stand only in a grammar put together by
hand, or where sets or a table are used with a grammar they were not made for.
-/

namespace LLOne

inductive GrammarError where
  | format (lineNumber : Nat) (line : String)
  | misplacedLambda (lineNumber : Nat)
  | undefinedNonTerminal (name : String)
  | empty
  | leftRecursion (nonTerminal : String)
  | tableConflict (nonTerminal terminal existing conflicting : String)
  | danglingIndex (index : Nat)
deriving DecidableEq, Repr

def GrammarError.message : GrammarError → String
  | format lineNumber line =>
    "Line " ++ lineNumber.repr ++ ": expected \"<A> -> symbols...\", found \"" ++ line ++ "\""
  | misplacedLambda lineNumber =>
    "Line " ++ lineNumber.repr ++ ": lambda must be the only symbol of a production"
  | undefinedNonTerminal name => "non-terminal " ++ name ++ " is used but has no production"
  | empty => "grammar contains no production"
  | leftRecursion nonTerminal =>
    "left recursion detected while computing FIRST(" ++ nonTerminal ++ ")"
  | tableConflict nonTerminal terminal existing conflicting =>
    "LL(1) conflict at [" ++ nonTerminal ++ ", " ++ terminal ++ "]: \"" ++ existing ++
      "\" and \"" ++ conflicting ++ "\""
  | danglingIndex index => "no symbol or production has index " ++ index.repr

end LLOne

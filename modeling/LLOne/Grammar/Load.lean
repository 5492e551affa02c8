import LLOne.Grammar.Basic
import LLOne.Text.Words

/-!
# Grammars written as lines

Each line that is not blank is a production `<A> -> X1 ... Xn` with one symbol or more
behind the arrow. Every word in angle brackets is a non-terminal and every other word a
terminal, `λ` or `lambda`, or `$`. The left sides of all lines are known before any right
side is read, so a non-terminal may be used before its first production. The left side of
the first production is the start symbol.
-/

namespace LLOne.Grammar

def isBracketed (word : String) : Bool :=
  match word.toList with
  | '<' :: rest => rest.getLast? == some '>'
  | _ => false

structure Rule where
  lineNumber : Nat
  left : Nat
  words : List String
deriving DecidableEq, Repr

/-- The symbol found under the name of `symbol`, which is added if there is none. -/
def resolve (g : Grammar) (symbol : Symbol) : Grammar × Nat :=
  match g.indexOf? symbol.name with
  | some index => (g, index)
  | none => (g.addSymbol symbol, g.symbols.length)

def readLeftSides : Nat → Grammar → List String → Except GrammarError (Grammar × List Rule)
  | _, g, [] => .ok (g, [])
  | lineNumber, g, line :: rest =>
    match Text.words line with
    | [] => readLeftSides (lineNumber + 1) g rest
    | left :: arrow :: word :: words =>
      if arrow = "->" ∧ isBracketed left then
        let (g, index) := g.resolve (.nonTerminal left)
        (readLeftSides (lineNumber + 1) g rest).map fun (g, rules) =>
          (g, ⟨lineNumber, index, word :: words⟩ :: rules)
      else .error (.format lineNumber line)
    | _ => .error (.format lineNumber line)

def readRightSide : Grammar → List String → Except GrammarError (Grammar × List Nat)
  | g, [] => .ok (g, [])
  | g, word :: words =>
    if isBracketed word ∧ (g.indexOf? word).isNone then .error (.undefinedNonTerminal word)
    else
      let (g, index) := g.resolve (.terminal word)
      (readRightSide g words).map fun (g, right) => (g, index :: right)

def readRightSides : Grammar → List Rule → Except GrammarError Grammar
  | g, [] => .ok g
  | g, rule :: rules =>
    match readRightSide g rule.words with
    | .error e => .error e
    | .ok (g, right) =>
      if 1 < right.length ∧ Symbol.lambdaIndex ∈ right then
        .error (.misplacedLambda rule.lineNumber)
      else readRightSides (g.addProduction rule.left right) rules

def load (lines : List String) : Except GrammarError Grammar :=
  match readLeftSides 1 blank lines with
  | .error e => .error e
  | .ok (g, rules) =>
    (readRightSides g rules).map fun g => g.setStart (g.productions.head?.map Production.left)

def parse (text : String) : Except GrammarError Grammar := load (Text.lines text)

end LLOne.Grammar

import LLOne.Grammar.Error

/-!
# Grammars

A grammar numbers its symbols and productions by their positions. Symbol 0 is `λ`, which
derives the empty text, and symbol 1 is the end marker `$`; non-terminals and terminals
follow in any order. Names lead to symbols through a table of their own, in which the
latest entry of a name counts, so that a symbol that gets a new name is still found under
the old one.
-/

namespace LLOne

inductive Symbol where
  | lambda
  | endMarker
  | nonTerminal (name : String)
  | terminal (name : String)
deriving DecidableEq, Repr

namespace Symbol

def lambdaName : String := "λ"

def lambdaWord : String := "lambda"

def endMarkerName : String := "$"

def sigmaName : String := "σ"

def name : Symbol → String
  | lambda => lambdaName
  | endMarker => endMarkerName
  | nonTerminal name => name
  | terminal name => name

def isNonTerminal : Symbol → Bool
  | nonTerminal _ => true
  | _ => false

def isTerminal : Symbol → Bool
  | terminal _ => true
  | _ => false

def isLookahead : Symbol → Bool
  | terminal _ => true
  | endMarker => true
  | _ => false

def lambdaIndex : Nat := 0

def endIndex : Nat := 1

end Symbol

structure Production where
  left : Nat
  right : List Nat
deriving DecidableEq, Repr

def Production.isLambda (p : Production) : Bool := p.right == [Symbol.lambdaIndex]

structure Grammar where
  symbols : List Symbol
  /-- The names with their symbols, the latest entry first. -/
  names : List (String × Nat)
  productions : List Production
  start : Option Nat
deriving DecidableEq, Repr

namespace Grammar

def blank : Grammar where
  symbols := [.lambda, .endMarker]
  names := [(Symbol.endMarkerName, Symbol.endIndex), (Symbol.lambdaWord, Symbol.lambdaIndex),
    (Symbol.lambdaName, Symbol.lambdaIndex)]
  productions := []
  start := none

variable (g : Grammar)

/-! ## Looking up -/

def indexOf? (name : String) : Option Nat := g.names.lookup name

def name? (index : Nat) : Option String := g.symbols[index]?.map Symbol.name

def nameOf (index : Nat) : Except GrammarError String :=
  match g.name? index with
  | some name => .ok name
  | none => .error (.danglingIndex index)

def namesOf (indices : List Nat) : Except GrammarError (List String) := indices.mapM g.nameOf

def isNonTerminal (index : Nat) : Bool := g.symbols[index]?.any Symbol.isNonTerminal

def isLookahead (index : Nat) : Bool := g.symbols[index]?.any Symbol.isLookahead

def isTerminal (index : Nat) : Bool := g.symbols[index]?.any Symbol.isTerminal

def indices : List Nat := List.range g.symbols.length

def nonTerminals : List Nat := g.indices.filter g.isNonTerminal

theorem lt_length_of_isNonTerminal {index : Nat} (h : g.isNonTerminal index = true) :
    index < g.symbols.length := by
  cases hs : g.symbols[index]? with
  | none => simp [isNonTerminal, hs] at h
  | some symbol => exact (List.getElem?_eq_some_iff.1 hs).1

theorem mem_nonTerminals {index : Nat} :
    index ∈ g.nonTerminals ↔ g.isNonTerminal index = true := by
  simp only [nonTerminals, indices, List.mem_filter, List.mem_range, and_iff_right_iff_imp]
  exact g.lt_length_of_isNonTerminal

def terminalNames : List String := g.symbols.filterMap fun
  | .terminal name => some name
  | _ => none

/-- The terminals and behind them the end marker, which are the columns of a table. -/
def lookaheads : List Nat := g.indices.filter g.isTerminal ++ [Symbol.endIndex]

/-- The terminal that matches every string literal, if the grammar has one. -/
def sigma? : Option Nat := (g.indexOf? Symbol.sigmaName).filter g.isLookahead

def numberedProductionsOf (index : Nat) : List (Production × Nat) :=
  g.productions.zipIdx.filter (·.1.left == index)

def productionsOf (index : Nat) : List Nat := (g.numberedProductionsOf index).map (·.2)

def rightsOf (index : Nat) : List (List Nat) := (g.numberedProductionsOf index).map (·.1.right)

theorem mem_numberedProductionsOf {index : Nat} {p : Production} {number : Nat} :
    (p, number) ∈ g.numberedProductionsOf index ↔
      g.productions[number]? = some p ∧ p.left = index := by
  simp [numberedProductionsOf, List.mem_zipIdx_iff_getElem?]

theorem mem_productionsOf {index number : Nat} :
    number ∈ g.productionsOf index ↔
      ∃ p, g.productions[number]? = some p ∧ p.left = index := by
  simp [productionsOf, mem_numberedProductionsOf]

theorem mem_rightsOf {index : Nat} {right : List Nat} :
    right ∈ g.rightsOf index ↔ ⟨index, right⟩ ∈ g.productions := by
  simp only [rightsOf, List.mem_map, Prod.exists, mem_numberedProductionsOf]
  constructor
  · rintro ⟨p, number, ⟨hp, rfl⟩, rfl⟩
    exact List.mem_of_getElem? hp
  · intro h
    obtain ⟨number, hn⟩ := List.getElem?_of_mem h
    exact ⟨⟨index, right⟩, number, ⟨hn, rfl⟩, rfl⟩

def productionAt (number : Nat) : Except GrammarError Production :=
  match g.productions[number]? with
  | some production => .ok production
  | none => .error (.danglingIndex number)

/-! ## Building -/

def addSymbol (symbol : Symbol) : Grammar :=
  { g with
    symbols := g.symbols ++ [symbol]
    names := (symbol.name, g.symbols.length) :: g.names }

theorem indexOf?_addSymbol (symbol : Symbol) (name : String) :
    (g.addSymbol symbol).indexOf? name =
      if name = symbol.name then some g.symbols.length else g.indexOf? name := by
  simp only [indexOf?, addSymbol, List.lookup_cons]
  by_cases h : name = symbol.name
  · simp [h]
  · simp [h, beq_eq_false_iff_ne.2 h]

def addNonTerminal (name : String) : Grammar := g.addSymbol (.nonTerminal name)

def addTerminal (name : String) : Grammar := g.addSymbol (.terminal name)

def addProduction (left : Nat) (right : List Nat) : Grammar :=
  { g with productions := g.productions ++ [⟨left, right⟩] }

def addProduction? (left : Nat) (right : List Nat) : Except GrammarError Grammar :=
  if left < g.symbols.length then .ok (g.addProduction left right)
  else .error (.danglingIndex left)

def setStart (start : Option Nat) : Grammar := { g with start }

/-- Gives a non-terminal another name and leaves the table of names as it is. -/
def rename (index : Nat) (name : String) : Grammar :=
  if g.isNonTerminal index then { g with symbols := g.symbols.set index (.nonTerminal name) }
  else g

end Grammar

end LLOne

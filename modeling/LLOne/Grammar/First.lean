import LLOne.Grammar.Basic
import LLOne.SetTable

/-!
# FIRST sets

FIRST of a non-terminal holds the terminals and end markers with which a text derived from
it can begin, and `λ` if it derives the empty text. The sets are found by depth-first
search: a right side is read from the left for as long as its symbols can vanish, and the
set of a non-terminal on the way is completed first. A non-terminal met again while its own
set is still open is left recursive. The table of completed sets is kept on failure too;
its entries stand in the order of completion.
-/

namespace LLOne.Grammar

variable (g : Grammar)

/-- What the search finds, and the sets completed when it ends. -/
abbrev Search (α : Type) := Except GrammarError α × SetTable

/-- Adds to `found` what a right side can begin with. `visit` gives FIRST of a
non-terminal. -/
def searchRight (visit : Nat → SetTable → Search SymbolSet) :
    List Nat → SymbolSet → SetTable → Search SymbolSet
  | [], found, done => (.ok (found.insert Symbol.lambdaIndex), done)
  | x :: rest, found, done =>
    match g.symbols[x]? with
    | none => (.error (.danglingIndex x), done)
    | some .lambda => searchRight visit rest found done
    | some (.nonTerminal _) =>
      match visit x done with
      | (.error e, done) => (.error e, done)
      | (.ok first, done) =>
        let found := found ∪ first.erase Symbol.lambdaIndex
        if Symbol.lambdaIndex ∈ first then searchRight visit rest found done
        else (.ok found, done)
    | some _ => (.ok (found.insert x), done)

def searchRights (visit : Nat → SetTable → Search SymbolSet) :
    List (List Nat) → SymbolSet → SetTable → Search SymbolSet
  | [], found, done => (.ok found, done)
  | right :: rights, found, done =>
    match g.searchRight visit right found done with
    | (.error e, done) => (.error e, done)
    | (.ok found, done) => searchRights visit rights found done

/-- FIRST of the non-terminal `a` while the sets of the non-terminals `opened` are still
open. There are fewer of them than symbols, so the first argument need not exceed the
number of symbols by more than one. -/
def searchFirst : Nat → List Nat → Nat → SetTable → Search SymbolSet
  | 0, _, a, done => (.error (.danglingIndex a), done)
  | fuel + 1, opened, a, done =>
    match done.get? a with
    | some first => (.ok first, done)
    | none =>
      if a ∈ opened then (.error (.leftRecursion ((g.name? a).getD "")), done)
      else
        match g.searchRights (searchFirst fuel (a :: opened)) (g.rightsOf a) ∅ done with
        | (.error e, done) => (.error e, done)
        | (.ok first, done) => (.ok first, done.update a fun _ => first)

def searchAll : List Nat → SetTable → Search Unit
  | [], done => (.ok (), done)
  | a :: rest, done =>
    match g.searchFirst (g.symbols.length + 1) [] a done with
    | (.error e, done) => (.error e, done)
    | (.ok _, done) => searchAll rest done

def firstSearch : Search Unit := g.searchAll g.nonTerminals ∅

def firstTable : Except GrammarError SetTable :=
  match g.firstSearch with
  | (.error e, _) => .error e
  | (.ok _, done) => .ok done

/-- Adds to `found` what a sequence of symbols can begin with, where `first` gives FIRST of
the non-terminals. Nothing is known behind a non-terminal without an entry. -/
def extendFirst (first : SetTable) : List Nat → SymbolSet → Except GrammarError SymbolSet
  | [], found => .ok (found.insert Symbol.lambdaIndex)
  | x :: rest, found =>
    match g.symbols[x]? with
    | none => .error (.danglingIndex x)
    | some .lambda => extendFirst first rest found
    | some (.nonTerminal _) =>
      match first.get? x with
      | none => .ok found
      | some set =>
        let found := found ∪ set.erase Symbol.lambdaIndex
        if Symbol.lambdaIndex ∈ set then extendFirst first rest found else .ok found
    | some _ => .ok (found.insert x)

def firstOf (first : SetTable) (symbols : List Nat) : Except GrammarError SymbolSet :=
  g.extendFirst first symbols ∅

end LLOne.Grammar

import LLOne.Proofs.Grammar.Loading
import LLOne.Proofs.Grammar.Prediction

/-!
# Grammars put together edit by edit

A grammar can be kept as a ledger, in which the index of every non-terminal and the numbers of its
productions are written down beside it. An edit of the ledger only adds to what is written there.
By induction over the edits the ledger stays the one that can be read off the edited grammar: the
index of a non-terminal is its place, its numbers are those of its productions in ascending order,
and a name leads to the symbol last added under it, whatever is renamed in between.
-/

namespace LLOne

inductive Edit where
  | addNonTerminal (name : String)
  | addTerminal (name : String)
  | addProduction (left : Nat) (right : List Nat)
  | setStart (start : Option Nat)
  | rename (index : Nat) (name : String)
deriving DecidableEq, Repr

namespace Edit

def symbol? : Edit → Option Symbol
  | addNonTerminal name => some (.nonTerminal name)
  | addTerminal name => some (.terminal name)
  | _ => none

def entered? (e : Edit) : Option String := e.symbol?.map Symbol.name

def Within (n : Nat) : Edit → Prop
  | addProduction left _ => left < n
  | rename index _ => index < n
  | _ => True

/-- Each edit changes something only where there is a symbol by then, with `n` symbols at first. -/
def AllWithin : Nat → List Edit → Prop
  | _, [] => True
  | n, e :: es => e.Within n ∧ AllWithin (n + e.symbol?.toList.length) es

end Edit

namespace Grammar

def edit (g : Grammar) : Edit → Except GrammarError Grammar
  | .addNonTerminal name => .ok (g.addNonTerminal name)
  | .addTerminal name => .ok (g.addTerminal name)
  | .addProduction left right => g.addProduction? left right
  | .setStart start => .ok (g.setStart start)
  | .rename index name =>
    if index < g.symbols.length then .ok (g.rename index name) else .error (.danglingIndex index)

def edits (g : Grammar) (es : List Edit) : Except GrammarError Grammar := es.foldlM edit g

/-- `λ` and the end marker have their places, and all left sides and all symbols in the table of
names exist. -/
structure InRange (g : Grammar) : Prop where
  lambda : g.symbols[Symbol.lambdaIndex]? = some .lambda
  endMarker : g.symbols[Symbol.endIndex]? = some .endMarker
  left : ∀ p ∈ g.productions, p.left < g.symbols.length
  named : ∀ entry ∈ g.names, entry.2 < g.symbols.length

end Grammar

/-! ## Ledgers -/

inductive Ledger.Entry where
  | lambda
  | endMarker
  | nonTerminal (index : Nat) (name : String) (productions : List Nat)
  | terminal (name : String)
deriving DecidableEq, Repr

structure Ledger where
  entries : List Ledger.Entry
  /-- The names with their symbols, the latest entry first. -/
  names : List (String × Nat)
  productions : List Production
  start : Option Nat
deriving DecidableEq, Repr

namespace Ledger

namespace Entry

def symbol : Entry → Symbol
  | lambda => .lambda
  | endMarker => .endMarker
  | nonTerminal _ name _ => .nonTerminal name
  | terminal name => .terminal name

def ofSymbol (index : Nat) (productions : List Nat) : Symbol → Entry
  | .lambda => lambda
  | .endMarker => endMarker
  | .nonTerminal name => nonTerminal index name productions
  | .terminal name => terminal name

def addProduction (number : Nat) : Entry → Entry
  | nonTerminal index name productions => nonTerminal index name (productions ++ [number])
  | entry => entry

def rename (name : String) : Entry → Entry
  | nonTerminal index _ productions => nonTerminal index name productions
  | entry => entry

inductive Keeps : Entry → Entry → Prop
  | lambda : Keeps lambda lambda
  | endMarker : Keeps endMarker endMarker
  | nonTerminal {index : Nat} {name name' : String} {ns ns' : List Nat} (h : ns <+: ns') :
    Keeps (nonTerminal index name ns) (nonTerminal index name' ns')
  | terminal {name : String} : Keeps (terminal name) (terminal name)

end Entry

def blank : Ledger where
  entries := [.lambda, .endMarker]
  names := [(Symbol.endMarkerName, Symbol.endIndex), (Symbol.lambdaWord, Symbol.lambdaIndex),
    (Symbol.lambdaName, Symbol.lambdaIndex)]
  productions := []
  start := none

variable (l : Ledger)

def indexOf? (name : String) : Option Nat := l.names.lookup name

def addSymbol (symbol : Symbol) : Ledger :=
  { l with
    entries := l.entries ++ [.ofSymbol l.entries.length [] symbol]
    names := (symbol.name, l.entries.length) :: l.names }

def addProduction (left : Nat) (right : List Nat) : Ledger :=
  { l with
    entries := l.entries.modify left (·.addProduction l.productions.length)
    productions := l.productions ++ [⟨left, right⟩] }

def rename (index : Nat) (name : String) : Ledger :=
  { l with entries := l.entries.modify index (·.rename name) }

def edit : Edit → Except GrammarError Ledger
  | .addNonTerminal name => .ok (l.addSymbol (.nonTerminal name))
  | .addTerminal name => .ok (l.addSymbol (.terminal name))
  | .addProduction left right =>
    if left < l.entries.length then .ok (l.addProduction left right)
    else .error (.danglingIndex left)
  | .setStart start => .ok { l with start }
  | .rename index name =>
    if index < l.entries.length then .ok (l.rename index name) else .error (.danglingIndex index)

def edits (es : List Edit) : Except GrammarError Ledger := es.foldlM edit l

def grammar : Grammar := ⟨l.entries.map Entry.symbol, l.names, l.productions, l.start⟩

/-- What is written down is right: of each non-terminal its place and, in ascending order, all its
productions, and of a name a symbol. -/
structure InStep : Prop where
  lambda : l.entries[Symbol.lambdaIndex]? = some .lambda
  endMarker : l.entries[Symbol.endIndex]? = some .endMarker
  index : ∀ (x i : Nat) (name : String) (ns : List Nat),
    l.entries[x]? = some (.nonTerminal i name ns) → i = x
  ascending : ∀ (x i : Nat) (name : String) (ns : List Nat),
    l.entries[x]? = some (.nonTerminal i name ns) → ns.Pairwise (· < ·)
  listed : ∀ (x i : Nat) (name : String) (ns : List Nat),
    l.entries[x]? = some (.nonTerminal i name ns) →
    ∀ n, n ∈ ns ↔ ∃ p, l.productions[n]? = some p ∧ p.left = x
  unlisted : ∀ (n : Nat) (p : Production), l.productions[n]? = some p →
    l.grammar.isNonTerminal p.left = false →
    ∀ (i : Nat) (name : String) (ns : List Nat), .nonTerminal i name ns ∈ l.entries → n ∉ ns
  named : ∀ entry ∈ l.names, entry.2 < l.entries.length

structure Kept (l m : Ledger) : Prop where
  entries : ∀ (x : Nat) (entry : Entry), l.entries[x]? = some entry →
    ∃ entry', m.entries[x]? = some entry' ∧ entry.Keeps entry'
  productions : l.productions <+: m.productions

/-- A name under which the edits add symbols leads to the last of them, and any other name to what
it led to before. -/
structure Resolves (es : List Edit) (m : Ledger) : Prop where
  latest : ∀ before e after symbol, es = before ++ e :: after → e.symbol? = some symbol →
    (∀ d ∈ after, d.entered? ≠ some symbol.name) →
    ∃ k entry, l.edits before = .ok k ∧ m.indexOf? symbol.name = some k.entries.length ∧
      m.entries[k.entries.length]? = some entry ∧
      (Entry.ofSymbol k.entries.length [] symbol).Keeps entry
  other : ∀ name, (∀ e ∈ es, e.entered? ≠ some name) → m.indexOf? name = l.indexOf? name

end Ledger

def Grammar.ledger (g : Grammar) : Ledger where
  entries := g.symbols.mapIdx fun x symbol => .ofSymbol x (g.productionsOf x) symbol
  names := g.names
  productions := g.productions
  start := g.start

theorem exists_of_bind_eq_ok {α β ε : Type} {x : Except ε α} {f : α → Except ε β} {b : β}
    (h : (x >>= f) = .ok b) : ∃ a, x = .ok a ∧ f a = .ok b := by
  cases x with
  | error e => cases h
  | ok a => exact ⟨a, rfl, h⟩

/-! ## The grammar of a ledger -/

namespace Grammar

variable {g h : Grammar}

@[simp] theorem length_entries_ledger (g : Grammar) :
    g.ledger.entries.length = g.symbols.length := by
  simp [ledger]

theorem getElem?_entries_ledger (g : Grammar) (x : Nat) :
    g.ledger.entries[x]? = g.symbols[x]?.map (.ofSymbol x (g.productionsOf x)) := by
  simp [ledger]

theorem symbol_ofSymbol (x : Nat) (ns : List Nat) (symbol : Symbol) :
    (Ledger.Entry.ofSymbol x ns symbol).symbol = symbol := by
  cases symbol <;> rfl

@[simp] theorem grammar_ledger (g : Grammar) : g.ledger.grammar = g := by
  have hs : g.ledger.entries.map Ledger.Entry.symbol = g.symbols := by
    apply List.ext_getElem?
    intro x
    rw [List.getElem?_map, getElem?_entries_ledger, Option.map_map]
    cases g.symbols[x]? with
    | none => rfl
    | some symbol => exact congrArg some (symbol_ofSymbol x _ symbol)
  rw [Ledger.grammar, hs, ledger]

theorem productionsOf_addProduction (g : Grammar) (left : Nat) (right : List Nat) (x : Nat) :
    (g.addProduction left right).productionsOf x =
      g.productionsOf x ++ if left = x then [g.productions.length] else [] := by
  simp only [productionsOf, numberedProductionsOf, addProduction, List.zipIdx_append,
    List.filter_append, List.map_append, List.zipIdx_cons, List.zipIdx_nil, Nat.zero_add]
  by_cases hx : left = x <;> simp [hx]

/-! ## One edit -/

namespace InRange

variable (hg : g.InRange)

include hg

theorem productionsOf_length : g.productionsOf g.symbols.length = [] := by
  apply List.eq_nil_iff_forall_not_mem.2
  intro n hn
  obtain ⟨p, hp, hl⟩ := g.mem_productionsOf.1 hn
  have hlt := hg.left p (List.mem_of_getElem? hp)
  omega

theorem addSymbol (symbol : Symbol) : (g.addSymbol symbol).InRange := by
  have hgrow := g.grows_addSymbol symbol
  have hlength : (g.addSymbol symbol).symbols.length = g.symbols.length + 1 := by
    simp [Grammar.addSymbol]
  refine ⟨hgrow.getElem? hg.lambda, hgrow.getElem? hg.endMarker, fun p hp => ?_, ?_⟩
  · have hlt := hg.left p hp
    omega
  · refine List.forall_mem_cons.2 ⟨by simp [hlength], fun entry hentry => ?_⟩
    have hlt := hg.named entry hentry
    omega

theorem rename (index : Nat) (name : String) : (g.rename index name).InRange := by
  unfold Grammar.rename
  split
  next hn =>
    have hplace : ∀ (x : Nat) (symbol : Symbol), g.symbols[x]? = some symbol →
        symbol.isNonTerminal = false →
        (g.symbols.set index (.nonTerminal name))[x]? = some symbol := by
      intro x symbol hx hs
      have hne : index ≠ x := by
        rintro rfl
        rw [isNonTerminal, hx, Option.any_some, hs] at hn
        cases hn
      rw [List.getElem?_set_ne hne, hx]
    exact ⟨hplace _ _ hg.lambda rfl, hplace _ _ hg.endMarker rfl,
      by simpa using hg.left, by simpa using hg.named⟩
  · exact hg

theorem addProduction {left : Nat} (hl : left < g.symbols.length) (right : List Nat) :
    (g.addProduction left right).InRange where
  lambda := hg.lambda
  endMarker := hg.endMarker
  left p hp := by
    rcases List.mem_append.1 hp with hp | hp
    · exact hg.left p hp
    · rw [List.mem_singleton.1 hp]
      exact hl
  named := hg.named

theorem edit {e : Edit} (he : g.edit e = .ok h) : h.InRange := by
  cases e with
  | addNonTerminal name => exact Except.ok.inj he ▸ hg.addSymbol _
  | addTerminal name => exact Except.ok.inj he ▸ hg.addSymbol _
  | addProduction left right =>
    simp only [Grammar.edit, addProduction?] at he
    split at he
    next hl => exact Except.ok.inj he ▸ hg.addProduction hl right
    · cases he
  | setStart start => exact Except.ok.inj he ▸ ⟨hg.lambda, hg.endMarker, hg.left, hg.named⟩
  | rename index name =>
    simp only [Grammar.edit] at he
    split at he
    · exact Except.ok.inj he ▸ hg.rename index name
    · cases he

theorem ledger_addSymbol (symbol : Symbol) :
    (g.addSymbol symbol).ledger = g.ledger.addSymbol symbol := by
  have hentries : (g.addSymbol symbol).ledger.entries =
      g.ledger.entries ++ [.ofSymbol g.symbols.length [] symbol] := by
    rw [← hg.productionsOf_length]
    exact List.mapIdx_concat
  rw [Ledger.addSymbol, length_entries_ledger, ← hentries]
  rfl

end InRange

theorem ledger_addProduction (g : Grammar) (left : Nat) (right : List Nat) :
    (g.addProduction left right).ledger = g.ledger.addProduction left right := by
  have hentries : (g.addProduction left right).ledger.entries =
      g.ledger.entries.modify left (·.addProduction g.ledger.productions.length) := by
    apply List.ext_getElem?
    intro x
    rw [getElem?_entries_ledger, List.getElem?_modify, getElem?_entries_ledger,
      productionsOf_addProduction]
    cases hs : g.symbols[x]? with
    | none => simp [addProduction, hs]
    | some symbol =>
      by_cases hx : left = x <;> cases symbol <;>
        simp [addProduction, ledger, hs, hx, Ledger.Entry.ofSymbol, Ledger.Entry.addProduction]
  rw [Ledger.addProduction, ← hentries]
  rfl

theorem productionsOf_rename (g : Grammar) (index : Nat) (name : String) (x : Nat) :
    (g.rename index name).productionsOf x = g.productionsOf x := by
  unfold rename
  split <;> rfl

theorem ledger_rename (g : Grammar) (index : Nat) (name : String) :
    (g.rename index name).ledger = g.ledger.rename index name := by
  have hentries : (g.rename index name).ledger.entries =
      g.ledger.entries.modify index (·.rename name) := by
    apply List.ext_getElem?
    intro x
    rw [getElem?_entries_ledger, List.getElem?_modify, getElem?_entries_ledger,
      productionsOf_rename]
    by_cases hx : index = x
    · subst hx
      cases hs : g.symbols[index]? with
      | none => simp [rename, isNonTerminal, hs]
      | some symbol =>
        have hkind : g.isNonTerminal index = symbol.isNonTerminal := by
          rw [isNonTerminal, hs, Option.any_some]
        have hset : (g.symbols.set index (.nonTerminal name))[index]? = some (.nonTerminal name) :=
          List.getElem?_set_self (List.getElem?_eq_some_iff.1 hs).1
        cases symbol <;> simp [rename, hkind, hset, hs, Symbol.isNonTerminal,
          Ledger.Entry.ofSymbol, Ledger.Entry.rename]
    · have hother : (g.rename index name).symbols[x]? = g.symbols[x]? := by
        unfold rename
        split
        · exact List.getElem?_set_ne hx
        · rfl
      simp [hother, hx]
  rw [Ledger.rename, ← hentries]
  unfold rename
  split <;> rfl

/-- An edit of the ledger writes down what the edit of the grammar gives. -/
theorem InRange.ledger_edit (hg : g.InRange) (e : Edit) :
    g.ledger.edit e = (g.edit e).map ledger := by
  cases e with
  | addNonTerminal name => exact congrArg Except.ok (hg.ledger_addSymbol _).symm
  | addTerminal name => exact congrArg Except.ok (hg.ledger_addSymbol _).symm
  | addProduction left right =>
    simp only [Ledger.edit, Grammar.edit, addProduction?, length_entries_ledger]
    split
    · exact congrArg Except.ok (g.ledger_addProduction left right).symm
    · rfl
  | setStart start => rfl
  | rename index name =>
    simp only [Ledger.edit, Grammar.edit, length_entries_ledger]
    split
    · exact congrArg Except.ok (g.ledger_rename index name).symm
    · rfl

/-! ## Runs of edits -/

theorem InRange.edits {es : List Edit} (hg : g.InRange) (he : g.edits es = .ok h) : h.InRange := by
  induction es generalizing g with
  | nil => exact Except.ok.inj he ▸ hg
  | cons e es ih =>
    obtain ⟨k, hk, hrest⟩ := exists_of_bind_eq_ok he
    exact ih (hg.edit hk) hrest

theorem InRange.ledger_edits (hg : g.InRange) (es : List Edit) :
    g.ledger.edits es = (g.edits es).map ledger := by
  induction es generalizing g with
  | nil => rfl
  | cons e es ih =>
    rw [Ledger.edits, Grammar.edits, List.foldlM_cons, List.foldlM_cons, hg.ledger_edit]
    cases hk : g.edit e with
    | error err => rfl
    | ok k => exact ih (hg.edit hk)

/-- A ledger that was edited is the ledger of the edited grammar. -/
theorem InRange.of_ledger_edits {es : List Edit} (hg : g.InRange) {l : Ledger}
    (he : g.ledger.edits es = .ok l) : ∃ h : Grammar, g.edits es = .ok h ∧ h.InRange ∧
      l = h.ledger := by
  rw [hg.ledger_edits] at he
  cases hh : g.edits es with
  | error err => rw [hh] at he; cases he
  | ok h =>
    rw [hh] at he
    exact ⟨h, rfl, hg.edits hh, (Except.ok.inj he).symm⟩

/-- What the ledger of a grammar says of a non-terminal. -/
theorem nonTerminal_of_ledger {x i : Nat} {name : String} {ns : List Nat}
    (hx : g.ledger.entries[x]? = some (.nonTerminal i name ns)) :
    g.isNonTerminal x = true ∧ i = x ∧ ns = g.productionsOf x := by
  rw [getElem?_entries_ledger] at hx
  obtain ⟨symbol, hs, he⟩ := Option.map_eq_some_iff.1 hx
  cases symbol with
  | lambda => cases he
  | endMarker => cases he
  | terminal name => cases he
  | nonTerminal name =>
    obtain ⟨rfl, -, rfl⟩ := Ledger.Entry.nonTerminal.inj he
    exact ⟨isNonTerminal_iff.2 ⟨name, hs⟩, rfl, rfl⟩

theorem InRange.inStep_ledger (hg : g.InRange) : g.ledger.InStep := by
  refine ⟨?_, ?_, fun x i name ns hx => (nonTerminal_of_ledger hx).2.1, ?_, ?_, ?_, ?_⟩
  · rw [getElem?_entries_ledger, hg.lambda]
    rfl
  · rw [getElem?_entries_ledger, hg.endMarker]
    rfl
  · intro x i name ns hx
    rw [(nonTerminal_of_ledger hx).2.2]
    exact List.pairwise_map.2 (g.pairwise_numberedProductionsOf x)
  · intro x i name ns hx n
    rw [(nonTerminal_of_ledger hx).2.2]
    exact g.mem_productionsOf
  · intro n p hp hleft i name ns hmem hn
    obtain ⟨x, hx⟩ := List.getElem?_of_mem hmem
    obtain ⟨hnt, -, rfl⟩ := nonTerminal_of_ledger hx
    obtain ⟨q, hq, rfl⟩ := g.mem_productionsOf.1 hn
    have hpq : p = q := Option.some.inj (hp.symm.trans hq)
    rw [grammar_ledger, hpq, hnt] at hleft
    cases hleft
  · rw [length_entries_ledger]
    exact hg.named

end Grammar

end LLOne

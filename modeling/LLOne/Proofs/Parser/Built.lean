import LLOne.Parser.Run
import LLOne.Proofs.Grammar.Conflict

/-!
# Parsers of loaded grammars

A parser that was built from a loaded grammar has the sets and the table of this grammar, and the
start symbol is a non-terminal. A cell of its table then gives the form of a right side of the
non-terminal, and a token is only ever of a class that can be looked ahead for.
-/

namespace LLOne.Parser

structure Built (p : Parser) : Prop where
  consistent : p.grammar.Consistent
  start : p.grammar.start = some p.start
  nonTerminal : p.grammar.isNonTerminal p.start = true
  sets : p.grammar.firstFollow = .ok p.sets
  table : p.grammar.table p.sets = .ok p.table

variable {p : Parser}

/-- What a successful construction consists of. -/
theorem parts_of_ofGrammar {g : Grammar} (h : ofGrammar g = .ok p) :
    p.grammar = g ∧ g.start = some p.start ∧ g.firstFollow = .ok p.sets ∧
      g.table p.sets = .ok p.table := by
  unfold ofGrammar at h
  cases hs : g.start with
  | none => rw [hs] at h; cases h
  | some start =>
    cases hf : g.firstFollow with
    | error e => simp [hs, hf, bind, Except.bind] at h
    | ok sets =>
      cases ht : g.table sets with
      | error e => simp [hs, hf, ht, bind, Except.bind] at h
      | ok table =>
        cases hn : g.nameOf start with
        | error e => simp [hs, hf, ht, hn, bind, Except.bind] at h
        | ok name =>
          simp only [hs, hf, ht, hn, bind, Except.bind, Except.ok.injEq] at h
          subst h
          exact ⟨rfl, rfl, rfl, ht⟩

/-! ## Construction -/

section Construction

variable {g : Grammar} {ff : FirstFollow} {t : Table} {e : GrammarError}

theorem ofGrammar_of_firstFollow_error (h : g.firstFollow = .error e) : ofGrammar g = .error e := by
  unfold ofGrammar
  cases hs : g.start with
  | none =>
    rw [Grammar.firstFollow, hs] at h
    exact congrArg Except.error (Except.error.inj h)
  | some start => simp only [h, bind, Except.bind]

theorem ofGrammar_of_table_error (hff : g.firstFollow = .ok ff) (h : g.table ff = .error e) :
    ofGrammar g = .error e := by
  obtain ⟨start, -, hs, -⟩ := Grammar.parts_of_firstFollow hff
  simp only [ofGrammar, hs, hff, h, bind, Except.bind]

/-- A loaded grammar with a table has a parser. -/
theorem exists_ofGrammar_of_table {lines : List String} (hload : Grammar.load lines = .ok g)
    (hff : g.firstFollow = .ok ff) (ht : g.table ff = .ok t) :
    ∃ start, ofGrammar g = .ok ⟨g, ff, t, start, ∅⟩ := by
  obtain ⟨start, -, hstart, -⟩ := Grammar.parts_of_firstFollow hff
  have hs := Grammar.isNonTerminal_start_of_load hload hstart
  obtain ⟨name, hname⟩ := Grammar.exists_nameOf (g.lt_length_of_isNonTerminal hs)
  exact ⟨start, by simp only [ofGrammar, hstart, hff, ht, hname, bind, Except.bind]⟩

end Construction

theorem map_withMessages {g : Grammar} (h : ofGrammar g = .ok p) (messages : MessageTable) :
    (ofGrammar g).map (withMessages · messages) = .ok (p.withMessages messages) := by
  rw [h]
  rfl

/-- The parser of a loaded grammar with any table of messages. -/
theorem built_of_load {lines : List String} {g : Grammar} {messages : MessageTable}
    (hload : Grammar.load lines = .ok g)
    (h : (ofGrammar g).map (withMessages · messages) = .ok p) : p.grammar = g ∧ p.Built := by
  cases ho : ofGrammar g with
  | error e => rw [ho] at h; cases h
  | ok q =>
    rw [ho] at h
    obtain rfl := Except.ok.inj h
    obtain ⟨rfl, hstart, hsets, htable⟩ := parts_of_ofGrammar ho
    exact ⟨rfl, Grammar.consistent_of_load hload, hstart,
      Grammar.isNonTerminal_start_of_load hload hstart, hsets, htable⟩

theorem messages_of_map {g : Grammar} {messages : MessageTable}
    (h : (ofGrammar g).map (withMessages · messages) = .ok p) : p.messages = messages := by
  cases ho : ofGrammar g with
  | error e => rw [ho] at h; cases h
  | ok q =>
    rw [ho] at h
    obtain rfl := Except.ok.inj h
    rfl

theorem isLookahead_of_classOf {t : Token} {x : Nat} (h : p.classOf t = some x) :
    p.grammar.isLookahead x = true := by
  unfold classOf at h
  split at h
  · exact (Option.filter_eq_some_iff.1 h).2
  · exact (Option.filter_eq_some_iff.1 h).2

namespace Built

variable (hp : p.Built)

include hp

theorem symbolsOf_eq {q : Nat} {production : Production}
    (hq : p.grammar.productions[q]? = some production) :
    p.symbolsOf q = p.grammar.form production.right := by
  simp only [symbolsOf, hq, Grammar.form]
  apply List.filter_congr
  intro x _
  have hl : p.grammar.symbols[x]? = some .lambda ↔ x = Symbol.lambdaIndex :=
    ⟨hp.consistent.only_lambda x, fun hx => hx ▸ hp.consistent.lambda⟩
  rw [Bool.eq_iff_iff, bne_iff_ne, bne_iff_ne, ne_eq, ne_eq, hl]

/-- What is expected in a node for `x` is the form of a right side of `x`. -/
theorem of_cell {input : List Token} {x q : Nat}
    (hq : (p.lookahead input).bind (p.table.get? x) = some q) :
    ∃ production ∈ p.grammar.productions, production.left = x ∧
      p.symbolsOf q = p.grammar.form production.right := by
  obtain ⟨t, -, hq⟩ := Option.bind_eq_some_iff.1 hq
  have hleast := (hp.consistent.get?_eq_some_iff hp.sets hp.table x t q).1 hq
  obtain ⟨production, hg, hl, -⟩ := hleast.1
  exact ⟨production, List.mem_of_getElem? hg, hl, hp.symbolsOf_eq hg⟩

/-- A predicted production has its right side in the table. -/
theorem exists_cell {production : Production} (hm : production ∈ p.grammar.productions) {t : Nat}
    (ht : p.grammar.Predicts p.sets production t) :
    ∃ q, p.table.get? production.left t = some q ∧
      p.symbolsOf q = p.grammar.form production.right := by
  obtain ⟨q, p', hq, hg, hr⟩ := hp.consistent.exists_cell_of_predicts hp.sets hp.table hm ht
  exact ⟨q, hq, by rw [hp.symbolsOf_eq hg, hr]⟩

/-- In a node only non-terminals, terminals and end markers are expected. -/
theorem mem_symbolsOf {input : List Token} {x q : Nat}
    (hq : (p.lookahead input).bind (p.table.get? x) = some q) :
    ∀ y ∈ p.symbolsOf q, p.grammar.isNonTerminal y = true ∨ p.grammar.isLookahead y = true := by
  obtain ⟨production, hm, -, hs⟩ := hp.of_cell hq
  rw [hs]
  intro y hy
  exact hp.consistent.mem_form_right hm hy

end Built

end LLOne.Parser

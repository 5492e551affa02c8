import LLOne.Proofs.Grammar.SameProductions
import LLOne.Proofs.Parser.Halting

/-!
# Parsing up to numbers

A parser looks at a symbol only to compare it, to find its cell and to name it. So where the symbols
of two parsers correspond and their cells stand for the same right sides, a step of one is a step of
the other with the numbers replaced, and so are whole runs.
-/

namespace LLOne

def Forest.renumber (e : Nat → Nat) : Forest → Forest
  | nil => nil
  | leaf token rest => leaf token (rest.renumber e)
  | node id symbol label children rest =>
    node id (e symbol) label (children.renumber e) (rest.renumber e)

@[simp] theorem Forest.renumber_append (e : Nat → Nat) (f g : Forest) :
    (f ++ g).renumber e = f.renumber e ++ g.renumber e := by
  induction f with
  | nil => rfl
  | leaf token rest ih => simp [renumber, ih]
  | node id symbol label children rest _ ih => simp [renumber, ih]

def Tree.renumber (e : Nat → Nat) (t : Tree) : Tree :=
  ⟨t.id, e t.symbol, t.label, t.children.renumber e⟩

def renumberResult (e : Nat → Nat) (r : Except SyntaxError Tree) : Except SyntaxError Tree :=
  r.map (Tree.renumber e)

def OpenNode.renumber (e : Nat → Nat) (n : OpenNode) : OpenNode :=
  ⟨n.id, e n.symbol, n.label, n.children.renumber e, n.expected.map e⟩

def ParseState.renumber (e : Nat → Nat) (s : ParseState) : ParseState :=
  { s with
    nodes := s.nodes.map (OpenNode.renumber e)
    outside := s.outside.map e
    root := s.root.map (Tree.renumber e) }

def ParseStep.renumber (e : Nat → Nat) : ParseStep → ParseStep
  | next s => next (s.renumber e)
  | stop result => stop (renumberResult e result)

/-! ## States -/

namespace ParseState

variable (e : Nat → Nat) (s : ParseState)

theorem next?_renumber : (s.renumber e).next? = s.next?.map e := by
  obtain ⟨nodes, outside, root, opened, input, last⟩ := s
  cases nodes with
  | nil => exact List.head?_map ..
  | cons node outer => exact List.head?_map ..

theorem drop_renumber : (s.renumber e).drop = s.drop.renumber e := by
  obtain ⟨nodes, outside, root, opened, input, last⟩ := s
  cases nodes with
  | nil => simp [drop, renumber, List.map_tail]
  | cons node outer => simp [drop, renumber, OpenNode.renumber, List.map_tail]

theorem addChild_renumber (child : Forest) :
    (s.renumber e).addChild (child.renumber e) = (s.addChild child).renumber e := by
  obtain ⟨nodes, outside, root, opened, input, last⟩ := s
  cases nodes with
  | nil => rfl
  | cons node outer => simp [addChild, renumber, OpenNode.renumber]

theorem openNode_renumber (symbol : Nat) (label : String) (expected : List Nat) :
    (s.renumber e).openNode (e symbol) label (expected.map e) =
      (s.openNode symbol label expected).renumber e := rfl

theorem closeNode_renumber : (s.renumber e).closeNode = s.closeNode.renumber e := by
  obtain ⟨nodes, outside, root, opened, input, last⟩ := s
  obtain _ | ⟨node, _ | ⟨next, outer⟩⟩ := nodes
  · rfl
  · rfl
  · exact addChild_renumber e ⟨next :: outer, outside, root, opened, input, last⟩
      node.tree.toForest

end ParseState

namespace Parser

/-- `e` takes the symbols of `p` to those of `q`, and the cells of `q` stand for what the cells of
`p` stand for. -/
structure Renumbers (p : Parser) (e : Nat ≃ Nat) (q : Parser) : Prop where
  grammar : p.grammar.Renumbers e q.grammar
  start : q.start = e p.start
  messages : q.messages = p.messages
  cell : ∀ a x, (q.table.get? (e a) (e x)).map q.symbolsOf =
    ((p.table.get? a x).map p.symbolsOf).map (List.map e)

namespace Renumbers

variable {p q : Parser} {e : Nat ≃ Nat} (r : p.Renumbers e q)

include r

/-! ## Tokens -/

theorem mem_terminalNames_iff {name : String} :
    name ∈ q.grammar.terminalNames ↔ name ∈ p.grammar.terminalNames := by
  rw [Grammar.mem_terminalNames, Grammar.mem_terminalNames, r.grammar.mem_symbols_iff]

theorem pieces (t : Token) : q.pieces t = p.pieces t := by
  have hs : q.splits t = p.splits t := by
    rw [splits, splits, decide_eq_decide.2 (not_congr r.mem_terminalNames_iff)]
  rw [Parser.pieces, Parser.pieces, hs]

theorem splitFirst (input : List Token) : q.splitFirst input = p.splitFirst input := by
  cases input with
  | nil => rfl
  | cons t rest => rw [Parser.splitFirst, Parser.splitFirst, r.pieces]

theorem filter_isLookahead (o : Option Nat) :
    (o.map e).filter q.grammar.isLookahead = (o.filter p.grammar.isLookahead).map e := by
  cases o with
  | none => rfl
  | some x =>
    rw [Option.map_some, Option.filter_some, Option.filter_some, r.grammar.isLookahead]
    split <;> rfl

theorem classOf (t : Token) : q.classOf t = (p.classOf t).map e := by
  unfold Parser.classOf
  split
  · rw [Grammar.sigma?, r.grammar.index, r.filter_isLookahead, Grammar.sigma?]
  · rw [r.grammar.index, r.filter_isLookahead]

theorem lookahead (input : List Token) : q.lookahead input = (p.lookahead input).map e := by
  cases input with
  | nil => exact congrArg some r.grammar.endMarker.symm
  | cons t rest => exact r.classOf t

/-! ## Errors -/

theorem nameOf (x : Nat) : q.nameOf (e x) = p.nameOf x := by
  rw [Parser.nameOf, r.grammar.name?, Parser.nameOf]

theorem mismatch (x : Nat) (t : Token) : q.mismatch (e x) t = p.mismatch x t := by
  rw [Parser.mismatch, r.nameOf, Parser.mismatch]

theorem noProduction (x : Nat) (t : Token) : q.noProduction (e x) t = p.noProduction x t := by
  rw [Parser.noProduction, r.nameOf, r.messages, Parser.noProduction]

theorem unexpectedEnd (x : Nat) (location : Option Location) (message : Option String) :
    q.unexpectedEnd (e x) location message = p.unexpectedEnd x location message := by
  rw [Parser.unexpectedEnd, r.nameOf, Parser.unexpectedEnd]

/-! ## Steps -/

theorem taken (s : ParseState) : q.taken (s.renumber e) = (p.taken s).renumber e := by
  rw [Parser.taken, s.drop_renumber, Parser.taken, ParseState.renumber, ParseState.renumber,
    ParseState.renumber, r.splitFirst]

theorem classOf_eq_some_iff {t : Token} {x : Nat} :
    q.classOf t = some (e x) ↔ p.classOf t = some x := by
  rw [r.classOf, ← Option.map_some, (Option.map_injective e.injective).eq_iff]

theorem readToken (x : Nat) (s : ParseState) :
    q.readToken (e x) (s.renumber e) = (p.readToken x s).renumber e := by
  obtain ⟨nodes, outside, root, opened, input, last⟩ := s
  cases input with
  | nil =>
    simp only [Parser.readToken, ParseState.renumber, r.grammar.eq_endIndex_iff, r.unexpectedEnd]
    split <;> rfl
  | cons t rest =>
    have hchild := ParseState.addChild_renumber e ⟨nodes, outside, root, opened, rest, last⟩
      (.leaf t .nil)
    simp only [Parser.readToken, ParseState.renumber, r.classOf_eq_some_iff,
      r.grammar.eq_endIndex_iff, r.mismatch, List.isEmpty_map]
    split
    · exact congrArg ParseStep.next hchild
    · split <;> rfl

/-- The cell for the next token has what is expected in a node for `x`. -/
theorem cell_lookahead (input : List Token) (x : Nat) :
    ((q.lookahead input).bind (q.table.get? (e x))).map q.symbolsOf =
      (((p.lookahead input).bind (p.table.get? x)).map p.symbolsOf).map (List.map e) := by
  rw [r.lookahead]
  cases p.lookahead input with
  | none => rfl
  | some t => exact r.cell x t

theorem expand (x : Nat) (s : ParseState) :
    q.expand (e x) (s.renumber e) = (p.expand x s).renumber e := by
  have hcell := r.cell_lookahead s.input x
  have hinput : (s.renumber e).input = s.input := rfl
  have hlast : (s.renumber e).last = s.last := rfl
  unfold Parser.expand
  rw [hinput, hlast, r.nameOf, r.messages]
  cases hp : (p.lookahead s.input).bind (p.table.get? x) with
  | none =>
    rw [hp, Option.map_none, Option.map_none, Option.map_eq_none_iff] at hcell
    rw [hcell]
    cases s.input with
    | nil => exact congrArg (fun err => ParseStep.stop (.error err)) (r.unexpectedEnd x s.last _)
    | cons t rest => exact congrArg (fun err => ParseStep.stop (.error err)) (r.noProduction x t)
  | some n =>
    rw [hp, Option.map_some, Option.map_some] at hcell
    obtain ⟨m, hm, hsymbols⟩ := Option.map_eq_some_iff.1 hcell
    rw [hm]
    dsimp only
    rw [hsymbols, s.openNode_renumber e]
    rfl

theorem finish (s : ParseState) : q.finish (s.renumber e) = renumberResult e (p.finish s) := by
  obtain ⟨nodes, outside, root, opened, input, last⟩ := s
  cases input with
  | nil =>
    cases root with
    | none => exact congrArg Except.error (r.start ▸ r.unexpectedEnd p.start last none)
    | some tree => rfl
  | cons t rest => rfl

theorem step (s : ParseState) : q.step (s.renumber e) = (p.step s).renumber e := by
  have hnodes : (s.renumber e).nodes.isEmpty = s.nodes.isEmpty := List.isEmpty_map ..
  unfold Parser.step
  rw [s.next?_renumber e, hnodes, s.closeNode_renumber e, r.taken]
  cases s.next? with
  | none =>
    rw [Option.map_none, r.finish]
    dsimp only
    split <;> rfl
  | some x =>
    rw [Option.map_some]
    dsimp only
    rw [r.grammar.symbol]
    split
    · rfl
    · rfl
    · exact r.expand x (p.taken s)
    · exact r.readToken x (p.taken s)

theorem run (n : Nat) (s : ParseState) :
    q.run n (s.renumber e) = (p.run n s).map (renumberResult e) := by
  induction n generalizing s with
  | zero => rfl
  | succ n ih =>
    unfold Parser.run
    rw [r.step]
    cases p.step s with
    | next s' => exact ih s'
    | stop result => rfl

theorem initial (tokens : List Token) : q.initial tokens = (p.initial tokens).renumber e := by
  simp only [Parser.initial, ParseState.renumber, r.start, List.map_nil, List.map_cons,
    r.grammar.endMarker, Option.map_none]

theorem parse (hp : p.Built) (hq : q.Built) (tokens : List Token) :
    q.parse tokens = (p.parse tokens).map (renumberResult e) := by
  by_cases hne : tokens = []
  · have hnone : q.noTokens = p.noTokens := by
      rw [noTokens, r.start, r.unexpectedEnd, noTokens]
    subst hne
    exact congrArg (fun err => some (Except.error err)) hnone
  · apply Option.ext
    intro result
    simp only [parse_eq_some_iff hq hne, r.initial, r.run, Option.map_eq_some_iff,
      parse_eq_some_iff hp hne]
    constructor
    · rintro ⟨n, result', hr, he⟩
      exact ⟨result', ⟨n, hr⟩, he⟩
    · rintro ⟨result', ⟨n, hr⟩, he⟩
      exact ⟨n, result', hr, he⟩

end Renumbers

/-! ## Parsers of renumbered grammars -/

theorem Built.map_symbolsOf {p : Parser} (hp : p.Built) (a x : Nat) :
    (p.table.get? a x).map p.symbolsOf =
      (p.grammar.cellRight p.table a x).map p.grammar.form := by
  rw [Grammar.cellRight]
  cases hn : p.table.get? a x with
  | none => rfl
  | some n =>
    obtain ⟨production, hg, -⟩ := ((hp.consistent.get?_eq_some_iff hp.sets hp.table a x n).1 hn).1
    rw [Option.map_some, Option.bind_some, hg, Option.map_some, Option.map_some,
      hp.symbolsOf_eq hg]

theorem Built.renumbers {p q : Parser} (hp : p.Built) (hq : q.Built) {e : Nat ≃ Nat}
    (r : p.grammar.Renumbers e q.grammar) (hm : q.messages = p.messages) : p.Renumbers e q where
  grammar := r
  start := by
    have hstart := r.start
    rw [hp.start, hq.start] at hstart
    exact Option.some.inj hstart
  messages := hm
  cell a x := by
    have hsets := r.sameSets hp.consistent.toWellFormed hq.consistent.toWellFormed hp.start
      hp.nonTerminal hp.sets hq.sets
    rw [hp.map_symbolsOf, hq.map_symbolsOf, r.cellRight hsets hp.consistent.toWellFormed
      hq.consistent.toWellFormed hp.sets hq.sets hp.table hq.table, Option.map_map, Option.map_map]
    congr 1
    exact funext r.form

/-- A loaded grammar with a table has a parser with any table of messages. -/
theorem exists_built_of_load {lines : List String} {g : Grammar}
    (hload : Grammar.load lines = .ok g) {ff : FirstFollow} (hff : g.firstFollow = .ok ff)
    {t : Table} (ht : g.table ff = .ok t) (messages : MessageTable) :
    ∃ p, (ofGrammar g).map (withMessages · messages) = .ok p ∧ p.grammar = g ∧
      p.messages = messages ∧ p.Built := by
  obtain ⟨start, ho⟩ := exists_ofGrammar_of_table hload hff ht
  have hp : (ofGrammar g).map (withMessages · messages) = .ok ⟨g, ff, t, start, messages⟩ :=
    map_withMessages ho messages
  obtain ⟨-, hb⟩ := built_of_load hload hp
  exact ⟨_, hp, rfl, rfl, hb⟩

/-- What `g` and `h` are analysed to, and how their parsers answer, is the same apart from numbers:
both have no start symbol, both are left recursive, both have a conflict, or both have parsers. -/
inductive Agree (e : Nat ≃ Nat) (g h : Grammar) : Prop
  | empty (hstart : g.start = none) (hstart' : h.start = none)
    (hff : g.firstFollow = .error .empty) (hff' : h.firstFollow = .error .empty)
  | leftRecursion {a b : String} (hff : g.firstFollow = .error (.leftRecursion a))
    (hff' : h.firstFollow = .error (.leftRecursion b))
  | tableConflict {ff ff' : FirstFollow}
    (hff : g.firstFollow = .ok ff) (hff' : h.firstFollow = .ok ff') (sets : g.SameSets e ff ff')
    (ht : ∃ row column old new, g.table ff = .error (.tableConflict row column old new))
    (ht' : ∃ row column old new, h.table ff' = .error (.tableConflict row column old new))
  | parsers {ff ff' : FirstFollow} {t t' : Table}
    (hff : g.firstFollow = .ok ff) (hff' : h.firstFollow = .ok ff') (sets : g.SameSets e ff ff')
    (ht : g.table ff = .ok t) (ht' : h.table ff' = .ok t')
    (cells : ∀ a x, h.cellRight t' (e a) (e x) = (g.cellRight t a x).map (List.map e))
    (parse : ∀ messages, ∃ p q, (ofGrammar g).map (withMessages · messages) = .ok p ∧
      (ofGrammar h).map (withMessages · messages) = .ok q ∧
      ∀ tokens, AnswerAlike (fun r r' => r' = renumberResult e r) p q tokens)

/-- Loaded grammars with the same productions and the same start symbol by name agree, whatever the
order and the number of the lines. Where one of the parsers returns, the other one returns the same
tree apart from numbers or the same error. -/
theorem agree_of_sameProductions {lines lines' : List String} {g h : Grammar}
    (hload : Grammar.load lines = .ok g) (hload' : Grammar.load lines' = .ok h)
    (hs : g.SameProductions h) : ∃ e : Nat ≃ Nat, g.Renumbers e h ∧ Agree e g h := by
  have r := hs.renumbers hload hload'
  refine ⟨_, r, ?_⟩
  generalize hs.equiv hload hload' = e at r
  have hg := (Grammar.consistent_of_load hload).toWellFormed
  have hh := (Grammar.consistent_of_load hload').toWellFormed
  cases hstart : g.start with
  | none =>
    have hstart' : h.start = none := by rw [r.start, hstart, Option.map_none]
    exact .empty hstart hstart' (by rw [Grammar.firstFollow, hstart])
      (by rw [Grammar.firstFollow, hstart'])
  | some start =>
    have hn := Grammar.isNonTerminal_start_of_load hload hstart
    rcases r.firstFollow_cases hg hh hstart hn with
      ⟨a, b, hff, hff'⟩ | ⟨ff, ff', hff, hff', sets⟩
    · exact .leftRecursion hff hff'
    rcases r.table_cases hff hff' hload hload' sets with ⟨ht, ht'⟩ | ⟨t, t', ht, ht', cells⟩
    · exact .tableConflict hff hff' sets ht ht'
    refine .parsers hff hff' sets ht ht' cells fun messages => ?_
    obtain ⟨p, hp, rfl, hm, hpb⟩ := exists_built_of_load hload hff ht messages
    obtain ⟨q, hq, rfl, hm', hqb⟩ := exists_built_of_load hload' hff' ht' messages
    refine ⟨p, q, hp, hq, fun tokens => answerAlike_of_rel hpb hqb ?_⟩
    rw [(hpb.renumbers hqb r (hm'.trans hm.symm)).parse hpb hqb tokens]
    cases p.parse tokens with
    | none => exact .none
    | some result => exact .some rfl

def sortedLines : List String :=
  ["<S> -> <A> b", "<S> -> c", "<A> -> a <S>", "<A> -> lambda"]

def shuffledLines : List String :=
  ["<S> -> c", "<A> -> λ", "<A> -> a <S>", "<S> -> <A> b", "<S> -> c"]

def sorted : Grammar where
  symbols := [.lambda, .endMarker, .nonTerminal "<S>", .nonTerminal "<A>", .terminal "b",
    .terminal "c", .terminal "a"]
  names := [("a", 6), ("c", 5), ("b", 4), ("<A>", 3), ("<S>", 2), ("$", 1), ("lambda", 0),
    ("λ", 0)]
  productions := [⟨2, [3, 4]⟩, ⟨2, [5]⟩, ⟨3, [6, 2]⟩, ⟨3, [0]⟩]
  start := some 2

def shuffled : Grammar where
  symbols := [.lambda, .endMarker, .nonTerminal "<S>", .nonTerminal "<A>", .terminal "c",
    .terminal "a", .terminal "b"]
  names := [("b", 6), ("a", 5), ("c", 4), ("<A>", 3), ("<S>", 2), ("$", 1), ("lambda", 0),
    ("λ", 0)]
  productions := [⟨2, [4]⟩, ⟨3, [0]⟩, ⟨3, [5, 2]⟩, ⟨2, [3, 6]⟩, ⟨2, [4]⟩]
  start := some 2

theorem sameProductions_sorted_shuffled : sorted.SameProductions shuffled where
  productions entry := by
    have hforth : ∀ entry ∈ sorted.productions.map sorted.written,
        entry ∈ shuffled.productions.map shuffled.written := by decide
    have hback : ∀ entry ∈ shuffled.productions.map shuffled.written,
        entry ∈ sorted.productions.map sorted.written := by decide
    exact ⟨hforth entry, hback entry⟩
  start := rfl

theorem agree_of_sameProductions_shuffled :
    ∃ e : Nat ≃ Nat, e 4 = 6 ∧ Agree e sorted shuffled := by
  obtain ⟨e, r, hagree⟩ := agree_of_sameProductions (rfl : Grammar.load sortedLines = .ok sorted)
    (rfl : Grammar.load shuffledLines = .ok shuffled) sameProductions_sorted_shuffled
  refine ⟨e, ?_, hagree⟩
  have hb : shuffled.indexOf? "b" = (sorted.indexOf? "b").map e := r.index "b"
  exact (Option.some.inj hb).symm

def echoingBackwards : Grammar where
  symbols := [.lambda, .endMarker, .nonTerminal "<S>", .terminal "a"]
  names := [("a", 3), ("<S>", 2), ("$", 1), ("lambda", 0), ("λ", 0)]
  productions := [⟨2, [3]⟩, ⟨2, [1, 2]⟩]
  start := some 2

def echoingBackwardsParser : Parser where
  grammar := echoingBackwards
  sets := ⟨⟨[(2, .ofList [1, 3])]⟩, ⟨[(2, .ofList [1])]⟩⟩
  table := ⟨[((2, 3), 0), ((2, 1), 1)]⟩
  start := 2
  messages := ∅

theorem sameProductions_echoing_backwards : echoing.SameProductions echoingBackwards where
  productions entry := by
    have hforth : ∀ entry ∈ echoing.productions.map echoing.written,
        entry ∈ echoingBackwards.productions.map echoingBackwards.written := by decide
    have hback : ∀ entry ∈ echoingBackwards.productions.map echoingBackwards.written,
        entry ∈ echoing.productions.map echoing.written := by decide
    exact ⟨hforth entry, hback entry⟩
  start := rfl

/-- The same productions and the same start symbol do not make the parsers return anything. -/
theorem no_results_echoing_backwards :
    Grammar.load ["<S> -> $ <S>", "<S> -> a"] = .ok echoing ∧
    Grammar.load ["<S> -> a", "<S> -> $ <S>"] = .ok echoingBackwards ∧
    echoing.SameProductions echoingBackwards ∧
    ofGrammar echoing = .ok echoingParser ∧
    ofGrammar echoingBackwards = .ok echoingBackwardsParser ∧
    echoingParser.Loops [⟨⟨0, 1⟩, .punctuation, "$"⟩] ∧
    echoingBackwardsParser.Loops [⟨⟨0, 1⟩, .punctuation, "$"⟩] ∧
    ¬ ∃ r r', echoingParser.parse [⟨⟨0, 1⟩, .punctuation, "$"⟩] = some r ∧
      echoingBackwardsParser.parse [⟨⟨0, 1⟩, .punctuation, "$"⟩] = some r' := by
  have hload : Grammar.load ["<S> -> a", "<S> -> $ <S>"] = .ok echoingBackwards := rfl
  have hmap : (ofGrammar echoingBackwards).map (withMessages · ∅) =
      .ok echoingBackwardsParser := rfl
  obtain ⟨-, hb⟩ := built_of_load load_echoing ofGrammar_echoing
  obtain ⟨-, hb'⟩ := built_of_load hload hmap
  have hs := sameProductions_echoing_backwards
  have hloops := loops_echoing ∅
  have hnone := (parse_eq_none_iff hb _).2 hloops
  have hnone' := (hb.renumbers hb' (hs.renumbers load_echoing hload) rfl).parse hb hb'
    [⟨⟨0, 1⟩, .punctuation, "$"⟩]
  rw [hnone, Option.map_none] at hnone'
  refine ⟨load_echoing, hload, hs, rfl, rfl, hloops, (parse_eq_none_iff hb' _).1 hnone', ?_⟩
  rintro ⟨r, -, hr, -⟩
  cases hnone.symm.trans hr

end Parser

end LLOne

import LLOne.Proofs.Grammar.Editing
import LLOne.Proofs.Grammar.LineFormat
import LLOne.Proofs.Grammar.Prediction
import LLOne.Proofs.Text.Words
import Mathlib.Data.List.Sort

/-!
# A loaded grammar represents its lines

Its symbols are `λ`, the end marker, the left sides and the words for terminals, each once and in
the order in which they first came, and found under their names. Its productions are the lines that
are not blank, in their order and word by word, where both names of `λ` are one. The ledger that is
written while the lines are loaded has each non-terminal with its place and its productions.
-/

namespace LLOne.Grammar

def isBlankLine (line : String) : Bool := (Text.words line).isEmpty

def written (g : Grammar) (p : Production) : Option String × List (Option String) :=
  (g.name? p.left, p.right.map g.name?)

def spelledLine (line : String) : Option String × List (Option String) :=
  ((Text.words line).head?, ((rightSide line).map spelling).map some)

/-- The productions that the lines spell, one for each line that is not blank. -/
def spelledLines (lines : List String) : List (Option String × List (Option String)) :=
  (lines.filter fun line => !isBlankLine line).map spelledLine

/-- The symbols, names, productions and the start symbol of the grammar are those of the lines. -/
structure Represents (g : Grammar) (lines : List String) : Prop where
  symbols : g.symbols = .lambda :: .endMarker :: ((leftSides lines).eraseDups.map .nonTerminal ++
    ((lines.flatMap rightSide).filter namesTerminal).eraseDups.map .terminal)
  names : (g.symbols.map Symbol.name).Nodup
  indexed : ∀ name x, g.indexOf? name = some x ↔
    g.name? x = some name ∨ name = Symbol.lambdaWord ∧ x = Symbol.lambdaIndex
  productions : g.productions.map g.written = spelledLines lines
  left : ∀ p ∈ g.productions, p.left ∈ g.nonTerminals ∧ p.left < g.symbols.length
  right : ∀ p ∈ g.productions, p.right ≠ [] ∧ (∀ x ∈ p.right, x < g.symbols.length) ∧
    (Symbol.lambdaIndex ∈ p.right → p.right = [Symbol.lambdaIndex])
  nonTerminals : g.nonTerminals = List.range' 2 (leftSides lines).eraseDups.length
  productionsOf : ∀ a ∈ g.nonTerminals, g.productionsOf a ≠ [] ∧
    (g.productionsOf a).Pairwise (· < ·) ∧
    ∀ n, n ∈ g.productionsOf a ↔ ∃ p, g.productions[n]? = some p ∧ p.left = a
  built : blank.EditsTo g
  ledger : ∀ es, blank.edits es = .ok g → Ledger.blank.edits es = .ok g.ledger
  stored : ∀ (x i : Nat) (name : String) (ns : List Nat),
    g.ledger.entries[x]? = some (.nonTerminal i name ns) →
    x ∈ g.nonTerminals ∧ i = x ∧ ns ≠ [] ∧ ns.Pairwise (· < ·) ∧
      ∀ n, n ∈ ns ↔ ∃ p, g.productions[n]? = some p ∧ p.left = x
  start : g.start = g.productions.head?.map Production.left
  start_eq_none : g.start = none ↔ g.productions = []

variable {g h : Grammar} {lines : List String}

theorem spelling_of_isBracketed {word : String} (hb : isBracketed word = true) :
    spelling word = word := by
  unfold spelling
  split
  next hw =>
    subst hw
    exact absurd hb (by decide)
  · rfl

theorem isBlankLine_eq_false_iff {line : String} :
    isBlankLine line = false ↔ Text.words line ≠ [] := List.isEmpty_eq_false_iff

theorem mem_spelledLines {entry : Option String × List (Option String)} :
    entry ∈ spelledLines lines ↔
      ∃ line ∈ lines, isBlankLine line = false ∧ spelledLine line = entry := by
  simp [spelledLines, and_assoc]

theorem spelledLines_cons_of_blank {line : String} (hl : isBlankLine line = true)
    (rest : List String) : spelledLines (line :: rest) = spelledLines rest := by
  rw [spelledLines, List.filter_cons_of_neg (by simp [hl]), spelledLines]

theorem spelledLines_cons {line : String} (hl : isBlankLine line = false) (rest : List String) :
    spelledLines (line :: rest) = spelledLine line :: spelledLines rest := by
  rw [spelledLines, List.filter_cons_of_pos (by simp [hl]), List.map_cons, spelledLines]

theorem mem_leftSides_iff {name : String} :
    name ∈ leftSides lines ↔ ∃ entry ∈ spelledLines lines, entry.1 = some name := by
  rw [leftSides, List.mem_filterMap]
  constructor
  · rintro ⟨line, hl, hhead⟩
    have hfull : isBlankLine line = false := by
      rw [isBlankLine_eq_false_iff]
      intro hnil
      rw [hnil] at hhead
      cases hhead
    exact ⟨_, mem_spelledLines.2 ⟨line, hl, hfull, rfl⟩, hhead⟩
  · rintro ⟨_, hmem, hname⟩
    obtain ⟨line, hl, -, rfl⟩ := mem_spelledLines.1 hmem
    exact ⟨line, hl, hname⟩

theorem flatMap_words_rulesOf (number : Nat) :
    (g.rulesOf number lines).flatMap Rule.words = lines.flatMap rightSide := by
  induction lines generalizing number with
  | nil => rfl
  | cons line rest ih =>
    have hline : (g.ruleOf? line number).toList.flatMap Rule.words = rightSide line := by
      by_cases hne : rightSide line = []
      · cases hr : g.ruleOf? line number with
        | none => exact hne.symm
        | some rule => simpa using words_of_ruleOf? hr
      · obtain ⟨left, hr⟩ := g.exists_ruleOf?_eq_some hne number
        simp [hr]
    rw [rulesOf_cons, List.flatMap_append, hline, ih, List.flatMap_cons]

theorem exists_head?_of_not_isBlankLine {line : String} (hl : isBlankLine line = false) :
    ∃ left, (Text.words line).head? = some left := by
  obtain ⟨left, words, hw⟩ := List.exists_cons_of_ne_nil (isBlankLine_eq_false_iff.1 hl)
  exact ⟨left, by rw [hw, List.head?_cons]⟩

/-- The rules of lines in format are spelled like the lines. -/
theorem map_rulesOf {lefts words : List String} (hc : h.Collects lefts words)
    (hall : ∀ l ∈ lines, InFormat l) (hl : ∀ left ∈ leftSides lines, left ∈ lefts) (number : Nat) :
    ((h.rulesOf number lines).map fun rule =>
      (h.name? rule.left, (rule.words.map spelling).map some)) = spelledLines lines := by
  induction lines generalizing number with
  | nil => rfl
  | cons line rest ih =>
    rw [List.forall_mem_cons] at hall
    rw [leftSides_cons, List.forall_mem_append] at hl
    rw [rulesOf_cons, List.map_append, ih hall.2 hl.2]
    rcases hall.1 with hw | ⟨left, right, hw, -, hb⟩
    · have hblank : isBlankLine line = true := by rw [isBlankLine, hw]; rfl
      have hnone : h.ruleOf? line number = none := by simp only [ruleOf?, hw]
      rw [spelledLines_cons_of_blank hblank, hnone]
      rfl
    · have hfull : isBlankLine line = false := by rw [isBlankLine, hw]; rfl
      have hmem : left ∈ lefts := hl.1 left (by simp [hw])
      obtain ⟨x, hx⟩ := (hc.exists_indexOf?_of_isBracketed hb).2 hmem
      have hname : h.name? x = some left := by
        rw [hc.name?_of_indexOf? hx, spelling_of_isBracketed hb]
      have hrule : h.ruleOf? line number = some ⟨number, x, right⟩ := by
        simp only [ruleOf?, hw, hx, Option.getD_some]
      rw [spelledLines_cons hfull, hrule, spelledLine, rightSide, hw]
      simp [hname]

theorem Indexed.nodup_names (hi : g.Indexed) : (g.symbols.map Symbol.name).Nodup := by
  rw [List.nodup_iff_getElem?_ne_getElem?]
  intro x y hxy hy he
  rw [List.getElem?_map, List.getElem?_map] at he
  have hsome : g.name? y = some _ := List.getElem?_map .. ▸ List.getElem?_eq_getElem hy
  exact absurd (hi.eq_of_name? (he.trans hsome) hsome) (Nat.ne_of_lt hxy)

/-! ## Symbols and their productions -/

namespace Collects

variable {lefts words : List String} (hc : g.Collects lefts words)

include hc

theorem isNonTerminal_iff_lt {x : Nat} :
    g.isNonTerminal x = true ↔ 2 ≤ x ∧ x < 2 + lefts.eraseDups.length := by
  rw [isNonTerminal, hc.symbols]
  obtain _ | _ | x := x
  · simp [Symbol.isNonTerminal]
  · simp [Symbol.isNonTerminal]
  · have hkind : ∀ names : List String, (names.map Symbol.terminal)[x - lefts.eraseDups.length]?.any
        Symbol.isNonTerminal = false := by
      intro names
      rw [List.getElem?_map]
      cases names[x - lefts.eraseDups.length]? <;> rfl
    rw [List.getElem?_cons_succ, List.getElem?_cons_succ, List.getElem?_append, List.length_map]
    split
    next hlt => simp [List.getElem?_eq_getElem hlt, Symbol.isNonTerminal]; omega
    next hge => rw [hkind]; simp; omega

/-- The non-terminals stand behind `λ` and the end marker. -/
theorem nonTerminals_eq : g.nonTerminals = List.range' 2 lefts.eraseDups.length := by
  apply g.pairwise_nonTerminals.eq_of_mem_iff (List.pairwise_lt_range' 1)
  intro x
  rw [mem_nonTerminals, hc.isNonTerminal_iff_lt, List.mem_range'_1]

theorem mem_lefts_of_name? {x : Nat} (hx : g.isNonTerminal x = true) {name : String}
    (hn : g.name? x = some name) : name ∈ lefts := by
  obtain ⟨name', hs⟩ := isNonTerminal_iff.1 hx
  have hmem : Symbol.nonTerminal name' ∈ g.symbols := List.mem_of_getElem? hs
  rw [name?, hs] at hn
  obtain rfl : name' = name := Option.some.inj hn
  rw [hc.symbols] at hmem
  simpa using hmem

end Collects

theorem rightSide_ne_nil {line : String} (hline : InFormat line)
    (hfull : isBlankLine line = false) : rightSide line ≠ [] := by
  rcases hline with hw | ⟨left, right, hw, hne, -⟩
  · rw [isBlankLine, hw] at hfull
    cases hfull
  · rwa [rightSide, hw]

/-! ## Loaded grammars -/

section

variable (hload : load lines = .ok g)

include hload

theorem accepted_of_load : (∀ l ∈ lines, InFormat l) ∧ ∀ l ∈ lines, ¬ Faulty lines l := by
  by_contra hnot
  obtain ⟨e, hf⟩ := exists_fault hnot
  rw [hf.load_eq] at hload
  cases hload

theorem collects_of_load : g.Collects (leftSides lines) (lines.flatMap rightSide) := by
  obtain ⟨hall, hb⟩ := accepted_of_load hload
  obtain ⟨h, g', -, -, hload', hc, -⟩ := load_of_accepted hall hb
  obtain rfl : g = g' := Except.ok.inj (hload.symm.trans hload')
  rwa [flatMap_words_rulesOf] at hc

theorem written_of_load : g.productions.map g.written = spelledLines lines := by
  obtain ⟨hall, hb⟩ := accepted_of_load hload
  obtain ⟨h, g', hh, hgrow, hload', -, hspell⟩ := load_of_accepted hall hb
  obtain rfl : g = g' := Except.ok.inj (hload.symm.trans hload')
  have hrules := map_rulesOf hh hall (fun _ hl => hl) 1
  have hwritten : g.productions.map g.written =
      (g.productions.map fun p => (p.left, p.right.map g.name?)).map
        fun e => (g.name? e.1, e.2) := by
    rw [List.map_map]
    rfl
  rw [hwritten, hspell, ← hrules, List.map_map]
  apply List.map_congr_left
  intro rule hrule
  obtain ⟨line, -, hfull, he⟩ := mem_spelledLines.1 (hrules ▸ List.mem_map_of_mem hrule)
  obtain ⟨left, hleft⟩ := exists_head?_of_not_isBlankLine hfull
  have hname : h.name? rule.left = some left := (Prod.mk.inj he).1.symm.trans hleft
  simp only [Function.comp_apply, hgrow.name? hname, hname]

end

/-- A right side with the names of words that can be read is not empty and has `λ` only alone. -/
theorem Collects.right_cases {lefts words : List String} (hc : g.Collects lefts words)
    {right : List Nat} {names : List String} (hne : names ≠ []) (hm : ¬ MixesLambda names)
    (hnames : right.map g.name? = (names.map spelling).map some) :
    right ≠ [] ∧ (Symbol.lambdaIndex ∈ right → right = [Symbol.lambdaIndex]) := by
  have hlength : right.length = names.length := by simpa using congrArg List.length hnames
  refine ⟨List.ne_nil_of_length_pos (hlength ▸ List.length_pos_iff.2 hne), fun hlambda => ?_⟩
  have hshort : right.length ≤ 1 := by
    rw [hlength]
    refine Nat.le_of_not_lt fun hlong => hm ⟨hlong, ?_⟩
    exact (hc.lambdaIndex_mem_iff hnames).1 hlambda
  have hone : right.length = 1 := Nat.le_antisymm hshort (List.length_pos_of_mem hlambda)
  obtain ⟨x, rfl⟩ := List.length_eq_one_iff.1 hone
  rw [List.mem_singleton.1 hlambda]

section

variable (hload : load lines = .ok g)

include hload

theorem right_of_load {p : Production} (hp : p ∈ g.productions) :
    p.right ≠ [] ∧ (Symbol.lambdaIndex ∈ p.right → p.right = [Symbol.lambdaIndex]) := by
  obtain ⟨hall, hb⟩ := accepted_of_load hload
  obtain ⟨line, hl, hfull, he⟩ :=
    mem_spelledLines.1 (written_of_load hload ▸ List.mem_map_of_mem hp)
  exact (collects_of_load hload).right_cases (rightSide_ne_nil (hall line hl) hfull)
    (fun hm => hb line hl (.inr hm)) (Prod.mk.inj he).2.symm

/-- The names of symbols are words. -/
theorem isWord_of_name? {x : Nat} {name : String} (hn : g.name? x = some name) :
    Text.IsWord name := by
  have hmem := exists_name?_iff.1 ⟨x, hn⟩
  rw [(collects_of_load hload).symbols] at hmem
  simp only [List.map_cons, List.map_append, map_name_nonTerminal, map_name_terminal,
    List.mem_cons, List.mem_append, List.mem_eraseDups, List.mem_filter] at hmem
  rcases hmem with rfl | rfl | hleft | ⟨hword, -⟩
  · decide
  · decide
  · obtain ⟨line, -, hhead⟩ := List.mem_filterMap.1 hleft
    exact Text.isWord_of_mem_words (List.mem_of_head? hhead)
  · obtain ⟨line, -, hright⟩ := List.mem_flatMap.1 hword
    exact Text.isWord_of_mem_words (List.mem_of_mem_drop hright)

end

theorem productionsOf_of_load (hload : load lines = .ok g) {a : Nat} (ha : a ∈ g.nonTerminals) :
    g.productionsOf a ≠ [] := by
  have hc := collects_of_load hload
  obtain ⟨name, hs⟩ := isNonTerminal_iff.1 (g.mem_nonTerminals.1 ha)
  have hname : g.name? a = some name := by rw [name?, hs]; rfl
  obtain ⟨entry, hentry, hleft⟩ :=
    mem_leftSides_iff.1 (hc.mem_lefts_of_name? (g.mem_nonTerminals.1 ha) hname)
  obtain ⟨p, hp, rfl⟩ := List.mem_map.1 (written_of_load hload ▸ hentry)
  obtain ⟨n, hn⟩ := List.getElem?_of_mem hp
  exact List.ne_nil_of_mem (g.mem_productionsOf.2 ⟨p, hn, hc.indexed.eq_of_name? hleft hname⟩)

/-- A loaded grammar represents its lines. -/
theorem load_represents (hload : load lines = .ok g) : g.Represents lines := by
  obtain ⟨es, hes⟩ := editsTo_of_load hload
  have hrange : g.InRange := inRange_blank.edits hes
  have hc := collects_of_load hload
  refine ⟨hc.symbols, hc.indexed.nodup_names, hc.indexed, written_of_load hload, ?_, ?_,
    hc.nonTerminals_eq, ?_, ⟨es, hes⟩, fun fs hfs => ledger_of_edits_blank hfs, ?_,
    start_of_load hload, ?_⟩
  · intro p hp
    have hn := (consistent_of_load hload).left p hp
    exact ⟨g.mem_nonTerminals.2 hn, g.lt_length_of_isNonTerminal hn⟩
  · intro p hp
    obtain ⟨hright, hlambda⟩ := right_of_load hload hp
    exact ⟨hright, (consistent_of_load hload).right p hp, hlambda⟩
  · intro a ha
    exact ⟨productionsOf_of_load hload ha, List.pairwise_map.2 (g.pairwise_numberedProductionsOf a),
      fun n => g.mem_productionsOf⟩
  · intro x i name ns hx
    have hstep := hrange.inStep_ledger
    obtain ⟨hnt, hi, hns⟩ := nonTerminal_of_ledger hx
    have hmem := g.mem_nonTerminals.2 hnt
    exact ⟨hmem, hi, hns ▸ productionsOf_of_load hload hmem, hstep.ascending x i name ns hx,
      hstep.listed x i name ns hx⟩
  · rw [start_of_load hload, Option.map_eq_none_iff, List.head?_eq_none_iff]

def repeatedLines : List String :=
  ["<S> -> a <A> $", "", "<A> -> lambda", "<S> -> a <A> $", " <A>  -> b <S>", "<A> -> λ"]

def repeated : Grammar where
  symbols := [.lambda, .endMarker, .nonTerminal "<S>", .nonTerminal "<A>", .terminal "a",
    .terminal "b"]
  names := [("b", 5), ("a", 4), ("<A>", 3), ("<S>", 2), ("$", 1), ("lambda", 0), ("λ", 0)]
  productions := [⟨2, [4, 3, 1]⟩, ⟨3, [0]⟩, ⟨2, [4, 3, 1]⟩, ⟨3, [5, 2]⟩, ⟨3, [0]⟩]
  start := some 2

theorem load_represents_repeated : repeated.Represents repeatedLines :=
  load_represents (rfl : load repeatedLines = .ok repeated)

end LLOne.Grammar

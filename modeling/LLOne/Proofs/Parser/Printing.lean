import LLOne.Proofs.Grammar.SameProductions
import LLOne.Proofs.Parser.ArenaLoop
import LLOne.Proofs.Tree.Printing

/-!
# The print determines the parsed tree

In a tree that is parsed the nodes are numbered in the order in which their lines come, and each is
labelled with the name of its symbol, which is a word in angle brackets and belongs to no other
symbol. So what the outline leaves open is settled for these trees.
-/

namespace LLOne

namespace Grammar

variable {lines : List String} {g : Grammar}

theorem isLabel_of_isBracketed {word : String} (hw : Text.IsWord word)
    (hb : isBracketed word = true) : IsLabel word := by
  refine ⟨?_, fun c hc he => ?_⟩
  · unfold isBracketed at hb
    split at hb
    next rest hword => rw [hword]; rfl
    · cases hb
  · subst he
    exact absurd (hw.not_blank _ hc) (by decide)

theorem isLabel_of_name? (hload : load lines = .ok g) {x : Nat} (hx : g.isNonTerminal x = true)
    {name : String} (hn : g.name? x = some name) : IsLabel name := by
  have hc := collects_of_load hload
  have hleft := hc.mem_lefts_of_name? hx hn
  exact isLabel_of_isBracketed (isWord_of_name? hload hn) (hc.bracketed name hleft)

end Grammar

namespace Parser

variable {p : Parser}

def Labelled (p : Parser) (f : Forest) : Prop :=
  ∀ t ∈ f.nodes, p.grammar.isNonTerminal t.symbol = true ∧
    p.grammar.name? t.symbol = some t.label

theorem Reads.labelled {k : Nat} {u : List Nat} {i i' : List Token} {d : Shape} {f : Forest}
    (h : p.Reads k u i d f i') : p.Labelled f := by
  induction h with
  | nil => exact List.forall_mem_nil _
  | token _ _ ih => exact ih
  | beyond _ ih => exact ih
  | @node k x q u i i₁ i' c d fc f hx _ _ _ ihc ih =>
    obtain ⟨name, hs⟩ := Grammar.isNonTerminal_iff.1 hx
    have hname : p.grammar.name? x = some (p.nameOf x) := by simp [nameOf, Grammar.name?, hs]
    rw [Labelled, Forest.nodes, List.forall_mem_cons, List.forall_mem_append]
    exact ⟨⟨hx, hname⟩, ihc, ih⟩

namespace Labelled

variable {f f' : Forest} (hf : p.Labelled f) (hf' : p.Labelled f')

include hf hf'

/-- The labels determine the symbols. -/
theorem symbols_eq (hi : p.grammar.Indexed)
    (h : f.nodes.map Tree.label = f'.nodes.map Tree.label) :
    f.nodes.map Tree.symbol = f'.nodes.map Tree.symbol := by
  have hnames : ∀ {f : Forest}, p.Labelled f →
      (f.nodes.map Tree.symbol).map p.grammar.name? = (f.nodes.map Tree.label).map some := by
    intro f hf
    rw [List.map_map, List.map_map]
    exact List.map_congr_left fun t ht => (hf t ht).2
  apply hi.eq_of_map_name?
  · rw [hnames hf, hnames hf', h]
  · rw [List.forall_mem_map]
    exact fun t ht => p.grammar.lt_length_of_isNonTerminal (hf t ht).1

/-- Forests with numbered nodes are determined by their print. -/
theorem textOnly_eq_of_print {lines : List String} (hload : Grammar.load lines = .ok p.grammar)
    (hn : f.Numbered) (hn' : f'.Numbered) {level : Nat} (h : f.print level = f'.print level) :
    f.textOnly = f'.textOnly := by
  have houtline := outline_eq_of_print
    (fun t ht => Grammar.isLabel_of_name? hload (hf t ht).1 (hf t ht).2)
    (fun t ht => Grammar.isLabel_of_name? hload (hf' t ht).1 (hf' t ht).2) h
  have hlabels : f.nodes.map Tree.label = f'.nodes.map Tree.label := by
    rw [← f.labels_outline level, houtline, f'.labels_outline]
  have hlength : f.nodes.length = f'.nodes.length := by simpa using congrArg List.length hlabels
  have hids : f.nodes.map Tree.id = f'.nodes.map Tree.id := by
    rw [show f.nodes.map Tree.id = _ from hn, hlength, show f'.nodes.map Tree.id = _ from hn']
  exact Forest.textOnly_eq_of_outline houtline hids
    (hf.symbols_eq hf' (Grammar.collects_of_load hload).indexed hlabels)

end Labelled

/-- Two parsed trees have one print if and only if they are the same but for the kinds and places of
their leaves. The arenas are then of one shape, with the same symbols, labels and texts. -/
theorem print_eq_iff {lines : List String} {g : Grammar} {messages : MessageTable}
    (hload : Grammar.load lines = .ok g)
    (hp : (ofGrammar g).map (withMessages · messages) = .ok p) {tokens tokens' : List Token}
    {tree tree' : Tree} (h : p.parse tokens = some (.ok tree))
    (h' : p.parse tokens' = some (.ok tree')) :
    tree.print = tree'.print ↔ tree.textOnly = tree'.textOnly ∧
      tree.arena.map ArenaNode.textOnly = tree'.arena.map ArenaNode.textOnly := by
  obtain ⟨rfl, hb⟩ := built_of_load hload hp
  obtain ⟨d, i, hd, -⟩ := exists_reads_of_parse hb h
  obtain ⟨d', i', hd', -⟩ := exists_reads_of_parse hb h'
  constructor
  · intro hprint
    have hforest := hd.labelled.textOnly_eq_of_print hd'.labelled hload hd.numbered hd'.numbered
      hprint
    refine ⟨Tree.toForest_inj hforest, ?_⟩
    rw [Tree.arena, Tree.arena, ← Forest.arena_textOnly, hforest, Forest.arena_textOnly]
  · intro hsame
    have hforest : tree.toForest.textOnly = tree'.toForest.textOnly :=
      congrArg Tree.toForest hsame.1
    rw [Tree.print, Tree.print, ← Forest.print_textOnly, hforest, Forest.print_textOnly]

def quoting : Grammar where
  symbols := [.lambda, .endMarker, .nonTerminal "<S>", .nonTerminal "<A>", .terminal "σ",
    .terminal "+"]
  names := [("+", 5), ("σ", 4), ("<A>", 3), ("<S>", 2), ("$", 1), ("lambda", 0), ("λ", 0)]
  productions := [⟨2, [4, 3]⟩, ⟨3, [5]⟩, ⟨3, [0]⟩]
  start := some 2

def quotingParser : Parser where
  grammar := quoting
  sets := ⟨⟨[(2, .ofList [4]), (3, .ofList [0, 5])]⟩, ⟨[(2, .ofList [1]), (3, .ofList [1])]⟩⟩
  table := ⟨[((2, 4), 0), ((3, 5), 1), ((3, 1), 2)]⟩
  start := 2
  messages := ∅

theorem load_quoting :
    Grammar.load ["<S> -> σ <A>", "<A> -> +", "<A> -> lambda"] = .ok quoting := rfl

theorem ofGrammar_quoting : (ofGrammar quoting).map (withMessages · ∅) = .ok quotingParser := rfl

def quotingTokens (start : Nat) (kind : TokenKind) : List Token :=
  [⟨⟨start, start + 8⟩, .stringLiteral, "\"\n  <A>\n"⟩, ⟨⟨start + 9, start + 10⟩, kind, "+"⟩]

def quotingTree (start : Nat) (kind : TokenKind) : Tree where
  id := 0
  symbol := 2
  label := "<S>"
  children := .leaf ⟨⟨start, start + 8⟩, .stringLiteral, "\"\n  <A>\n"⟩
    (.node 1 3 "<A>" (.leaf ⟨⟨start + 9, start + 10⟩, kind, "+"⟩ .nil) .nil)

theorem print_eq_iff_quoting :
    quotingParser.parse (quotingTokens 0 .word) = some (.ok (quotingTree 0 .word)) ∧
      quotingParser.parse (quotingTokens 5 .punctuation) =
        some (.ok (quotingTree 5 .punctuation)) ∧
      (quotingTree 0 .word).textOnly = (quotingTree 5 .punctuation).textOnly := by
  have hsame := print_eq_iff load_quoting ofGrammar_quoting
    (rfl : quotingParser.parse (quotingTokens 0 .word) = some (.ok (quotingTree 0 .word)))
    (rfl : quotingParser.parse (quotingTokens 5 .punctuation) =
      some (.ok (quotingTree 5 .punctuation)))
  exact ⟨rfl, rfl, (hsame.1 rfl).1⟩

end Parser

end LLOne

import LLOne.Proofs.Parser.Runs

/-!
# Parsed trees are derivation trees

The tree that a parser returns is a derivation tree of its tokens. Below every node stand the
symbols of a right side, each as a leaf of its class or as a node; only end markers may be missing,
and only where no leaf follows any more. Its leaves are the pieces of the tokens in order, except
that an end marker at the end may be left over.
-/

namespace LLOne.Parser

/-- The forest, behind which the given tokens follow, stands for the symbols. -/
inductive Matches (p : Parser) : List Token → List Nat → Forest → Prop
  | nil (after : List Token) : Matches p after [] .nil
  | leaf {after : List Token} {x : Nat} {u : List Nat} {t : Token} {f : Forest}
    (hx : p.classOf t = some x) (h : Matches p after u f) :
    Matches p after (x :: u) (.leaf t f)
  | node {after : List Token} {production : Production} {u : List Nat} {id : Nat}
    {children f : Forest} (hm : production ∈ p.grammar.productions)
    (hc : Matches p (f.leaves ++ after) (p.grammar.form production.right) children)
    (h : Matches p after u f) :
    Matches p after (production.left :: u)
      (.node id production.left (p.nameOf production.left) children f)
  | missing {after : List Token} {u : List Nat} {f : Forest} (hl : f.leaves ++ after = [])
    (h : Matches p after u f) : Matches p after (Symbol.endIndex :: u) f

variable {p : Parser}

/-- Behind the end of the input no leaf follows any more. -/
theorem Reads.no_leaves_behind {k : Nat} {u : List Nat} {i' : List Token} {d : Shape} {f : Forest}
    (h : p.Reads k u [] d f i') {after : List Token} (ha : i' = [] → after = []) :
    f.leaves ++ after = [] := by
  obtain ⟨hf, hi'⟩ := List.append_eq_nil_iff.1 h.input_eq.symm
  rw [hf, ha hi', List.append_nil]

/-- What is read from the input stands for the symbols, whatever part of the rest follows. -/
theorem Reads.matches {k : Nat} {u : List Nat} {i i' : List Token} {d : Shape} {f : Forest}
    (h : p.Reads k u i d f i') (hp : p.Built) {after : List Token}
    (ha : i' = [] → after = []) : p.Matches after u f := by
  induction h generalizing after with
  | nil => exact .nil after
  | token hx _ ih => exact .leaf hx (ih ha)
  | beyond h ih => exact .missing (h.no_leaves_behind ha) (ih ha)
  | @node k x q u i i₁ i' c d fc f _ hq _ h ihc ih =>
    obtain ⟨production, hm, rfl, hs⟩ := hp.of_cell hq
    rw [hs] at ihc
    have hbehind : i₁ = [] → f.leaves ++ after = [] := by
      intro hi₁
      subst hi₁
      exact h.no_leaves_behind ha
    exact .node hm (ihc hbehind) (ih ha)

/-- A parse that leads to a tree is a reading of the pieces. -/
theorem exists_reads_of_parse (hp : p.Built) {tokens : List Token} {tree : Tree}
    (h : p.parse tokens = some (.ok tree)) :
    ∃ d i', p.Reads 0 [p.start] (p.splitAll tokens) d tree.toForest i' ∧ p.Ends i' := by
  unfold parse at h
  split at h
  · cases h
  · rw [← run_splitAll_eq_ok_iff] at h
    exact exists_reads_of_run_initial hp (inPieces_splitAll tokens) h

theorem parse_sound {lines : List String} {g : Grammar} {messages : MessageTable}
    (hload : Grammar.load lines = .ok g)
    (hp : (ofGrammar g).map (withMessages · messages) = .ok p) {tokens : List Token} {tree : Tree}
    (h : p.parse tokens = some (.ok tree)) :
    g.start = some tree.symbol ∧ p.Matches [] [tree.symbol] tree.toForest ∧
      (p.splitAll tokens = tree.leaves ∨
        ∃ t, p.classOf t = some Symbol.endIndex ∧ p.splitAll tokens = tree.leaves ++ [t]) := by
  obtain ⟨rfl, hb⟩ := built_of_load hload hp
  obtain ⟨d, i', hd, he⟩ := exists_reads_of_parse hb h
  have hroot : tree.symbol = p.start := by
    obtain ⟨q, c, fc, -, -, -, htree⟩ := hd.start_cases hb
    rw [Tree.toForest_inj htree]
    rfl
  have hleaves := hd.input_eq
  rw [Tree.leaves_toForest] at hleaves
  rw [hroot, hleaves]
  refine ⟨hb.start, hd.matches hb fun _ => rfl, ?_⟩
  rcases he with rfl | ⟨t, ht, rfl⟩
  · exact .inl (List.append_nil _)
  · exact .inr ⟨t, ht, rfl⟩

def tally : Grammar where
  symbols := [.lambda, .endMarker, .nonTerminal "<S>", .nonTerminal "<A>", .terminal "b",
    .terminal "a"]
  names := [("a", 5), ("b", 4), ("<A>", 3), ("<S>", 2), ("$", 1), ("lambda", 0), ("λ", 0)]
  productions := [⟨2, [3, 4, 1]⟩, ⟨3, [5, 3]⟩, ⟨3, [0]⟩]
  start := some 2

def tallyParser : Parser where
  grammar := tally
  sets := ⟨⟨[(3, .ofList [0, 5]), (2, .ofList [4, 5])]⟩, ⟨[(2, .ofList [1]), (3, .ofList [4])]⟩⟩
  table := ⟨[((2, 4), 0), ((2, 5), 0), ((3, 5), 1), ((3, 4), 2)]⟩
  start := 2
  messages := ∅

theorem load_tally :
    Grammar.load ["<S> -> <A> b $", "<A> -> a <A>", "<A> -> lambda"] = .ok tally := rfl

theorem ofGrammar_tally : (ofGrammar tally).map (withMessages · ∅) = .ok tallyParser := rfl

def tallyTree : Tree where
  id := 0
  symbol := 2
  label := "<S>"
  children := .node 1 3 "<A>" (.leaf ⟨⟨0, 1⟩, .word, "a"⟩ (.node 2 3 "<A>" .nil .nil))
    (.leaf ⟨⟨1, 2⟩, .word, "b"⟩ .nil)

theorem parse_tally : tallyParser.parse [⟨⟨0, 2⟩, .word, "ab"⟩] = some (.ok tallyTree) := rfl

theorem parse_sound_tally : tallyParser.Matches [] [2] tallyTree.toForest ∧
    tallyParser.splitAll [⟨⟨0, 2⟩, .word, "ab"⟩] = tallyTree.leaves := by
  obtain ⟨-, hm, -⟩ := parse_sound load_tally ofGrammar_tally parse_tally
  exact ⟨hm, rfl⟩

end LLOne.Parser

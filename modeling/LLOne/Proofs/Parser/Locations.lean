import LLOne.Proofs.Grammar.SameProductions
import LLOne.Proofs.Parser.Soundness
import LLOne.Proofs.Tree.Locations

/-!
# Locations and texts of parsed trees

The pieces of a token lie inside of it, one behind the other, and have its text. So if the locations
of tokens ascend, those of their pieces do, and hence those of the leaves of a parsed tree. The
texts of the leaves in a row are those of the tokens, except for an end marker that is left over.
-/

namespace LLOne.Parser

open Location (Ascending)

variable {p : Parser}

/-! ## Pieces -/

theorem bounds_of_mem_pieces {t u : Token} (hle : t.location.start ≤ t.location.stop)
    (ht : p.splits t = true → t.Spans) (hu : u ∈ p.pieces t) :
    t.location.start ≤ u.location.start ∧ u.location.start ≤ u.location.stop ∧
      u.location.stop ≤ t.location.stop := by
  unfold pieces at hu
  split at hu
  next hs => exact Token.bounds_of_mem_separate (ht hs) hu
  · obtain rfl := List.mem_singleton.1 hu
    exact ⟨Nat.le_refl _, hle, Nat.le_refl _⟩

theorem pairwise_pieces (t : Token) :
    (p.pieces t).Pairwise fun u v => u.location.stop ≤ v.location.start := by
  unfold pieces
  split
  · exact t.pairwise_separate
  · exact List.pairwise_singleton _ t

theorem join_text_pieces (t : Token) : String.join ((p.pieces t).map Token.text) = t.text := by
  unfold pieces
  split
  · exact t.join_text_separate
  · exact String.empty_append

theorem ascending_splitAll {tokens : List Token} (h : Ascending (tokens.map Token.location))
    (hspan : ∀ t ∈ tokens, p.splits t = true → t.Spans) :
    Ascending ((p.splitAll tokens).map Token.location) := by
  have hle : ∀ t ∈ tokens, t.location.start ≤ t.location.stop := List.forall_mem_map.1 h.le
  have hbounds : ∀ t ∈ tokens, ∀ u ∈ p.pieces t, t.location.start ≤ u.location.start ∧
      u.location.start ≤ u.location.stop ∧ u.location.stop ≤ t.location.stop :=
    fun t ht u hu => bounds_of_mem_pieces (hle t ht) (hspan t ht) hu
  apply Location.ascending_of_pairwise
  · rw [List.forall_mem_map]
    intro u hu
    obtain ⟨t, ht, hu⟩ := List.mem_flatMap.1 hu
    exact (hbounds t ht u hu).2.1
  · rw [List.pairwise_map, splitAll, List.pairwise_flatMap]
    refine ⟨fun t _ => pairwise_pieces t, ?_⟩
    have htokens := List.pairwise_map.1 h.pairwise
    apply htokens.imp_of_mem
    intro t t' ht ht' hlt u hu u' hu'
    have hu := (hbounds t ht u hu).2.2
    have hu' := (hbounds t' ht' u' hu').1
    omega

theorem join_text_splitAll (tokens : List Token) :
    String.join ((p.splitAll tokens).map Token.text) = String.join (tokens.map Token.text) := by
  induction tokens with
  | nil => rfl
  | cons t tokens ih =>
    rw [splitAll_cons, List.map_append, String.join_append, join_text_pieces, ih, List.map_cons,
      String.join_cons]

/-- Only tokens that are spelled like the end marker are of its class. -/
theorem text_of_classOf_endIndex (hp : p.Built) (hi : p.grammar.Indexed) {t : Token}
    (ht : p.classOf t = some Symbol.endIndex) : t.text = Symbol.endMarkerName := by
  have hword : ∀ word, p.grammar.indexOf? word = some Symbol.endIndex →
      word = Symbol.endMarkerName := by
    intro word hword
    rcases (hi word Symbol.endIndex).1 hword with hname | ⟨-, hx⟩
    · exact Option.some.inj (hname.symm.trans hp.consistent.name?_endIndex)
    · cases hx
  unfold classOf at ht
  split at ht
  · have hsigma := hword Symbol.sigmaName (Option.filter_eq_some_iff.1 ht).1
    exact absurd hsigma (by decide)
  · exact hword t.text (Option.filter_eq_some_iff.1 ht).1

/-- The leaves of a parsed tree ascend if the tokens do, and the texts are those of the tokens. -/
theorem parse_locations {lines : List String} {g : Grammar} {messages : MessageTable}
    (hload : Grammar.load lines = .ok g)
    (hp : (ofGrammar g).map (withMessages · messages) = .ok p) {tokens : List Token} {tree : Tree}
    (h : p.parse tokens = some (.ok tree)) (htokens : Ascending (tokens.map Token.location))
    (hspan : ∀ t ∈ tokens, p.splits t = true → t.Spans) :
    Ascending (tree.leaves.map Token.location) ∧ (∀ n ∈ tree.nodes, n.Located) ∧
    (p.splitAll tokens = tree.leaves ∧ String.join (tokens.map Token.text) = tree.literals ∨
      ∃ t, p.classOf t = some Symbol.endIndex ∧ p.splitAll tokens = tree.leaves ++ [t] ∧
        String.join (tokens.map Token.text) = tree.literals ++ Symbol.endMarkerName) := by
  obtain ⟨rfl, hb⟩ := built_of_load hload hp
  obtain ⟨d, i', hd, he⟩ := exists_reads_of_parse hb h
  have hinput := hd.input_eq
  rw [Tree.leaves_toForest] at hinput
  have hleaves : Ascending (tree.leaves.map Token.location) := by
    have hpieces := ascending_splitAll htokens hspan
    rw [hinput, List.map_append] at hpieces
    exact hpieces.sublist (List.sublist_append_left _ _)
  refine ⟨hleaves, ?_, ?_⟩
  · intro n hn
    rw [← Tree.nodes_toForest] at hn
    have hsub := Forest.leaves_sublist hn
    rw [Tree.leaves_toForest] at hsub
    exact Tree.located (hleaves.sublist (hsub.map Token.location))
  · have htexts := join_text_splitAll (p := p) tokens
    rw [hinput, List.map_append, String.join_append] at htexts
    rcases he with rfl | ⟨t, ht, rfl⟩
    · refine .inl ⟨hinput.trans (List.append_nil _), ?_⟩
      rw [← htexts]
      exact String.append_empty
    · have htext := text_of_classOf_endIndex hb (Grammar.collects_of_load hload).indexed ht
      refine .inr ⟨t, ht, hinput, ?_⟩
      rw [← htexts, ← htext]
      exact congrArg (tree.literals ++ ·) String.empty_append

def accented : Grammar where
  symbols := [.lambda, .endMarker, .nonTerminal "<S>", .nonTerminal "<A>", .terminal "é",
    .terminal "ß"]
  names := [("ß", 5), ("é", 4), ("<A>", 3), ("<S>", 2), ("$", 1), ("lambda", 0), ("λ", 0)]
  productions := [⟨2, [4, 3]⟩, ⟨3, [5]⟩]
  start := some 2

def accentedParser : Parser where
  grammar := accented
  sets := ⟨⟨[(2, .ofList [4]), (3, .ofList [5])]⟩, ⟨[(2, .ofList [1]), (3, .ofList [1])]⟩⟩
  table := ⟨[((2, 4), 0), ((3, 5), 1)]⟩
  start := 2
  messages := ∅

theorem load_accented : Grammar.load ["<S> -> é <A>", "<A> -> ß"] = .ok accented := rfl

theorem ofGrammar_accented : (ofGrammar accented).map (withMessages · ∅) = .ok accentedParser := rfl

def accentedTree : Tree where
  id := 0
  symbol := 2
  label := "<S>"
  children := .leaf ⟨⟨0, 2⟩, .word, "é"⟩
    (.node 1 3 "<A>" (.leaf ⟨⟨2, 4⟩, .word, "ß"⟩ .nil) .nil)

theorem parse_accented : accentedParser.parse [⟨⟨0, 4⟩, .word, "éß"⟩, ⟨⟨5, 6⟩, .punctuation, "$"⟩] =
    some (.ok accentedTree) := rfl

theorem parse_locations_accented :
    Ascending (accentedTree.leaves.map Token.location) ∧ ∀ n ∈ accentedTree.nodes, n.Located := by
  obtain ⟨hleaves, hnodes, -⟩ := parse_locations load_accented ofGrammar_accented parse_accented
    ⟨by decide, by decide⟩ (by decide)
  exact ⟨hleaves, hnodes⟩

end LLOne.Parser

import LLOne.Proofs.Parser.EndMarker

/-!
# Parsing pieces and leaves

Whether words are brought in pieces one by one while they are read, or all at once before, makes no
difference for what is parsed. The leaves of a parsed tree lead to the same tree again. They are
pieces already, and only an end marker that stood last can be missing behind them, for which the end
of the input is taken as well.
-/

namespace LLOne.Parser

variable {p : Parser}

/-! ## Pieces -/

theorem splitAll_ne_nil {tokens : List Token} (hne : tokens ≠ []) : p.splitAll tokens ≠ [] := by
  obtain ⟨t, rest, rfl⟩ := List.exists_cons_of_ne_nil hne
  exact List.append_ne_nil_of_left_ne_nil (pieces_ne_nil t) _

section Pieces

variable (hp : p.Built) {tokens : List Token}

include hp

theorem exists_parse_splitAll {r : Except SyntaxError Tree} (h : p.parse tokens = some r) :
    ∃ r', p.parse (p.splitAll tokens) = some r' ∧ ResultsAlike r r' := by
  by_cases hne : tokens = []
  · subst hne
    obtain rfl := Option.some.inj h
    exact ⟨_, h, .error (.refl p.noTokens)⟩
  · obtain ⟨n, hn⟩ := (parse_eq_some_iff hp hne).1 h
    obtain ⟨r', hr', halike⟩ := exists_run_splitAll hn
    exact ⟨r', (parse_eq_some_iff hp (splitAll_ne_nil hne)).2 ⟨n, hr'⟩, halike⟩

theorem exists_parse_of_splitAll {r' : Except SyntaxError Tree}
    (h : p.parse (p.splitAll tokens) = some r') :
    ∃ r, p.parse tokens = some r ∧ ResultsAlike r r' := by
  by_cases hne : tokens = []
  · subst hne
    obtain rfl := Option.some.inj h
    exact ⟨_, h, .error (.refl p.noTokens)⟩
  · obtain ⟨n, hn⟩ := (parse_eq_some_iff hp (splitAll_ne_nil hne)).1 h
    obtain ⟨r, hr, halike⟩ := exists_run_of_splitAll hn
    exact ⟨r, (parse_eq_some_iff hp hne).2 ⟨n, hr⟩, halike⟩

end Pieces

/-- Tokens and all of their pieces lead to the same tree, or to errors that differ at most in where
the input ends and in whether a token left over is whole. -/
theorem parse_splitAll {lines : List String} {g : Grammar} {messages : MessageTable}
    (hload : Grammar.load lines = .ok g)
    (hp : (ofGrammar g).map (withMessages · messages) = .ok p) (tokens : List Token) :
    (∀ tree, p.parse tokens = some (.ok tree) ↔ p.parse (p.splitAll tokens) = some (.ok tree)) ∧
    (∀ e, p.parse tokens = some (.error e) →
      ∃ e', p.parse (p.splitAll tokens) = some (.error e') ∧ e.Alike e') ∧
    ∀ e', p.parse (p.splitAll tokens) = some (.error e') →
      ∃ e, p.parse tokens = some (.error e) ∧ e.Alike e' := by
  obtain ⟨-, hb⟩ := built_of_load hload hp
  refine ⟨fun tree => ⟨fun h => ?_, fun h => ?_⟩, fun e h => ?_, fun e' h => ?_⟩
  · obtain ⟨r', hr', ⟨⟩⟩ := exists_parse_splitAll hb h
    exact hr'
  · obtain ⟨r, hr, ⟨⟩⟩ := exists_parse_of_splitAll hb h
    exact hr
  · obtain ⟨r', hr', ⟨⟩ | halike⟩ := exists_parse_splitAll hb h
    exact ⟨_, hr', halike⟩
  · obtain ⟨r, hr, ⟨⟩ | halike⟩ := exists_parse_of_splitAll hb h
    exact ⟨_, hr, halike⟩

/-- A word that is left over is reported whole or by its first piece. -/
theorem parse_splitAll_tally :
    ∃ e', tallyParser.parse (tallyParser.splitAll
        [⟨⟨0, 2⟩, .word, "ab"⟩, ⟨⟨2, 3⟩, .punctuation, "$"⟩, ⟨⟨3, 4⟩, .punctuation, "$"⟩,
          ⟨⟨4, 6⟩, .word, "ba"⟩]) = some (.error e') ∧
      (trailingInput ⟨⟨4, 6⟩, .word, "ba"⟩).Alike e' := by
  obtain ⟨-, herror, -⟩ := parse_splitAll load_tally ofGrammar_tally
    [⟨⟨0, 2⟩, .word, "ab"⟩, ⟨⟨2, 3⟩, .punctuation, "$"⟩, ⟨⟨3, 4⟩, .punctuation, "$"⟩,
      ⟨⟨4, 6⟩, .word, "ba"⟩]
  exact herror _ rfl

/-! ## Leaves -/

/-- The leaves of a parsed tree are read as the same tree. An end marker that was left over behind
them may be missing. -/
theorem parse_leaves {lines : List String} {g : Grammar} {messages : MessageTable}
    (hload : Grammar.load lines = .ok g)
    (hp : (ofGrammar g).map (withMessages · messages) = .ok p) {tokens : List Token} {tree : Tree}
    (h : p.parse tokens = some (.ok tree)) (hne : tree.leaves ≠ []) :
    p.parse tree.leaves = some (.ok tree) := by
  obtain ⟨-, hb⟩ := built_of_load hload hp
  obtain ⟨d, i', hd, he⟩ := exists_reads_of_parse hb h
  have hinput : p.splitAll tokens = tree.leaves ++ i' := by
    rw [hd.input_eq, Tree.leaves_toForest]
  have hpieces : p.InPieces tree.leaves := by
    intro t ht
    apply inPieces_splitAll tokens
    rw [hinput]
    exact List.mem_append_left _ ht
  have hread : p.Reads 0 [p.start] tree.leaves d tree.toForest [] := by
    rw [hinput] at hd
    rcases he with rfl | ⟨t, ht, rfl⟩
    · rwa [List.append_nil] at hd
    · exact .of_append_end ht hd
  rw [parse_eq_ok_iff hb hne, hpieces.splitAll_eq]
  exact ⟨d, [], hread, .inl rfl⟩

/-- The second end marker is no leaf, the first one is. -/
theorem parse_leaves_tally :
    ∃ tree, tallyParser.parse [⟨⟨0, 2⟩, .word, "ab"⟩, ⟨⟨2, 3⟩, .punctuation, "$"⟩,
        ⟨⟨3, 4⟩, .punctuation, "$"⟩] = some (.ok tree) ∧
      tree.leaves = [⟨⟨0, 1⟩, .word, "a"⟩, ⟨⟨1, 2⟩, .word, "b"⟩, ⟨⟨2, 3⟩, .punctuation, "$"⟩] ∧
      tallyParser.parse tree.leaves = some (.ok tree) := by
  have hparse : tallyParser.parse [⟨⟨0, 2⟩, .word, "ab"⟩, ⟨⟨2, 3⟩, .punctuation, "$"⟩,
      ⟨⟨3, 4⟩, .punctuation, "$"⟩] = some (.ok ⟨0, 2, "<S>",
        .node 1 3 "<A>" (.leaf ⟨⟨0, 1⟩, .word, "a"⟩ (.node 2 3 "<A>" .nil .nil))
          (.leaf ⟨⟨1, 2⟩, .word, "b"⟩ (.leaf ⟨⟨2, 3⟩, .punctuation, "$"⟩ .nil))⟩) := rfl
  exact ⟨_, hparse, rfl, parse_leaves load_tally ofGrammar_tally hparse (List.cons_ne_nil _ _)⟩

end LLOne.Parser

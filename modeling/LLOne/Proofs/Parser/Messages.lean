import LLOne.Proofs.Parser.Renumbering
import LLOne.Proofs.Parser.Soundness

/-!
# Messages only word the errors

A step looks up messages in two of its ways to fail: where no production is predicted by a token,
and where the tokens end and a non-terminal is expected. Two parsers that differ in their messages
only therefore go through the same states and stop together, with one tree or with two errors that
differ at most in their texts. A parser whose messages are replaced between runs answers as if it
had been built with the last ones.
-/

namespace LLOne

def SyntaxError.Looked (g : Grammar) (e : SyntaxError) : Prop :=
  e.kind = .noProduction ∨
    e.kind = .unexpectedEnd ∧ ∃ x, g.isNonTerminal x = true ∧ e.expected = g.name? x

/-- The errors are the same apart from a text that was looked up. -/
structure SyntaxError.Reworded (g : Grammar) (e e' : SyntaxError) : Prop where
  kind : e.kind = e'.kind
  location : e.location = e'.location
  found : e.found = e'.found
  expected : e.expected = e'.expected
  text : e.text ≠ e'.text → e.Looked g

theorem SyntaxError.Reworded.refl {g : Grammar} (e : SyntaxError) : e.Reworded g e :=
  ⟨rfl, rfl, rfl, rfl, absurd rfl⟩

inductive ResultsReworded (g : Grammar) :
    Except SyntaxError Tree → Except SyntaxError Tree → Prop
  | ok (tree : Tree) : ResultsReworded g (.ok tree) (.ok tree)
  | error {e e' : SyntaxError} (h : e.Reworded g e') : ResultsReworded g (.error e) (.error e')

theorem ResultsReworded.refl {g : Grammar} (r : Except SyntaxError Tree) :
    ResultsReworded g r r := by
  cases r with
  | ok tree => exact .ok tree
  | error e => exact .error (.refl e)

inductive StepsReworded (g : Grammar) : ParseStep → ParseStep → Prop
  | next (s : ParseState) : StepsReworded g (.next s) (.next s)
  | stop {r r' : Except SyntaxError Tree} (h : ResultsReworded g r r') :
    StepsReworded g (.stop r) (.stop r')

theorem StepsReworded.refl {g : Grammar} (a : ParseStep) : StepsReworded g a a := by
  cases a with
  | next s => exact .next s
  | stop r => exact .stop (.refl r)

namespace Parser

variable {p : Parser} (messages : MessageTable)

/-! ## Runs -/

theorem noProduction_reworded (x : Nat) (t : Token) :
    (p.noProduction x t).Reworded p.grammar ((p.withMessages messages).noProduction x t) where
  kind := rfl
  location := rfl
  found := rfl
  expected := rfl
  text _ := .inl rfl

theorem unexpectedEnd_reworded {x : Nat} (hx : p.grammar.isNonTerminal x = true)
    (l : Option Location) (m m' : Option String) :
    (p.unexpectedEnd x l m).Reworded p.grammar (p.unexpectedEnd x l m') where
  kind := rfl
  location := rfl
  found := rfl
  expected := rfl
  text _ := by
    obtain ⟨name, hs⟩ := Grammar.isNonTerminal_iff.1 hx
    refine .inr ⟨rfl, x, hx, ?_⟩
    simp [unexpectedEnd, nameOf, Grammar.name?, hs]

theorem expand_reworded {x : Nat} (hx : p.grammar.isNonTerminal x = true) (s : ParseState) :
    StepsReworded p.grammar (p.expand x s) ((p.withMessages messages).expand x s) := by
  have hcell : ((p.withMessages messages).lookahead s.input).bind
      ((p.withMessages messages).table.get? x) = (p.lookahead s.input).bind (p.table.get? x) := rfl
  unfold expand
  rw [hcell]
  split
  · exact .next _
  · split
    · exact .stop (.error (unexpectedEnd_reworded hx s.last _ _))
    next t _ _ => exact .stop (.error (noProduction_reworded messages x t))

/-- A step does not depend on messages but in the text of an error. -/
theorem step_reworded (s : ParseState) :
    StepsReworded p.grammar (p.step s) ((p.withMessages messages).step s) := by
  unfold step
  split
  · exact .refl _
  next x _ =>
    have hsymbol : (p.withMessages messages).grammar.symbols[x]? = p.grammar.symbols[x]? := rfl
    rw [hsymbol]
    split
    · exact .next _
    · exact .next _
    next name hs => exact expand_reworded messages (Grammar.isNonTerminal_iff.2 ⟨name, hs⟩) _
    · exact .refl _

theorem run_reworded (n : Nat) (s : ParseState) :
    Option.Rel (ResultsReworded p.grammar) (p.run n s) ((p.withMessages messages).run n s) := by
  induction n generalizing s with
  | zero => exact .none
  | succ n ih =>
    have hstep := step_reworded (p := p) messages s
    unfold run
    generalize p.step s = a at hstep
    generalize (p.withMessages messages).step s = b at hstep
    cases hstep with
    | next s' => exact ih s'
    | stop h => exact .some h

theorem parse_reworded (tokens : List Token) :
    Option.Rel (ResultsReworded p.grammar) (p.parse tokens)
      ((p.withMessages messages).parse tokens) := by
  unfold parse
  split
  · exact .some (.refl _)
  · exact run_reworded messages (p.stepBound tokens) (p.initial tokens)

/-! ## Sessions -/

inductive Call where
  | setMessages (messages : MessageTable)
  | parse (tokens : List Token)

def Call.messages? : Call → Option MessageTable
  | .setMessages messages => some messages
  | .parse _ => none

def afterCalls (p : Parser) : List Call → Parser
  | [] => p
  | .setMessages messages :: calls => (p.withMessages messages).afterCalls calls
  | .parse _ :: calls => p.afterCalls calls

def answers (p : Parser) : List Call → List (Option (Except SyntaxError Tree))
  | [] => []
  | .setMessages messages :: calls => (p.withMessages messages).answers calls
  | .parse tokens :: calls => p.parse tokens :: p.answers calls

def lastMessages (messages : MessageTable) (calls : List Call) : MessageTable :=
  (calls.filterMap Call.messages?).getLast?.getD messages

theorem afterCalls_eq (p : Parser) (calls : List Call) :
    p.afterCalls calls = p.withMessages (lastMessages p.messages calls) := by
  induction calls generalizing p with
  | nil => rfl
  | cons call calls ih =>
    cases call with
    | parse tokens => exact ih p
    | setMessages messages =>
      have hlast : lastMessages p.messages (.setMessages messages :: calls) =
          lastMessages messages calls := by
        simp [lastMessages, Call.messages?, List.getLast?_cons]
      rw [hlast]
      exact ih (p.withMessages messages)

theorem answers_append (p : Parser) (before later : List Call) :
    p.answers (before ++ later) = p.answers before ++ (p.afterCalls before).answers later := by
  induction before generalizing p with
  | nil => rfl
  | cons call before ih =>
    cases call with
    | setMessages messages => exact ih (p.withMessages messages)
    | parse tokens => exact congrArg (p.parse tokens :: ·) (ih p)

/-- The messages of a parser decide on nothing but texts of errors for which they are looked up,
and never where there are no tokens: whatever they are, the parser returns on the same token lists.
In a session, each token list is answered as by a parser that was given the last messages from the
start. -/
theorem messages_only_word {lines : List String} {g : Grammar} (hload : Grammar.load lines = .ok g)
    (hp : ofGrammar g = .ok p) (messages : MessageTable) :
    (∀ messages' tokens,
      AnswerAlike (ResultsReworded g) (p.withMessages messages) (p.withMessages messages') tokens ∧
      (tokens = [] →
        (p.withMessages messages).parse tokens = (p.withMessages messages').parse tokens)) ∧
    ∀ before tokens later,
      (p.withMessages messages).answers (before ++ .parse tokens :: later) =
        (p.withMessages messages).answers before ++
          (p.withMessages (lastMessages messages before)).parse tokens ::
            (p.withMessages (lastMessages messages before)).answers later := by
  obtain ⟨rfl, hb⟩ := built_of_load hload (map_withMessages hp messages)
  refine ⟨fun messages' tokens => ⟨?_, ?_⟩, fun before tokens later => ?_⟩
  · obtain ⟨-, hb'⟩ := built_of_load hload (map_withMessages hp messages')
    exact answerAlike_of_rel hb hb' (parse_reworded (p := p.withMessages messages) messages' tokens)
  · rintro rfl
    rfl
  · rw [answers_append, afterCalls_eq]
    rfl

def letterMessages : MessageTable := (∅ : MessageTable).insert "<S>" "?" "letters only"

theorem messages_only_word_tally :
    ∃ e e', (tallyParser.withMessages letterMessages).parse [⟨⟨0, 1⟩, .word, "c"⟩] =
        some (.error e) ∧
      (tallyParser.withMessages ∅).parse [⟨⟨0, 1⟩, .word, "c"⟩] = some (.error e') ∧
      e.Reworded tally e' ∧ e.text ≠ e'.text ∧
      (tallyParser.withMessages ∅).answers [.setMessages letterMessages,
        .parse [⟨⟨0, 1⟩, .word, "c"⟩]] = [some (.error e)] := by
  obtain ⟨hparse, -⟩ := messages_only_word load_tally (rfl : ofGrammar tally = .ok tallyParser)
    letterMessages
  obtain ⟨-, hanswers⟩ := messages_only_word load_tally (rfl : ofGrammar tally = .ok tallyParser) ∅
  obtain ⟨halike, -⟩ := hparse ∅ [⟨⟨0, 1⟩, .word, "c"⟩]
  refine ⟨_, _, rfl, rfl, ?_, by decide, hanswers [.setMessages letterMessages] _ []⟩
  cases halike with
  | results hr hr' h =>
    obtain rfl := Option.some.inj hr
    obtain rfl := Option.some.inj hr'
    cases h with
    | error h => exact h
  | loops hloops => cases hloops.2 9

/-- No table of messages makes the parser return anything. -/
theorem no_results_echoing_messages :
    Grammar.load ["<S> -> $ <S>", "<S> -> a"] = .ok echoing ∧
    ofGrammar echoing = .ok echoingParser ∧
    (echoingParser.withMessages letterMessages).Loops [⟨⟨0, 1⟩, .punctuation, "$"⟩] ∧
    (echoingParser.withMessages ∅).Loops [⟨⟨0, 1⟩, .punctuation, "$"⟩] ∧
    ¬ ∃ r r',
      (echoingParser.withMessages letterMessages).parse [⟨⟨0, 1⟩, .punctuation, "$"⟩] = some r ∧
      (echoingParser.withMessages ∅).parse [⟨⟨0, 1⟩, .punctuation, "$"⟩] = some r' := by
  refine ⟨load_echoing, rfl, loops_echoing letterMessages, loops_echoing ∅, ?_⟩
  obtain ⟨-, hb⟩ := built_of_load load_echoing ofGrammar_echoing
  have hnone := (parse_eq_none_iff hb _).2 (loops_echoing ∅)
  rintro ⟨-, r', -, hr'⟩
  cases hnone.symm.trans hr'

end Parser

end LLOne

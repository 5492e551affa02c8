import LLOne.CommandLine
import LLOne.Proofs.Parser.Halting
import LLOne.Proofs.Token.Json

/-!
# The command line agrees with the exports

A run that is asked for one output in JSON writes what the export of that output returns: both read
the grammar, find its sets and go on from there, and report what fails first. They differ in one
order. An export of a tree builds the parser before it reads the tokens, a run does so behind them,
so of a conflict in the table and tokens that cannot be read each reports another one. On tokens on
which the parser loops, neither comes to an end.
-/

namespace LLOne.CommandLine

open Json (Value)

/-- The run writes the value that the export returns as a line, or the message in the object that
the export returns for a failure, and it comes to an end if the export does. -/
structure Conveys (result : Option Result) (answer : Option (Except Failure Value)) : Prop where
  ends : (∃ r, result = some r) ↔ ∃ value, answer = some value
  exitCode : (∃ r, result = some r ∧ r.exitCode = 0) ↔ ∃ value, answer = some (.ok value)
  ok : ∀ value, answer = some (.ok value) → result = some ⟨0, Export.text (.ok value) ++ "\n", ""⟩
  error : ∀ failure, answer = some (.error failure) → ∃ message,
    Export.text (.error failure) = (Value.ofMembers [("error", .ofString message)]).text ∧
      result = some ⟨1, "", message ++ "\n"⟩

def Result.ofText : Except String String → Result
  | .ok text => ⟨0, text, ""⟩
  | .error message => failed "" message

def jsonLine (answer : Except Failure Value) : Except String String :=
  (answer.map fun value => value.text ++ "\n").mapError Failure.message

theorem conveys_jsonLine (answer : Option (Except Failure Value)) :
    Conveys (answer.map fun value => .ofText (jsonLine value)) answer := by
  cases answer with
  | none => exact ⟨⟨nofun, nofun⟩, ⟨nofun, nofun⟩, nofun, nofun⟩
  | some value =>
    cases value with
    | error failure =>
      refine ⟨⟨fun _ => ⟨_, rfl⟩, fun _ => ⟨_, rfl⟩⟩, ⟨?_, nofun⟩, nofun, ?_⟩
      · rintro ⟨r, hr, hexit⟩
        obtain rfl := Option.some.inj hr
        cases hexit
      · intro failure hf
        obtain rfl := Except.error.inj (Option.some.inj hf)
        exact ⟨_, rfl, rfl⟩
    | ok value =>
      refine ⟨⟨fun _ => ⟨_, rfl⟩, fun _ => ⟨_, rfl⟩⟩, ⟨fun _ => ⟨_, rfl⟩, fun _ => ⟨_, rfl, rfl⟩⟩,
        ?_, nofun⟩
      intro value hv
      obtain rfl := Except.ok.inj (Option.some.inj hv)
      rfl

/-! ## Arguments -/

def optionNames : List String := ["-h", "--help", "-l", "-j", "-e", "-t", "-s"]

section Arguments

variable {grammarFile : Option String} (hfile : ∀ file ∈ grammarFile, file ∉ optionNames)

include hfile

theorem readOptions_grammarFile {outputs : List Output} (ho : outputs ≠ []) (options : Options) :
    readOptions outputs options grammarFile.toList = .run outputs options grammarFile := by
  have houtputs : outputs.isEmpty = false := List.isEmpty_eq_false_iff.2 ho
  cases grammarFile with
  | none => simp [readOptions, houtputs]
  | some file =>
    have hname := hfile file rfl
    simp only [optionNames, List.mem_cons, List.not_mem_nil, or_false, not_or] at hname
    simp [readOptions, houtputs, hname]

theorem request_json {name : String} {output : Output} (h : Output.ofName? name = some output) :
    request ([name, "-j"] ++ grammarFile.toList) =
      .run [output] { Options.default with format := .json } grammarFile := by
  have hj : Output.ofName? "-j" = none := by decide
  have htake : takeOutputs ([name, "-j"] ++ grammarFile.toList) =
      ([output], "-j" :: grammarFile.toList) := by simp [takeOutputs, h, hj]
  rw [← readOptions_grammarFile hfile (List.cons_ne_nil _ _), request, htake]
  exact readOptions.eq_def ..

theorem request_tree (tokensFile : String) :
    request (["tree", "-j", "-t", tokensFile] ++ grammarFile.toList) =
      .run [.tree] ⟨.json, none, some tokensFile, none⟩ grammarFile := by
  have hj : Output.ofName? "-j" = none := by decide
  have ht : Output.ofName? "tree" = some .tree := by decide
  have htake : takeOutputs (["tree", "-j", "-t", tokensFile] ++ grammarFile.toList) =
      ([.tree], "-j" :: "-t" :: tokensFile :: grammarFile.toList) := by simp [takeOutputs, ht, hj]
  rw [← readOptions_grammarFile hfile (List.cons_ne_nil _ _), request, htake]
  simp [readOptions, Options.default]

end Arguments

/-! ## Outputs -/

def outputOf (jsonError : String → String) (s : Sources) (grammarFile : Option String)
    (options : Options) (output : Output) : Option (Except String String) :=
  match grammarOf s grammarFile with
  | .error message => some (.error message)
  | .ok (g, ff) => outputText jsonError s options g ff output

theorem answer_singleton (jsonError : String → String) (s : Sources) (output : Output)
    (options : Options) (grammarFile : Option String) :
    (Request.run [output] options grammarFile).answer jsonError s =
      (outputOf jsonError s grammarFile options output).map .ofText := by
  dsimp only [Request.answer, outputOf]
  cases grammarOf s grammarFile with
  | error message => rfl
  | ok parts =>
    dsimp only [writeOutputs]
    cases outputText jsonError s options parts.1 parts.2 output with
    | none => rfl
    | some text =>
      cases text with
      | error message => rfl
      | ok text => simp [Result.ofText]

section Outputs

variable (jsonError : String → String) {s : Sources} {grammarFile : Option String}
  {grammar : String} (hgrammar : grammarFile.elim s.input s.file = .ok grammar)

include hgrammar

theorem grammarOf_eq : grammarOf s grammarFile =
    ((Grammar.parse grammar).bind fun g => g.firstFollow.map fun ff => (g, ff)).mapError
      GrammarError.message := by
  have hparts : ∀ text, (do
      let g ← (Grammar.parse text).mapError GrammarError.message
      let ff ← g.firstFollow.mapError GrammarError.message
      .ok (g, ff) : Except String (Grammar × FirstFollow)) =
      ((Grammar.parse text).bind fun g => g.firstFollow.map fun ff => (g, ff)).mapError
        GrammarError.message := by
    intro text
    cases Grammar.parse text with
    | error e => rfl
    | ok g =>
      dsimp only [Except.mapError, bind, Except.bind]
      cases g.firstFollow <;> rfl
  rw [← hparts]
  cases grammarFile with
  | none =>
    have hinput : s.input = .ok grammar := hgrammar
    rw [grammarOf, hinput]
    rfl
  | some file =>
    have hfile : s.file file = .ok grammar := hgrammar
    simp only [grammarOf, Sources.read, hfile]
    rfl

/-- An output that only depends on the grammar and its sets is written as its export returns it. -/
theorem report_eq_jsonLine {output : Output} {options : Options}
    {report : Grammar → FirstFollow → Except GrammarError Value}
    (hreport : ∀ g ff, outputText jsonError s options g ff output =
      some (((report g ff).map fun value => value.text ++ "\n").mapError GrammarError.message)) :
    outputOf jsonError s grammarFile options output =
      some (jsonLine (((Grammar.parse grammar).bind fun g => g.firstFollow.bind (report g)).mapError
        .grammar)) := by
  rw [outputOf, grammarOf_eq hgrammar]
  cases Grammar.parse grammar with
  | error e => rfl
  | ok g =>
    dsimp only [Except.mapError, Except.bind]
    cases g.firstFollow with
    | error e => rfl
    | ok ff =>
      dsimp only [Except.map]
      rw [hreport]
      cases report g ff <;> rfl

theorem sets_eq_jsonLine {options : Options} (hformat : options.format = .json) :
    outputOf jsonError s grammarFile options .sets =
      some (jsonLine (Export.firstFollow grammar)) := by
  have hreport : ∀ g ff, outputText jsonError s options g ff .sets =
      some ((((g.setsReport ff).bind fun r => .ok r.toJson).map
        fun value => value.text ++ "\n").mapError GrammarError.message) := by
    intro g ff
    dsimp only [outputText]
    cases g.setsReport ff with
    | error e => rfl
    | ok r =>
      simp only [inFormat, hformat]
      rfl
  exact report_eq_jsonLine jsonError hgrammar hreport

theorem table_eq_jsonLine {options : Options} (hformat : options.format = .json) :
    outputOf jsonError s grammarFile options .table = some (jsonLine (Export.table grammar)) := by
  have hreport : ∀ g ff, outputText jsonError s options g ff .table =
      some ((((g.table ff).bind fun t => (g.tableReport t).bind fun r => .ok r.toJson).map
        fun value => value.text ++ "\n").mapError GrammarError.message) := by
    intro g ff
    dsimp only [outputText]
    cases g.table ff with
    | error e => rfl
    | ok t =>
      dsimp only [Except.bind]
      cases g.tableReport t with
      | error e => rfl
      | ok r =>
        simp only [inFormat, hformat]
        rfl
  exact report_eq_jsonLine jsonError hgrammar hreport

def Conflicts (grammar : String) (e : GrammarError) : Prop :=
  ∃ g ff, Grammar.parse grammar = .ok g ∧ g.firstFollow = .ok ff ∧ g.table ff = .error e ∧
    ∃ row column existing conflicting, e = .tableConflict row column existing conflicting

section Trees

variable {tokensFile tokens : String}

omit hgrammar in
theorem built_of_parse {p : Parser}
    (hp : (Grammar.parse grammar).bind Parser.ofGrammar = .ok p) : p.Built := by
  cases hg : Grammar.parse grammar with
  | error e =>
    rw [hg] at hp
    cases hp
  | ok g =>
    have ho : Parser.ofGrammar g = .ok p := by rwa [hg] at hp
    exact (Parser.built_of_load hg (Parser.map_withMessages ho p.messages)).2

omit hgrammar in
/-- The export of a tree has no answer where the parser loops. -/
theorem tree_eq_none_iff : Export.tree jsonError grammar tokens = none ↔
    ∃ p list, (Grammar.parse grammar).bind Parser.ofGrammar = .ok p ∧
      Token.readList? tokens = some list ∧ p.Loops list := by
  unfold Export.tree Export.treeInput readTokens
  cases hp : (Grammar.parse grammar).bind Parser.ofGrammar with
  | error e => exact ⟨nofun, fun ⟨_, _, h, _⟩ => nomatch h⟩
  | ok p =>
    cases Token.readList? tokens with
    | none => exact ⟨nofun, fun ⟨_, _, _, h, _⟩ => nomatch h⟩
    | some list =>
      change Export.treeOf p list = none ↔ _
      rw [Export.treeOf, Option.map_eq_none_iff, Parser.parse_eq_none_iff (built_of_parse hp)]
      constructor
      · exact fun h => ⟨p, list, rfl, rfl, h⟩
      · rintro ⟨p', list', hp, hl, h⟩
        obtain rfl := Except.ok.inj hp
        obtain rfl := Option.some.inj hl
        exact h

variable (htokens : s.file tokensFile = .ok tokens)

include htokens

omit hgrammar in
/-- The parser is built behind the tokens. -/
theorem treeText_eq (g : Grammar) :
    treeText jsonError s ⟨.json, none, some tokensFile, none⟩ g =
      match (readTokens jsonError tokens).bind fun list =>
        ((Parser.ofGrammar g).mapError .grammar).map fun p => (p.withMessages ∅, list) with
      | .error failure => some (.error failure.message)
      | .ok (p, list) => (Export.treeOf p list).map jsonLine := by
  simp only [treeText, treeInput, Sources.read, htokens]
  dsimp only [Except.mapError, bind, Except.bind]
  cases readTokens jsonError tokens with
  | error failure => rfl
  | ok list =>
    dsimp only
    cases Parser.ofGrammar g with
    | error e => rfl
    | ok p =>
      dsimp only [Except.map]
      rw [Export.treeOf, Option.map_map]
      congr 1
      funext result
      cases result <;> rfl

theorem tree_eq_jsonLine
    (hone : ¬ ((∃ e, Conflicts grammar e) ∧ Token.readList? tokens = none)) :
    outputOf jsonError s grammarFile ⟨.json, none, some tokensFile, none⟩ .tree =
      (Export.tree jsonError grammar tokens).map jsonLine := by
  rw [outputOf, grammarOf_eq hgrammar]
  unfold Export.tree Export.treeInput
  cases hg : Grammar.parse grammar with
  | error e => rfl
  | ok g =>
    dsimp only [Except.mapError, bind, Except.bind]
    cases hff : g.firstFollow with
    | error e =>
      rw [Parser.ofGrammar_of_firstFollow_error hff]
      rfl
    | ok ff =>
      dsimp only [Except.map, outputText]
      rw [treeText_eq jsonError htokens]
      cases ht : g.table ff with
      | error e =>
        obtain ⟨a, n, x, p, m, q, row, column, existing, conflicting, -, -, -, -, -, -, -, he⟩ :=
          Grammar.exists_conflict_of_table hg hff ht
        have hread : Token.readList? tokens ≠ none :=
          fun hnone => hone ⟨⟨e, g, ff, hg, hff, ht, _, _, _, _, he⟩, hnone⟩
        obtain ⟨list, hlist⟩ := Option.ne_none_iff_exists'.1 hread
        rw [Parser.ofGrammar_of_table_error hff ht, readTokens, hlist]
        rfl
      | ok t =>
        obtain ⟨start, ho⟩ := Parser.exists_ofGrammar_of_table hg hff ht
        rw [ho]
        cases readTokens jsonError tokens <;> rfl

/-- A run finds first that the tokens cannot be read. -/
theorem tree_of_conflicts {e : GrammarError} (hc : Conflicts grammar e)
    (hread : Token.readList? tokens = none) :
    outputOf jsonError s grammarFile ⟨.json, none, some tokensFile, none⟩ .tree =
      some (.error (jsonError tokens)) ∧
    Export.tree jsonError grammar tokens = some (.error (.grammar e)) := by
  obtain ⟨g, ff, hg, hff, ht, -⟩ := hc
  constructor
  · rw [outputOf, grammarOf_eq hgrammar, hg]
    dsimp only [Except.mapError, Except.bind]
    rw [hff]
    dsimp only [Except.map, outputText]
    rw [treeText_eq jsonError htokens, readTokens, hread]
    rfl
  · rw [Export.tree, Export.treeInput, hg]
    dsimp only [Except.bind]
    rw [Parser.ofGrammar_of_table_error hff ht]
    rfl

end Trees

end Outputs

/-- A run that is asked for the sets, the table or the tree in JSON conveys what the export of it
returns, and goes on for ever if that does, because the parser loops. The exception is a tree for
which the table has a conflict and the tokens cannot be read. -/
theorem run_conveys_export (jsonError : String → String) {s : Sources}
    {grammarFile : Option String} {grammar : String}
    (hfile : ∀ file ∈ grammarFile, file ∉ optionNames)
    (hgrammar : grammarFile.elim s.input s.file = .ok grammar) :
    Conveys (run jsonError (["ff", "-j"] ++ grammarFile.toList) s)
      (some (Export.firstFollow grammar)) ∧
    Conveys (run jsonError (["ll1", "-j"] ++ grammarFile.toList) s)
      (some (Export.table grammar)) ∧
    ∀ tokensFile tokens, s.file tokensFile = .ok tokens →
      (Export.tree jsonError grammar tokens = none ↔
        ∃ p list, (Grammar.parse grammar).bind Parser.ofGrammar = .ok p ∧
          Token.readList? tokens = some list ∧ p.Loops list) ∧
      (¬ ((∃ e, Conflicts grammar e) ∧ Token.readList? tokens = none) →
        Conveys (run jsonError (["tree", "-j", "-t", tokensFile] ++ grammarFile.toList) s)
          (Export.tree jsonError grammar tokens)) ∧
      ∀ e, Conflicts grammar e → Token.readList? tokens = none →
        run jsonError (["tree", "-j", "-t", tokensFile] ++ grammarFile.toList) s =
          some ⟨1, "", jsonError tokens ++ "\n"⟩ ∧
        Export.tree jsonError grammar tokens = some (.error (.grammar e)) := by
  have hsets : Output.ofName? "ff" = some .sets := by decide
  have htable : Output.ofName? "ll1" = some .table := by decide
  refine ⟨?_, ?_, fun tokensFile tokens htokens =>
    ⟨tree_eq_none_iff jsonError, fun hone => ?_, fun e hc hread => ?_⟩⟩
  · rw [run, request_json hfile hsets, answer_singleton, sets_eq_jsonLine jsonError hgrammar rfl]
    exact conveys_jsonLine (some (Export.firstFollow grammar))
  · rw [run, request_json hfile htable, answer_singleton, table_eq_jsonLine jsonError hgrammar rfl]
    exact conveys_jsonLine (some (Export.table grammar))
  · rw [run, request_tree hfile, answer_singleton,
      tree_eq_jsonLine jsonError hgrammar htokens hone, Option.map_map]
    exact conveys_jsonLine _
  · obtain ⟨hrun, hexport⟩ := tree_of_conflicts jsonError hgrammar htokens hc hread
    rw [run, request_tree hfile, answer_singleton, hrun]
    exact ⟨rfl, hexport⟩

def emptyTokensError (_ : String) : String := "EOF while parsing a value at line 1 column 0"

def clashingSources : Sources where
  file name :=
    if name = "grammar" then .ok "<S> -> <A> a\n<A> -> a\n<A> -> lambda"
    else if name = "tokens" then .ok ""
    else .error .notFound
  input := .ok ""

theorem conflicts_clashing : Conflicts "<S> -> <A> a\n<A> -> a\n<A> -> lambda"
    (.tableConflict "<A>" "a" "a" "λ") := by
  have hlines : Text.lines "<S> -> <A> a\n<A> -> a\n<A> -> lambda" =
      ["<S> -> <A> a", "<A> -> a", "<A> -> lambda"] := by cbv
  refine ⟨Grammar.clashing, Grammar.clashingSets, ?_, rfl, rfl, _, _, _, _, rfl⟩
  rw [Grammar.parse, hlines]
  rfl

theorem run_conveys_export_clashing :
    run emptyTokensError ["tree", "-j", "-t", "tokens", "grammar"] clashingSources =
      some ⟨1, "", "EOF while parsing a value at line 1 column 0\n"⟩ ∧
    Export.tree emptyTokensError "<S> -> <A> a\n<A> -> a\n<A> -> lambda" "" =
      some (.error (.grammar (.tableConflict "<A>" "a" "a" "λ"))) := by
  have hfile : ∀ file ∈ some "grammar", file ∉ optionNames := by decide
  obtain ⟨-, -, htree⟩ := run_conveys_export emptyTokensError (s := clashingSources) hfile rfl
  exact (htree "tokens" "" rfl).2.2 _ conflicts_clashing (by decide)

def dollarJson : String :=
  "[\x7b\"location\":\x7b\"start\":0,\"end\":1\x7d,\"kind\":\"Punctuation\",\"text\":\"$\"\x7d]"

def echoingSources : Sources where
  file name :=
    if name = "grammar" then .ok "<S> -> $ <S>\n<S> -> a"
    else if name = "tokens" then .ok dollarJson
    else .error .notFound
  input := .ok ""

/-- Neither the run nor the export comes to an end. -/
theorem no_answer_echoing :
    run emptyTokensError ["tree", "-j", "-t", "tokens", "grammar"] echoingSources = none ∧
    Export.tree emptyTokensError "<S> -> $ <S>\n<S> -> a" dollarJson = none ∧
    (Grammar.parse "<S> -> $ <S>\n<S> -> a").bind Parser.ofGrammar = .ok Parser.echoingParser ∧
    Parser.echoingParser.Loops [⟨⟨0, 1⟩, .punctuation, "$"⟩] := by
  have hlines : Text.lines "<S> -> $ <S>\n<S> -> a" = ["<S> -> $ <S>", "<S> -> a"] := by cbv
  have hparser : (Grammar.parse "<S> -> $ <S>\n<S> -> a").bind Parser.ofGrammar =
      .ok Parser.echoingParser := by
    rw [Grammar.parse, hlines]
    rfl
  have htext :
      (Value.array ([⟨⟨0, 1⟩, .punctuation, "$"⟩].map Token.toJson)).text = dollarJson := by
    decide
  have hread : Token.readList? dollarJson = some [⟨⟨0, 1⟩, .punctuation, "$"⟩] := by
    rw [← htext]
    exact Token.readList?_toJson (by decide)
  have hloops := Parser.loops_echoing ∅
  have hnone : Export.tree emptyTokensError "<S> -> $ <S>\n<S> -> a" dollarJson = none :=
    (tree_eq_none_iff emptyTokensError).2 ⟨_, _, hparser, hread, hloops⟩
  refine ⟨?_, hnone, hparser, hloops⟩
  have hfile : ∀ file ∈ some "grammar", file ∉ optionNames := by decide
  have hone : outputOf emptyTokensError echoingSources (some "grammar")
      ⟨.json, none, some "tokens", none⟩ .tree =
        (Export.tree emptyTokensError "<S> -> $ <S>\n<S> -> a" dollarJson).map jsonLine :=
    tree_eq_jsonLine emptyTokensError rfl rfl fun h => nomatch hread.symm.trans h.2
  change (request (["tree", "-j", "-t", "tokens"] ++ (some "grammar").toList)).answer _ _ = none
  rw [request_tree hfile, answer_singleton, hone, hnone]
  rfl

end LLOne.CommandLine

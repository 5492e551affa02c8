import LLOne.Export
import LLOne.Files
import LLOne.Report.Productions
import LLOne.Tree.Printer

/-!
# The command line

The arguments start with the outputs wanted; options and at most one grammar file follow.
Outputs are written in their order until one fails. What a run writes depends on the
arguments and on what the named files and the standard input hold, and on the words of
`jsonError` for tokens that cannot be read. A run in which parsing goes on for ever has no
result.
-/

namespace LLOne.CommandLine

open Json (Value)

inductive Output where
  | productions
  | sets
  | table
  | tree
deriving DecidableEq, Repr

def Output.ofName? (name : String) : Option Output :=
  if name = "prod" then some .productions
  else if name = "ff" then some .sets
  else if name = "ll1" then some .table
  else if name = "tree" then some .tree
  else none

inductive Format where
  | plain
  | latex
  | json
deriving DecidableEq, Repr

structure Options where
  format : Format
  messagesFile : Option String
  tokensFile : Option String
  sourceFile : Option String
deriving DecidableEq, Repr

def Options.default : Options := ⟨.plain, none, none, none⟩

inductive Request where
  | help
  | missingFile (option : String)
  | run (outputs : List Output) (options : Options) (grammarFile : Option String)
deriving DecidableEq, Repr

def takeOutputs : List String → List Output × List String
  | [] => ([], [])
  | arg :: rest =>
    match Output.ofName? arg with
    | some output => let (outputs, rest) := takeOutputs rest; (output :: outputs, rest)
    | none => ([], arg :: rest)

def readOptions (outputs : List Output) : Options → List String → Request
  | options, [] => if outputs.isEmpty then .help else .run outputs options none
  | options, arg :: rest =>
    if arg = "-h" ∨ arg = "--help" then .help
    else if arg = "-l" then readOptions outputs { options with format := .latex } rest
    else if arg = "-j" then readOptions outputs { options with format := .json } rest
    else if arg = "-e" ∨ arg = "-t" ∨ arg = "-s" then
      match rest with
      | [] => .missingFile arg
      | file :: rest =>
        if arg = "-e" then readOptions outputs { options with messagesFile := some file } rest
        else if arg = "-t" then readOptions outputs { options with tokensFile := some file } rest
        else readOptions outputs { options with sourceFile := some file } rest
    else if outputs.isEmpty ∨ !rest.isEmpty then .help
    else .run outputs options (some arg)

def request (args : List String) : Request :=
  let (outputs, rest) := takeOutputs args
  readOptions outputs .default rest

/-! ## Files -/

structure Sources where
  file : String → Except ReadError String
  input : Except ReadError String

def Sources.fromPlace (p : FileTree.Place) (input : ByteArray) : Sources where
  file path := (p.read path).bind decodeText
  input := decodeText input

def Sources.read (s : Sources) (name : String) : Except String String :=
  (s.file name).mapError fun e => name ++ ": " ++ e.message

def Request.files : Request → List String
  | .run _ options grammarFile =>
    [grammarFile, options.messagesFile, options.tokensFile, options.sourceFile].filterMap id
  | _ => []

def Request.readsInput : Request → Bool
  | .run _ _ none => true
  | _ => false

/-! ## Output -/

structure Result where
  exitCode : Nat
  out : String
  err : String
deriving DecidableEq, Repr

def helpText : String :=
  "Usage: predictive-parser outputs [options] [grammar file]\n" ++
  "outputs:\n" ++
  "  prod: Productions\n" ++
  "  ff: First and follow sets\n" ++
  "  ll1: LL(1) parsing table\n" ++
  "  tree: Parse tree of the tokens given with -t\n" ++
  "options:\n" ++
  "  -h: Print this help\n" ++
  "  -l: Print in LaTeX format\n" ++
  "  -j: Print in JSON format\n" ++
  "  -e <file>: Error entries used for syntax error messages\n" ++
  "  -t <file>: Tokens to parse, as a JSON array\n" ++
  "  -s <file>: Source the tokens came from, quoted in syntax errors\n"

def inFormat (format : Format) (plain latex : String) (json : Value) : String :=
  (match format with
    | .plain => plain
    | .latex => latex
    | .json => json.text) ++ "\n"

def parseFailure (s : Sources) (options : Options) (e : SyntaxError) : String :=
  match options.sourceFile with
  | some source =>
    match s.read source with
    | .ok text => e.render text
    | .error message => message
  | none => e.message

section Texts

variable (jsonError : String → String)

/-- The tokens come before the parser. -/
def treeInput (s : Sources) (options : Options) (g : Grammar) :
    Except String (Parser × List Token) := do
  let some file := options.tokensFile | .error "tree requires -t <file>"
  let text ← s.read file
  let tokens ← (readTokens jsonError text).mapError Failure.message
  let p ← (Parser.ofGrammar g).mapError GrammarError.message
  let messages ← match options.messagesFile with
    | none => .ok ∅
    | some file => (s.read file).map MessageTable.parse
  .ok (p.withMessages messages, tokens)

def treeText (s : Sources) (options : Options) (g : Grammar) : Option (Except String String) :=
  match treeInput jsonError s options g with
  | .error message => some (.error message)
  | .ok (p, tokens) =>
    (p.parse tokens).map fun result =>
      (result.mapError (parseFailure s options)).map fun tree =>
        match options.format with
        | .json => tree.toJson.text ++ "\n"
        | _ => tree.print

def outputText (s : Sources) (options : Options) (g : Grammar) (ff : FirstFollow) :
    Output → Option (Except String String)
  | .productions =>
    some ((g.listing.mapError GrammarError.message).map fun r =>
      inFormat options.format r.plain r.latex r.toJson)
  | .sets =>
    some (((g.setsReport ff).mapError GrammarError.message).map fun r =>
      inFormat options.format r.plain r.latex r.toJson)
  | .table =>
    some ((((g.table ff).bind g.tableReport).mapError GrammarError.message).map fun r =>
      inFormat options.format r.plain r.latex r.toJson)
  | .tree => treeText jsonError s options g

end Texts

/-- The texts of the outputs in their order, and the message of the first that fails. -/
def writeOutputs (text : Output → Option (Except String String)) :
    List Output → Option (String × Option String)
  | [] => some ("", none)
  | output :: rest =>
    match text output with
    | none => none
    | some (.error message) => some ("", some message)
    | some (.ok first) =>
      (writeOutputs text rest).map fun (others, message) => (first ++ others, message)

def grammarOf (s : Sources) (grammarFile : Option String) :
    Except String (Grammar × FirstFollow) := do
  let text ← match grammarFile with
    | none => s.input.mapError ReadError.message
    | some file => s.read file
  let g ← (Grammar.parse text).mapError GrammarError.message
  let ff ← g.firstFollow.mapError GrammarError.message
  .ok (g, ff)

def failed (out message : String) : Result := ⟨1, out, message ++ "\n"⟩

/-- What the run leaves behind, if it comes to an end. -/
def Request.answer (jsonError : String → String) (s : Sources) : Request → Option Result
  | .help => some ⟨0, helpText, ""⟩
  | .missingFile option => some (failed "" ("missing file after " ++ option))
  | .run outputs options grammarFile =>
    match grammarOf s grammarFile with
    | .error message => some (failed "" message)
    | .ok (g, ff) =>
      (writeOutputs (outputText jsonError s options g ff) outputs).map fun
        | (out, none) => ⟨0, out, ""⟩
        | (out, some message) => failed out message

def run (jsonError : String → String) (args : List String) (s : Sources) : Option Result :=
  (request args).answer jsonError s

end LLOne.CommandLine

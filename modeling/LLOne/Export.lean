import LLOne.Parser.Run
import LLOne.Report.Sets
import LLOne.Report.Table
import LLOne.Token.Json
import LLOne.Tree.Json

/-!
# Results in JSON

The sets, the table and the tree of a grammar given as text, each as the text of one JSON
value. A failure is the object of its message. Reading the grammar and building the parser
come before reading the tokens. Where parsing does not come to an end, there is no answer.

The library that reads JSON words its own errors. For a text that is no array of tokens its
words are what the parameter `jsonError` says.
-/

namespace LLOne

open Json (Value)

inductive Failure where
  | grammar (error : GrammarError)
  /-- The text is no JSON array of tokens. -/
  | tokens (message : String)
  | parse (error : SyntaxError)
deriving DecidableEq, Repr

def Failure.message : Failure → String
  | grammar error => error.message
  | tokens message => message
  | parse error => error.message

def readTokens (jsonError : String → String) (text : String) : Except Failure (List Token) :=
  match Token.readList? text with
  | some tokens => .ok tokens
  | none => .error (.tokens (jsonError text))

namespace Export

def firstFollow (grammar : String) : Except Failure Value :=
  (do
    let g ← Grammar.parse grammar
    let ff ← g.firstFollow
    let report ← g.setsReport ff
    .ok report.toJson : Except GrammarError Value).mapError .grammar

def table (grammar : String) : Except Failure Value :=
  (do
    let g ← Grammar.parse grammar
    let ff ← g.firstFollow
    let table ← g.table ff
    let report ← g.tableReport table
    .ok report.toJson : Except GrammarError Value).mapError .grammar

variable (jsonError : String → String)

/-- The parser comes before the tokens. -/
def treeInput (grammar tokens : String) : Except Failure (Parser × List Token) := do
  let p ← ((Grammar.parse grammar).bind Parser.ofGrammar).mapError .grammar
  let tokens ← readTokens jsonError tokens
  .ok (p, tokens)

def treeOf (p : Parser) (tokens : List Token) : Option (Except Failure Value) :=
  (p.parse tokens).map fun result => (result.map Tree.toJson).mapError .parse

def tree (grammar tokens : String) : Option (Except Failure Value) :=
  match treeInput jsonError grammar tokens with
  | .error failure => some (.error failure)
  | .ok (p, tokens) => treeOf p tokens

def text : Except Failure Value → String
  | .ok value => value.text
  | .error failure => (Value.ofMembers [("error", .ofString failure.message)]).text

end Export

end LLOne

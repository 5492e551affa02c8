import LLOne.Grammar.Load
import LLOne.MessageTable
import LLOne.SyntaxError
import LLOne.Table

/-!
# Parsers

A parser is a grammar with its sets, its table and a table of messages. This file says how
it reads single tokens, as far as that does not depend on what was read before, and how it
words its errors.
-/

namespace LLOne

structure Parser where
  grammar : Grammar
  sets : FirstFollow
  table : Table
  start : Nat
  messages : MessageTable
deriving DecidableEq

namespace Parser

def ofGrammar (g : Grammar) : Except GrammarError Parser :=
  match g.start with
  | none => .error .empty
  | some start => do
    let sets ← g.firstFollow
    let table ← g.table sets
    let _ ← g.nameOf start
    .ok { grammar := g, sets, table, start, messages := ∅ }

variable (p : Parser)

def withMessages (messages : MessageTable) : Parser := { p with messages }

/-! ## Tokens -/

/-- A word of several characters is read as single characters, unless some terminal is
spelled like it. -/
def splits (t : Token) : Bool :=
  t.kind == .word && 1 < t.text.length && t.text ∉ p.grammar.terminalNames

def pieces (t : Token) : List Token := if p.splits t then t.separate else [t]

def splitFirst : List Token → List Token
  | [] => []
  | t :: rest => p.pieces t ++ rest

def splitAll (tokens : List Token) : List Token := tokens.flatMap p.pieces

/-- The terminal or end marker that the token matches: `σ` if it is a string literal, the
one spelled like its text if not. -/
def classOf (t : Token) : Option Nat :=
  if t.kind = .stringLiteral then p.grammar.sigma?
  else (p.grammar.indexOf? t.text).filter p.grammar.isLookahead

/-- The column for the next token. No token is read as the end marker. -/
def lookahead : List Token → Option Nat
  | [] => some Symbol.endIndex
  | t :: _ => p.classOf t

/-! ## Errors -/

def nameOf (x : Nat) : String := (p.grammar.name? x).getD ""

def mismatch (x : Nat) (t : Token) : SyntaxError where
  kind := .mismatch
  location := some t.location
  found := some t.text
  expected := some (p.nameOf x)
  text := "unexpected terminal token, expecting " ++ p.nameOf x

def noProduction (x : Nat) (t : Token) : SyntaxError where
  kind := .noProduction
  location := some t.location
  found := some t.text
  expected := some (p.nameOf x)
  text := (p.messages.lookup (p.nameOf x) t.text).getD
    ("unexpected token, expecting " ++ p.nameOf x)

def unexpectedEnd (x : Nat) (location : Option Location) (message : Option String) :
    SyntaxError where
  kind := .unexpectedEnd
  location := location
  found := none
  expected := some (p.nameOf x)
  text := message.getD ("unexpected end of input, expecting " ++ p.nameOf x)

def noTokens : SyntaxError :=
  p.unexpectedEnd p.start none (some "unexpected end of input")

def trailingInput (t : Token) : SyntaxError where
  kind := .trailingInput
  location := some t.location
  found := some t.text
  expected := none
  text := "unexpected token after end of input"

end Parser

end LLOne

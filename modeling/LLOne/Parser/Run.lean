import LLOne.Parser.Basic
import LLOne.Tree.Basic

/-!
# Parsing

The tree grows from the root while the tokens are read from left to right. At every moment
some nodes are open, each inside the one before it, and each with the symbols that are
still expected in it. The first symbol expected in the innermost node decides the next
step: a terminal has to match the next token, which becomes a leaf, and a non-terminal
opens a node for the production that the table gives for the next token. A node in which
nothing is expected any more is closed. Outside of all nodes the start symbol and behind it
the end marker are expected. When no token is left, the end marker matches and is the
lookahead of every table cell.
-/

namespace LLOne

structure OpenNode where
  id : Nat
  symbol : Nat
  label : String
  children : Forest
  expected : List Nat
deriving DecidableEq, Repr

def OpenNode.tree (n : OpenNode) : Tree := ⟨n.id, n.symbol, n.label, n.children⟩

structure ParseState where
  /-- The open nodes, the innermost first. -/
  nodes : List OpenNode
  /-- What is expected outside of all nodes. -/
  outside : List Nat
  /-- The tree, once its root is closed. -/
  root : Option Tree
  /-- The number of nodes opened so far. -/
  opened : Nat
  input : List Token
  /-- The location of the last token of the whole input. -/
  last : Option Location
deriving DecidableEq, Repr

namespace ParseState

/-- The symbol that comes next in the innermost open node, or outside of all nodes. -/
def next? (s : ParseState) : Option Nat :=
  match s.nodes with
  | node :: _ => node.expected.head?
  | [] => s.outside.head?

def drop (s : ParseState) : ParseState :=
  match s.nodes with
  | node :: outer => { s with nodes := { node with expected := node.expected.tail } :: outer }
  | [] => { s with outside := s.outside.tail }

def addChild (child : Forest) (s : ParseState) : ParseState :=
  match s.nodes with
  | node :: outer => { s with nodes := { node with children := node.children ++ child } :: outer }
  | [] => s

def openNode (symbol : Nat) (label : String) (expected : List Nat) (s : ParseState) :
    ParseState :=
  { s with nodes := ⟨s.opened, symbol, label, .nil, expected⟩ :: s.nodes, opened := s.opened + 1 }

/-- Closes the innermost open node, which becomes a child of the next one or the tree. -/
def closeNode (s : ParseState) : ParseState :=
  match s.nodes with
  | [] => s
  | [node] => { s with nodes := [], root := some node.tree }
  | node :: outer => addChild node.tree.toForest { s with nodes := outer }

end ParseState

inductive ParseStep where
  | next (s : ParseState)
  | stop (result : Except SyntaxError Tree)

namespace Parser

variable (p : Parser)

/-- The symbols of a production without `λ`. -/
def symbolsOf (production : Nat) : List Nat :=
  match p.grammar.productions[production]? with
  | some production => production.right.filter (· != Symbol.lambdaIndex)
  | none => []

def readToken (x : Nat) (s : ParseState) : ParseStep :=
  match s.input with
  | [] =>
    if x = Symbol.endIndex then .next s
    else .stop (.error (p.unexpectedEnd x s.last none))
  | t :: rest =>
    if p.classOf t = some x then .next (({ s with input := rest }).addChild (.leaf t .nil))
    else if x = Symbol.endIndex ∧ s.nodes.isEmpty then .stop (.error (trailingInput t))
    else .stop (.error (p.mismatch x t))

def expand (x : Nat) (s : ParseState) : ParseStep :=
  match (p.lookahead s.input).bind (p.table.get? x) with
  | some production => .next (s.openNode x (p.nameOf x) (p.symbolsOf production))
  | none =>
    match s.input with
    | [] =>
      let message := p.messages.lookup (p.nameOf x) Symbol.endMarkerName
      .stop (.error (p.unexpectedEnd x s.last message))
    | t :: _ => .stop (.error (p.noProduction x t))

def finish (s : ParseState) : Except SyntaxError Tree :=
  match s.input, s.root with
  | t :: _, _ => .error (trailingInput t)
  | [], some tree => .ok tree
  | [], none => .error (p.unexpectedEnd p.start s.last none)

/-- The state in which the next symbol `x` is taken: its first token is in pieces. -/
def taken (s : ParseState) : ParseState := { s.drop with input := p.splitFirst s.input }

def step (s : ParseState) : ParseStep :=
  match s.next? with
  | none => if s.nodes.isEmpty then .stop (p.finish s) else .next s.closeNode
  | some x =>
    match p.grammar.symbols[x]? with
    | none => .next (p.taken s)
    | some .lambda => .next (p.taken s)
    | some (.nonTerminal _) => p.expand x (p.taken s)
    | some _ => p.readToken x (p.taken s)

def run : Nat → ParseState → Option (Except SyntaxError Tree)
  | 0, _ => none
  | fuel + 1, s =>
    match p.step s with
    | .next s => run fuel s
    | .stop result => some result

def initial (tokens : List Token) : ParseState where
  nodes := []
  outside := [p.start, Symbol.endIndex]
  root := none
  opened := 0
  input := tokens
  last := tokens.getLast?.map Token.location

def breadth : Nat := (p.grammar.productions.map (·.right.length)).foldr max 0

/-- No run that ends takes more steps. Between two tokens no node is opened inside another
one of the same symbol, which bounds the nodes opened for a symbol that was expected before;
and after the last token a run in which that happens does not end. -/
def stepBound (tokens : List Token) : Nat :=
  let pieces := (tokens.map fun t => max 1 t.text.length).foldr (· + ·) 0
  let nodes := Nat.pow (p.breadth + 2) (p.grammar.nonTerminals.length + 1)
  Nat.pow ((pieces + 2) * nodes) 3

/-- The tree of the tokens, or the first error in them. There is no result if expansions at
the end of the tokens go on for ever, as they do where a non-terminal calls for itself
behind an end marker. -/
def parse (tokens : List Token) : Option (Except SyntaxError Tree) :=
  if tokens.isEmpty then some (.error p.noTokens)
  else p.run (p.stepBound tokens) (p.initial tokens)

end Parser

end LLOne

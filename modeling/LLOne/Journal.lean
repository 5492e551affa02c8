import LLOne.Parser.Run
import LLOne.Text.Quoted

/-!
# Records of what was done

Each operation has a journal: the records of its steps in their order, up to the step that
failed if one did. A journal is read off the results of the operation, which do not depend
on it.
-/

namespace LLOne

inductive Level where
  | trace
  | debug
  | warn
deriving DecidableEq, Repr

def Level.name : Level → String
  | trace => "TRACE"
  | debug => "DEBUG"
  | warn => "WARN"

structure Record where
  level : Level
  message : String
deriving DecidableEq, Repr

def Record.line (r : Record) : String := r.level.name ++ " " ++ r.message

namespace Journal

def setText (g : Grammar) (set : SymbolSet) : String :=
  Text.quotedList (set.members.filterMap g.name?)

def symbolText (g : Grammar) (a : Nat) : String := (g.name? a).getD ""

def ofLoad (lines : List String) : List Record :=
  match Grammar.load lines with
  | .error _ => []
  | .ok g =>
    [⟨.debug, "loaded grammar: " ++ g.productions.length.repr ++ " productions, " ++
      g.nonTerminals.length.repr ++ " non-terminals, " ++ g.terminalNames.length.repr ++
      " terminals"⟩]

/-- A record for each FIRST set when it is complete. -/
def ofFirst (g : Grammar) : List Record :=
  g.firstSearch.2.entries.map fun (a, first) =>
    ⟨.trace, "FIRST(" ++ symbolText g a ++ ") = " ++ setText g first⟩

def ofSets (g : Grammar) (ff : FirstFollow) : List Record :=
  g.nonTerminals.map fun a =>
    ⟨.debug, symbolText g a ++ ": first = " ++ setText g (ff.first.get a) ++ ", follow = " ++
      setText g (ff.follow.get a)⟩

def ofFirstFollow (g : Grammar) : List Record :=
  match g.start with
  | none => []
  | some start =>
    match g.firstTable.bind (g.filledFollow · start), g.firstFollow with
    | .ok filled, .ok ff =>
      let passes := (g.closeFollow filled).2
      ofFirst g ++
        ⟨.trace, "FOLLOW closure settled after " ++ passes.repr ++ " passes"⟩ :: ofSets g ff
    | _, _ => ofFirst g

def ofTable (g : Grammar) (ff : FirstFollow) : List Record :=
  match g.table ff with
  | .error _ => []
  | .ok t => [⟨.debug, "LL(1) table built with " ++ t.size.repr ++ " entries"⟩]

def ofParser (g : Grammar) : List Record :=
  let table := match g.firstFollow with
    | .error _ => []
    | .ok ff => ofTable g ff
  let ready := match Parser.ofGrammar g with
    | .error _ => []
    | .ok p =>
      [⟨.debug, "parser ready: start symbol " ++ p.nameOf p.start ++ ", " ++
        p.table.size.repr ++ " table entries"⟩]
  ofFirstFollow g ++ table ++ ready

def ofMessages (lines : List String) : List Record :=
  (MessageTable.skippedLines lines).map fun (line, number) =>
    ⟨.warn, "error entries line " ++ number.repr ++ ": skipped \"" ++ line ++ "\""⟩

def states (p : Parser) : Nat → ParseState → List ParseState
  | 0, _ => []
  | fuel + 1, s =>
    match p.step s with
    | .next next => s :: states p fuel next
    | .stop _ => [s]

def ofState (p : Parser) (s : ParseState) : List Record :=
  match s.next? with
  | none => []
  | some x =>
    let split := match s.input with
      | [] => []
      | t :: _ => if p.splits t then [⟨.trace, "splitting word " ++ Text.quoted t.text⟩] else []
    let token := match (p.splitFirst s.input).head? with
      | none => "None"
      | some t => "Some(" ++ Text.quoted t.text ++ ")"
    split ++ [⟨.trace, "top " ++ p.nameOf x ++ " / next " ++ token⟩]

def ofParse (p : Parser) (tokens : List Token) : List Record :=
  if tokens.isEmpty then []
  else (states p (p.stepBound tokens) (p.initial tokens)).flatMap (ofState p)

end Journal

end LLOne

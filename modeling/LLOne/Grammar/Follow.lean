import LLOne.Grammar.First

/-!
# FOLLOW sets

FOLLOW of a non-terminal holds the terminals and end markers that can stand directly
behind it. The sets are first filled from single productions: behind an occurrence of `B`
stands whatever the rest of the right side can begin with, and if the rest can vanish, the
set of `B` gets the left side as a reference to the set of that symbol. Passes over all
non-terminals then replace references by the members of the set referred to, each reference
once per set, until a pass finds none that is new.
-/

namespace LLOne

structure FirstFollow where
  first : SetTable
  follow : SetTable
deriving DecidableEq

namespace FirstFollow

instance : EmptyCollection FirstFollow := ⟨⟨∅, ∅⟩⟩

def nullable (ff : FirstFollow) (a : Nat) : Bool := Symbol.lambdaIndex ∈ ff.first.get a

end FirstFollow

namespace Grammar

variable (g : Grammar)

/-! ## Filling -/

/-- Enters what stands behind each non-terminal in a right side of `left`. -/
def fillRight (first : SetTable) (left : Nat) :
    List Nat → SetTable → Except GrammarError SetTable
  | [], follow => .ok follow
  | x :: rest, follow =>
    match g.symbols[x]? with
    | none => .error (.danglingIndex x)
    | some (.nonTerminal _) =>
      match g.firstOf first rest with
      | .error e => .error e
      | .ok behind =>
        let follow := follow.update x (· ∪ behind.erase Symbol.lambdaIndex)
        fillRight first left rest <|
          if Symbol.lambdaIndex ∈ behind ∧ left ≠ x then follow.update x (·.insert left)
          else follow
    | some _ => fillRight first left rest follow

def fillAll (first : SetTable) : List Production → SetTable → Except GrammarError SetTable
  | [], follow => .ok follow
  | p :: rest, follow =>
    match g.fillRight first p.left p.right follow with
    | .error e => .error e
    | .ok follow => fillAll first rest follow

/-- No set holds anything but that of the start symbol, which holds the end marker. -/
def startFollow (start : Nat) : SetTable :=
  let blank : SetTable := ⟨g.nonTerminals.map fun a => (a, ∅)⟩
  blank.update start (·.insert Symbol.endIndex)

/-! ## Replacing references -/

/-- The sets, and for each non-terminal the references that its set has replaced. -/
structure Closure where
  follow : SetTable
  replaced : SetTable
deriving DecidableEq

/-- Replaces the reference to `b` in the set of `a`. A reference replaced before is only
taken out; members that the set of `a` has replaced before do not come back. -/
def Closure.replace (a b : Nat) (c : Closure) : Closure :=
  if b ∈ c.replaced.get a then { c with follow := c.follow.update a (·.erase b) }
  else
    let replaced := c.replaced.update a (·.insert b)
    let inherited := (c.follow.get b).filter fun x => x != a && x ∉ replaced.get a
    { follow := c.follow.update a (fun set => set.erase b ∪ inherited), replaced }

def Closure.references (c : Closure) (a : Nat) : List Nat :=
  (c.follow.get a).members.filter g.isNonTerminal

def Closure.isOpen (c : Closure) (a : Nat) : Bool :=
  (c.references g a).any (· ∉ c.replaced.get a)

def Closure.replaceAll (c : Closure) (a : Nat) : Closure :=
  (c.references g a).foldl (fun c b => c.replace a b) c

/-- One pass over the non-terminals; the second component says if it replaced a new
reference. -/
def Closure.pass : List Nat → Closure × Bool → Closure × Bool
  | [], state => state
  | a :: rest, (c, changed) => pass rest (c.replaceAll g a, changed || c.isOpen g a)

/-- Passes until one replaces nothing new, with the number of passes before that one. Each
of them replaces a new reference in some set, so there are fewer than `n * n` with `n`
non-terminals. -/
def Closure.settle : Nat → Closure → Nat → Closure × Nat
  | 0, c, passes => (c, passes)
  | fuel + 1, c, passes =>
    match Closure.pass g g.nonTerminals (c, false) with
    | (c, true) => settle fuel c (passes + 1)
    | (c, false) => (c, passes)

def closeFollow (follow : SetTable) : Closure × Nat :=
  let n := g.nonTerminals.length
  Closure.settle g (n * n + 1) ⟨follow, ∅⟩ 0

/-! ## Both kinds of sets -/

def filledFollow (first : SetTable) (start : Nat) : Except GrammarError SetTable :=
  g.fillAll first g.productions (g.startFollow start)

def firstFollow : Except GrammarError FirstFollow :=
  match g.start with
  | none => .error .empty
  | some start => do
    let first ← g.firstTable
    let follow ← g.filledFollow first start
    .ok ⟨first, (g.closeFollow follow).1.follow⟩

end Grammar

end LLOne

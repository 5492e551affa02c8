import LLOne.Grammar.Follow

/-!
# The LL(1) table

The cell of a non-terminal and a lookahead holds the production to apply there. Every
production claims the cells of the lookaheads that predict it: those its right side can
begin with, and those that can follow its left side if the right side can vanish. For `λ`
alone and for a single terminal no FIRST set is formed. A cell keeps the production that
claims it first; a later claim must be for the same right side.
-/

namespace LLOne

structure Table where
  /-- The cells as non-terminal, lookahead and production, in the order of entry. -/
  cells : List ((Nat × Nat) × Nat)
deriving DecidableEq, Repr

namespace Table

instance : EmptyCollection Table := ⟨⟨[]⟩⟩

def get? (t : Table) (a lookahead : Nat) : Option Nat := t.cells.lookup (a, lookahead)

def size (t : Table) : Nat := t.cells.length

def isEmpty (t : Table) : Bool := t.size == 0

def row (t : Table) (a : Nat) : List (Nat × Nat) :=
  let columns := (t.cells.filter (·.1.1 == a)).map (·.1.2)
  (SymbolSet.ofList columns).members.filterMap fun x => (t.get? a x).map fun p => (x, p)

def row? (t : Table) (a : Nat) : Option (List (Nat × Nat)) :=
  if (t.row a).isEmpty then none else some (t.row a)

end Table

namespace Grammar

variable (g : Grammar)

def rightText (right : List Nat) : Except GrammarError String :=
  (g.namesOf right).map (" ".intercalate ·)

def conflictAt (a lookahead : Nat) (existing conflicting : List Nat) : GrammarError :=
  let error := do
    let nonTerminal ← g.nameOf a
    let terminal ← g.nameOf lookahead
    let existing ← g.rightText existing
    let conflicting ← g.rightText conflicting
    .ok (GrammarError.tableConflict nonTerminal terminal existing conflicting)
  match error with
  | .ok e => e
  | .error e => e

def claim (a : Nat) (right : List Nat) (p lookahead : Nat) (t : Table) :
    Except GrammarError Table :=
  match t.get? a lookahead with
  | none => .ok ⟨t.cells ++ [((a, lookahead), p)]⟩
  | some q =>
    match g.productionAt q with
    | .error e => .error e
    | .ok existing =>
      if existing.right = right then .ok t
      else .error (g.conflictAt a lookahead existing.right right)

/-- A claim that succeeds fills its cell if that was empty, and changes no other cell. -/
theorem get?_of_claim {a p x : Nat} {right : List Nat} {t u : Table}
    (h : g.claim a right p x t = .ok u) (b y : Nat) :
    u.get? b y = if (b, y) = (a, x) then some ((t.get? a x).getD p) else t.get? b y := by
  unfold claim at h
  cases hq : t.get? a x with
  | none =>
    rw [hq] at h
    obtain rfl : ⟨t.cells ++ [((a, x), p)]⟩ = u := Except.ok.inj h
    simp only [Table.get?] at hq ⊢
    rw [List.lookup_append]
    by_cases hc : (b, y) = (a, x)
    · rw [if_pos hc, hc, hq]
      simp
    · rw [if_neg hc, List.lookup_cons, beq_eq_false_iff_ne.2 hc]
      simp
  | some q =>
    rw [hq] at h
    have hu : t = u := by
      dsimp only at h
      split at h
      · exact absurd h (by simp)
      · split at h
        · exact Except.ok.inj h
        · exact absurd h (by simp)
    subst hu
    by_cases hc : (b, y) = (a, x)
    · obtain ⟨rfl, rfl⟩ := Prod.mk.inj hc
      rw [if_pos rfl, hq]
      rfl
    · rw [if_neg hc]

def claimAll (a : Nat) (right : List Nat) (p : Nat) :
    List Nat → Table → Except GrammarError Table
  | [], t => .ok t
  | x :: rest, t =>
    match g.claim a right p x t with
    | .error e => .error e
    | .ok t => claimAll a right p rest t

/-- The lookaheads for a right side of `a`: first those it can begin with, then, if it can
vanish, those that can follow `a`. -/
def predictSequence (ff : FirstFollow) (a : Nat) (right : List Nat) :
    Except GrammarError (List Nat) :=
  (g.firstOf ff.first right).map fun first =>
    (first.erase Symbol.lambdaIndex).members ++
      if Symbol.lambdaIndex ∈ first then (ff.follow.get a).members else []

def predict (ff : FirstFollow) (a : Nat) (right : List Nat) : Except GrammarError (List Nat) :=
  if right = [Symbol.lambdaIndex] then .ok (ff.follow.get a).members
  else
    match right with
    | [only] => if g.isLookahead only then .ok [only] else g.predictSequence ff a [only]
    | _ => g.predictSequence ff a right

def enterProductions (ff : FirstFollow) (a : Nat) :
    List (Production × Nat) → Table → Except GrammarError Table
  | [], t => .ok t
  | (production, p) :: rest, t =>
    match g.predict ff a production.right with
    | .error e => .error e
    | .ok lookaheads =>
      match g.claimAll a production.right p lookaheads t with
      | .error e => .error e
      | .ok t => enterProductions ff a rest t

def enterRows (ff : FirstFollow) : List Nat → Table → Except GrammarError Table
  | [], t => .ok t
  | a :: rest, t =>
    match g.enterProductions ff a (g.numberedProductionsOf a) t with
    | .error e => .error e
    | .ok t => enterRows ff rest t

def table (ff : FirstFollow) : Except GrammarError Table := g.enterRows ff g.nonTerminals ∅

end Grammar

end LLOne

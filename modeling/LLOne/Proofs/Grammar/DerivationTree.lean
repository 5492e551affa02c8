import LLOne.Proofs.Grammar.WellFormed

/-!
# Derivation trees

A shape is a forest whose leaves and nodes are symbols. It is a derivation of a form if its roots
spell the form, its leaves are terminals and end markers, and the children of every node are a
derivation of a right side of the node. The words that derive from a form are the yields of its
derivations.
-/

namespace LLOne

inductive Shape where
  | nil
  | leaf (symbol : Nat) (rest : Shape)
  | node (symbol : Nat) (children rest : Shape)
deriving DecidableEq, Repr

namespace Shape

def append : Shape → Shape → Shape
  | nil, e => e
  | leaf x rest, e => leaf x (rest.append e)
  | node x children rest, e => node x children (rest.append e)

instance : Append Shape := ⟨append⟩

@[simp] theorem nil_append (d : Shape) : nil ++ d = d := rfl

@[simp] theorem leaf_append (x : Nat) (d e : Shape) : leaf x d ++ e = leaf x (d ++ e) := rfl

@[simp] theorem node_append (x : Nat) (c d e : Shape) :
    node x c d ++ e = node x c (d ++ e) := rfl

def yield : Shape → List Nat
  | nil => []
  | leaf x rest => x :: rest.yield
  | node _ children rest => children.yield ++ rest.yield

@[simp] theorem yield_append (d e : Shape) : (d ++ e).yield = d.yield ++ e.yield := by
  induction d with
  | nil => rfl
  | leaf x rest ih => simp [yield, ih]
  | node x children rest _ ih => simp [yield, ih]

def keep : Nat → Shape → Shape
  | _, nil => nil
  | 0, leaf _ rest => keep 0 rest
  | k + 1, leaf x rest => leaf x (keep k rest)
  | k, node x children rest =>
    node x (keep k children) (keep (k - children.yield.length) rest)

end Shape

namespace Grammar

variable (g : Grammar)

inductive IsDerivation : List Nat → Shape → Prop
  | nil : IsDerivation [] .nil
  | leaf {x : Nat} {u : List Nat} {d : Shape} (hx : g.isLookahead x = true)
    (hd : IsDerivation u d) : IsDerivation (x :: u) (.leaf x d)
  | node {p : Production} {u : List Nat} {c d : Shape} (hp : p ∈ g.productions)
    (hc : IsDerivation (g.form p.right) c) (hd : IsDerivation u d) :
    IsDerivation (p.left :: u) (.node p.left c d)

variable {g}

theorem IsDerivation.append {u v : List Nat} {d e : Shape} (hd : g.IsDerivation u d)
    (he : g.IsDerivation v e) : g.IsDerivation (u ++ v) (d ++ e) := by
  induction hd with
  | nil => exact he
  | leaf hx _ ih => exact .leaf hx ih
  | node hp hc _ _ ih => exact .node hp hc ih

/-- A derivation of two forms side by side is one of each. -/
theorem IsDerivation.split {u v : List Nat} {d : Shape} (h : g.IsDerivation (u ++ v) d) :
    ∃ d₁ d₂, d = d₁ ++ d₂ ∧ g.IsDerivation u d₁ ∧ g.IsDerivation v d₂ := by
  induction u generalizing d with
  | nil => exact ⟨.nil, d, rfl, .nil, h⟩
  | cons x u ih =>
    cases h with
    | leaf hx hd =>
      obtain ⟨d₁, d₂, rfl, h₁, h₂⟩ := ih hd
      exact ⟨.leaf x d₁, d₂, rfl, .leaf hx h₁, h₂⟩
    | node hp hc hd =>
      obtain ⟨d₁, d₂, rfl, h₁, h₂⟩ := ih hd
      exact ⟨.node _ _ d₁, d₂, rfl, .node hp hc h₁, h₂⟩

theorem IsDerivation.derives {u : List Nat} {d : Shape} (h : g.IsDerivation u d) :
    g.Derives u d.yield := by
  induction h with
  | nil => exact .refl []
  | @leaf x u d _ _ ih => exact Derives.append (.refl [x]) ih
  | @node p u c d hp _ _ ihc ih => exact Derives.append ((Derives.of_mem hp).trans ihc) ih

theorem IsDerivation.isLookahead {u : List Nat} {d : Shape} (h : g.IsDerivation u d) :
    ∀ t ∈ d.yield, g.isLookahead t = true := by
  induction h with
  | nil => simp [Shape.yield]
  | leaf hx _ ih => exact List.forall_mem_cons.2 ⟨hx, ih⟩
  | node _ _ _ ihc ih => exact List.forall_mem_append.2 ⟨ihc, ih⟩

/-- A word is a derivation of itself. -/
theorem exists_derivation_self {w : List Nat} (hw : ∀ t ∈ w, g.isLookahead t = true) :
    ∃ d, g.IsDerivation w d ∧ d.yield = w := by
  induction w with
  | nil => exact ⟨.nil, .nil, rfl⟩
  | cons t w ih =>
    rw [List.forall_mem_cons] at hw
    obtain ⟨d, hd, hy⟩ := ih hw.2
    exact ⟨.leaf t d, .leaf hw.1 hd, congrArg (t :: ·) hy⟩

theorem derives_iff_exists_derivation {u w : List Nat} (hw : ∀ t ∈ w, g.isLookahead t = true) :
    g.Derives u w ↔ ∃ d, g.IsDerivation u d ∧ d.yield = w := by
  constructor
  · intro h
    induction h using Relation.ReflTransGen.head_induction_on with
    | refl => exact exists_derivation_self hw
    | head hs _ ih =>
      obtain ⟨before, p, after, hp⟩ := hs
      obtain ⟨d, hd, rfl⟩ := ih
      obtain ⟨d₁, d₂, rfl, h₁, h₂⟩ := hd.split
      obtain ⟨c, d₃, rfl, hc, h₃⟩ := h₂.split
      exact ⟨d₁ ++ .node p.left c d₃, h₁.append (.node hp hc h₃), by simp [Shape.yield]⟩
  · intro h
    obtain ⟨d, hd, rfl⟩ := h
    exact hd.derives

end Grammar

end LLOne

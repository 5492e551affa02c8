import LLOne.Proofs.Text.Quoted
import LLOne.Proofs.Tree.Arena

/-!
# Printed trees can be read back

The outline of a forest has an entry for each node and leaf with the level on which it stands. Each
line of a printed forest can be told from what stands behind it: the blanks in front give the level,
an angle bracket or a quote the kind, and a label ends at a line feed and a text at its
quote. So the print determines the outline. The outline in turn determines the forest
but for numbers, symbols and what a leaf has beside its text: below a node stands what
comes behind it on higher levels.
-/

namespace LLOne

inductive Entry where
  | leaf (text : String)
  | node (label : String)

structure IsLabel (label : String) : Prop where
  bracket : label.toList.head? = some '<'
  feed : ∀ c ∈ label.toList, c ≠ '\n'

namespace Entry

def line : Entry → String
  | leaf text => Text.quoted text
  | node label => label

def label? : Entry → Option String
  | leaf _ => none
  | node label => some label

def Legible : Entry → Prop
  | leaf _ => True
  | node label => IsLabel label

end Entry

namespace Forest

def outline (level : Nat) : Forest → List (Nat × Entry)
  | nil => []
  | leaf token rest => (level, .leaf token.text) :: rest.outline level
  | node _ _ label children rest =>
    (level, .node label) :: (children.outline (level + 1) ++ rest.outline level)

end Forest

/-! ## Lines -/

def lineChars (e : Nat × Entry) : List Char := (indented e.1 e.2.line).toList

theorem lineChars_eq (e : Nat × Entry) :
    lineChars e = List.replicate (2 * e.1) ' ' ++ e.2.line.toList ++ ['\n'] := by
  simp [lineChars, indented, Text.blanks]

theorem toList_print (f : Forest) (level : Nat) :
    (f.print level).toList = (f.outline level).flatMap lineChars := by
  induction f generalizing level with
  | nil => rfl
  | leaf token rest ih => simp [Forest.print, Forest.outline, ih, lineChars, Entry.line]
  | node id symbol label children rest ihc ih =>
    simp [Forest.print, Forest.outline, ihc, ih, lineChars, Entry.line]

theorem quoted_append_ne {text label : String} (h : IsLabel label) {r s : List Char} :
    (Text.quoted text).toList ++ r ≠ label.toList ++ s := by
  intro he
  have hhead := congrArg List.head? he
  simp [List.head?_append, Text.head?_quoted, h.bracket] at hhead

/-- Behind its blanks a line begins with a character of its own. -/
theorem Entry.Legible.head?_append {e : Entry} (h : e.Legible) (r : List Char) :
    ∀ c ∈ (e.line.toList ++ r).head?, (c == ' ') = false := by
  cases e with
  | leaf text => simp [line, List.head?_append, Text.head?_quoted]
  | node label => simp [line, List.head?_append, h.bracket]

/-- What a line shows ends where the line does. -/
theorem Entry.Legible.line_append_inj {e e' : Entry} (h : e.Legible) (h' : e'.Legible)
    {r s : List Char} (heq : e.line.toList ++ '\n' :: r = e'.line.toList ++ '\n' :: s) :
    e = e' ∧ r = s := by
  cases e with
  | leaf text =>
    cases e' with
    | leaf text' =>
      obtain ⟨rfl, htail⟩ := Text.quoted_append_inj heq
      exact ⟨rfl, (List.cons.inj htail).2⟩
    | node label' => exact absurd heq (quoted_append_ne h')
  | node label =>
    cases e' with
    | leaf text' => exact absurd heq.symm (quoted_append_ne h)
    | node label' =>
      obtain ⟨hlabel, htail⟩ := append_inj_of_forall (p := (· != '\n'))
        (by simpa [line] using h.feed) (by simpa [line] using h'.feed) (by simp) (by simp) heq
      obtain rfl := String.toList_inj.1 hlabel
      exact ⟨rfl, (List.cons.inj htail).2⟩

theorem lineChars_append_inj {e e' : Nat × Entry} (h : e.2.Legible) (h' : e'.2.Legible)
    {r s : List Char} (heq : lineChars e ++ r = lineChars e' ++ s) : e = e' ∧ r = s := by
  obtain ⟨level, entry⟩ := e
  obtain ⟨level', entry'⟩ := e'
  simp only [lineChars_eq, List.append_assoc, List.singleton_append] at heq
  obtain ⟨hblanks, hline⟩ := append_inj_of_forall (p := (· == ' '))
    (by simp) (by simp) (h.head?_append _) (h'.head?_append _) heq
  have hlength := congrArg List.length hblanks
  rw [List.length_replicate, List.length_replicate] at hlength
  obtain ⟨rfl, hr⟩ := h.line_append_inj h' hline
  obtain rfl : level = level' := by omega
  exact ⟨rfl, hr⟩

/-- Lines that can be told from what stands behind them are read one by one. -/
theorem flatMap_lineChars_inj {es fs : List (Nat × Entry)} (he : ∀ e ∈ es, e.2.Legible)
    (hf : ∀ e ∈ fs, e.2.Legible) (h : es.flatMap lineChars = fs.flatMap lineChars) : es = fs := by
  have hne : ∀ e : Nat × Entry, ∀ r : List Char, lineChars e ++ r ≠ [] := by
    intro e r
    simp [lineChars_eq]
  induction es generalizing fs with
  | nil =>
    cases fs with
    | nil => rfl
    | cons f fs => exact absurd h.symm (hne f _)
  | cons e es ih =>
    cases fs with
    | nil => exact absurd h (hne e _)
    | cons f fs =>
      rw [List.forall_mem_cons] at he hf
      rw [List.flatMap_cons, List.flatMap_cons] at h
      obtain ⟨rfl, hrest⟩ := lineChars_append_inj he.1 hf.1 h
      rw [ih he.2 hf.2 hrest]

/-! ## Outlines -/

namespace Forest

variable {f f' c c' r r' : Forest} {level : Nat}

theorem le_of_mem_outline {e : Nat × Entry} (he : e ∈ f.outline level) : level ≤ e.1 := by
  induction f generalizing level with
  | nil => cases he
  | leaf token rest ih =>
    rcases List.mem_cons.1 he with rfl | he
    · exact Nat.le_refl _
    · exact ih he
  | node id symbol label children rest ihc ih =>
    rcases List.mem_cons.1 he with rfl | he
    · exact Nat.le_refl _
    rcases List.mem_append.1 he with he | he
    · exact Nat.le_of_succ_le (ihc he)
    · exact ih he

theorem eq_of_mem_head?_outline {e : Nat × Entry} (he : e ∈ (f.outline level).head?) :
    e.1 = level := by
  cases f with
  | nil => cases he
  | leaf token rest => exact congrArg Prod.fst (Option.some.inj he).symm
  | node id symbol label children rest => exact congrArg Prod.fst (Option.some.inj he).symm

/-- What stands below a node is told from what stands beside it by the levels. -/
theorem outline_append_inj
    (h : c.outline (level + 1) ++ r.outline level = c'.outline (level + 1) ++ r'.outline level) :
    c.outline (level + 1) = c'.outline (level + 1) ∧ r.outline level = r'.outline level := by
  have hbelow : ∀ f : Forest, ∀ e ∈ f.outline (level + 1), decide (level < e.1) = true :=
    fun f e he => decide_eq_true (le_of_mem_outline he)
  have hbeside : ∀ f : Forest, ∀ e ∈ (f.outline level).head?, decide (level < e.1) = false :=
    fun f e he => decide_eq_false (Nat.not_lt_of_le (Nat.le_of_eq (eq_of_mem_head?_outline he)))
  exact append_inj_of_forall (hbelow c) (hbelow c') (hbeside r) (hbeside r') h

theorem labels_outline (f : Forest) (level : Nat) :
    (f.outline level).filterMap (·.2.label?) = f.nodes.map Tree.label := by
  induction f generalizing level with
  | nil => rfl
  | leaf token rest ih => exact ih level
  | node id symbol label children rest ihc ih =>
    rw [outline, nodes, List.map_cons, List.map_append, ← ihc (level + 1), ← ih level,
      ← List.filterMap_append]
    rfl

end Forest

theorem legible_outline {f : Forest} (hf : ∀ t ∈ f.nodes, IsLabel t.label) (level : Nat) :
    ∀ e ∈ f.outline level, e.2.Legible := by
  rintro ⟨l, entry⟩ he
  cases entry with
  | leaf text => trivial
  | node label =>
    have hlabel : label ∈ (f.outline level).filterMap (·.2.label?) :=
      List.mem_filterMap.2 ⟨_, he, rfl⟩
    rw [Forest.labels_outline] at hlabel
    obtain ⟨t, ht, rfl⟩ := List.mem_map.1 hlabel
    exact hf t ht

theorem outline_eq_of_print {f f' : Forest} {level : Nat} (hf : ∀ t ∈ f.nodes, IsLabel t.label)
    (hf' : ∀ t ∈ f'.nodes, IsLabel t.label) (h : f.print level = f'.print level) :
    f.outline level = f'.outline level := by
  apply flatMap_lineChars_inj (legible_outline hf level) (legible_outline hf' level)
  rw [← toList_print, ← toList_print, h]

/-! ## What a print leaves out -/

def Token.textOnly (t : Token) : Token := ⟨⟨0, 0⟩, .word, t.text⟩

def Forest.textOnly : Forest → Forest
  | nil => nil
  | leaf token rest => leaf token.textOnly rest.textOnly
  | node id symbol label children rest => node id symbol label children.textOnly rest.textOnly

def Tree.textOnly (t : Tree) : Tree := { t with children := t.children.textOnly }

def Child.textOnly : Child → Child
  | leaf token => leaf token.textOnly
  | node id => node id

def ArenaNode.textOnly (n : ArenaNode) : ArenaNode :=
  { n with children := n.children.map Child.textOnly }

namespace Forest

theorem links_textOnly (f : Forest) : f.textOnly.links = f.links.map Child.textOnly := by
  induction f with
  | nil => rfl
  | leaf token rest ih => simp [textOnly, links, Child.textOnly, ih]
  | node id symbol label children rest _ ih => simp [textOnly, links, Child.textOnly, ih]

theorem arena_textOnly (f : Forest) : f.textOnly.arena = f.arena.map ArenaNode.textOnly := by
  induction f with
  | nil => rfl
  | leaf token rest ih => exact ih
  | node id symbol label children rest ihc ih =>
    simp only [arena, List.map_map] at ihc ih
    simp [arena, nodes, textOnly, Tree.record, ArenaNode.textOnly, links_textOnly, ihc, ih]

theorem print_textOnly (f : Forest) (level : Nat) : f.textOnly.print level = f.print level := by
  induction f generalizing level with
  | nil => rfl
  | leaf token rest ih => rw [textOnly, print, print, ih, Token.textOnly]
  | node id symbol label children rest ihc ih => rw [textOnly, print, print, ihc, ih]

/-- Forests with one outline that agree in the numbers and symbols of their nodes. -/
theorem textOnly_eq_of_outline {f f' : Forest} {level : Nat}
    (h : f.outline level = f'.outline level)
    (hids : f.nodes.map Tree.id = f'.nodes.map Tree.id)
    (hsymbols : f.nodes.map Tree.symbol = f'.nodes.map Tree.symbol) :
    f.textOnly = f'.textOnly := by
  induction f generalizing f' level with
  | nil =>
    cases f' with
    | nil => rfl
    | leaf token' rest' => cases h
    | node id' symbol' label' children' rest' => cases h
  | leaf token rest ih =>
    cases f' with
    | nil => cases h
    | leaf token' rest' =>
      obtain ⟨hhead, hrest⟩ := List.cons.inj h
      have htext : token.text = token'.text := Entry.leaf.inj (Prod.mk.inj hhead).2
      rw [textOnly, textOnly, ih hrest hids hsymbols, Token.textOnly, Token.textOnly, htext]
    | node id' symbol' label' children' rest' => cases (Prod.mk.inj (List.cons.inj h).1).2
  | node id symbol label children rest ihc ih =>
    cases f' with
    | nil => cases h
    | leaf token' rest' => cases (Prod.mk.inj (List.cons.inj h).1).2
    | node id' symbol' label' children' rest' =>
      obtain ⟨hhead, htail⟩ := List.cons.inj h
      obtain rfl : label = label' := Entry.node.inj (Prod.mk.inj hhead).2
      obtain ⟨hchildren, hrest⟩ := outline_append_inj htail
      have hlength : children.nodes.length = children'.nodes.length := by
        have hlabels := labels_outline children (level + 1)
        rw [hchildren, labels_outline] at hlabels
        simpa using (congrArg List.length hlabels).symm
      simp only [nodes, List.map_cons, List.map_append, List.cons.injEq] at hids hsymbols
      obtain ⟨rfl, hids⟩ := hids
      obtain ⟨rfl, hsymbols⟩ := hsymbols
      obtain ⟨hidsc, hidsr⟩ := List.append_inj hids (by simpa using hlength)
      obtain ⟨hsymbolsc, hsymbolsr⟩ := List.append_inj hsymbols (by simpa using hlength)
      rw [textOnly, textOnly, ihc hchildren hidsc hsymbolsc, ih hrest hidsr hsymbolsr]

end Forest

end LLOne

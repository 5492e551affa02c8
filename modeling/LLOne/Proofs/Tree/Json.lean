import LLOne.Proofs.Token.Json

/-!
# Trees are read back from JSON

Leaves and nodes stand in one array and are told apart by the names of their members: an object
that has a location has no label. So there is one way to read the children of a node, and it gives
their labels, their order and their tokens. The numbers of nodes and symbols are not written.
-/

namespace LLOne

open Json

def nodeOfJson? (value : Value) : Option (String × List Value) := do
  match ← value.fields? ["label", "children"] with
  | [label, .array children] => some (← label.text?, children)
  | _ => none

/-! ## Leaves and nodes -/

theorem nodeOfJson?_nodeJson (label : String) (children : List Value) :
    nodeOfJson? (nodeJson label children) = some (label, children) := by
  have hfields : (nodeJson label children).fields? ["label", "children"] =
      some [.ofString label, .array children] :=
    Value.fields?_ofMembers (show ["label", "children"].Nodup by decide)
  simp [nodeOfJson?, hfields, Value.text?_ofString]

theorem ofJson?_nodeJson (label : String) (children : List Value) :
    Token.ofJson? (nodeJson label children) = none := by
  have hfields : (nodeJson label children).fields? ["location", "kind", "text"] = none :=
    Value.fields?_ofMembers_eq_none (show "location" ∉ ["label", "children"] by decide) _
  rw [Token.ofJson?, hfields]
  rfl

theorem nodeOfJson?_toJson (t : Token) : nodeOfJson? t.toJson = none := by
  have hfields : t.toJson.fields? ["label", "children"] = none :=
    Value.fields?_ofMembers_eq_none (show "label" ∉ ["location", "kind", "text"] by decide) _
  rw [nodeOfJson?, hfields]
  rfl

namespace Forest

def bare : Forest → Forest
  | nil => nil
  | leaf token rest => leaf token rest.bare
  | node _ _ label children rest => node 0 0 label children.bare rest.bare

/-- What the values are read as: one by one and in their order, each a token and no node, or a node
and no token. -/
inductive ReadFrom : Forest → List Value → Prop
  | nil : ReadFrom .nil []
  | leaf {token : Token} {rest : Forest} {value : Value} {values : List Value}
    (ht : Token.ofJson? value = some token) (hn : nodeOfJson? value = none)
    (hr : ReadFrom rest values) : ReadFrom (.leaf token rest) (value :: values)
  | node {id symbol : Nat} {label : String} {children rest : Forest} {value : Value}
    {below values : List Value} (hn : nodeOfJson? value = some (label, below))
    (ht : Token.ofJson? value = none) (hc : ReadFrom children below) (hr : ReadFrom rest values) :
    ReadFrom (.node id symbol label children rest) (value :: values)

theorem readFrom_toJson {f : Forest} (h : ∀ t ∈ f.leaves, t.location.Fits) :
    f.ReadFrom f.toJson := by
  induction f with
  | nil => exact .nil
  | leaf token rest ih =>
    rw [leaves, List.forall_mem_cons] at h
    exact .leaf (Token.ofJson?_toJson h.1) (nodeOfJson?_toJson token) (ih h.2)
  | node id symbol label children rest ihc ihr =>
    rw [leaves, List.forall_mem_append] at h
    exact .node (nodeOfJson?_nodeJson _ _) (ofJson?_nodeJson _ _) (ihc h.1) (ihr h.2)

/-- What can be read is fixed up to the numbers, because no value is read as a token and a node. -/
theorem ReadFrom.bare_eq {f g : Forest} {values : List Value} (hf : f.ReadFrom values)
    (hg : g.ReadFrom values) : g.bare = f.bare := by
  induction hf generalizing g with
  | nil =>
    cases hg
    rfl
  | leaf ht hn _ ih =>
    cases hg with
    | leaf ht' _ hr =>
      obtain rfl := Option.some.inj (ht.symm.trans ht')
      rw [bare, bare, ih hr]
    | node hn' => cases hn.symm.trans hn'
  | node hn ht _ _ ihc ihr =>
    cases hg with
    | leaf ht' => cases ht.symm.trans ht'
    | node hn' _ hc hr =>
      obtain ⟨rfl, rfl⟩ := Prod.mk.inj (Option.some.inj (hn.symm.trans hn'))
      rw [bare, bare, ihc hc, ihr hr]

/-- Reading does not depend on the numbers. -/
theorem ReadFrom.of_bare_eq {f g : Forest} {values : List Value} (hf : f.ReadFrom values)
    (h : g.bare = f.bare) : g.ReadFrom values := by
  induction hf generalizing g with
  | nil =>
    cases g with
    | nil => exact .nil
    | _ => cases h
  | leaf ht hn _ ih =>
    cases g with
    | leaf token rest =>
      obtain ⟨rfl, hr⟩ := Forest.leaf.inj h
      exact .leaf ht hn (ih hr)
    | _ => cases h
  | node hn ht _ _ ihc ihr =>
    cases g with
    | node id symbol label children rest =>
      obtain ⟨-, -, rfl, hc, hr⟩ := Forest.node.inj h
      exact .node hn ht (ihc hc) (ihr hr)
    | _ => cases h

theorem written_toJson (f : Forest) : ∀ value ∈ f.toJson, value.Written := by
  induction f with
  | nil => exact fun _ h => nomatch h
  | leaf token rest ih => exact List.forall_mem_cons.2 ⟨token.written_toJson, ih⟩
  | node id symbol label children rest ihc ihr =>
    refine List.forall_mem_cons.2 ⟨.object ?_, ihr⟩
    simpa using ⟨.string label, .array ihc⟩

end Forest

theorem Tree.written_toJson (t : Tree) : t.toJson.Written := by
  refine .object ?_
  simpa using ⟨.string t.label, .array t.children.written_toJson⟩

/-- Tokens whose positions fit into 64 bits are read back from the text of their array. The text of
a tree with such leaves is read as a node and no token, with the label of the tree and children
that are read as those of the tree and as nothing else, up to the numbers of nodes and symbols. For
trees of any height this takes a reader without a limit on the depth of values. -/
theorem json_roundTrip :
    (∀ (jsonError : String → String) (tokens : List Token), (∀ t ∈ tokens, t.location.Fits) →
      readTokens jsonError (Value.array (tokens.map Token.toJson)).text = .ok tokens) ∧
    ∀ t : Tree, (∀ leaf ∈ t.leaves, leaf.location.Fits) →
      ∃ value children, Value.read? t.toJson.text = some value ∧
        nodeOfJson? value = some (t.label, children) ∧ Token.ofJson? value = none ∧
        ∀ f : Forest, f.ReadFrom children ↔ f.bare = t.children.bare := by
  refine ⟨fun jsonError tokens h => ?_, fun t h => ?_⟩
  · rw [readTokens, Token.readList?_toJson h]
  have hread := Forest.readFrom_toJson h
  exact ⟨_, _, t.written_toJson.read?_text, nodeOfJson?_nodeJson _ _, ofJson?_nodeJson _ _,
    fun f => ⟨hread.bare_eq, hread.of_bare_eq⟩⟩

def awkwardToken : Token := ⟨⟨0, 2 ^ 64 - 1⟩, .comment, "\"\\\n\x01é𝄞"⟩

def awkwardTree : Tree :=
  ⟨0, 2, "<S>", .leaf awkwardToken (.node 1 3 "<\"A>" (.leaf awkwardToken .nil)
    (.node 2 3 "<\"A>" .nil .nil))⟩

theorem json_roundTrip_awkward :
    readTokens id (Value.array ([awkwardToken].map Token.toJson)).text = .ok [awkwardToken] ∧
    ∃ value children, Value.read? awkwardTree.toJson.text = some value ∧
      nodeOfJson? value = some ("<S>", children) ∧ awkwardTree.children.ReadFrom children := by
  have hfits : ∀ t ∈ [awkwardToken], t.location.Fits := by decide
  have hleaves : ∀ t ∈ awkwardTree.leaves, t.location.Fits := by decide
  obtain ⟨value, children, hvalue, hnode, -, hread⟩ := json_roundTrip.2 awkwardTree hleaves
  exact ⟨json_roundTrip.1 id [awkwardToken] hfits, value, children, hvalue, hnode, (hread _).2 rfl⟩

end LLOne

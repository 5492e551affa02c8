import LLOne.Parser.Run

/-!
# Splitting while reading

A run brings the first token in pieces at every step that takes a symbol. Pieces are not split
again, and every decision is made about a first token that is in pieces already. So a run on the
tokens and a run on all of their pieces go through the same states, except that the one has
pieces where the other still has whole tokens.
-/

namespace LLOne

/-- The errors differ at most in where the input ends. -/
structure SyntaxError.Alike (e e' : SyntaxError) : Prop where
  kind : e.kind = e'.kind
  expected : e.expected = e'.expected
  text : e.text = e'.text
  token : e.kind = .mismatch ∨ e.kind = .noProduction →
    e.found = e'.found ∧ e.location = e'.location

namespace SyntaxError.Alike

variable {e e' e'' : SyntaxError}

theorem refl (e : SyntaxError) : e.Alike e := ⟨rfl, rfl, rfl, fun _ => ⟨rfl, rfl⟩⟩

theorem trans (h : e.Alike e') (h' : e'.Alike e'') : e.Alike e'' where
  kind := h.kind.trans h'.kind
  expected := h.expected.trans h'.expected
  text := h.text.trans h'.text
  token hk := by
    obtain ⟨hf, hl⟩ := h.token hk
    obtain ⟨hf', hl'⟩ := h'.token (h.kind ▸ hk)
    exact ⟨hf.trans hf', hl.trans hl'⟩

theorem eq (h : e.Alike e') (hk : e'.kind = .mismatch ∨ e'.kind = .noProduction) : e = e' := by
  obtain ⟨hf, hl⟩ := h.token (h.kind ▸ hk)
  cases e
  cases e'
  cases h.kind
  cases h.expected
  cases h.text
  cases hf
  cases hl
  rfl

end SyntaxError.Alike

inductive ResultsAlike : Except SyntaxError Tree → Except SyntaxError Tree → Prop
  | ok (tree : Tree) : ResultsAlike (.ok tree) (.ok tree)
  | error {e e' : SyntaxError} (h : e.Alike e') : ResultsAlike (.error e) (.error e')

namespace Parser

variable (p : Parser)

/-- Every token of the input is a piece. -/
def InPieces (input : List Token) : Prop := ∀ t ∈ input, p.pieces t = [t]

variable {p}

/-! ## Pieces -/

theorem length_of_mem_separate {t u : Token} (hu : u ∈ t.separate) : u.text.length = 1 := by
  obtain ⟨i, hi, rfl⟩ := List.mem_map.1 hu
  rw [List.mem_range] at hi
  have hlt : i < t.text.toList.length := by rwa [String.length_toList]
  simp only [Token.slice, String.length_ofList, List.length_take, List.length_drop]
  omega

theorem inPieces_pieces (t : Token) : p.InPieces (p.pieces t) := by
  intro u hu
  unfold pieces at hu
  split at hu
  · have hl := length_of_mem_separate hu
    have hs : p.splits u = false := by simp [splits, hl]
    simp [pieces, hs]
  next hs =>
    rw [List.mem_singleton.1 hu, pieces, if_neg hs]

theorem pieces_ne_nil (t : Token) : p.pieces t ≠ [] := by
  unfold pieces
  split
  next hs =>
    have hl : 1 < t.text.length := by
      simp only [splits, Bool.and_eq_true, decide_eq_true_eq] at hs
      exact hs.1.2
    intro he
    have hlength := t.length_separate
    rw [he, List.length_nil] at hlength
    omega
  next => exact List.cons_ne_nil t []

theorem length_pieces_le (t : Token) : (p.pieces t).length ≤ max 1 t.text.length := by
  unfold pieces
  split
  · exact Nat.le_trans (Nat.le_of_eq t.length_separate) (Nat.le_max_right ..)
  · exact Nat.le_max_left ..

@[simp] theorem splitAll_nil : p.splitAll [] = [] := rfl

@[simp] theorem splitAll_cons (t : Token) (rest : List Token) :
    p.splitAll (t :: rest) = p.pieces t ++ p.splitAll rest := rfl

theorem splitAll_append (input rest : List Token) :
    p.splitAll (input ++ rest) = p.splitAll input ++ p.splitAll rest := by
  simp [splitAll]

theorem InPieces.splitAll_eq {input : List Token} (h : p.InPieces input) :
    p.splitAll input = input := by
  induction input with
  | nil => rfl
  | cons t rest ih =>
    obtain ⟨ht, hrest⟩ := List.forall_mem_cons.1 h
    rw [splitAll_cons, ht, ih hrest, List.singleton_append]

theorem inPieces_splitAll (input : List Token) : p.InPieces (p.splitAll input) := by
  intro u hu
  obtain ⟨t, -, ht⟩ := List.mem_flatMap.1 hu
  exact inPieces_pieces t u ht

/-- The first token in pieces is the first of all pieces. -/
theorem exists_splitFirst_eq_cons (t : Token) (rest : List Token) :
    ∃ u more, p.splitFirst (t :: rest) = u :: more ∧
      p.splitAll (t :: rest) = u :: p.splitAll more := by
  cases hp : p.pieces t with
  | nil => exact absurd hp (pieces_ne_nil t)
  | cons u us =>
    have hus : p.InPieces us := by
      intro v hv
      exact inPieces_pieces t v (hp ▸ List.mem_cons_of_mem u hv)
    refine ⟨u, us ++ rest, ?_, ?_⟩
    · rw [splitFirst, hp, List.cons_append]
    · rw [splitAll_cons, hp, splitAll_append, hus.splitAll_eq, List.cons_append]

theorem splitFirst_splitAll (input : List Token) :
    p.splitFirst (p.splitAll input) = p.splitAll input := by
  cases input with
  | nil => rfl
  | cons t rest =>
    obtain ⟨u, more, -, he⟩ := exists_splitFirst_eq_cons (p := p) t rest
    have hu : p.pieces u = [u] := by
      apply inPieces_splitAll (t :: rest)
      rw [he]
      exact List.mem_cons_self
    rw [he, splitFirst, hu, List.singleton_append]

/-! ## Both runs -/

def split (p : Parser) (s : ParseState) (last : Option Location) : ParseState :=
  { s with input := p.splitAll s.input, last }

variable {s : ParseState} (last : Option Location)

theorem addChild_split (child : Forest) :
    (p.split s last).addChild child = p.split (s.addChild child) last := by
  obtain ⟨nodes, outside, root, opened, input, last'⟩ := s
  cases nodes <;> rfl

theorem closeNode_split : (p.split s last).closeNode = p.split s.closeNode last := by
  obtain ⟨nodes, outside, root, opened, input, last'⟩ := s
  match nodes with
  | [] => rfl
  | [_] => rfl
  | _ :: _ :: _ => rfl

theorem drop_split : (p.split s last).drop = p.split s.drop last := by
  obtain ⟨nodes, outside, root, opened, input, last'⟩ := s
  cases nodes <;> rfl

theorem input_drop (s : ParseState) : s.drop.input = s.input := by
  unfold ParseState.drop
  split <;> rfl

theorem splitAll_splitFirst (input : List Token) :
    p.splitAll (p.splitFirst input) = p.splitAll input := by
  cases input with
  | nil => rfl
  | cons t rest => rw [splitFirst, splitAll_append, (inPieces_pieces t).splitAll_eq, splitAll_cons]

theorem taken_split : p.taken (p.split s last) = p.split (p.taken s) last := by
  rw [taken, drop_split]
  simp only [split, taken, splitFirst_splitAll, splitAll_splitFirst]

/-- The input is empty or starts with a piece. -/
inductive FirstInPieces (p : Parser) : List Token → Prop
  | nil : FirstInPieces p []
  | cons {t : Token} (ht : p.pieces t = [t]) (rest : List Token) : FirstInPieces p (t :: rest)

theorem firstInPieces_splitFirst (input : List Token) : p.FirstInPieces (p.splitFirst input) := by
  cases input with
  | nil => exact .nil
  | cons t rest =>
    obtain ⟨u, more, hf, ha⟩ := exists_splitFirst_eq_cons (p := p) t rest
    have hu : u ∈ p.splitAll (t :: rest) := ha ▸ List.mem_cons_self
    rw [hf]
    exact .cons (inPieces_splitAll (t :: rest) u hu) more

inductive StepsAlike (p : Parser) (last : Option Location) : ParseStep → ParseStep → Prop
  | next (s : ParseState) : StepsAlike p last (.next s) (.next (p.split s last))
  | stop {r r' : Except SyntaxError Tree} (h : ResultsAlike r r') :
    StepsAlike p last (.stop r) (.stop r')

theorem StepsAlike.error {last : Option Location} {e e' : SyntaxError} (h : e.Alike e') :
    p.StepsAlike last (.stop (.error e)) (.stop (.error e')) := .stop (.error h)

theorem unexpectedEnd_alike (x : Nat) (l l' : Option Location) (message : Option String) :
    (p.unexpectedEnd x l message).Alike (p.unexpectedEnd x l' message) where
  kind := rfl
  expected := rfl
  text := rfl
  token h := by rcases h with h | h <;> cases h

theorem trailingInput_alike (t u : Token) : (trailingInput t).Alike (trailingInput u) where
  kind := rfl
  expected := rfl
  text := rfl
  token h := by rcases h with h | h <;> cases h

theorem readToken_split (x : Nat) (h : p.FirstInPieces s.input) :
    p.StepsAlike last (p.readToken x s) (p.readToken x (p.split s last)) := by
  obtain ⟨nodes, outside, root, opened, input, last'⟩ := s
  cases h with
  | nil =>
    simp only [readToken, split, splitAll_nil]
    split
    · exact .next _
    · exact .error (unexpectedEnd_alike x last' last none)
  | @cons t ht rest =>
    simp only [readToken, split, splitAll_cons, ht, List.singleton_append]
    split
    next hc =>
      have hs := addChild_split (p := p) last (.leaf t .nil)
        (s := ⟨nodes, outside, root, opened, rest, last'⟩)
      simp only [split] at hs
      rw [hs]
      exact .next _
    next hc =>
      split
      · exact .error (.refl (trailingInput t))
      · exact .error (.refl (p.mismatch x t))

theorem expand_split (x : Nat) (h : p.FirstInPieces s.input) :
    p.StepsAlike last (p.expand x s) (p.expand x (p.split s last)) := by
  obtain ⟨nodes, outside, root, opened, input, last'⟩ := s
  cases h with
  | nil =>
    simp only [expand, split, splitAll_nil]
    split
    · exact .next _
    · exact .error (unexpectedEnd_alike x last' last _)
  | @cons t ht rest =>
    simp only [expand, split, splitAll_cons, ht, List.singleton_append, lookahead]
    split
    · have hs : p.splitAll (t :: rest) = t :: p.splitAll rest := by
        rw [splitAll_cons, ht, List.singleton_append]
      rw [← hs]
      exact .next _
    · exact .error (.refl (p.noProduction x t))

theorem finish_split (s : ParseState) :
    ResultsAlike (p.finish s) (p.finish (p.split s last)) := by
  obtain ⟨nodes, outside, root, opened, input, last'⟩ := s
  cases input with
  | nil =>
    cases root with
    | none => exact .error (unexpectedEnd_alike p.start last' last none)
    | some tree => exact .ok tree
  | cons t rest =>
    obtain ⟨u, more, -, ha⟩ := exists_splitFirst_eq_cons (p := p) t rest
    simp only [finish, split, ha]
    exact .error (trailingInput_alike t u)

theorem step_split (s : ParseState) :
    p.StepsAlike last (p.step s) (p.step (p.split s last)) := by
  have hnext : (p.split s last).next? = s.next? := rfl
  have hfirst : p.FirstInPieces (p.taken s).input := firstInPieces_splitFirst s.input
  unfold step
  rw [hnext, taken_split]
  split
  · have hnodes : (p.split s last).nodes = s.nodes := rfl
    rw [hnodes, closeNode_split]
    split
    · exact .stop (finish_split last s)
    · exact .next _
  next x _ =>
    split
    · exact .next _
    · exact .next _
    · exact expand_split last x hfirst
    · exact readToken_split last x hfirst

theorem run_split (n : Nat) (s : ParseState) :
    Option.Rel ResultsAlike (p.run n s) (p.run n (p.split s last)) := by
  induction n generalizing s with
  | zero => exact .none
  | succ n ih =>
    have hstep := step_split (p := p) last s
    unfold run
    generalize p.step s = a at hstep
    generalize p.step (p.split s last) = b at hstep
    cases hstep with
    | next s' => exact ih s'
    | stop h => exact .some h

theorem initial_splitAll (tokens : List Token) :
    p.initial (p.splitAll tokens) =
      p.split (p.initial tokens) ((p.splitAll tokens).getLast?.map Token.location) := rfl

section SplitAll

variable {n : Nat} {tokens : List Token}

theorem exists_run_splitAll {r : Except SyntaxError Tree}
    (h : p.run n (p.initial tokens) = some r) :
    ∃ r', p.run n (p.initial (p.splitAll tokens)) = some r' ∧ ResultsAlike r r' := by
  have hrel := run_split (p := p) ((p.splitAll tokens).getLast?.map Token.location) n
    (p.initial tokens)
  rw [← initial_splitAll, h] at hrel
  generalize p.run n (p.initial (p.splitAll tokens)) = o at hrel ⊢
  obtain ⟨halike⟩ := hrel
  exact ⟨_, rfl, halike⟩

theorem exists_run_of_splitAll {r' : Except SyntaxError Tree}
    (h : p.run n (p.initial (p.splitAll tokens)) = some r') :
    ∃ r, p.run n (p.initial tokens) = some r ∧ ResultsAlike r r' := by
  have hrel := run_split (p := p) ((p.splitAll tokens).getLast?.map Token.location) n
    (p.initial tokens)
  rw [← initial_splitAll, h] at hrel
  generalize p.run n (p.initial tokens) = o at hrel ⊢
  obtain ⟨halike⟩ := hrel
  exact ⟨_, rfl, halike⟩

/-- A run on all pieces leads to a tree if and only if the run on the tokens does. -/
theorem run_splitAll_eq_ok_iff {tree : Tree} :
    p.run n (p.initial (p.splitAll tokens)) = some (.ok tree) ↔
      p.run n (p.initial tokens) = some (.ok tree) := by
  constructor
  · intro h
    obtain ⟨r, hr, ⟨⟩⟩ := exists_run_of_splitAll h
    exact hr
  · intro h
    obtain ⟨r', hr', ⟨⟩⟩ := exists_run_splitAll h
    exact hr'

/-- A run on all pieces comes to an end if and only if the run on the tokens does. -/
theorem exists_run_splitAll_iff :
    (∃ r, p.run n (p.initial (p.splitAll tokens)) = some r) ↔
      ∃ r, p.run n (p.initial tokens) = some r := by
  constructor
  · rintro ⟨r', h⟩
    obtain ⟨r, hr, -⟩ := exists_run_of_splitAll h
    exact ⟨r, hr⟩
  · rintro ⟨r, h⟩
    obtain ⟨r', hr', -⟩ := exists_run_splitAll h
    exact ⟨r', hr'⟩

end SplitAll

end Parser

end LLOne

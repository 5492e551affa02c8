import LLOne.Proofs.Grammar.SameProductions
import LLOne.Proofs.Parser.ErrorPosition

/-!
# The end marker behind the input

Where the tokens are used up, an end marker is looked ahead for, and one that is expected is taken
to be there. So an end marker that is written behind the tokens leads to the same readings, as long
as no right side has one that takes it away. What is stuck at the end of the tokens is stuck there
at the end marker, and only the error is worded differently.
-/

namespace LLOne

theorem Grammar.Indexed.eq_of_name_eq {g : Grammar} (hi : g.Indexed) {x : Nat} {a b : Symbol}
    (hx : g.symbols[x]? = some a) (hb : b ∈ g.symbols) (h : a.name = b.name) : a = b := by
  obtain ⟨y, hy⟩ := List.mem_iff_getElem?.1 hb
  have hxname : g.name? x = some b.name := by rw [name?, hx, Option.map_some, h]
  have hyname : g.name? y = some b.name := by rw [name?, hy, Option.map_some]
  obtain rfl := hi.eq_of_name? hxname hyname
  exact Option.some.inj (hx.symm.trans hy)

theorem MessageTable.exists_lookup_iff {t : MessageTable} {nonTerminal token : String} :
    (∃ message, t.lookup nonTerminal token = some message) ↔
      (t.get? nonTerminal token).isSome ∨ (t.get? nonTerminal anyToken).isSome := by
  rw [← Option.isSome_iff_exists, lookup, Option.isSome_or, Bool.or_eq_true]

namespace Parser

variable {p : Parser}

/-! ## Readings in front of an end marker -/

section Readings

variable {mark : Token} (hm : p.classOf mark = some Symbol.endIndex) {k : Nat} {u : List Nat}
  {i i' : List Token}

include hm

theorem lookahead_append_end (i : List Token) : p.lookahead (i ++ [mark]) = p.lookahead i := by
  cases i with
  | nil => exact hm
  | cons t i => rfl

/-- An end marker that is left over may as well be missing. -/
theorem Reads.of_append_end {d : Shape} {f : Forest}
    (h : p.Reads k u (i ++ [mark]) d f (i' ++ [mark])) : p.Reads k u i d f i' := by
  generalize hs : i ++ [mark] = s at h
  generalize hs' : i' ++ [mark] = s' at h
  induction h generalizing i i' with
  | nil k s =>
    obtain rfl := List.append_cancel_right (hs.trans hs'.symm)
    exact .nil k i
  | token hx h ih =>
    cases i with
    | nil =>
      obtain ⟨rfl, rfl⟩ := List.cons.inj hs
      have hnil := h.input_eq
      rw [← hs'] at hnil
      cases (List.append_eq_nil_iff.1 (List.append_eq_nil_iff.1 hnil.symm).2).2
    | cons t i =>
      obtain ⟨rfl, rfl⟩ := List.cons.inj hs
      exact .token hx (ih rfl hs')
  | beyond => cases (List.append_eq_nil_iff.1 hs).2
  | @node k x q u s s₁ s' c d fc f hx hq hc h ihc ih =>
    subst hs hs'
    have hs₁ : (f.leaves ++ i') ++ [mark] = s₁ := by rw [h.input_eq, List.append_assoc]
    rw [lookahead_append_end hm] at hq
    exact .node hx hq (ihc rfl hs₁) (ih hs₁ rfl)

variable (hp : p.Built)
  (hright : ∀ production ∈ p.grammar.productions, Symbol.endIndex ∉ production.right)

include hp hright

omit hm in
theorem endIndex_not_mem_symbolsOf {x q : Nat}
    (hq : (p.lookahead i).bind (p.table.get? x) = some q) : Symbol.endIndex ∉ p.symbolsOf q := by
  obtain ⟨production, hmem, -, hs⟩ := hp.of_cell hq
  rw [hs]
  exact fun hend => hright production hmem (Grammar.mem_form.1 hend).1

omit hm hright in
theorem endIndex_not_mem_start : Symbol.endIndex ∉ [p.start] := fun hmem =>
  not_isNonTerminal_endIndex hp (List.mem_singleton.1 hmem ▸ hp.nonTerminal)

/-- What is read stays in front of an end marker that is not expected. -/
theorem Reads.append_end {d : Shape} {f : Forest} (h : p.Reads k u i d f i')
    (hu : Symbol.endIndex ∉ u) : p.Reads k u (i ++ [mark]) d f (i' ++ [mark]) := by
  induction h with
  | nil k i => exact .nil k _
  | token hx _ ih => exact .token hx (ih (List.not_mem_of_not_mem_cons hu))
  | beyond => exact absurd List.mem_cons_self hu
  | node hx hq _ _ ihc ih =>
    have hchildren := endIndex_not_mem_symbolsOf hp hright hq
    rw [← lookahead_append_end hm] at hq
    exact .node hx hq (ihc hchildren) (ih (List.not_mem_of_not_mem_cons hu))

theorem Stuck.append_end {n z : Nat} {y : List Nat} (h : p.Stuck u i n y z i')
    (hu : Symbol.endIndex ∉ u) : p.Stuck u (i ++ [mark]) n y z (i' ++ [mark]) := by
  induction h with
  | terminal hx hi u =>
    rw [← lookahead_append_end hm] at hi
    exact .terminal hx hi u
  | nonTerminal hx hq u =>
    rw [← lookahead_append_end hm] at hq
    exact .nonTerminal hx hq u
  | inside hx hq _ u ih =>
    have hchildren := endIndex_not_mem_symbolsOf hp hright hq
    rw [← lookahead_append_end hm] at hq
    exact .inside hx hq (ih hchildren) u
  | @behind k x n z u y i i₁ i' d f hd _ ih =>
    have hx : Symbol.endIndex ∉ [x] :=
      fun hmem => hu (List.mem_singleton.1 hmem ▸ List.mem_cons_self)
    exact .behind (hd.append_end hm hp hright hx) (ih (List.not_mem_of_not_mem_cons hu))

end Readings

/-! ## Errors of the tokens -/

/-- A token that is left over behind the root is reported by its first piece. -/
theorem step_left_over (hp : p.Built) {s : ParseState} {t : Token} {rest : List Token}
    (hi : p.splitAll s.input = t :: rest) (ht : p.classOf t ≠ some Symbol.endIndex)
    (hnext : s.next? = some Symbol.endIndex) (hnodes : s.nodes = []) :
    p.step s = .stop (.error (trailingInput t)) := by
  have hfirst : ∃ more, (p.taken s).input = t :: more := by
    cases hs : s.input with
    | nil =>
      rw [hs] at hi
      cases hi
    | cons a more =>
      obtain ⟨u, more', hf, ha⟩ := exists_splitFirst_eq_cons (p := p) a more
      rw [hs, ha] at hi
      obtain ⟨rfl, -⟩ := List.cons.inj hi
      exact ⟨more', (congrArg p.splitFirst hs).trans hf⟩
  obtain ⟨more, hmore⟩ := hfirst
  have houtside : (p.taken s).nodes = [] := by simp only [taken, ParseState.drop, hnodes]
  unfold step
  rw [hnext]
  simp only [hp.consistent.endMarker]
  exact readToken_outside hmore ht houtside

section Errors

variable (hp : p.Built) {tokens front i' : List Token} (hi : p.splitAll tokens = front ++ i')

include hp hi

/-- Where the pieces are stuck, the tokens fail. -/
theorem Stuck.failsAt {n z : Nat} {y : List Nat}
    (h : p.Stuck [p.start] (p.splitAll tokens) n y z i') :
    ∃ e, p.FailsAt tokens e front.length ∧ e.Alike (p.refusal z none i') := by
  obtain ⟨s', hs', rfl, hstop⟩ := h.stops_start hp (inPieces_splitAll tokens)
  rw [initial_splitAll] at hs'
  obtain ⟨s, hs, rfl⟩ := hs'.of_split
  obtain ⟨e, he, halike⟩ := exists_stop_of_split hstop
  exact ⟨e, .of_steps hs he hi, halike.trans (refusal_alike z _ none _)⟩

/-- Where the pieces of the root are read, the tokens fail at the first one that is left over. -/
theorem Reads.failsAt {k : Nat} {d : Shape} {f : Forest} {t : Token} {rest : List Token}
    (h : p.Reads k [p.start] (p.splitAll tokens) d f i') (hrest : i' = t :: rest)
    (ht : p.classOf t ≠ some Symbol.endIndex) :
    p.FailsAt tokens (trailingInput t) front.length := by
  obtain ⟨tree, k', hs', -⟩ := h.steps_closed hp (inPieces_splitAll tokens)
  rw [initial_splitAll] at hs'
  obtain ⟨s, hs, heq⟩ := hs'.of_split
  have hinput : p.splitAll s.input = i' := (congrArg ParseState.input heq).symm
  have hnext : s.next? = some Symbol.endIndex := (congrArg ParseState.next? heq).symm
  have hnodes : s.nodes = [] := (congrArg ParseState.nodes heq).symm
  rw [← hinput] at hi
  exact .of_steps hs (step_left_over hp (hinput.trans hrest) ht hnext hnodes) hi

end Errors

/-! ## With and without an end marker -/

inductive EndsAlike (p : Parser) (tokens : List Token) (mark : Token) : Prop
  | tree (tree : Tree) (h : p.parse tokens = some (.ok tree))
    (h' : p.parse (tokens ++ [mark]) = some (.ok tree))
  | inFront (e : SyntaxError) (hkind : e.kind ≠ .unexpectedEnd)
    (h : p.parse tokens = some (.error e)) (h' : p.parse (tokens ++ [mark]) = some (.error e))
    (k : Nat) (hk : k < (p.splitAll tokens).length) (hfails : p.FailsAt (tokens ++ [mark]) e k)
  | atEnd (x : Nat) (symbol : Symbol) (hx : p.grammar.symbols[x]? = some symbol)
    (e : SyntaxError) (halike : e.Alike (p.refusal x none []))
    (h : p.parse tokens = some (.error e))
    (h' : p.parse (tokens ++ [mark]) = some (.error (p.refusal x none [mark])))
    (hfails : p.FailsAt (tokens ++ [mark]) (p.refusal x none [mark]) (p.splitAll tokens).length)

section Both

variable (hp : p.Built)
  (hright : ∀ production ∈ p.grammar.productions, Symbol.endIndex ∉ production.right)
  {tokens : List Token} (hne : tokens ≠ []) {mark : Token}
  (hm : p.classOf mark = some Symbol.endIndex) (hmark : p.pieces mark = [mark])

include hmark in
theorem splitAll_append_end : p.splitAll (tokens ++ [mark]) = p.splitAll tokens ++ [mark] := by
  rw [splitAll_append, splitAll_cons, hmark]
  rfl

include hp hright hne hm hmark

theorem Stuck.endsAlike {n z : Nat} {y : List Nat} {i' : List Token}
    (h : p.Stuck [p.start] (p.splitAll tokens) n y z i') : p.EndsAlike tokens mark := by
  have hne' : tokens ++ [mark] ≠ [] := List.append_ne_nil_of_left_ne_nil hne _
  obtain ⟨front, hfront⟩ := h.consumes.exists_eq_append
  have hfront' : p.splitAll (tokens ++ [mark]) = front ++ (i' ++ [mark]) := by
    rw [splitAll_append_end hmark, hfront, List.append_assoc]
  have h' := h.append_end hm hp hright (endIndex_not_mem_start hp)
  rw [← splitAll_append_end hmark] at h'
  obtain ⟨e, he, halike⟩ := h.failsAt hp hfront
  obtain ⟨e', he', halike'⟩ := h'.failsAt hp hfront'
  have hparse := (parse_eq_error_iff hp hne).2 ⟨_, he⟩
  have hparse' := (parse_eq_error_iff hp hne').2 ⟨_, he'⟩
  cases i' with
  | nil =>
    obtain rfl : e' = p.refusal z none [mark] := halike'.eq (refusal_kind_cases z none mark [])
    obtain ⟨symbol, hz⟩ := h.exists_symbol
    rw [List.append_nil] at hfront
    exact .atEnd z symbol hz e halike hparse hparse' (hfront ▸ he')
  | cons t rest =>
    have hk : front.length < (p.splitAll tokens).length := by
      rw [hfront, List.length_append, List.length_cons]
      omega
    have hkind : (p.refusal z none (t :: rest)).kind ≠ .unexpectedEnd := by
      rcases refusal_kind_cases z none t rest with hkind | hkind <;> rw [hkind] <;> exact nofun
    obtain rfl := halike.eq (refusal_kind_cases z none t rest)
    obtain rfl : e' = p.refusal z none (t :: rest) :=
      halike'.eq (refusal_kind_cases z none t (rest ++ [mark]))
    exact .inFront _ hkind hparse hparse' front.length hk he'

theorem Reads.endsAlike (htokens : ∀ t ∈ p.splitAll tokens, p.classOf t ≠ some Symbol.endIndex)
    {k : Nat} {d : Shape} {f : Forest} {i' : List Token}
    (h : p.Reads k [p.start] (p.splitAll tokens) d f i') : p.EndsAlike tokens mark := by
  have hne' : tokens ++ [mark] ≠ [] := List.append_ne_nil_of_left_ne_nil hne _
  obtain ⟨f, h⟩ := h.renumber 0
  have h' := h.append_end hm hp hright (endIndex_not_mem_start hp)
  rw [← splitAll_append_end hmark] at h'
  cases i' with
  | nil =>
    obtain ⟨q, c, fc, -, -, -, rfl⟩ := h.start_cases hp
    exact .tree _ ((parse_eq_ok_iff hp hne).2 ⟨d, [], h, .inl rfl⟩)
      ((parse_eq_ok_iff hp hne').2 ⟨d, [mark], h', .inr ⟨mark, hm, rfl⟩⟩)
  | cons t rest =>
    have ht : p.classOf t ≠ some Symbol.endIndex := by
      apply htokens
      rw [h.input_eq]
      exact List.mem_append_right _ List.mem_cons_self
    have hk : f.leaves.length < (p.splitAll tokens).length := by
      rw [h.input_eq, List.length_append, List.length_cons]
      omega
    have he := h.failsAt hp h.input_eq rfl ht
    have he' := h'.failsAt hp h'.input_eq rfl ht
    exact .inFront (trailingInput t) nofun ((parse_eq_error_iff hp hne).2 ⟨_, he⟩)
      ((parse_eq_error_iff hp hne').2 ⟨_, he'⟩) _ hk he'

theorem endsAlike (htokens : ∀ t ∈ p.splitAll tokens, p.classOf t ≠ some Symbol.endIndex) :
    p.EndsAlike tokens mark := by
  obtain ⟨n, r, hrun⟩ :=
    (exists_run_iff hp tokens).2 (not_endless_of_no_endMarker hp hright _)
  obtain ⟨r', hrun', -⟩ := exists_run_splitAll hrun
  rcases reads_or_stuck_of_run_initial hp (inPieces_splitAll tokens) hrun' with
    ⟨d, f, i₁, -, -, -, -, hd, -⟩ | ⟨m, y, z, i', hstuck⟩
  · exact hd.endsAlike hp hright hne hm hmark htokens
  · rcases hstuck.cons_cases with h | ⟨k, n', y', i₁, d, f, hd, -⟩
    · exact h.endsAlike hp hright hne hm hmark
    · exact hd.endsAlike hp hright hne hm hmark htokens

end Both

theorem eq_of_error {r : Option (Except SyntaxError Tree)} {e e' : SyntaxError}
    (h : r = some (.error e)) (h' : r = some (.error e')) : e = e' :=
  Except.error.inj (Option.some.inj (h.symm.trans h'))

namespace EndsAlike

variable {tokens : List Token} {mark : Token} (h : p.EndsAlike tokens mark)

include h

theorem ok_iff (tree : Tree) :
    p.parse tokens = some (.ok tree) ↔ p.parse (tokens ++ [mark]) = some (.ok tree) := by
  cases h with
  | tree _ h h' => rw [h, h']
  | inFront _ _ h h' => simp [h, h']
  | atEnd _ _ _ _ _ h h' => simp [h, h']

theorem error_iff {e : SyntaxError} (hkind : e.kind ≠ .unexpectedEnd) :
    p.parse tokens = some (.error e) ↔ p.parse (tokens ++ [mark]) = some (.error e) ∧
      ∃ k < (p.splitAll tokens).length, p.FailsAt (tokens ++ [mark]) e k := by
  cases h with
  | tree _ h h' => simp [h, h']
  | inFront e₀ _ h h' k hk hfails =>
    rw [h, h']
    constructor
    · intro he
      obtain rfl := Except.error.inj (Option.some.inj he)
      exact ⟨rfl, k, hk, hfails⟩
    · exact And.left
  | atEnd x symbol hx e₀ halike h h' hfails =>
    constructor
    · intro he
      obtain rfl := eq_of_error h he
      exact absurd halike.kind hkind
    · rintro ⟨-, k, hk, he⟩
      obtain ⟨-, rfl⟩ := hfails.unique he
      exact absurd hk (Nat.lt_irrefl _)

variable (hi : p.grammar.Indexed) {symbol : Symbol} (hs : symbol ∈ p.grammar.symbols)

include hi hs

theorem unexpectedEnd_iff :
    (∃ e, p.parse tokens = some (.error e) ∧ e.kind = .unexpectedEnd ∧
      e.expected = some symbol.name) ↔
    ∃ e, p.parse (tokens ++ [mark]) = some (.error e) ∧
      e.kind = (if symbol.isNonTerminal then .noProduction else .mismatch) ∧
      e.expected = some symbol.name ∧
      p.FailsAt (tokens ++ [mark]) e (p.splitAll tokens).length := by
  cases h with
  | tree _ h h' => simp [h, h']
  | inFront e₀ hkind h h' k hk hfails =>
    constructor
    · rintro ⟨e, he, hend, -⟩
      obtain rfl := eq_of_error h he
      exact absurd hend hkind
    · rintro ⟨e, -, -, -, he⟩
      obtain ⟨-, rfl⟩ := hfails.unique he
      exact absurd hk (Nat.lt_irrefl _)
  | atEnd x symbol' hx e₀ halike h h' hfails =>
    have hname : p.nameOf x = symbol'.name := by simp [nameOf, Grammar.name?, hx]
    constructor
    · rintro ⟨e, he, -, hexpected⟩
      obtain rfl := eq_of_error h he
      rw [halike.expected, refusal_expected, hname] at hexpected
      obtain rfl := hi.eq_of_name_eq hx hs (Option.some.inj hexpected)
      refine ⟨_, h', ?_, ?_, hfails⟩
      · simp [refusal_kind, Grammar.isNonTerminal, hx]
      · rw [refusal_expected, hname]
    · rintro ⟨e, he, -, hexpected, -⟩
      obtain rfl := eq_of_error h' he
      rw [refusal_expected] at hexpected
      refine ⟨e₀, h, halike.kind, ?_⟩
      rw [halike.expected, refusal_expected, hexpected]

/-- A message for the end marker is the message at the end of the tokens. -/
theorem text_eq (hn : symbol.isNonTerminal = true) (hmark : mark.text = Symbol.endMarkerName)
    {e e' : SyntaxError} (he : p.parse tokens = some (.error e))
    (he' : p.parse (tokens ++ [mark]) = some (.error e')) (hkind : e.kind = .unexpectedEnd)
    (hexpected : e.expected = some symbol.name) {message : String}
    (hmessage : p.messages.lookup symbol.name Symbol.endMarkerName = some message) :
    e.text = e'.text := by
  cases h with
  | tree _ h h' => cases h.symm.trans he
  | inFront e₀ hkind' h h' k hk hfails =>
    obtain rfl := eq_of_error h he
    exact absurd hkind hkind'
  | atEnd x symbol' hx e₀ halike h h' hfails =>
    have hname : p.nameOf x = symbol'.name := by simp [nameOf, Grammar.name?, hx]
    obtain rfl := eq_of_error h he
    obtain rfl := eq_of_error h' he'
    rw [halike.expected, refusal_expected, hname] at hexpected
    obtain rfl := hi.eq_of_name_eq hx hs (Option.some.inj hexpected)
    have hnx : p.grammar.isNonTerminal x = true := by rw [Grammar.isNonTerminal, hx]; exact hn
    rw [halike.text]
    simp [refusal, unexpectedEnd, noProduction, hnx, hname, hmark, hmessage]

end EndsAlike

theorem classOf_endMarker (hp : p.Built) (hi : p.grammar.Indexed) {t : Token}
    (htext : t.text = Symbol.endMarkerName) (hkind : t.kind ≠ .stringLiteral) :
    p.classOf t = some Symbol.endIndex := by
  have hindex : p.grammar.indexOf? t.text = some Symbol.endIndex :=
    (hi _ _).2 (.inl (htext ▸ hp.consistent.name?_endIndex))
  rw [classOf, if_neg hkind, hindex, Option.filter_some, hp.consistent.isLookahead_endIndex]
  rfl

theorem pieces_endMarker {t : Token} (htext : t.text = Symbol.endMarkerName) :
    p.pieces t = [t] := by
  have hl : t.text.length = 1 := congrArg String.length htext
  have hs : p.splits t = false := by simp [splits, hl]
  rw [pieces, hs]
  rfl

/-- An end marker behind the tokens changes no tree and no error in front of it. An error at the end
of the tokens becomes one at the end marker, where the same symbol is expected, and has the same
message if there is one for the end marker or for every token. -/
theorem parse_append_endMarker {lines : List String} {g : Grammar} {messages : MessageTable}
    (hload : Grammar.load lines = .ok g)
    (hp : (ofGrammar g).map (withMessages · messages) = .ok p)
    (hright : ∀ production ∈ g.productions, Symbol.endIndex ∉ production.right)
    {tokens : List Token} (hne : tokens ≠ [])
    (htokens : ∀ t ∈ p.splitAll tokens, p.classOf t ≠ some Symbol.endIndex) {mark : Token}
    (htext : mark.text = Symbol.endMarkerName) (hkind : mark.kind ≠ .stringLiteral) :
    (∀ tree, p.parse tokens = some (.ok tree) ↔ p.parse (tokens ++ [mark]) = some (.ok tree)) ∧
    (∀ e : SyntaxError, e.kind ≠ .unexpectedEnd →
      (p.parse tokens = some (.error e) ↔ p.parse (tokens ++ [mark]) = some (.error e) ∧
        ∃ k < (p.splitAll tokens).length, p.FailsAt (tokens ++ [mark]) e k)) ∧
    (∀ name, .terminal name ∈ g.symbols →
      ((∃ e, p.parse tokens = some (.error e) ∧ e.kind = .unexpectedEnd ∧
          e.expected = some name) ↔
        ∃ e, p.parse (tokens ++ [mark]) = some (.error e) ∧ e.kind = .mismatch ∧
          e.expected = some name ∧
          p.FailsAt (tokens ++ [mark]) e (p.splitAll tokens).length)) ∧
    ∀ name, .nonTerminal name ∈ g.symbols →
      ((∃ e, p.parse tokens = some (.error e) ∧ e.kind = .unexpectedEnd ∧
          e.expected = some name) ↔
        ∃ e, p.parse (tokens ++ [mark]) = some (.error e) ∧ e.kind = .noProduction ∧
          e.expected = some name ∧
          p.FailsAt (tokens ++ [mark]) e (p.splitAll tokens).length) ∧
      ∀ e e', p.parse tokens = some (.error e) → p.parse (tokens ++ [mark]) = some (.error e') →
        e.kind = .unexpectedEnd → e.expected = some name →
        (messages.get? name Symbol.endMarkerName).isSome ∨
          (messages.get? name MessageTable.anyToken).isSome → e.text = e'.text := by
  obtain ⟨rfl, hb⟩ := built_of_load hload hp
  have hi := (Grammar.collects_of_load hload).indexed
  have h := endsAlike hb hright hne (classOf_endMarker hb hi htext hkind)
    (pieces_endMarker htext) htokens
  refine ⟨h.ok_iff, fun e => h.error_iff, fun name hs => h.unexpectedEnd_iff hi hs,
    fun name hs => ⟨h.unexpectedEnd_iff hi hs, fun e e' he he' hend hexpected hentry => ?_⟩⟩
  rw [← messages_of_map hp, ← MessageTable.exists_lookup_iff] at hentry
  obtain ⟨message, hmessage⟩ := hentry
  exact h.text_eq hi hs rfl htext he he' hend hexpected hmessage

/-- At the end `<A>` is left out, as it may be at the end of a sentence, and `b` is missing. -/
def elliptic : Grammar where
  symbols := [.lambda, .endMarker, .nonTerminal "<S>", .nonTerminal "<A>", .terminal "a",
    .terminal "b", .terminal "c", .terminal "d"]
  names := [("d", 7), ("c", 6), ("b", 5), ("a", 4), ("<A>", 3), ("<S>", 2), ("$", 1),
    ("lambda", 0), ("λ", 0)]
  productions := [⟨2, [4, 3, 5]⟩, ⟨2, [6, 3]⟩, ⟨3, [7]⟩, ⟨3, [0]⟩]
  start := some 2

def ellipticParser : Parser where
  grammar := elliptic
  sets := ⟨⟨[(2, .ofList [4, 6]), (3, .ofList [0, 7])]⟩, ⟨[(2, .ofList [1]), (3, .ofList [1, 5])]⟩⟩
  table := ⟨[((2, 4), 0), ((2, 6), 1), ((3, 7), 2), ((3, 1), 3), ((3, 5), 3)]⟩
  start := 2
  messages := ∅

theorem load_elliptic :
    Grammar.load ["<S> -> a <A> b", "<S> -> c <A>", "<A> -> d", "<A> -> lambda"] = .ok elliptic :=
  rfl

theorem ofGrammar_elliptic :
    (ofGrammar elliptic).map (withMessages · ∅) = .ok ellipticParser := rfl

theorem parse_append_endMarker_elliptic :
    ∃ e, ellipticParser.parse [⟨⟨0, 1⟩, .word, "a"⟩, ⟨⟨1, 2⟩, .punctuation, "$"⟩] =
        some (.error e) ∧ e.kind = .mismatch ∧ e.expected = some "b" ∧
      ellipticParser.FailsAt [⟨⟨0, 1⟩, .word, "a"⟩, ⟨⟨1, 2⟩, .punctuation, "$"⟩] e 1 := by
  have hright : ∀ production ∈ elliptic.productions, Symbol.endIndex ∉ production.right := by
    decide
  have htokens : ∀ t ∈ ellipticParser.splitAll [⟨⟨0, 1⟩, .word, "a"⟩],
      ellipticParser.classOf t ≠ some Symbol.endIndex := by
    decide
  have hparse : ellipticParser.parse [⟨⟨0, 1⟩, .word, "a"⟩] =
    some (.error (ellipticParser.unexpectedEnd 5 (some ⟨0, 1⟩) none)) := rfl
  obtain ⟨-, -, hterminal, -⟩ := parse_append_endMarker load_elliptic ofGrammar_elliptic hright
    (List.cons_ne_nil _ _) htokens (rfl : (⟨⟨1, 2⟩, .punctuation, "$"⟩ : Token).text = "$") nofun
  exact (hterminal "b" (by decide)).1 ⟨_, hparse, rfl, rfl⟩

end Parser

end LLOne

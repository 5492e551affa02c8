import LLOne.Proofs.Parser.Halting

/-!
# Errors are found at the first wrong token

When a run stops with an error, some form that derives from the start symbol and the end marker
begins with what was read, and none goes on with the next token. So no input that agrees up to this
token is accepted. If every non-terminal derives some word, what was read is the beginning of a
sentence.
-/

namespace LLOne

def SyntaxError.Concerns (e : SyntaxError) : List Token → Prop
  | [] => e.kind = .unexpectedEnd
  | t :: _ => e.kind ≠ .unexpectedEnd ∧ e.location = some t.location ∧ e.found = some t.text

namespace Grammar

/-- Every non-terminal derives a word of terminals and end markers. -/
def Productive (g : Grammar) : Prop :=
  ∀ a, g.isNonTerminal a = true → ∃ w, (∀ t ∈ w, g.isLookahead t = true) ∧ g.Derives [a] w

variable {g : Grammar}

theorem WellFormed.kinds_of_derives (hg : g.WellFormed) {u w : List Nat} (h : g.Derives u w)
    (hu : ∀ x ∈ u, g.isNonTerminal x = true ∨ g.isLookahead x = true) :
    ∀ x ∈ w, g.isNonTerminal x = true ∨ g.isLookahead x = true := by
  induction h with
  | refl => exact hu
  | tail _ hs ih =>
    obtain ⟨before, production, after, hm⟩ := hs
    obtain ⟨hbefore, hafter⟩ := List.forall_mem_append.1 ih
    refine List.forall_mem_append.2 ⟨hbefore, List.forall_mem_append.2 ⟨?_, ?_⟩⟩
    · exact fun x hx => hg.mem_form_right hm hx
    · exact (List.forall_mem_cons.1 hafter).2

theorem Productive.exists_word (hg : g.Productive) {u : List Nat}
    (hu : ∀ x ∈ u, g.isNonTerminal x = true ∨ g.isLookahead x = true) :
    ∃ w, (∀ t ∈ w, g.isLookahead t = true) ∧ g.Derives u w := by
  induction u with
  | nil => exact ⟨[], by simp, .refl []⟩
  | cons x u ih =>
    obtain ⟨hx, hu⟩ := List.forall_mem_cons.1 hu
    obtain ⟨w, hw, hd⟩ := ih hu
    obtain ⟨v, hv, hd'⟩ : ∃ v, (∀ t ∈ v, g.isLookahead t = true) ∧ g.Derives [x] v := by
      rcases hx with hx | hx
      · exact hg x hx
      · exact ⟨[x], by simpa using hx, .refl [x]⟩
    exact ⟨v ++ w, List.forall_mem_append.2 ⟨hv, hw⟩, hd'.append hd⟩

end Grammar

namespace Parser

/-- The run stops with the error when `k` pieces of the tokens are used up. -/
def FailsAt (p : Parser) (tokens : List Token) (e : SyntaxError) (k : Nat) : Prop :=
  ∃ n s, p.Steps n (p.initial tokens) s ∧ p.step s = .stop (.error e) ∧
    k ≤ (p.splitAll tokens).length ∧ p.splitAll s.input = (p.splitAll tokens).drop k

variable {p : Parser}

/-! ## The token of an error -/

theorem readToken_error {x : Nat} {s : ParseState} {e : SyntaxError}
    (h : p.readToken x s = .stop (.error e)) : e.Concerns s.input := by
  unfold readToken at h
  cases hi : s.input with
  | nil =>
    simp only [hi] at h
    split at h
    · cases h
    · obtain rfl := Except.error.inj (ParseStep.stop.inj h)
      rfl
  | cons t rest =>
    simp only [hi] at h
    split at h
    · cases h
    · split at h <;> obtain rfl := Except.error.inj (ParseStep.stop.inj h) <;>
        exact ⟨nofun, rfl, rfl⟩

theorem expand_error {x : Nat} {s : ParseState} {e : SyntaxError}
    (h : p.expand x s = .stop (.error e)) : e.Concerns s.input := by
  unfold expand at h
  split at h
  · cases h
  · cases hi : s.input with
    | nil =>
      simp only [hi] at h
      obtain rfl := Except.error.inj (ParseStep.stop.inj h)
      rfl
    | cons t rest =>
      simp only [hi] at h
      obtain rfl := Except.error.inj (ParseStep.stop.inj h)
      exact ⟨nofun, rfl, rfl⟩

theorem finish_error {s : ParseState} {e : SyntaxError} (h : p.finish s = .error e) :
    e.Concerns s.input := by
  unfold finish at h
  cases hi : s.input with
  | nil =>
    cases hr : s.root with
    | none =>
      simp only [hi, hr] at h
      obtain rfl := Except.error.inj h
      rfl
    | some tree =>
      simp only [hi, hr] at h
      cases h
  | cons t rest =>
    simp only [hi] at h
    obtain rfl := Except.error.inj h
    exact ⟨nofun, rfl, rfl⟩

/-- The input whose first token an error is about has that token whole or in pieces. -/
theorem step_error {s : ParseState} {e : SyntaxError} (h : p.step s = .stop (.error e)) :
    ∃ i, e.Concerns i ∧ p.splitAll i = p.splitAll s.input := by
  unfold step at h
  split at h
  · split at h
    · exact ⟨s.input, finish_error (ParseStep.stop.inj h), rfl⟩
    · cases h
  · split at h
    · cases h
    · cases h
    · exact ⟨p.splitFirst s.input, expand_error h, splitAll_splitFirst s.input⟩
    · exact ⟨p.splitFirst s.input, readToken_error h, splitAll_splitFirst s.input⟩

/-! ## What was read before the error -/

/-- What was read is the beginning of some form, and of none that goes on with the next token. -/
structure Blocked (p : Parser) (whole rest : List Token) (y : List Nat) : Prop where
  consumes : p.Consumes whole y rest
  viable : ∃ v, p.grammar.Derives [p.start, Symbol.endIndex] (y ++ v)
  blocked : ∀ w, p.Meets rest w → ¬ p.grammar.Derives [p.start, Symbol.endIndex] (y ++ w)

theorem exists_blocked_of_steps (hp : p.Built) {i : List Token} (hi : p.InPieces i) {n : Nat}
    {s : ParseState} {e : SyntaxError} (hs : p.Steps n (p.initial i) s)
    (hstop : p.step s = .stop (.error e)) : ∃ y, p.Blocked i s.input y := by
  have hstart : p.grammar.Derives [p.start, Symbol.endIndex]
      ([] ++ ([p.start, Symbol.endIndex] ++ [])) := .refl _
  have hrun := hs.run_of_stop hstop (Nat.lt_succ_self n)
  rcases reads_or_stuck_of_run_initial hp hi hrun with
    ⟨d, f, i₁, k, e', f', i', hd, he⟩ | ⟨m, y, z, i', hstuck⟩
  · obtain ⟨tree, k', hs', -⟩ := hd.steps_finished hp hi he
    cases i' with
    | nil => cases (hs.unique hstop hs' step_finished).2
    | cons t rest =>
      obtain ⟨rfl, -⟩ := hs.unique hstop hs' step_finished_cons
      obtain ⟨f', he⟩ := he.renumber (0 + d.size)
      have hread := hd.append he
      refine ⟨_, hread.consumes, ⟨[], ?_⟩, fun w hw hv => ?_⟩
      · rw [List.append_nil]
        exact (hread.isDerivation hp).derives
      · have hnil := hread.derives_behind hp hstart hw hv
        obtain ⟨t, v, -, rfl⟩ := hw
        cases Grammar.derives_nil_iff.1 hnil
  · obtain ⟨s', e', hs', rfl, hstop'⟩ := hstuck.stops hp hi
    obtain ⟨rfl, -⟩ := hs.unique hstop hs' hstop'
    obtain ⟨v, hv⟩ := hstuck.derives hp
    exact ⟨y, hstuck.consumes, ⟨_, hv⟩, fun w hw hd => hstuck.not_derives hp hstart hw hd⟩

/-- A form that derives begins a sentence if every non-terminal derives some word. -/
theorem Blocked.exists_word (hp : p.Built) (hg : p.grammar.Productive) {whole rest : List Token}
    {y : List Nat} (h : p.Blocked whole rest y) :
    ∃ w, (∀ t ∈ w, p.grammar.isLookahead t = true) ∧
      p.grammar.Derives [p.start, Symbol.endIndex] (y ++ w) := by
  obtain ⟨v, hv⟩ := h.viable
  have hstart : ∀ x ∈ [p.start, Symbol.endIndex],
      p.grammar.isNonTerminal x = true ∨ p.grammar.isLookahead x = true := by
    intro x hx
    rcases List.mem_pair.1 hx with rfl | rfl
    · exact .inl hp.nonTerminal
    · exact .inr hp.consistent.isLookahead_endIndex
  have hkinds := hp.consistent.kinds_of_derives hv hstart
  obtain ⟨w, hw, hd⟩ := hg.exists_word (List.forall_mem_append.1 hkinds).2
  exact ⟨w, hw, hv.trans (.append (.refl y) hd)⟩

namespace FailsAt

variable {tokens : List Token} {e : SyntaxError} {k : Nat}

theorem of_steps {n : Nat} {s : ParseState} {front : List Token}
    (hs : p.Steps n (p.initial tokens) s) (hstop : p.step s = .stop (.error e))
    (hi : p.splitAll tokens = front ++ p.splitAll s.input) : p.FailsAt tokens e front.length := by
  refine ⟨n, s, hs, hstop, ?_, ?_⟩
  · rw [hi, List.length_append]
    exact Nat.le_add_right ..
  · rw [hi, List.drop_left]

theorem unique (h : p.FailsAt tokens e k) {e' : SyntaxError} {k' : Nat}
    (h' : p.FailsAt tokens e' k') : e = e' ∧ k = k' := by
  obtain ⟨n, s, hs, hstop, hk, hi⟩ := h
  obtain ⟨n', s', hs', hstop', hk', hi'⟩ := h'
  obtain ⟨rfl, he⟩ := hs.unique hstop hs' hstop'
  have hl := congrArg List.length (hi.symm.trans hi')
  rw [List.length_drop, List.length_drop] at hl
  exact ⟨Except.error.inj he, by omega⟩

theorem exists_blocked (hp : p.Built) (h : p.FailsAt tokens e k) :
    ∃ y, p.Blocked (p.splitAll tokens) ((p.splitAll tokens).drop k) y := by
  obtain ⟨n, s, hs, hstop, -, hi⟩ := h
  obtain ⟨e', hstop', -⟩ := exists_stop_split hstop
    ((p.splitAll tokens).getLast?.map Token.location)
  have hs' := hs.split ((p.splitAll tokens).getLast?.map Token.location)
  rw [← initial_splitAll] at hs'
  obtain ⟨y, hy⟩ := exists_blocked_of_steps hp (inPieces_splitAll tokens) hs' hstop'
  rw [← hi]
  exact ⟨y, hy⟩

end FailsAt

theorem exists_failsAt (hp : p.Built) {tokens : List Token} {n : Nat} {e : SyntaxError}
    (h : p.run n (p.initial tokens) = some (.error e)) : ∃ k, p.FailsAt tokens e k := by
  obtain ⟨m, s, hs, hstop⟩ := exists_steps_of_run h
  have hs' := hs.split ((p.splitAll tokens).getLast?.map Token.location)
  obtain ⟨e', hstop', -⟩ := exists_stop_split hstop
    ((p.splitAll tokens).getLast?.map Token.location)
  rw [← initial_splitAll] at hs'
  obtain ⟨y, hy⟩ := exists_blocked_of_steps hp (inPieces_splitAll tokens) hs' hstop'
  obtain ⟨front, hfront⟩ := hy.consumes.exists_eq_append
  exact ⟨front.length, .of_steps hs hstop hfront⟩

theorem parse_eq_error_iff (hp : p.Built) {tokens : List Token} (hne : tokens ≠ [])
    {e : SyntaxError} : p.parse tokens = some (.error e) ↔ ∃ k, p.FailsAt tokens e k := by
  rw [parse_eq_some_iff hp hne]
  constructor
  · rintro ⟨n, hrun⟩
    exact exists_failsAt hp hrun
  · rintro ⟨k, n, s, hs, hstop, -⟩
    exact ⟨_, hs.run_of_stop hstop (Nat.lt_succ_self n)⟩

/-- An accepted input goes on with its own classes. -/
theorem derives_of_parse (hp : p.Built) {tokens : List Token} {tree : Tree}
    (h : p.parse tokens = some (.ok tree)) :
    ∃ c j, (p.splitAll tokens).map p.classOf = c.map some ∧
      p.grammar.Derives [p.start, Symbol.endIndex] (c ++ List.replicate j Symbol.endIndex) := by
  obtain ⟨d, i', hr, hd, c, j, hc, hy⟩ := exists_derivation_of_parse hp h
  exact ⟨c, j, hc, hy ▸ hd.derives.append (.refl [Symbol.endIndex])⟩

theorem Consumes.exists_classes_take {whole : List Token} {k : Nat} {y : List Nat}
    (h : p.Consumes whole y (whole.drop k)) (hk : k ≤ whole.length) :
    ∃ c m, (whole.take k).map p.classOf = c.map some ∧
      y = c ++ List.replicate m Symbol.endIndex ∧ (whole.drop k = [] ∨ m = 0) := by
  obtain ⟨front, c, m, hfront, hc, hy, hm⟩ := h.exists_classes
  have hlength : front.length = k := by
    have hl := congrArg List.length hfront
    rw [List.length_append, List.length_drop] at hl
    omega
  have htake : whole.take k = front :=
    (congrArg (List.take k) hfront).trans (List.take_left' hlength)
  exact ⟨c, m, htake ▸ hc, hy, hm⟩

namespace FailsAt

variable {tokens : List Token} {e : SyntaxError} {k : Nat}

/-- The error is about the end, or about the token of which the next piece is the first. -/
theorem position (h : p.FailsAt tokens e k) :
    (e.kind = .unexpectedEnd ∧ k = (p.splitAll tokens).length) ∨
    (e.kind ≠ .unexpectedEnd ∧ ∃ r t, (p.splitAll tokens)[k]? = some r ∧
      (p.pieces t).head? = some r ∧ e.location = some t.location ∧ e.found = some t.text) := by
  obtain ⟨n, s, -, hstop, hk, hi⟩ := h
  obtain ⟨i, he, hsplit⟩ := step_error hstop
  rw [hi] at hsplit
  cases i with
  | nil =>
    have hle := List.drop_eq_nil_iff.1 hsplit.symm
    exact .inl ⟨he, by omega⟩
  | cons t rest =>
    obtain ⟨hkind, hlocation, hfound⟩ := he
    obtain ⟨r, more, hr⟩ := List.exists_cons_of_ne_nil (pieces_ne_nil (p := p) t)
    rw [splitAll_cons, hr] at hsplit
    refine .inr ⟨hkind, r, t, ?_, by rw [hr]; rfl, hlocation, hfound⟩
    rw [← List.head?_drop, ← hsplit]
    rfl

/-- No input is accepted that agrees with what was read and with the next token. -/
theorem not_accepted (hp : p.Built) (h : p.FailsAt tokens e k)
    (hk : k < (p.splitAll tokens).length) {tokens' : List Token}
    (hsame : ((p.splitAll tokens').take (k + 1)).map p.classOf =
      ((p.splitAll tokens).take (k + 1)).map p.classOf) (tree : Tree) :
    p.parse tokens' ≠ some (.ok tree) := by
  intro hparse
  obtain ⟨y, hy⟩ := h.exists_blocked hp
  obtain ⟨c', j, hc', hd⟩ := derives_of_parse hp hparse
  obtain ⟨c, m, hc, rfl, hm⟩ := hy.consumes.exists_classes_take (Nat.le_of_lt hk)
  obtain rfl : m = 0 := hm.resolve_left fun hnil => by
    have hle := List.drop_eq_nil_iff.1 hnil
    omega
  rw [List.replicate_zero, List.append_nil] at hy
  rw [List.map_take, hc', ← List.map_take, ← List.take_append_getElem hk, List.map_append,
    hc] at hsame
  obtain ⟨c₁, c₂, hsplit, hc₁, hc₂⟩ := List.map_eq_append_iff.1 hsame
  obtain rfl : c₁ = c := (List.map_inj_right fun _ _ => Option.some.inj).1 hc₁
  obtain ⟨t, c₂, rfl, ht, hnil⟩ := List.map_eq_cons_iff.1 hc₂
  obtain rfl : c₂ = [] := List.map_eq_nil_iff.1 hnil
  have hclasses : c' = c₁ ++ t :: c'.drop (k + 1) := by
    rw [List.append_cons, ← hsplit, List.take_append_drop]
  rw [hclasses, List.append_assoc] at hd
  refine hy.blocked _ ⟨t, _, ?_, rfl⟩ hd
  rw [List.drop_eq_getElem_cons hk]
  exact ht.symm

/-- What was read begins a sentence if every non-terminal derives some word. -/
theorem exists_sentence (hp : p.Built) (hg : p.grammar.Productive) (h : p.FailsAt tokens e k) :
    ∃ c w, ((p.splitAll tokens).take k).map p.classOf = c.map some ∧
      (∀ t ∈ w, p.grammar.isLookahead t = true) ∧
      p.grammar.Derives [p.start, Symbol.endIndex] (c ++ w) := by
  obtain ⟨y, hy⟩ := h.exists_blocked hp
  obtain ⟨w, hw, hd⟩ := hy.exists_word hp hg
  obtain ⟨-, -, -, -, hk, -⟩ := h
  obtain ⟨c, m, hc, rfl, -⟩ := hy.consumes.exists_classes_take hk
  rw [List.append_assoc] at hd
  refine ⟨c, _, hc, List.forall_mem_append.2 ⟨fun t ht => ?_, hw⟩, hd⟩
  rw [List.eq_of_mem_replicate ht]
  exact hp.consistent.isLookahead_endIndex

end FailsAt

/-- An error is found at one position. If it is not the end, then no input is accepted whose pieces
agree in their classes up to the piece there; if it is the end, none that agrees in all. What is in
front of the position begins a sentence if every non-terminal derives some word. -/
theorem error_earliest {lines : List String} {g : Grammar} {messages : MessageTable}
    (hload : Grammar.load lines = .ok g)
    (hp : (ofGrammar g).map (withMessages · messages) = .ok p) {tokens : List Token}
    (hne : tokens ≠ []) {e : SyntaxError} (h : p.parse tokens = some (.error e)) :
    g.start = some p.start ∧
    ∃ k, p.FailsAt tokens e k ∧ (∀ e' k', p.FailsAt tokens e' k' → k' = k) ∧
      (e.kind ≠ .unexpectedEnd →
        (∃ r t, (p.splitAll tokens)[k]? = some r ∧ (p.pieces t).head? = some r ∧
          e.location = some t.location ∧ e.found = some t.text) ∧
        ∀ tokens' tree, ((p.splitAll tokens').take (k + 1)).map p.classOf =
          ((p.splitAll tokens).take (k + 1)).map p.classOf → p.parse tokens' ≠ some (.ok tree)) ∧
      (e.kind = .unexpectedEnd → k = (p.splitAll tokens).length ∧
        ∀ tokens' tree, (p.splitAll tokens').map p.classOf = (p.splitAll tokens).map p.classOf →
          p.parse tokens' ≠ some (.ok tree)) ∧
      (g.Productive → ∃ c w, ((p.splitAll tokens).take k).map p.classOf = c.map some ∧
        (∀ t ∈ w, g.isLookahead t = true) ∧
        g.Derives [p.start, Symbol.endIndex] (c ++ w)) := by
  obtain ⟨rfl, hb⟩ := built_of_load hload hp
  obtain ⟨n, hrun⟩ := (parse_eq_some_iff hb hne).1 h
  obtain ⟨k, hk⟩ := exists_failsAt hb hrun
  refine ⟨hb.start, k, hk, fun e' k' h' => (h'.unique hk).2, fun hkind => ?_, fun hkind => ?_,
    fun hg => hk.exists_sentence hb hg⟩
  · rcases hk.position with ⟨hend, -⟩ | ⟨-, r, t, hr, htoken⟩
    · exact absurd hend hkind
    · obtain ⟨hlt, -⟩ := List.getElem?_eq_some_iff.1 hr
      exact ⟨⟨r, t, hr, htoken⟩, fun tokens' tree hsame => hk.not_accepted hb hlt hsame tree⟩
  · rcases hk.position with ⟨-, hlength⟩ | ⟨hend, -⟩
    · refine ⟨hlength, fun tokens' tree hsame hparse => ?_⟩
      obtain ⟨d, -, -, hd, c, j, hc, hy⟩ := exists_derivation_of_parse hb hparse
      obtain ⟨tree', -, hok, -⟩ := parse_of_derivation hb hne hd ⟨c, j, hsame ▸ hc, hy⟩
      rw [hok] at h
      cases h
    · exact absurd hkind hend

theorem productive_tally : tally.Productive := by
  intro a ha
  have hmem := tally.mem_nonTerminals.2 ha
  have hempty : tally.Derives [3] [] :=
    Grammar.Derives.of_mem (p := ⟨3, [0]⟩) (by decide)
  rcases List.mem_pair.1 (hmem : a ∈ [2, 3]) with rfl | rfl
  · have hright : tally.Derives [2] [3, 4, 1] :=
      Grammar.Derives.of_mem (p := ⟨2, [3, 4, 1]⟩) (by decide)
    exact ⟨[4, 1], by decide, hright.trans (hempty.append (.refl [4, 1]))⟩
  · exact ⟨[], by decide, hempty⟩

/-- The error of `ba` is the `a`. -/
theorem error_earliest_tally :
    ∃ k, tallyParser.FailsAt [⟨⟨0, 2⟩, .word, "ba"⟩]
        (tallyParser.mismatch 1 ⟨⟨1, 2⟩, .word, "a"⟩) k ∧
      ∃ c w, ((tallyParser.splitAll [⟨⟨0, 2⟩, .word, "ba"⟩]).take k).map tallyParser.classOf =
        c.map some ∧ tally.Derives [2, 1] (c ++ w) := by
  have hparse : tallyParser.parse [⟨⟨0, 2⟩, .word, "ba"⟩] =
    some (.error (tallyParser.mismatch 1 ⟨⟨1, 2⟩, .word, "a"⟩)) := rfl
  obtain ⟨-, k, hk, -, -, -, hviable⟩ :=
    error_earliest load_tally ofGrammar_tally (List.cons_ne_nil _ _) hparse
  obtain ⟨c, w, hc, -, hd⟩ := hviable productive_tally
  exact ⟨k, hk, c, w, hc, hd⟩

end Parser

end LLOne

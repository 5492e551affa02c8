import LLOne.Proofs.Parser.EndMarker

/-!
# What stands in front of a token left over

A token is left over where the start symbol is read and the end marker behind it is not there, or
is there and is not the last token. The last symbols of the start symbol were then read with that
token ahead. They are read alike at the end of the input, since what was read is a sentence either
way and a sentence has one derivation only. So the tokens in front are parsed by themselves.
-/

namespace LLOne.Parser

variable {p : Parser}

/-- What is consumed in front of other tokens is consumed in front of any. -/
theorem Consumes.exists_replace {i i' : List Token} {y : List Nat} (h : p.Consumes i y i')
    (hi' : i' ≠ []) : ∃ front, i = front ++ i' ∧ ∀ j, p.Consumes (front ++ j) y j := by
  induction h with
  | nil i => exact ⟨[], rfl, fun j => .nil j⟩
  | @token t _ _ _ _ hx _ ih =>
    obtain ⟨front, rfl, hj⟩ := ih hi'
    exact ⟨t :: front, rfl, fun j => .token hx (hj j)⟩
  | beyond h ih =>
    obtain ⟨front, hnil, -⟩ := ih hi'
    exact absurd (List.append_eq_nil_iff.1 hnil.symm).2 hi'

theorem refusal_kind_ne_trailingInput (x : Nat) (last : Option Location) (i : List Token) :
    (p.refusal x last i).kind ≠ .trailingInput := by
  cases i with
  | nil => exact nofun
  | cons t rest =>
    rcases refusal_kind_cases (p := p) x last t rest with h | h <;> rw [h] <;> exact nofun

/-- The rest of the input follows the start symbol, or an end marker behind it. -/
inductive LeftOver (p : Parser) (rest : List Token) : List Token → Prop
  | root : LeftOver p rest rest
  | mark {t : Token} (ht : p.classOf t = some Symbol.endIndex) : LeftOver p rest (t :: rest)

theorem LeftOver.ne_nil {i rest : List Token} (h : p.LeftOver rest i) (hr : rest ≠ []) :
    i ≠ [] := by
  cases h with
  | root => exact hr
  | mark => exact List.cons_ne_nil _ _

/-- Without the rest, the end is reached. -/
theorem LeftOver.exists_ends {i rest : List Token} (h : p.LeftOver rest i) :
    ∃ j, p.Ends j ∧ i = j ++ rest := by
  cases h with
  | root => exact ⟨[], .inl rfl, rfl⟩
  | @mark t ht => exact ⟨[t], .inr ⟨t, ht, rfl⟩, rfl⟩

/-- Both places where a token is found to be left over come behind the start symbol. -/
theorem exists_reads_of_trailingInput (hp : p.Built) {i : List Token} (hi : p.InPieces i) {n : Nat}
    {s : ParseState} {e : SyntaxError} (hs : p.Steps n (p.initial i) s)
    (hstop : p.step s = .stop (.error e)) (hkind : e.kind = .trailingInput) :
    s.input ≠ [] ∧ ∃ d f i₁, p.Reads 0 [p.start] i d f i₁ ∧ p.LeftOver s.input i₁ := by
  have hrun := hs.run_of_stop hstop (Nat.lt_succ_self n)
  rcases reads_or_stuck_of_run_initial hp hi hrun with
    ⟨d, f, i₁, k, e', f', i', hd, he⟩ | ⟨m, y, z, i', hstuck⟩
  · obtain ⟨tree, k', hs', -⟩ := hd.steps_finished hp hi he
    cases i' with
    | nil => cases (hs.unique hstop hs' step_finished).2
    | cons t rest =>
      obtain ⟨rfl, -⟩ := hs.unique hstop hs' step_finished_cons
      refine ⟨List.cons_ne_nil t rest, d, f, i₁, hd, ?_⟩
      cases he with
      | token ht he =>
        cases he
        exact .mark ht
      | beyond he => cases he
      | node hx => exact absurd hx (not_isNonTerminal_endIndex hp)
  · rcases hstuck.cons_cases with h | ⟨k, n', y', i₁, d, f, hd, hend, -⟩
    · obtain ⟨s', hs', -, hstop'⟩ := h.stops_start hp hi
      obtain rfl := Except.error.inj (hs.unique hstop hs' hstop').2
      exact absurd hkind (refusal_kind_ne_trailingInput z _ i')
    · obtain ⟨-, -, t, rest, rfl, ht⟩ := hend.endIndex_cases hp
      obtain ⟨tree, k', hs', hstop'⟩ := hd.stops_closed hp hi ht
      obtain ⟨rfl, -⟩ := hs.unique hstop hs' hstop'
      obtain ⟨f₀, h₀⟩ := hd.renumber 0
      exact ⟨List.cons_ne_nil t rest, d, f₀, _, h₀, .root⟩

/-- What is read up to the rest is a sentence by itself. -/
theorem exists_tree_of_leftOver (hp : p.Built) {front rest i₁ : List Token} {d : Shape}
    {f : Forest} (hi : p.InPieces front) (hfront : front ≠ []) (hrest : rest ≠ [])
    (hd : p.Reads 0 [p.start] (front ++ rest) d f i₁) (hl : p.LeftOver rest i₁) :
    ∃ tree, p.parse front = some (.ok tree) := by
  obtain ⟨before, hbefore, hconsumes⟩ := hd.consumes.exists_replace (hl.ne_nil hrest)
  obtain ⟨j, hj, rfl⟩ := hl.exists_ends
  rw [← List.append_assoc] at hbefore
  obtain rfl : front = before ++ j := List.append_cancel_right hbefore
  have hshows := (hconsumes j).shows (shows_end_iff.2 hj)
  rw [← hi.splitAll_eq] at hshows
  obtain ⟨tree, -, htree, -⟩ := parse_of_derivation hp hfront (hd.isDerivation hp) hshows
  exact ⟨tree, htree⟩

/-- The pieces in front of a token that is left over are parsed to a tree by themselves, unless
there are none. -/
theorem FailsAt.exists_tree_take (hp : p.Built) {tokens : List Token} {e : SyntaxError} {k : Nat}
    (h : p.FailsAt tokens e k) (hkind : e.kind = .trailingInput) (hk : 0 < k) :
    ∃ tree, p.parse ((p.splitAll tokens).take k) = some (.ok tree) := by
  obtain ⟨n, s, hs, hstop, hle, hi⟩ := h
  have hs' := hs.split ((p.splitAll tokens).getLast?.map Token.location)
  rw [← initial_splitAll] at hs'
  have hpieces := inPieces_splitAll (p := p) tokens
  obtain ⟨e', hstop', halike⟩ := exists_stop_split hstop
    ((p.splitAll tokens).getLast?.map Token.location)
  obtain ⟨hrest, d, f, i₁, hd, hl⟩ :=
    exists_reads_of_trailingInput hp hpieces hs' hstop' (halike.kind ▸ hkind)
  have hinput : (p.split s ((p.splitAll tokens).getLast?.map Token.location)).input =
      (p.splitAll tokens).drop k := hi
  rw [hinput] at hrest hl
  rw [← List.take_append_drop k (p.splitAll tokens)] at hd
  have hfront : (p.splitAll tokens).take k ≠ [] := by
    rw [Ne, List.take_eq_nil_iff]
    rintro (rfl | hnil)
    · omega
    · rw [hnil, List.length_nil] at hle
      omega
  exact exists_tree_of_leftOver hp (fun t ht => hpieces t (List.mem_of_mem_take ht)) hfront hrest
    hd hl

/-- An error about a token left over is found at one position, where the next piece belongs to that
token. The pieces in front of it, if there are any, are parsed to a tree by themselves. -/
theorem parse_of_trailingInput {lines : List String} {g : Grammar} {messages : MessageTable}
    (hload : Grammar.load lines = .ok g)
    (hp : (ofGrammar g).map (withMessages · messages) = .ok p) {tokens : List Token}
    {e : SyntaxError} (h : p.parse tokens = some (.error e)) (hkind : e.kind = .trailingInput) :
    ∃ k, p.FailsAt tokens e k ∧ (∀ e' k', p.FailsAt tokens e' k' → k' = k) ∧
      (∃ r t, (p.splitAll tokens)[k]? = some r ∧ (p.pieces t).head? = some r ∧
        e.location = some t.location ∧ e.found = some t.text) ∧
      (0 < k → ∃ tree, p.parse ((p.splitAll tokens).take k) = some (.ok tree)) := by
  obtain ⟨-, hb⟩ := built_of_load hload hp
  have hne : tokens ≠ [] := by
    rintro rfl
    obtain rfl := Except.error.inj (Option.some.inj h)
    cases hkind
  obtain ⟨k, hk⟩ := (parse_eq_error_iff hb hne).1 h
  refine ⟨k, hk, fun e' k' h' => (h'.unique hk).2, ?_, hk.exists_tree_take hb hkind⟩
  rcases hk.position with ⟨hend, -⟩ | ⟨-, htoken⟩
  · rw [hkind] at hend
    cases hend
  · exact htoken

/-- In `cb` the `<A>` behind the `c` is left out because of the `b`, in `c` because of the end. -/
theorem parse_of_trailingInput_elliptic :
    ellipticParser.FailsAt [⟨⟨0, 2⟩, .word, "cb"⟩] (trailingInput ⟨⟨1, 2⟩, .word, "b"⟩) 1 ∧
      ∃ tree, ellipticParser.parse [⟨⟨0, 1⟩, .word, "c"⟩] = some (.ok tree) := by
  have hparse : ellipticParser.parse [⟨⟨0, 2⟩, .word, "cb"⟩] =
    some (.error (trailingInput ⟨⟨1, 2⟩, .word, "b"⟩)) := rfl
  have hfails : ellipticParser.FailsAt [⟨⟨0, 2⟩, .word, "cb"⟩]
      (trailingInput ⟨⟨1, 2⟩, .word, "b"⟩) 1 :=
    ⟨5, _, .succ rfl (.succ rfl (.succ rfl (.succ rfl (.succ rfl (.zero _))))), rfl, by decide, rfl⟩
  obtain ⟨k, -, hunique, -, htake⟩ :=
    parse_of_trailingInput load_elliptic ofGrammar_elliptic hparse rfl
  obtain rfl := hunique _ 1 hfails
  exact ⟨hfails, htake Nat.one_pos⟩

end LLOne.Parser

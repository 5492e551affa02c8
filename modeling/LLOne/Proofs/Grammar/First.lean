import LLOne.Grammar.Follow
import LLOne.Proofs.Grammar.WellFormed

/-!
# FIRST sets are exact

`InFirst` says in terms of derivations what FIRST of a form holds. The search never stands in a
cycle when it succeeds, so each set that it completes is put together from exact sets, and the
sets of all sequences are exact with them.
-/

namespace LLOne.Grammar

variable (g : Grammar)

def InFirst (u : List Nat) (t : Nat) : Prop :=
  g.isLookahead t = true ∧ g.Begins u t ∨ t = Symbol.lambdaIndex ∧ g.Vanishes u

variable {g}

theorem inFirst_nil {t : Nat} : g.InFirst [] t ↔ t = Symbol.lambdaIndex := by
  simp [InFirst, not_begins_nil]

theorem inFirst_of_ne {u : List Nat} {t : Nat} (ht : t ≠ Symbol.lambdaIndex) :
    g.InFirst u t ↔ g.isLookahead t = true ∧ g.Begins u t := by
  simp [InFirst, ht]

namespace WellFormed

variable (hg : g.WellFormed)

include hg

theorem inFirst_lambdaIndex {u : List Nat} :
    g.InFirst u Symbol.lambdaIndex ↔ g.Vanishes u := by
  simp [InFirst, hg.not_isLookahead_lambdaIndex]

theorem inFirst_of_isLookahead {u : List Nat} {t : Nat} (ht : g.isLookahead t = true) :
    g.InFirst u t ↔ g.Begins u t := by
  rw [inFirst_of_ne (hg.ne_lambdaIndex_of_isLookahead ht), and_iff_right ht]

theorem inFirst_cons_lookahead {x t : Nat} (hx : g.isLookahead x = true) (u : List Nat) :
    g.InFirst (x :: u) t ↔ t = x := by
  have hv : ¬ g.Vanishes (x :: u) := fun h =>
    hg.not_vanishes_lookahead hx (vanishes_append_iff (u := [x]).1 h).1
  have hb : g.Begins (x :: u) t ↔ t = x := by
    rw [← List.singleton_append, begins_append_iff, hg.begins_lookahead hx]
    exact or_iff_left fun h => hg.not_vanishes_lookahead hx h.1
  simp only [InFirst, hv, hb, and_false, or_false, and_iff_right_iff_imp]
  rintro rfl
  exact hx

/-- The members of FIRST of a sequence come from its first symbol or, past a symbol that can
vanish, from the rest. -/
theorem inFirst_cons {x t : Nat} (u : List Nat) :
    g.InFirst (x :: u) t ↔ t ≠ Symbol.lambdaIndex ∧ g.InFirst [x] t ∨
      g.InFirst [x] Symbol.lambdaIndex ∧ g.InFirst u t := by
  rw [← List.singleton_append, hg.inFirst_lambdaIndex]
  by_cases ht : t = Symbol.lambdaIndex
  · subst ht
    simp only [ne_eq, not_true_eq_false, false_and, false_or, hg.inFirst_lambdaIndex,
      vanishes_append_iff]
  · simp only [inFirst_of_ne ht, begins_append_iff, ne_eq, ht, not_false_eq_true, true_and]
    constructor
    · intro h
      rcases h with ⟨hl, hb | ⟨hv, hb⟩⟩
      · exact .inl ⟨hl, hb⟩
      · exact .inr ⟨hv, hl, hb⟩
    · intro h
      rcases h with ⟨hl, hb⟩ | ⟨hv, hl, hb⟩
      · exact ⟨hl, .inl hb⟩
      · exact ⟨hl, .inr ⟨hv, hb⟩⟩

theorem inFirst_nonTerminal {a t : Nat} (ha : g.isNonTerminal a = true) :
    g.InFirst [a] t ↔ ∃ right ∈ g.rightsOf a, g.InFirst (g.form right) t := by
  by_cases ht : t = Symbol.lambdaIndex
  · subst ht
    simp only [hg.inFirst_lambdaIndex]
    exact vanishes_nonTerminal
  · simp only [inFirst_of_ne ht]
    constructor
    · intro h
      obtain ⟨hl, hb⟩ := h
      obtain ⟨right, hr, hb⟩ := (begins_nonTerminal ha hl).1 hb
      exact ⟨right, hr, hl, hb⟩
    · intro h
      obtain ⟨right, hr, hl, hb⟩ := h
      exact ⟨hl, (begins_nonTerminal ha hl).2 ⟨right, hr, hb⟩⟩

end WellFormed

/-! ## Exact tables -/

variable (g)

/-- Every set of the table is FIRST of its symbol. -/
def FirstExact (table : SetTable) : Prop :=
  ∀ a set, table.get? a = some set → ∀ t, t ∈ set ↔ g.InFirst [a] t

def Keeps (before after : SetTable) : Prop :=
  ∀ a, (before.get? a).isSome = true → (after.get? a).isSome = true

/-- From an exact table, `visit` finds FIRST of every non-terminal and adds exact sets only. -/
def Explores (visit : Nat → SetTable → Search SymbolSet) : Prop :=
  ∀ a first before after, g.isNonTerminal a = true → visit a before = (.ok first, after) →
    g.FirstExact before →
    g.FirstExact after ∧ Keeps before after ∧ (after.get? a).isSome = true ∧
      ∀ t, t ∈ first ↔ g.InFirst [a] t

variable {g}

theorem Keeps.refl (table : SetTable) : Keeps table table := fun _ h => h

theorem Keeps.trans {s t u : SetTable} (h : Keeps s t) (h' : Keeps t u) : Keeps s u :=
  fun a ha => h' a (h a ha)

theorem firstExact_empty : g.FirstExact ∅ := by
  rintro a set ⟨⟩

theorem FirstExact.update {table : SetTable} (h : g.FirstExact table) {a : Nat} {set : SymbolSet}
    (hs : ∀ t, t ∈ set ↔ g.InFirst [a] t) : g.FirstExact (table.update a fun _ => set) := by
  intro b other hb
  rw [SetTable.get?_update] at hb
  split at hb
  · obtain rfl := Option.some.inj hb
    subst b
    exact hs
  · exact h b other hb

theorem keeps_update (table : SetTable) (a : Nat) (set : SymbolSet) :
    Keeps table (table.update a fun _ => set) := by
  intro b hb
  rw [SetTable.get?_update]
  split
  · rfl
  · exact hb

/-! ## The search -/

namespace WellFormed

variable (hg : g.WellFormed)

include hg

theorem searchRight_spec {visit : Nat → SetTable → Search SymbolSet} (hv : g.Explores visit)
    (right : List Nat) (found first : SymbolSet) (before after : SetTable)
    (h : g.searchRight visit right found before = (.ok first, after))
    (hb : g.FirstExact before) :
    g.FirstExact after ∧ Keeps before after ∧
      ∀ t, t ∈ first ↔ t ∈ found ∨ g.InFirst (g.form right) t := by
  induction right generalizing found before with
  | nil =>
    obtain ⟨hf, rfl⟩ := Prod.mk.inj h
    obtain rfl := Except.ok.inj hf
    refine ⟨hb, .refl _, fun t => ?_⟩
    rw [SymbolSet.mem_insert, form_nil, inFirst_nil, or_comm]
  | cons x rest ih =>
    unfold searchRight at h
    split at h
    · cases h
    next hx =>
      rw [form_cons_lambda hx]
      exact ih found before h hb
    next name hx =>
      have hn : g.isNonTerminal x = true := isNonTerminal_iff.2 ⟨name, hx⟩
      rw [form_cons_of_ne (ne_lambda_of_isNonTerminal hn)]
      split at h
      · cases h
      next set middle hvisit =>
        obtain ⟨hm, hkm, -, hset⟩ := hv x set before middle hn hvisit hb
        split at h
        next hl =>
          obtain ⟨ha, hka, hfirst⟩ := ih _ middle h hm
          refine ⟨ha, hkm.trans hka, fun t => ?_⟩
          rw [hfirst, hg.inFirst_cons, ← hset, ← hset, SymbolSet.mem_union, SymbolSet.mem_erase,
            or_assoc, and_iff_right hl]
        next hl =>
          obtain ⟨hf, rfl⟩ := Prod.mk.inj h
          obtain rfl := Except.ok.inj hf
          refine ⟨hm, hkm, fun t => ?_⟩
          rw [hg.inFirst_cons, ← hset, ← hset, SymbolSet.mem_union, SymbolSet.mem_erase]
          simp only [hl, false_and, or_false]
    next symbol hne hnl hx =>
      obtain ⟨hf, rfl⟩ := Prod.mk.inj h
      obtain rfl := Except.ok.inj hf
      have hx' : g.isLookahead x = true := by
        cases symbol with
        | lambda => exact absurd rfl hne
        | nonTerminal name => exact absurd rfl (hnl name)
        | endMarker => exact isLookahead_iff.2 (.inl hx)
        | terminal name => exact isLookahead_iff.2 (.inr ⟨name, hx⟩)
      refine ⟨hb, .refl _, fun t => ?_⟩
      rw [SymbolSet.mem_insert, form_cons_of_ne (ne_lambda_of_isLookahead hx'),
        hg.inFirst_cons_lookahead hx', or_comm]

theorem searchRights_spec {visit : Nat → SetTable → Search SymbolSet} (hv : g.Explores visit)
    (rights : List (List Nat)) (found first : SymbolSet) (before after : SetTable)
    (h : g.searchRights visit rights found before = (.ok first, after))
    (hb : g.FirstExact before) :
    g.FirstExact after ∧ Keeps before after ∧
      ∀ t, t ∈ first ↔ t ∈ found ∨ ∃ right ∈ rights, g.InFirst (g.form right) t := by
  induction rights generalizing found before with
  | nil =>
    obtain ⟨hf, rfl⟩ := Prod.mk.inj h
    obtain rfl := Except.ok.inj hf
    exact ⟨hb, .refl _, by simp⟩
  | cons right rights ih =>
    unfold searchRights at h
    split at h
    · cases h
    next set middle hr =>
      obtain ⟨hm, hkm, hset⟩ := hg.searchRight_spec hv right found set before middle hr hb
      obtain ⟨ha, hka, hfirst⟩ := ih set middle h hm
      refine ⟨ha, hkm.trans hka, fun t => ?_⟩
      simp only [hfirst, hset, or_assoc, List.mem_cons, exists_eq_or_imp]

theorem searchFirst_explores (fuel : Nat) (opened : List Nat) :
    g.Explores (g.searchFirst fuel opened) := by
  induction fuel generalizing opened with
  | zero =>
    rintro a first before after - h
    cases (Prod.mk.inj h).1
  | succ fuel ih =>
    intro a first before after ha h hb
    unfold searchFirst at h
    split at h
    next set hs =>
      obtain ⟨hf, rfl⟩ := Prod.mk.inj h
      obtain rfl := Except.ok.inj hf
      exact ⟨hb, .refl _, by rw [hs]; rfl, hb a set hs⟩
    · split at h
      · cases (Prod.mk.inj h).1
      · split at h
        · cases h
        next set middle hr =>
          obtain ⟨hf, rfl⟩ := Prod.mk.inj h
          obtain rfl := Except.ok.inj hf
          obtain ⟨hm, hkm, hset⟩ :=
            hg.searchRights_spec (ih (a :: opened)) _ _ _ _ _ hr hb
          have hexact : ∀ t, t ∈ set ↔ g.InFirst [a] t := by
            intro t
            rw [hset, hg.inFirst_nonTerminal ha]
            simp only [SymbolSet.not_mem_empty, false_or]
          refine ⟨hm.update hexact, hkm.trans (keeps_update _ _ _), ?_, hexact⟩
          rw [SetTable.get?_update, if_pos rfl]
          rfl

theorem searchAll_spec (as : List Nat) (has : ∀ a ∈ as, g.isNonTerminal a = true)
    (before after : SetTable) (h : g.searchAll as before = (.ok (), after))
    (hb : g.FirstExact before) :
    g.FirstExact after ∧ Keeps before after ∧ ∀ a ∈ as, (after.get? a).isSome = true := by
  induction as generalizing before with
  | nil =>
    obtain ⟨-, rfl⟩ := Prod.mk.inj h
    exact ⟨hb, .refl _, by simp⟩
  | cons a rest ih =>
    rw [List.forall_mem_cons] at has
    unfold searchAll at h
    split at h
    · cases h
    next set middle hs =>
      obtain ⟨hm, hkm, hda, -⟩ :=
        hg.searchFirst_explores _ _ a set before middle has.1 hs hb
      obtain ⟨ha, hka, hrest⟩ := ih has.2 middle h hm
      exact ⟨ha, hkm.trans hka, List.forall_mem_cons.2 ⟨hka a hda, hrest⟩⟩

/-- The completed table has FIRST of every non-terminal. -/
theorem firstTable_spec {first : SetTable} (h : g.firstTable = .ok first) {a : Nat}
    (ha : g.isNonTerminal a = true) :
    ∃ set, first.get? a = some set ∧ ∀ t, t ∈ set ↔ g.InFirst [a] t := by
  unfold firstTable firstSearch at h
  split at h
  · cases h
  next done hs =>
    obtain rfl := Except.ok.inj h
    obtain ⟨hexact, -, hall⟩ :=
      hg.searchAll_spec g.nonTerminals (fun a => g.mem_nonTerminals.1) ∅ done hs firstExact_empty
    obtain ⟨set, hset⟩ := Option.isSome_iff_exists.1 (hall a (g.mem_nonTerminals.2 ha))
    exact ⟨set, hset, hexact a set hset⟩

/-! ## Sequences -/

theorem extendFirst_spec {first : SetTable} (h : g.firstTable = .ok first) (u : List Nat)
    (hu : ∀ x ∈ u, x < g.symbols.length) (found : SymbolSet) :
    ∃ set, g.extendFirst first u found = .ok set ∧
      ∀ t, t ∈ set ↔ t ∈ found ∨ g.InFirst (g.form u) t := by
  induction u generalizing found with
  | nil => exact ⟨_, rfl, fun t => by rw [SymbolSet.mem_insert, form_nil, inFirst_nil, or_comm]⟩
  | cons x rest ih =>
    rw [List.forall_mem_cons] at hu
    unfold extendFirst
    by_cases hl : g.symbols[x]? = some .lambda
    · simp only [hl, form_cons_lambda hl]
      exact ih hu.2 found
    rw [form_cons_of_ne hl]
    rcases isNonTerminal_or_isLookahead hu.1 hl with hx | hx
    · obtain ⟨name, hn⟩ := isNonTerminal_iff.1 hx
      obtain ⟨set, hs, hset⟩ := hg.firstTable_spec h hx
      simp only [hn, hs]
      split
      next hm =>
        obtain ⟨all, he, hall⟩ := ih hu.2 (found ∪ set.erase Symbol.lambdaIndex)
        refine ⟨all, he, fun t => ?_⟩
        rw [hall, hg.inFirst_cons, ← hset, ← hset, SymbolSet.mem_union, SymbolSet.mem_erase,
          or_assoc, and_iff_right hm]
      next hm =>
        refine ⟨_, rfl, fun t => ?_⟩
        rw [hg.inFirst_cons, ← hset, ← hset, SymbolSet.mem_union, SymbolSet.mem_erase]
        simp only [hm, false_and, or_false]
    · refine ⟨found.insert x, ?_, fun t => ?_⟩
      · rcases isLookahead_iff.1 hx with hn | ⟨name, hn⟩ <;> simp only [hn]
      · rw [SymbolSet.mem_insert, hg.inFirst_cons_lookahead hx, or_comm]

theorem firstOf_spec {first : SetTable} (h : g.firstTable = .ok first) {u : List Nat}
    (hu : ∀ x ∈ u, x < g.symbols.length) :
    ∃ set, g.firstOf first u = .ok set ∧ ∀ t, t ∈ set ↔ g.InFirst (g.form u) t := by
  obtain ⟨set, hs, hset⟩ := hg.extendFirst_spec h u hu ∅
  exact ⟨set, hs, fun t => by rw [hset]; simp only [SymbolSet.not_mem_empty, false_or]⟩

end WellFormed

/-- An analysis that succeeds has its parts from the search and the closure. -/
theorem parts_of_firstFollow {ff : FirstFollow} (h : g.firstFollow = .ok ff) :
    ∃ start filled, g.start = some start ∧ g.firstTable = .ok ff.first ∧
      g.filledFollow ff.first start = .ok filled ∧
      ff.follow = (g.closeFollow filled).1.follow := by
  unfold firstFollow at h
  split at h
  · cases h
  next start hstart =>
    cases hf : g.firstTable with
    | error e => rw [hf] at h; cases h
    | ok first =>
      cases hs : g.filledFollow first start with
      | error e => simp only [hf, hs, bind, Except.bind] at h; cases h
      | ok filled =>
        simp only [hf, hs, bind, Except.bind] at h
        obtain rfl := Except.ok.inj h
        exact ⟨start, filled, hstart, rfl, hs, rfl⟩

/-- FIRST of any sequence holds the lookaheads that the sequence can begin with and `λ` if it
can vanish. The set of a non-terminal is that of the sequence of it alone. -/
theorem firstOf_exact (hg : g.WellFormed) {ff : FirstFollow} (h : g.firstFollow = .ok ff) :
    (∀ w : List Nat, (∀ x ∈ w, x < g.symbols.length) →
      ∃ set, g.firstOf ff.first w = .ok set ∧ ∀ t, t ∈ set ↔
        g.isLookahead t = true ∧ (∃ v, g.Derives (g.form w) (t :: v)) ∨
          t = Symbol.lambdaIndex ∧ g.Derives (g.form w) []) ∧
    ∀ a, g.isNonTerminal a = true →
      (∃ set, ff.first.get? a = some set ∧ g.firstOf ff.first [a] = .ok set) ∧
      (ff.nullable a = true ↔ g.Derives [a] []) := by
  obtain ⟨-, -, -, hf, -⟩ := parts_of_firstFollow h
  refine ⟨fun w hw => hg.firstOf_spec hf hw, fun a ha => ?_⟩
  obtain ⟨set, hset, hexact⟩ := hg.firstTable_spec hf ha
  constructor
  · have hlt := g.lt_length_of_isNonTerminal ha
    obtain ⟨seq, hs, hseq⟩ := hg.firstOf_spec hf (u := [a]) (by simpa using hlt)
    rw [form_cons_of_ne (ne_lambda_of_isNonTerminal ha), form_nil] at hseq
    obtain rfl : seq = set := SymbolSet.ext fun t => (hseq t).trans (hexact t).symm
    exact ⟨seq, hset, hs⟩
  · rw [FirstFollow.nullable, decide_eq_true_iff, SetTable.get, hset, Option.getD_some, hexact,
      hg.inFirst_lambdaIndex]
    rfl

/-- `<A>` has a `λ` between its symbols, `<B>` an empty right side, and `<C>` no production. -/
def scattered : Grammar where
  symbols := [.lambda, .endMarker, .nonTerminal "<A>", .nonTerminal "<B>", .nonTerminal "<C>",
    .terminal "a"]
  names := []
  productions := [⟨2, [3, 0, 5, 4]⟩, ⟨3, []⟩]
  start := some 2

theorem wellFormed_scattered : scattered.WellFormed where
  lambda := rfl
  endMarker := rfl
  left := by decide
  right := by decide

def scatteredSets : FirstFollow where
  first := ⟨[(3, .ofList [0]), (2, .ofList [5]), (4, .ofList [])]⟩
  follow := ⟨[(2, .ofList [1]), (3, .ofList [5]), (4, .ofList [1])]⟩

theorem firstFollow_scattered : scattered.firstFollow = .ok scatteredSets := rfl

theorem firstOf_exact_scattered :
    (∃ set, scattered.firstOf scatteredSets.first [3, 0, 2] = .ok set ∧ 5 ∈ set) ∧
      ∃ v, scattered.Derives [3, 2] (5 :: v) := by
  obtain ⟨set, hs, hset⟩ := (firstOf_exact wellFormed_scattered firstFollow_scattered).1
    [3, 0, 2] (by decide)
  have h5 : 5 ∈ set := by
    have he : (.ok (.ofList [5]) : Except GrammarError SymbolSet) = .ok set := hs
    obtain rfl := Except.ok.inj he
    decide
  refine ⟨⟨set, hs, h5⟩, ?_⟩
  rcases (hset 5).1 h5 with ⟨-, hv⟩ | ⟨h0, -⟩
  · exact hv
  · cases h0

end LLOne.Grammar

import LLOne.Proofs.Grammar.Follow

/-!
# Left recursion is found exactly

A non-terminal is left recursive if it derives, in one step or more, a form that begins with it.
It then lies on a cycle of left corners, which are the symbols of its right sides that have
nothing in front of them but what can vanish. The search goes from a non-terminal to its corners
only, so one that it meets while its set is open lies on such a cycle; and the corners of what is
completed are completed before, so no cycle goes through it.
-/

namespace LLOne.Grammar

variable (g : Grammar)

def LeftRecursive (a : Nat) : Prop := ∃ v, Relation.TransGen g.Step [a] (a :: v)

/-- The form has `b` behind symbols that can all vanish. -/
def Leads (w : List Nat) (b : Nat) : Prop := ∃ u v, w = u ++ b :: v ∧ g.Vanishes u

/-- Some right side of `a` leads to `b`. -/
def Corner (a b : Nat) : Prop := ∃ right ∈ g.rightsOf a, g.Leads (g.form right) b

/-- Every way from `a` through left corners comes to an end. -/
def Founded (a : Nat) : Prop := Acc (fun b a => g.Corner a b) a

variable {g}

/-! ## Cycles of left corners -/

theorem leads_cons_iff {x b : Nat} {w : List Nat} :
    g.Leads (x :: w) b ↔ b = x ∨ g.Vanishes [x] ∧ g.Leads w b := by
  constructor
  · intro h
    obtain ⟨u, v, he, hu⟩ := h
    cases u with
    | nil => exact .inl (List.cons.inj he).1.symm
    | cons y u =>
      obtain ⟨rfl, rfl⟩ := List.cons.inj he
      obtain ⟨hx, hu⟩ := vanishes_append_iff (u := [x]).1 hu
      exact .inr ⟨hx, u, v, rfl, hu⟩
  · intro h
    rcases h with rfl | ⟨hx, u, v, rfl, hu⟩
    · exact ⟨[], w, rfl, vanishes_nil⟩
    · exact ⟨x :: u, v, rfl, vanishes_append_iff (u := [x]).2 ⟨hx, hu⟩⟩

theorem not_leads_nil (b : Nat) : ¬ g.Leads [] b := by
  intro h
  obtain ⟨u, v, he, -⟩ := h
  exact List.append_ne_nil_of_right_ne_nil u (List.cons_ne_nil b v) he.symm

theorem step_singleton_iff {a : Nat} {w : List Nat} :
    g.Step [a] w ↔ ∃ right ∈ g.rightsOf a, w = g.form right := by
  constructor
  · intro h
    generalize hu : [a] = u at h
    obtain ⟨before, p, after, hp⟩ := h
    obtain ⟨rfl, hc⟩ | ⟨_, hc⟩ := List.append_eq_singleton_iff.1 hu.symm
    · obtain ⟨rfl, rfl⟩ := List.cons.inj hc
      exact ⟨p.right, g.mem_rightsOf.2 hp, List.append_nil _⟩
    · cases hc
  · intro h
    obtain ⟨right, hr, rfl⟩ := h
    have hs := Step.replace [] ⟨a, right⟩ [] (g.mem_rightsOf.1 hr)
    rwa [List.nil_append, List.nil_append, List.append_nil] at hs

/-- What a derived form begins with is reached through left corners. -/
theorem exists_corner_of_derives {w v : List Nat} {b : Nat} (h : g.Derives w (b :: v)) :
    ∃ x, g.Leads w x ∧ Relation.ReflTransGen g.Corner x b := by
  induction h using Relation.ReflTransGen.head_induction_on with
  | refl => exact ⟨b, ⟨[], v, rfl, vanishes_nil⟩, .refl⟩
  | head hs _ ih =>
    obtain ⟨x, ⟨u, r, he, hu⟩, hx⟩ := ih
    obtain ⟨before, p, after, hp⟩ := hs
    rcases eq_append_cons_cases he with ⟨s, rfl, rfl⟩ | ⟨s, hs, rfl⟩
    · exact ⟨x, ⟨u, s ++ p.left :: after, List.append_assoc .., hu⟩, hx⟩
    · obtain ⟨hbefore, hu⟩ := vanishes_append_iff.1 hu
      rcases eq_append_cons_cases hs with ⟨s', hr, rfl⟩ | ⟨s', rfl, rfl⟩
      · have hcorner : g.Corner p.left x := ⟨p.right, g.mem_rightsOf.2 hp, s, s', hr, hu⟩
        exact ⟨p.left, ⟨before, after, rfl, hbefore⟩, .head hcorner hx⟩
      · obtain ⟨hr, hu⟩ := vanishes_append_iff.1 hu
        have hleft : g.Vanishes [p.left] := (Derives.of_mem hp).trans hr
        refine ⟨x, ⟨before ++ p.left :: s', r, ?_, ?_⟩, hx⟩
        · rw [List.append_assoc, List.cons_append]
        · exact vanishes_append_iff.2
            ⟨hbefore, vanishes_append_iff (u := [p.left]).2 ⟨hleft, hu⟩⟩

theorem derives_of_corner {a b : Nat} (h : g.Corner a b) :
    ∃ v, Relation.TransGen g.Step [a] (b :: v) := by
  obtain ⟨right, hr, u, v, he, hu⟩ := h
  have hd : g.Derives (g.form right) (b :: v) := by
    rw [he]
    exact hu.append (.refl (b :: v))
  exact ⟨v, .trans_left (.single (step_singleton_iff.2 ⟨right, hr, rfl⟩)) hd⟩

theorem derives_of_corners {a b : Nat} (h : Relation.TransGen g.Corner a b) :
    ∃ v, Relation.TransGen g.Step [a] (b :: v) := by
  induction h with
  | single hc => exact derives_of_corner hc
  | tail _ hc ih =>
    obtain ⟨v, hv⟩ := ih
    obtain ⟨v', hv'⟩ := derives_of_corner hc
    refine ⟨v' ++ v, hv.trans ?_⟩
    exact Relation.TransGen.lift (· ++ v) (fun _ _ hs => Step.append_right v hs) _ _ hv'

theorem leftRecursive_iff {a : Nat} : g.LeftRecursive a ↔ Relation.TransGen g.Corner a a := by
  constructor
  · intro h
    obtain ⟨v, hv⟩ := h
    obtain ⟨w, hs, hd⟩ := Relation.TransGen.head'_iff.1 hv
    obtain ⟨right, hr, rfl⟩ := step_singleton_iff.1 hs
    obtain ⟨x, hx, hc⟩ := exists_corner_of_derives hd
    exact .head' ⟨right, hr, hx⟩ hc
  · exact derives_of_corners

theorem Founded.not_leftRecursive {a : Nat} (h : g.Founded a) : ¬ g.LeftRecursive a := by
  rw [leftRecursive_iff]
  induction h with
  | intro a _ ih =>
    intro hcycle
    obtain ⟨b, hb, hc⟩ := Relation.TransGen.head'_iff.1 hcycle
    exact ih b hb (.tail' hc hb)

/-! ## The outcome of the search -/

variable (g)

def BlamesCycle (e : GrammarError) : Prop :=
  ∃ a name, g.isNonTerminal a = true ∧ g.LeftRecursive a ∧ g.name? a = some name ∧
    e = .leftRecursion name

/-- No cycle goes through a symbol that has a set in the table. -/
def Settled (table : SetTable) : Prop := ∀ a, (table.get? a).isSome = true → g.Founded a

/-- On success the table is settled and the statement holds; a failure blames a cycle. -/
def Outcome {α : Type} (statement : Prop) : Search α → Prop
  | (.ok _, after) => g.Settled after ∧ statement
  | (.error e, _) => g.BlamesCycle e

structure OpenAbove (opened : List Nat) (a : Nat) : Prop where
  nonTerminal : ∀ o ∈ opened, g.isNonTerminal o = true
  nodup : opened.Nodup
  corners : ∀ o ∈ opened, Relation.TransGen g.Corner o a

variable {g}

theorem openAbove_nil (a : Nat) : g.OpenAbove [] a where
  nonTerminal _ ho := absurd ho List.not_mem_nil
  nodup := List.nodup_nil
  corners _ ho := absurd ho List.not_mem_nil

theorem OpenAbove.cons {opened : List Nat} {a b : Nat} (h : g.OpenAbove opened a)
    (ha : g.isNonTerminal a = true) (hn : a ∉ opened) (hb : g.Corner a b) :
    g.OpenAbove (a :: opened) b where
  nonTerminal := List.forall_mem_cons.2 ⟨ha, h.nonTerminal⟩
  nodup := List.nodup_cons.2 ⟨hn, h.nodup⟩
  corners := List.forall_mem_cons.2 ⟨.single hb, fun o ho => (h.corners o ho).tail hb⟩

/-- There are no more open sets than symbols. -/
theorem length_le_of_nodup {opened : List Nat} (hn : ∀ o ∈ opened, g.isNonTerminal o = true)
    (hd : opened.Nodup) : opened.length ≤ g.symbols.length := by
  have hsub : opened.toFinset ⊆ Finset.range g.symbols.length := by
    intro o ho
    rw [Finset.mem_range]
    exact g.lt_length_of_isNonTerminal (hn o (List.mem_toFinset.1 ho))
  have hcard := Finset.card_le_card hsub
  rwa [List.toFinset_card_of_nodup hd, Finset.card_range] at hcard

theorem settled_empty : g.Settled ∅ := by
  rintro a ⟨⟩

theorem Settled.update {table : SetTable} (h : g.Settled table) {a : Nat} (ha : g.Founded a)
    (set : SymbolSet) : g.Settled (table.update a fun _ => set) := by
  intro b hb
  rw [SetTable.get?_update] at hb
  split at hb
  next hba => exact hba ▸ ha
  next hba => exact h b hb

namespace WellFormed

variable (hg : g.WellFormed)

include hg

theorem founded_lookahead {t : Nat} (ht : g.isLookahead t = true) : g.Founded t := by
  constructor
  intro b hb
  obtain ⟨right, hr, -⟩ := hb
  have hl := hg.left _ (g.mem_rightsOf.1 hr)
  exact absurd rfl (ne_of_isLookahead ht hl)

/-- The search through a right side visits the symbols to which it leads. -/
theorem searchRight_outcome {visit : Nat → SetTable → Search SymbolSet} (hv : g.Explores visit)
    (right : List Nat) (hr : ∀ x ∈ right, x < g.symbols.length)
    (ho : ∀ b before, g.isNonTerminal b = true → g.Leads (g.form right) b →
      g.FirstExact before → g.Settled before → g.Outcome (g.Founded b) (visit b before))
    (found : SymbolSet) (before : SetTable) (hb : g.FirstExact before) (hs : g.Settled before) :
    g.Outcome (∀ b, g.Leads (g.form right) b → g.Founded b)
      (g.searchRight visit right found before) := by
  induction right generalizing found before with
  | nil => exact ⟨hs, fun b h => absurd h (not_leads_nil b)⟩
  | cons x rest ih =>
    rw [List.forall_mem_cons] at hr
    unfold searchRight
    by_cases hl : g.symbols[x]? = some .lambda
    · simp only [hl]
      rw [form_cons_lambda hl] at ho ⊢
      exact ih hr.2 ho found before hb hs
    rw [form_cons_of_ne hl] at ho ⊢
    simp only [leads_cons_iff] at ho ⊢
    rcases isNonTerminal_or_isLookahead hr.1 hl with hx | hx
    · obtain ⟨name, hn⟩ := isNonTerminal_iff.1 hx
      simp only [hn]
      have hvisit := ho x before hx (.inl rfl) hb hs
      cases hxb : visit x before with
      | mk r middle =>
        rw [hxb] at hvisit
        cases r with
        | error e => exact hvisit
        | ok set =>
          obtain ⟨hsm, hfx⟩ := hvisit
          obtain ⟨hm, -, -, hset⟩ := hv x set before middle hx hxb hb
          have hvanish := (hset Symbol.lambdaIndex).trans hg.inFirst_lambdaIndex
          simp only
          split
          next hin =>
            have hrest := ih hr.2 (fun b before hb hlead =>
              ho b before hb (.inr ⟨hvanish.1 hin, hlead⟩))
              (found ∪ set.erase Symbol.lambdaIndex) middle hm hsm
            generalize g.searchRight visit rest _ middle = result at hrest
            obtain ⟨⟨e⟩ | ⟨first⟩, after⟩ := result
            · exact hrest
            · refine ⟨hrest.1, fun b h => ?_⟩
              rcases h with rfl | ⟨-, h⟩
              · exact hfx
              · exact hrest.2 b h
          next hin =>
            refine ⟨hsm, fun b h => ?_⟩
            rcases h with rfl | ⟨h, -⟩
            · exact hfx
            · exact absurd (hvanish.2 h) hin
    · have hstop : g.Outcome (∀ b, b = x ∨ g.Vanishes [x] ∧ g.Leads (g.form rest) b → g.Founded b)
          ((.ok (found.insert x), before) : Search SymbolSet) := by
        refine ⟨hs, fun b h => ?_⟩
        rcases h with rfl | ⟨h, -⟩
        · exact hg.founded_lookahead hx
        · exact absurd h (hg.not_vanishes_lookahead hx)
      rcases isLookahead_iff.1 hx with hn | ⟨name, hn⟩ <;> simpa only [hn] using hstop

theorem searchRights_outcome {visit : Nat → SetTable → Search SymbolSet} (hv : g.Explores visit)
    (rights : List (List Nat)) (hr : ∀ right ∈ rights, ∀ x ∈ right, x < g.symbols.length)
    (ho : ∀ right ∈ rights, ∀ b before, g.isNonTerminal b = true → g.Leads (g.form right) b →
      g.FirstExact before → g.Settled before → g.Outcome (g.Founded b) (visit b before))
    (found : SymbolSet) (before : SetTable) (hb : g.FirstExact before) (hs : g.Settled before) :
    g.Outcome (∀ right ∈ rights, ∀ b, g.Leads (g.form right) b → g.Founded b)
      (g.searchRights visit rights found before) := by
  induction rights generalizing found before with
  | nil => exact ⟨hs, by simp⟩
  | cons right rights ih =>
    rw [List.forall_mem_cons] at hr ho
    have hright := hg.searchRight_outcome hv right hr.1 ho.1 found before hb hs
    unfold searchRights
    cases hm : g.searchRight visit right found before with
    | mk r middle =>
      rw [hm] at hright
      cases r with
      | error e => exact hright
      | ok set =>
        obtain ⟨hbm, -, -⟩ := hg.searchRight_spec hv right found set before middle hm hb
        have hrest := ih hr.2 ho.2 set middle hbm hright.1
        simp only
        generalize g.searchRights visit rights set middle = result at hrest
        obtain ⟨⟨e⟩ | ⟨first⟩, after⟩ := result
        · exact hrest
        · exact ⟨hrest.1, List.forall_mem_cons.2 ⟨hright.2, hrest.2⟩⟩

/-- There is always enough fuel, since every open set takes a symbol of its own. -/
theorem searchFirst_outcome (fuel : Nat) (opened : List Nat) (a : Nat)
    (ha : g.isNonTerminal a = true) (hopen : g.OpenAbove opened a)
    (hfuel : g.symbols.length < fuel + opened.length) (before : SetTable)
    (hb : g.FirstExact before) (hs : g.Settled before) :
    g.Outcome (g.Founded a) (g.searchFirst fuel opened a before) := by
  induction fuel generalizing opened a before with
  | zero =>
    have hle := length_le_of_nodup hopen.nonTerminal hopen.nodup
    omega
  | succ fuel ih =>
    unfold searchFirst
    split
    next set hset => exact ⟨hs, hs a (by rw [hset]; rfl)⟩
    · split
      next hmem =>
        obtain ⟨name, hn⟩ := isNonTerminal_iff.1 ha
        have hname : g.name? a = some name := by simp [name?, hn, Symbol.name]
        rw [hname]
        exact ⟨a, name, ha, leftRecursive_iff.2 (hopen.corners a hmem), hname, rfl⟩
      next hmem =>
        have hrights := hg.searchRights_outcome (hg.searchFirst_explores fuel (a :: opened))
          (g.rightsOf a) (fun right hr => hg.right _ (g.mem_rightsOf.1 hr))
          (fun right hr b before hb hlead => ih (a :: opened) b hb
            (hopen.cons ha hmem ⟨right, hr, hlead⟩) (by rw [List.length_cons]; omega) before)
          ∅ before hb hs
        cases hm : g.searchRights (g.searchFirst fuel (a :: opened)) (g.rightsOf a) ∅ before with
        | mk r middle =>
          rw [hm] at hrights
          cases r with
          | error e => exact hrights
          | ok set =>
            have hfounded : g.Founded a := by
              constructor
              intro b hcorner
              obtain ⟨right, hr, hlead⟩ := hcorner
              exact hrights.2 right hr b hlead
            exact ⟨hrights.1.update hfounded set, hfounded⟩

theorem searchAll_outcome (as : List Nat) (has : ∀ a ∈ as, g.isNonTerminal a = true)
    (before : SetTable) (hb : g.FirstExact before) (hs : g.Settled before) :
    g.Outcome (∀ a ∈ as, g.Founded a) (g.searchAll as before) := by
  induction as generalizing before with
  | nil => exact ⟨hs, by simp⟩
  | cons a rest ih =>
    rw [List.forall_mem_cons] at has
    have ha := hg.searchFirst_outcome (g.symbols.length + 1) [] a has.1 (openAbove_nil a)
      (by rw [List.length_nil]; omega) before hb hs
    unfold searchAll
    cases hm : g.searchFirst (g.symbols.length + 1) [] a before with
    | mk r middle =>
      rw [hm] at ha
      cases r with
      | error e => exact ha
      | ok set =>
        obtain ⟨hbm, -, -, -⟩ := hg.searchFirst_explores _ _ a set before middle has.1 hm hb
        have hrest := ih has.2 middle hbm ha.1
        simp only
        generalize g.searchAll rest middle = result at hrest
        obtain ⟨⟨e⟩ | ⟨u⟩, after⟩ := result
        · exact hrest
        · exact ⟨hrest.1, List.forall_mem_cons.2 ⟨ha.2, hrest.2⟩⟩

theorem firstSearch_outcome :
    g.Outcome (∀ a, g.isNonTerminal a = true → g.Founded a) g.firstSearch := by
  have h := hg.searchAll_outcome g.nonTerminals (fun _ => g.mem_nonTerminals.1) ∅
    firstExact_empty settled_empty
  simp only [g.mem_nonTerminals] at h
  exact h

/-- If the search succeeds, every way through left corners comes to an end. -/
theorem founded_of_firstTable {first : SetTable} (h : g.firstTable = .ok first) {a : Nat}
    (ha : g.isNonTerminal a = true) : g.Founded a := by
  have hs := hg.firstSearch_outcome
  unfold firstTable at h
  generalize g.firstSearch = result at h hs
  obtain ⟨⟨e⟩ | ⟨u⟩, after⟩ := result
  · cases h
  · exact hs.2 a ha

theorem not_leftRecursive {first : SetTable} (h : g.firstTable = .ok first) {a : Nat}
    (ha : g.isNonTerminal a = true) : ¬ g.LeftRecursive a :=
  (hg.founded_of_firstTable h ha).not_leftRecursive

/-- The sets are found unless the search meets a cycle. -/
theorem firstFollow_cases {start : Nat} (hstart : g.start = some start) :
    (∃ ff, g.firstFollow = .ok ff) ∨ ∃ e, g.firstFollow = .error e ∧ g.BlamesCycle e := by
  cases hfirst : g.firstTable with
  | error e =>
    have hblame : g.BlamesCycle e := by
      have hs := hg.firstSearch_outcome
      unfold firstTable at hfirst
      generalize g.firstSearch = result at hfirst hs
      obtain ⟨⟨e'⟩ | ⟨u⟩, done⟩ := result
      · obtain rfl := Except.error.inj hfirst
        exact hs
      · cases hfirst
    refine .inr ⟨e, ?_, hblame⟩
    simp only [firstFollow, hstart, hfirst, bind, Except.bind]
  | ok first =>
    obtain ⟨filled, hf, -⟩ := hg.filledFollow_spec hfirst start
    refine .inl ⟨⟨first, (g.closeFollow filled).1.follow⟩, ?_⟩
    simp only [firstFollow, hstart, hfirst, bind, Except.bind, hf]

end WellFormed

/-! ## Depth of the search -/

theorem searchRight_congr {visit visit' : Nat → SetTable → Search SymbolSet}
    (hv : ∀ x done, g.isNonTerminal x = true → visit x done = visit' x done)
    (right : List Nat) (found : SymbolSet) (done : SetTable) :
    g.searchRight visit right found done = g.searchRight visit' right found done := by
  induction right generalizing found done with
  | nil => rfl
  | cons x rest ih =>
    unfold searchRight
    split
    · rfl
    · exact ih found done
    next name hx =>
      rw [hv x done (isNonTerminal_iff.2 ⟨name, hx⟩)]
      split
      · rfl
      · simp only [ih]
    · rfl

theorem searchRights_congr {visit visit' : Nat → SetTable → Search SymbolSet}
    (hv : ∀ x done, g.isNonTerminal x = true → visit x done = visit' x done)
    (rights : List (List Nat)) (found : SymbolSet) (done : SetTable) :
    g.searchRights visit rights found done = g.searchRights visit' rights found done := by
  induction rights generalizing found done with
  | nil => rfl
  | cons right rights ih =>
    unfold searchRights
    rw [searchRight_congr hv]
    split
    · rfl
    · exact ih _ _

/-- No search goes deeper than there are symbols. -/
theorem searchFirst_add (fuel more : Nat) (opened : List Nat)
    (hn : ∀ o ∈ opened, g.isNonTerminal o = true) (hd : opened.Nodup)
    (hfuel : g.symbols.length < fuel + opened.length) {a : Nat} (ha : g.isNonTerminal a = true)
    (done : SetTable) :
    g.searchFirst (fuel + more) opened a done = g.searchFirst fuel opened a done := by
  induction fuel generalizing opened a done with
  | zero =>
    have hle := length_le_of_nodup hn hd
    omega
  | succ fuel ih =>
    rw [Nat.add_right_comm]
    unfold searchFirst
    split
    · rfl
    · split
      · rfl
      next hmem =>
        have hvisit : ∀ x done, g.isNonTerminal x = true →
            g.searchFirst (fuel + more) (a :: opened) x done =
              g.searchFirst fuel (a :: opened) x done := by
          intro x done hx
          apply ih (a :: opened) (List.forall_mem_cons.2 ⟨ha, hn⟩) (List.nodup_cons.2 ⟨hmem, hd⟩)
          · rw [List.length_cons]
            omega
          · exact hx
        rw [searchRights_congr hvisit]

/-- The search for FIRST comes to an end however much fuel it has beyond the number of symbols.
The analysis fails if and only if some non-terminal is left recursive, and always with the name
of a left recursive one. -/
theorem leftRecursion_exact (hg : g.WellFormed) {start : Nat} (hstart : g.start = some start) :
    (∀ fuel, g.symbols.length < fuel → ∀ a done, g.isNonTerminal a = true →
      g.searchFirst fuel [] a done = g.searchFirst (g.symbols.length + 1) [] a done) ∧
    ((∃ name, g.firstFollow = .error (.leftRecursion name)) ↔
      ∃ a, g.isNonTerminal a = true ∧ ∃ v, Relation.TransGen g.Step [a] (a :: v)) ∧
    ∀ e, g.firstFollow = .error e →
      ∃ a name, g.isNonTerminal a = true ∧ (∃ v, Relation.TransGen g.Step [a] (a :: v)) ∧
        g.name? a = some name ∧ e = .leftRecursion name := by
  have hblame : ∀ e, g.firstFollow = .error e → g.BlamesCycle e := by
    intro e he
    rcases hg.firstFollow_cases hstart with ⟨ff, hf⟩ | ⟨e', hf, hcycle⟩
    · rw [hf] at he
      cases he
    · obtain rfl := Except.error.inj (hf.symm.trans he)
      exact hcycle
  refine ⟨fun fuel hfuel a done ha => ?_, ⟨fun h => ?_, fun h => ?_⟩, hblame⟩
  · obtain ⟨more, rfl⟩ := Nat.exists_eq_add_of_le (Nat.succ_le_of_lt hfuel)
    exact searchFirst_add _ more [] (by simp) List.nodup_nil
      (by rw [List.length_nil]; omega) ha done
  · obtain ⟨name, he⟩ := h
    obtain ⟨a, -, ha, hrec, -⟩ := hblame _ he
    exact ⟨a, ha, hrec⟩
  · obtain ⟨a, ha, hrec⟩ := h
    rcases hg.firstFollow_cases hstart with ⟨ff, hf⟩ | ⟨e, hf, b, name, -, -, -, rfl⟩
    · obtain ⟨-, -, -, hfirst, -⟩ := parts_of_firstFollow hf
      exact absurd hrec (hg.not_leftRecursive hfirst ha)
    · exact ⟨name, hf⟩

/-- `<A>` begins with `<B>` behind a `<C>` that can vanish, and `<B>` begins with `<A>`; no
derivation from the start symbol meets them. -/
def hidden : Grammar where
  symbols := [.lambda, .endMarker, .nonTerminal "<S>", .nonTerminal "<A>", .nonTerminal "<B>",
    .nonTerminal "<C>", .terminal "a"]
  names := []
  productions := [⟨2, [6]⟩, ⟨3, [5, 0, 4, 6]⟩, ⟨4, [3]⟩, ⟨5, []⟩, ⟨5, [6]⟩]
  start := some 2

theorem leftRecursion_exact_hidden :
    ∃ a v, hidden.isNonTerminal a = true ∧ Relation.TransGen hidden.Step [a] (a :: v) := by
  have hstart : hidden.start = some 2 := rfl
  have he : hidden.firstFollow = .error (.leftRecursion "<A>") := rfl
  obtain ⟨-, hiff, -⟩ := leftRecursion_exact ⟨rfl, rfl, by decide, by decide⟩ hstart
  obtain ⟨a, ha, v, hv⟩ := hiff.1 ⟨"<A>", he⟩
  exact ⟨a, v, ha, hv⟩

end LLOne.Grammar

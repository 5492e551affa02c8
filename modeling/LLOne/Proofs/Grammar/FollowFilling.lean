import LLOne.Proofs.Grammar.Follow

/-!
# What FOLLOW sets are filled with

In grammars put together by hand, any symbol may be a left side or the start symbol. Derivations
say little there, but what the sets hold can be told from the way they are computed. FIRST holds
no non-terminals. So a set of FOLLOW has got its references from left sides, and only a
non-terminal has got any, another than itself.
-/

namespace LLOne.Grammar

variable (g : Grammar)

def Plain (set : SymbolSet) : Prop :=
  ∀ x ∈ set, x ≠ Symbol.lambdaIndex → g.isNonTerminal x = false

def PlainTable (table : SetTable) : Prop :=
  ∀ a set, table.get? a = some set → g.Plain set

def FindsPlain (visit : Nat → SetTable → Search SymbolSet) : Prop :=
  ∀ a first before after, visit a before = (.ok first, after) → g.PlainTable before →
    g.PlainTable after ∧ g.Plain first

def Owned (follow : SetTable) : Prop :=
  ∀ a b, b ∈ follow.get a → g.isNonTerminal b = true → g.isNonTerminal a = true ∧ a ≠ b

variable {g}

/-! ## Plain sets -/

theorem plain_empty : g.Plain ∅ := fun x hx => absurd hx (SymbolSet.not_mem_empty x)

theorem plainTable_empty : g.PlainTable ∅ := by
  rintro a set ⟨⟩

namespace Plain

variable {s t : SymbolSet}

theorem insert_lambda (h : g.Plain s) : g.Plain (s.insert Symbol.lambdaIndex) := by
  intro x hx hne
  rcases SymbolSet.mem_insert.1 hx with hx | hx
  · exact absurd hx hne
  · exact h x hx hne

theorem insert (h : g.Plain s) {x : Nat} (hx : g.isNonTerminal x = false) :
    g.Plain (s.insert x) := by
  intro y hy hne
  rcases SymbolSet.mem_insert.1 hy with rfl | hy
  · exact hx
  · exact h y hy hne

theorem union_erase (h : g.Plain s) (ht : g.Plain t) :
    g.Plain (s ∪ t.erase Symbol.lambdaIndex) := by
  intro x hx hne
  rcases SymbolSet.mem_union.1 hx with hx | hx
  · exact h x hx hne
  · exact ht x (SymbolSet.mem_erase.1 hx).2 hne

end Plain

theorem PlainTable.update {table : SetTable} (h : g.PlainTable table) (a : Nat) {set : SymbolSet}
    (hs : g.Plain set) : g.PlainTable (table.update a fun _ => set) := by
  intro b other hb
  rw [SetTable.get?_update] at hb
  split at hb
  · exact Option.some.inj hb ▸ hs
  · exact h b other hb

/-! ## FIRST -/

theorem searchRight_plain {visit : Nat → SetTable → Search SymbolSet} (hv : g.FindsPlain visit)
    (right : List Nat) (found first : SymbolSet) (before after : SetTable)
    (h : g.searchRight visit right found before = (.ok first, after))
    (hb : g.PlainTable before) (hf : g.Plain found) : g.PlainTable after ∧ g.Plain first := by
  induction right generalizing found before with
  | nil =>
    obtain ⟨he, rfl⟩ := Prod.mk.inj h
    exact ⟨hb, Except.ok.inj he ▸ hf.insert_lambda⟩
  | cons x rest ih =>
    unfold searchRight at h
    split at h
    · cases h
    · exact ih found before h hb hf
    next name hx =>
      split at h
      · cases h
      next set middle hvisit =>
        obtain ⟨hm, hs⟩ := hv x set before middle hvisit hb
        split at h
        · exact ih _ middle h hm (hf.union_erase hs)
        · obtain ⟨he, rfl⟩ := Prod.mk.inj h
          exact ⟨hm, Except.ok.inj he ▸ hf.union_erase hs⟩
    next symbol _ hnt hx =>
      obtain ⟨he, rfl⟩ := Prod.mk.inj h
      exact ⟨hb, Except.ok.inj he ▸ hf.insert (not_isNonTerminal_of_getElem? hx hnt)⟩

theorem searchRights_plain {visit : Nat → SetTable → Search SymbolSet} (hv : g.FindsPlain visit)
    (rights : List (List Nat)) (found first : SymbolSet) (before after : SetTable)
    (h : g.searchRights visit rights found before = (.ok first, after))
    (hb : g.PlainTable before) (hf : g.Plain found) : g.PlainTable after ∧ g.Plain first := by
  induction rights generalizing found before with
  | nil =>
    obtain ⟨he, rfl⟩ := Prod.mk.inj h
    exact ⟨hb, Except.ok.inj he ▸ hf⟩
  | cons right rights ih =>
    unfold searchRights at h
    split at h
    · cases h
    next set middle hr =>
      obtain ⟨hm, hs⟩ := searchRight_plain hv right found set before middle hr hb hf
      exact ih set middle h hm hs

theorem searchFirst_plain (fuel : Nat) (opened : List Nat) :
    g.FindsPlain (g.searchFirst fuel opened) := by
  induction fuel generalizing opened with
  | zero =>
    rintro a first before after h
    cases (Prod.mk.inj h).1
  | succ fuel ih =>
    intro a first before after h hb
    unfold searchFirst at h
    split at h
    next set hs =>
      obtain ⟨he, rfl⟩ := Prod.mk.inj h
      exact ⟨hb, Except.ok.inj he ▸ hb a set hs⟩
    · split at h
      · cases (Prod.mk.inj h).1
      · split at h
        · cases h
        next set middle hr =>
          obtain ⟨he, rfl⟩ := Prod.mk.inj h
          obtain ⟨hm, hs⟩ := searchRights_plain (ih (a :: opened)) _ _ _ _ _ hr hb plain_empty
          exact ⟨hm.update a hs, Except.ok.inj he ▸ hs⟩

theorem searchAll_plain (as : List Nat) (before after : SetTable)
    (h : g.searchAll as before = (.ok (), after)) (hb : g.PlainTable before) :
    g.PlainTable after := by
  induction as generalizing before with
  | nil => exact (Prod.mk.inj h).2 ▸ hb
  | cons a rest ih =>
    unfold searchAll at h
    split at h
    · cases h
    next set middle hs =>
      exact ih middle h (searchFirst_plain _ _ a set before middle hs hb).1

theorem firstTable_plain {first : SetTable} (h : g.firstTable = .ok first) :
    g.PlainTable first := by
  unfold firstTable firstSearch at h
  split at h
  · cases h
  next done hs =>
    exact Except.ok.inj h ▸ searchAll_plain g.nonTerminals ∅ done hs plainTable_empty

theorem extendFirst_plain {first : SetTable} (h : g.PlainTable first) (u : List Nat)
    (hu : ∀ x ∈ u, x < g.symbols.length) (found : SymbolSet) (hf : g.Plain found) :
    ∃ set, g.extendFirst first u found = .ok set ∧ g.Plain set := by
  induction u generalizing found with
  | nil => exact ⟨_, rfl, hf.insert_lambda⟩
  | cons x rest ih =>
    rw [List.forall_mem_cons] at hu
    unfold extendFirst
    split
    next hx => exact absurd (List.getElem?_eq_none_iff.1 hx) (Nat.not_le.2 hu.1)
    · exact ih hu.2 found hf
    · split
      · exact ⟨found, rfl, hf⟩
      next set hs =>
        have hs := hf.union_erase (h x set hs)
        dsimp only
        split
        · exact ih hu.2 _ hs
        · exact ⟨_, rfl, hs⟩
    next symbol _ hnt hx => exact ⟨_, rfl, hf.insert (not_isNonTerminal_of_getElem? hx hnt)⟩

/-! ## FOLLOW -/

theorem Owned.union {follow : SetTable} (h : g.Owned follow) (x : Nat) {set : SymbolSet}
    (hs : g.Plain set) :
    g.Owned (follow.update x (· ∪ set.erase Symbol.lambdaIndex)) := by
  intro a b hb hn
  rw [SetTable.get_update] at hb
  split at hb
  next ha =>
    rcases SymbolSet.mem_union.1 hb with hb | hb
    · exact h a b (ha ▸ hb) hn
    · obtain ⟨hne, hm⟩ := SymbolSet.mem_erase.1 hb
      rw [hs b hm hne] at hn
      cases hn
  · exact h a b hb hn

theorem Owned.insert {follow : SetTable} (h : g.Owned follow) {x left : Nat}
    (hx : g.isNonTerminal x = true) (hne : left ≠ x) :
    g.Owned (follow.update x (·.insert left)) := by
  intro a b hb hn
  rw [SetTable.get_update] at hb
  split at hb
  next ha =>
    subst ha
    rcases SymbolSet.mem_insert.1 hb with rfl | hb
    · exact ⟨hx, hne.symm⟩
    · exact h a b hb hn
  · exact h a b hb hn

theorem fillRight_owned {first : SetTable} (hf : g.PlainTable first) (left : Nat)
    (right : List Nat) (hr : ∀ x ∈ right, x < g.symbols.length) (follow : SetTable)
    (ho : g.Owned follow) :
    ∃ filled, g.fillRight first left right follow = .ok filled ∧ g.Owned filled := by
  induction right generalizing follow with
  | nil => exact ⟨follow, rfl, ho⟩
  | cons y rest ih =>
    rw [List.forall_mem_cons] at hr
    unfold fillRight
    split
    next hy => exact absurd (List.getElem?_eq_none_iff.1 hy) (Nat.not_le.2 hr.1)
    next name hy =>
      obtain ⟨behind, hb, hplain⟩ := extendFirst_plain hf rest hr.2 ∅ plain_empty
      rw [firstOf, hb]
      have hbehind := ho.union y hplain
      apply ih hr.2
      split
      next hc => exact hbehind.insert (isNonTerminal_iff.2 ⟨name, hy⟩) hc.2
      next => exact hbehind
    · exact ih hr.2 follow ho

theorem fillAll_owned {first : SetTable} (hf : g.PlainTable first) (ps : List Production)
    (hps : ∀ p ∈ ps, ∀ x ∈ p.right, x < g.symbols.length) (follow : SetTable)
    (ho : g.Owned follow) :
    ∃ filled, g.fillAll first ps follow = .ok filled ∧ g.Owned filled := by
  induction ps generalizing follow with
  | nil => exact ⟨follow, rfl, ho⟩
  | cons p rest ih =>
    rw [List.forall_mem_cons] at hps
    obtain ⟨middle, hm, hmiddle⟩ := fillRight_owned hf p.left p.right hps.1 follow ho
    rw [fillAll, hm]
    exact ih hps.2 middle hmiddle

theorem filledFollow_owned (hend : g.isNonTerminal Symbol.endIndex = false)
    (hright : ∀ p ∈ g.productions, ∀ x ∈ p.right, x < g.symbols.length) {first : SetTable}
    (h : g.firstTable = .ok first) (start : Nat) :
    ∃ filled, g.filledFollow first start = .ok filled ∧ g.Owned filled := by
  refine fillAll_owned (firstTable_plain h) g.productions hright _ fun a b hb hn => ?_
  rw [(mem_startFollow.1 hb).2, hend] at hn
  cases hn

end LLOne.Grammar

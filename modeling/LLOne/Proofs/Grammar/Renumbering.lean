import LLOne.Proofs.Grammar.Conflict
import LLOne.Proofs.Grammar.LeftRecursion
import Mathlib.Logic.Equiv.Defs

/-!
# Grammars up to numbers

Two grammars may have the same symbols under other numbers, and the same productions in another
order and another number of times. A bijection between the numbers then takes each derivation of one
grammar to one of the other, so both fail the analysis or neither does, the sets of one have the
images of the members of the other, and the cells of one table hold the images of the right sides
that the other holds.
-/

namespace LLOne

def Production.renumber (e : Nat → Nat) (p : Production) : Production := ⟨e p.left, p.right.map e⟩

theorem Production.renumber_symm (e : Nat ≃ Nat) (p : Production) :
    (p.renumber e.symm).renumber e = p := by
  simp [renumber, Function.comp_def]

def SymbolSet.renumber (e : Nat → Nat) (s : SymbolSet) : SymbolSet := ofList (s.members.map e)

theorem SymbolSet.mem_renumber {e : Nat ≃ Nat} {s : SymbolSet} {x : Nat} :
    e x ∈ s.renumber e ↔ x ∈ s := by
  rw [renumber, mem_ofList, List.mem_map_of_injective e.injective, mem_members]

/-- A set is the image of another one that has the members with images in it. -/
theorem SymbolSet.eq_renumber {e : Nat ≃ Nat} {s t : SymbolSet} (h : ∀ x, e x ∈ t ↔ x ∈ s) :
    t = s.renumber e := by
  apply SymbolSet.ext
  intro y
  obtain ⟨x, rfl⟩ := e.surjective y
  rw [h, mem_renumber]

namespace Grammar

/-- `e` takes the symbols of `g` to the symbols of `h` with the same names, and the productions of
`g` to those of `h`. -/
structure Renumbers (g : Grammar) (e : Nat ≃ Nat) (h : Grammar) : Prop where
  symbol : ∀ x, h.symbols[e x]? = g.symbols[x]?
  lambda : e Symbol.lambdaIndex = Symbol.lambdaIndex
  endMarker : e Symbol.endIndex = Symbol.endIndex
  index : ∀ name, h.indexOf? name = (g.indexOf? name).map e
  production : ∀ p, p.renumber e ∈ h.productions ↔ p ∈ g.productions
  start : h.start = g.start.map e

/-- The sets of `h` for non-terminals of `g` have the images of the members that those of `g`
have. -/
structure SameSets (g : Grammar) (e : Nat ≃ Nat) (ff ff' : FirstFollow) : Prop where
  first : ∀ a, g.isNonTerminal a = true →
    ff'.first.get? (e a) = (ff.first.get? a).map (SymbolSet.renumber e)
  follow : ∀ a, g.isNonTerminal a = true →
    ff'.follow.get? (e a) = (ff.follow.get? a).map (SymbolSet.renumber e)
  nullable : ∀ a, g.isNonTerminal a = true → ff'.nullable (e a) = ff.nullable a

def cellRight (g : Grammar) (t : Table) (a x : Nat) : Option (List Nat) :=
  (t.get? a x).bind fun n => g.productions[n]?.map Production.right

theorem mem_terminalNames {g : Grammar} {name : String} :
    name ∈ g.terminalNames ↔ .terminal name ∈ g.symbols := by
  rw [terminalNames, List.mem_filterMap]
  constructor
  · rintro ⟨symbol, hmem, hs⟩
    split at hs
    · exact Option.some.inj hs ▸ hmem
    · cases hs
  · intro hmem
    exact ⟨_, hmem, rfl⟩

namespace Renumbers

variable {g h : Grammar} {e : Nat ≃ Nat} (r : g.Renumbers e h)

include r

theorem symm : h.Renumbers e.symm g where
  symbol x := by rw [← r.symbol, e.apply_symm_apply]
  lambda := by rw [e.symm_apply_eq, r.lambda]
  endMarker := by rw [e.symm_apply_eq, r.endMarker]
  index name := by simp [r.index, Function.comp_def]
  production p := by rw [← r.production, p.renumber_symm]
  start := by simp [r.start, Function.comp_def]

/-! ## Symbols -/

theorem name? (x : Nat) : h.name? (e x) = g.name? x := by
  rw [Grammar.name?, r.symbol, Grammar.name?]

theorem isNonTerminal (x : Nat) : h.isNonTerminal (e x) = g.isNonTerminal x := by
  rw [Grammar.isNonTerminal, r.symbol, Grammar.isNonTerminal]

theorem isLookahead (x : Nat) : h.isLookahead (e x) = g.isLookahead x := by
  rw [Grammar.isLookahead, r.symbol, Grammar.isLookahead]

theorem mem_symbols_iff {symbol : Symbol} : symbol ∈ h.symbols ↔ symbol ∈ g.symbols := by
  rw [List.mem_iff_getElem?, List.mem_iff_getElem?, ← e.exists_congr_right]
  simp only [r.symbol]

theorem eq_lambdaIndex_iff {x : Nat} : e x = Symbol.lambdaIndex ↔ x = Symbol.lambdaIndex := by
  rw [← r.lambda, e.apply_eq_iff_eq, r.lambda]

theorem eq_endIndex_iff {x : Nat} : e x = Symbol.endIndex ↔ x = Symbol.endIndex := by
  rw [← r.endMarker, e.apply_eq_iff_eq, r.endMarker]

theorem form (u : List Nat) : h.form (u.map e) = (g.form u).map e := by
  rw [Grammar.form, List.filter_map, Grammar.form]
  congr 1
  apply List.filter_congr
  intro x _
  rw [Function.comp_apply, r.symbol]

/-- Every production is the image of one. -/
theorem exists_renumber {q : Production} (hq : q ∈ h.productions) :
    ∃ p ∈ g.productions, p.renumber e = q :=
  ⟨q.renumber e.symm, (r.symm.production q).2 hq, q.renumber_symm e⟩

/-! ## Derivations -/

omit r in
theorem map_map_symm (e : Nat ≃ Nat) (u : List Nat) : (u.map e).map e.symm = u := by
  simp [Function.comp_def]

theorem step {u v : List Nat} (hs : g.Step u v) : h.Step (u.map e) (v.map e) := by
  obtain ⟨before, p, after, hp⟩ := hs
  have hs := Step.replace (before.map e) (p.renumber e) (after.map e) ((r.production p).2 hp)
  rw [Production.renumber, r.form] at hs
  simpa only [List.map_append, List.map_cons] using hs

theorem derives {u v : List Nat} (hd : g.Derives u v) : h.Derives (u.map e) (v.map e) :=
  Relation.ReflTransGen.lift (List.map e) (fun _ _ hs => r.step hs) _ _ hd

theorem derives_iff {u v : List Nat} : h.Derives (u.map e) (v.map e) ↔ g.Derives u v := by
  refine ⟨fun hd => ?_, r.derives⟩
  have hback := r.symm.derives hd
  rwa [map_map_symm, map_map_symm] at hback

theorem vanishes_iff {u : List Nat} : h.Vanishes (u.map e) ↔ g.Vanishes u := r.derives_iff (v := [])

theorem begins {u : List Nat} {t : Nat} (hb : g.Begins u t) : h.Begins (u.map e) (e t) := by
  obtain ⟨v, hv⟩ := hb
  exact ⟨v.map e, r.derives hv⟩

theorem begins_iff {u : List Nat} {t : Nat} : h.Begins (u.map e) (e t) ↔ g.Begins u t := by
  refine ⟨fun hb => ?_, r.begins⟩
  have hback := r.symm.begins hb
  rwa [map_map_symm, e.symm_apply_apply] at hback

theorem leftRecursive {a : Nat} (ha : g.LeftRecursive a) : h.LeftRecursive (e a) := by
  obtain ⟨v, hv⟩ := ha
  exact ⟨v.map e, Relation.TransGen.lift (List.map e) (fun _ _ hs => r.step hs) _ _ hv⟩

theorem inFirst_iff {u : List Nat} {t : Nat} : h.InFirst (u.map e) (e t) ↔ g.InFirst u t := by
  rw [InFirst, r.isLookahead, r.begins_iff, r.eq_lambdaIndex_iff, r.vanishes_iff, InFirst]

theorem follows {start a t : Nat} (hf : g.Follows start a t) :
    h.Follows (e start) (e a) (e t) := by
  obtain ⟨ht, ⟨x, u, v, hx, hd⟩ | ⟨rfl, u, hd⟩⟩ := hf
  · refine ⟨by rwa [r.isLookahead], .inl ⟨e x, u.map e, v.map e, by rwa [r.isNonTerminal], ?_⟩⟩
    simpa using r.derives hd
  · refine ⟨by rwa [r.isLookahead], .inr ⟨r.endMarker, u.map e, ?_⟩⟩
    simpa using r.derives hd

theorem follows_iff {start a t : Nat} :
    h.Follows (e start) (e a) (e t) ↔ g.Follows start a t := by
  refine ⟨fun hf => ?_, r.follows⟩
  have hback := r.symm.follows hf
  rwa [e.symm_apply_apply, e.symm_apply_apply, e.symm_apply_apply] at hback

/-! ## Sets -/

section

variable {ff ff' : FirstFollow} (hg : g.WellFormed) (hh : h.WellFormed)

include hg hh

theorem sameSets {start : Nat} (hstart : g.start = some start) (hs : g.isNonTerminal start = true)
    (hff : g.firstFollow = .ok ff) (hff' : h.firstFollow = .ok ff') : g.SameSets e ff ff' := by
  have hstart' : h.start = some (e start) := by rw [r.start, hstart, Option.map_some]
  have hs' : h.isNonTerminal (e start) = true := by rw [r.isNonTerminal, hs]
  have hfirst : ∀ a, g.isNonTerminal a = true →
      ff'.first.get? (e a) = (ff.first.get? a).map (SymbolSet.renumber e) := by
    intro a ha
    obtain ⟨-, -, -, hf, -⟩ := parts_of_firstFollow hff
    obtain ⟨-, -, -, hf', -⟩ := parts_of_firstFollow hff'
    obtain ⟨set, hset, hmem⟩ := hg.firstTable_spec hf ha
    obtain ⟨set', hset', hmem'⟩ := hh.firstTable_spec hf' ((r.isNonTerminal a).trans ha)
    rw [hset, hset', Option.map_some, ← SymbolSet.eq_renumber]
    intro x
    rw [hmem, hmem']
    exact r.inFirst_iff (u := [a])
  refine ⟨hfirst, fun a ha => ?_, fun a ha => ?_⟩
  · have ha' : h.isNonTerminal (e a) = true := (r.isNonTerminal a).trans ha
    obtain ⟨set, hset⟩ := Option.isSome_iff_exists.1 ((hg.keyed_follow hstart hs hff a).trans ha)
    obtain ⟨set', hset'⟩ :=
      Option.isSome_iff_exists.1 ((hh.keyed_follow hstart' hs' hff' (e a)).trans ha')
    rw [hset, hset', Option.map_some, ← SymbolSet.eq_renumber]
    intro x
    have hmem := hg.mem_follow_iff hstart hs hff ha x
    have hmem' := hh.mem_follow_iff hstart' hs' hff' ha' (e x)
    rw [SetTable.get, hset, Option.getD_some] at hmem
    rw [SetTable.get, hset', Option.getD_some] at hmem'
    rw [hmem, hmem', r.follows_iff]
  · obtain ⟨-, -, -, hf, -⟩ := parts_of_firstFollow hff
    obtain ⟨set, hset, -⟩ := hg.firstTable_spec hf ha
    rw [FirstFollow.nullable, FirstFollow.nullable, SetTable.get, SetTable.get, hfirst a ha, hset,
      Option.map_some, Option.getD_some, Option.getD_some, decide_eq_decide]
    have hmem := SymbolSet.mem_renumber (e := e) (s := set) (x := Symbol.lambdaIndex)
    rwa [r.lambda] at hmem

/-- Both grammars have sets that are the same, or both have none because of left recursion. -/
theorem firstFollow_cases {start : Nat} (hstart : g.start = some start)
    (hs : g.isNonTerminal start = true) :
    (∃ a b, g.firstFollow = .error (.leftRecursion a) ∧ h.firstFollow = .error (.leftRecursion b)) ∨
      ∃ ff ff', g.firstFollow = .ok ff ∧ h.firstFollow = .ok ff' ∧ g.SameSets e ff ff' := by
  have hstart' : h.start = some (e start) := by rw [r.start, hstart, Option.map_some]
  rcases hg.firstFollow_cases hstart with ⟨ff, hff⟩ | ⟨_, hff, a, name, ha, hcycle, -, rfl⟩ <;>
    rcases hh.firstFollow_cases hstart' with ⟨ff', hff'⟩ | ⟨_, hff', b, name', hb, hcycle', -, rfl⟩
  · exact .inr ⟨ff, ff', hff, hff', r.sameSets hg hh hstart hs hff hff'⟩
  · obtain ⟨-, -, -, hf, -⟩ := parts_of_firstFollow hff
    have hback := r.symm.isNonTerminal b
    exact absurd (r.symm.leftRecursive hcycle') (hg.not_leftRecursive hf (hback.trans hb))
  · obtain ⟨-, -, -, hf', -⟩ := parts_of_firstFollow hff'
    have hforth := r.isNonTerminal a
    exact absurd (r.leftRecursive hcycle) (hh.not_leftRecursive hf' (hforth.trans ha))
  · exact .inl ⟨name, name', hff, hff'⟩

end

end Renumbers

namespace SameSets

variable {g h : Grammar} {e : Nat ≃ Nat} {ff ff' : FirstFollow} (hs : g.SameSets e ff ff')
  (r : g.Renumbers e h)

include hs

theorem mem_follow {a : Nat} (ha : g.isNonTerminal a = true) (x : Nat) :
    e x ∈ ff'.follow.get (e a) ↔ x ∈ ff.follow.get a := by
  rw [SetTable.get, SetTable.get, hs.follow a ha]
  cases ff.follow.get? a with
  | none => exact iff_of_false (SymbolSet.not_mem_empty _) (SymbolSet.not_mem_empty _)
  | some set => exact SymbolSet.mem_renumber

include r

theorem predicts_iff (hg : g.WellFormed) {p : Production} (hp : p ∈ g.productions) (x : Nat) :
    h.Predicts ff' (p.renumber e) (e x) ↔ g.Predicts ff p x := by
  rw [Predicts, Production.renumber, r.isLookahead, r.form, r.begins_iff, r.vanishes_iff,
    hs.mem_follow (hg.left p hp), Predicts]

end SameSets

/-! ## Tables -/

theorem WellFormed.cellRight_eq_some_iff {g : Grammar} (hg : g.WellFormed) {ff : FirstFollow}
    (hff : g.firstFollow = .ok ff) {t : Table} (ht : g.table ff = .ok t) {a x : Nat}
    {right : List Nat} :
    g.cellRight t a x = some right ↔ ⟨a, right⟩ ∈ g.productions ∧ g.Predicts ff ⟨a, right⟩ x := by
  unfold cellRight
  constructor
  · intro hc
    obtain ⟨n, hn, hright⟩ := Option.bind_eq_some_iff.1 hc
    obtain ⟨p, hp, rfl⟩ := Option.map_eq_some_iff.1 hright
    obtain ⟨⟨q, hq, rfl, hx⟩, -⟩ := (hg.get?_eq_some_iff hff ht a x n).1 hn
    obtain rfl := Option.some.inj (hp.symm.trans hq)
    exact ⟨List.mem_of_getElem? hp, hx⟩
  · rintro ⟨hp, hx⟩
    obtain ⟨n, q, hn, hq, hr⟩ := hg.exists_cell_of_predicts hff ht hp hx
    rw [hn, Option.bind_some, hq, Option.map_some, hr]

namespace Renumbers

variable {g h : Grammar} {e : Nat ≃ Nat} {ff ff' : FirstFollow} (r : g.Renumbers e h)
  (hs : g.SameSets e ff ff') (hg : g.WellFormed) (hh : h.WellFormed)
  (hff : g.firstFollow = .ok ff) (hff' : h.firstFollow = .ok ff')

include r hs hg hh hff hff'

theorem exists_table_iff : (∃ t, h.table ff' = .ok t) ↔ ∃ t, g.table ff = .ok t := by
  rw [hg.exists_table_iff hff, hh.exists_table_iff hff']
  constructor
  · intro hnone p hp q hq hl hr x hx
    refine hnone _ ((r.production p).2 hp) _ ((r.production q).2 hq) (congrArg e hl) ?_ (e x) ?_
    · exact fun he => hr (e.injective.list_map he)
    · exact hx.imp (hs.predicts_iff r hg hp x).2 (hs.predicts_iff r hg hq x).2
  · intro hnone p' hp' q' hq' hl hr y hy
    obtain ⟨p, hp, rfl⟩ := r.exists_renumber hp'
    obtain ⟨q, hq, rfl⟩ := r.exists_renumber hq'
    obtain ⟨x, rfl⟩ := e.surjective y
    refine hnone p hp q hq (e.injective hl) (fun he => hr (congrArg (List.map e) he)) x ?_
    exact hy.imp (hs.predicts_iff r hg hp x).1 (hs.predicts_iff r hg hq x).1

/-- The cells of both tables stand for the same right sides. -/
theorem cellRight {t t' : Table} (ht : g.table ff = .ok t) (ht' : h.table ff' = .ok t')
    (a x : Nat) : h.cellRight t' (e a) (e x) = (g.cellRight t a x).map (List.map e) := by
  apply Option.ext
  intro right'
  rw [hh.cellRight_eq_some_iff hff' ht', Option.map_eq_some_iff]
  constructor
  · rintro ⟨hq, hx⟩
    obtain ⟨p, hp, he⟩ := r.exists_renumber hq
    obtain ⟨hl, rfl⟩ := Production.mk.inj he
    obtain rfl := e.injective hl
    refine ⟨p.right, (hg.cellRight_eq_some_iff hff ht).2 ⟨hp, ?_⟩, rfl⟩
    exact (hs.predicts_iff r hg hp x).1 hx
  · rintro ⟨right, hc, rfl⟩
    obtain ⟨hp, hx⟩ := (hg.cellRight_eq_some_iff hff ht).1 hc
    exact ⟨(r.production _).2 hp, (hs.predicts_iff r hg hp x).2 hx⟩

omit hs hg hh in
/-- Both tables have all their cells, which stand for the same right sides, or both fail with a
conflict. -/
theorem table_cases {lines lines' : List String} (hload : load lines = .ok g)
    (hload' : load lines' = .ok h) (hs : g.SameSets e ff ff') :
    ((∃ row column old new, g.table ff = .error (.tableConflict row column old new)) ∧
      ∃ row column old new, h.table ff' = .error (.tableConflict row column old new)) ∨
    ∃ t t', g.table ff = .ok t ∧ h.table ff' = .ok t' ∧
      ∀ a x, h.cellRight t' (e a) (e x) = (g.cellRight t a x).map (List.map e) := by
  have hg := (consistent_of_load hload).toWellFormed
  have hh := (consistent_of_load hload').toWellFormed
  have hiff := r.exists_table_iff hs hg hh hff hff'
  cases ht : g.table ff with
  | error err =>
    obtain ⟨-, -, -, -, -, -, row, column, old, new, -, -, -, -, -, -, -, rfl⟩ :=
      exists_conflict_of_table hload hff ht
    refine .inl ⟨⟨row, column, old, new, rfl⟩, ?_⟩
    cases ht' : h.table ff' with
    | error err' =>
      obtain ⟨-, -, -, -, -, -, row', column', old', new', -, -, -, -, -, -, -, rfl⟩ :=
        exists_conflict_of_table hload' hff' ht'
      exact ⟨row', column', old', new', rfl⟩
    | ok t' =>
      obtain ⟨t, hok⟩ := hiff.1 ⟨t', ht'⟩
      rw [ht] at hok
      cases hok
  | ok t =>
    obtain ⟨t', ht'⟩ := hiff.2 ⟨t, ht⟩
    exact .inr ⟨t, t', rfl, ht', r.cellRight hs hg hh hff hff' ht ht'⟩

end Renumbers

end Grammar

end LLOne

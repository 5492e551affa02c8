import LLOne.Proofs.Grammar.Renumbering
import LLOne.Proofs.Grammar.Representation

/-!
# Grammars with the same productions

The symbols of a loaded grammar are `λ`, the end marker and what its productions name, each once. So
two loaded grammars with the same productions by name have the same symbols, and a symbol of one
goes to the symbol with its name of the other.
-/

namespace LLOne.Grammar

/-- By name, the grammars have the same productions and the same start symbol. -/
structure SameProductions (g h : Grammar) : Prop where
  productions : ∀ entry, entry ∈ g.productions.map g.written ↔ entry ∈ h.productions.map h.written
  start : g.start.bind g.name? = h.start.bind h.name?

/-- The symbol of `h` with the name of a symbol of `g`. Numbers of no symbol stay. -/
def namesake (g h : Grammar) (x : Nat) : Nat := ((g.name? x).bind h.indexOf?).getD x

variable {g h : Grammar} {lines lines' : List String}

theorem SameProductions.symm (hs : g.SameProductions h) : h.SameProductions g :=
  ⟨fun entry => (hs.productions entry).symm, hs.start.symm⟩

/-! ## Symbols -/

/-- The words for a terminal are what the productions name so. -/
theorem mem_rightSides_iff {name : String} (ht : namesTerminal name = true) :
    name ∈ lines.flatMap rightSide ↔ ∃ entry ∈ spelledLines lines, some name ∈ entry.2 := by
  have hne : name ≠ Symbol.lambdaName ∧ name ≠ Symbol.lambdaWord := by
    constructor <;> rintro rfl <;> revert ht <;> decide
  rw [List.mem_flatMap]
  constructor
  · rintro ⟨line, hl, hword⟩
    have hfull : isBlankLine line = false := by
      rw [isBlankLine_eq_false_iff]
      intro hnil
      rw [rightSide, hnil] at hword
      cases hword
    refine ⟨_, mem_spelledLines.2 ⟨line, hl, hfull, rfl⟩, List.mem_map_of_mem ?_⟩
    exact List.mem_map.2 ⟨name, hword, if_neg hne.2⟩
  · rintro ⟨_, hmem, hname⟩
    obtain ⟨line, hl, -, rfl⟩ := mem_spelledLines.1 hmem
    obtain ⟨_, hspell, he⟩ := List.mem_map.1 hname
    obtain ⟨word, hword, rfl⟩ := List.mem_map.1 hspell
    obtain rfl := Option.some.inj he
    refine ⟨line, hl, ?_⟩
    unfold spelling at hne ⊢
    split
    next hw => exact absurd (if_pos hw) hne.1
    next => exact hword

theorem mem_symbols_iff_of_load (hg : load lines = .ok g) {symbol : Symbol} :
    symbol ∈ g.symbols ↔ symbol = .lambda ∨ symbol = .endMarker ∨
      (∃ name, (∃ entry ∈ g.productions.map g.written, entry.1 = some name) ∧
        .nonTerminal name = symbol) ∨
      ∃ name, (namesTerminal name = true ∧
        ∃ entry ∈ g.productions.map g.written, some name ∈ entry.2) ∧ .terminal name = symbol := by
  have hterminals : ∀ name, name ∈ (lines.flatMap rightSide).filter namesTerminal ↔
      namesTerminal name = true ∧ ∃ entry ∈ spelledLines lines, some name ∈ entry.2 := by
    intro name
    rw [List.mem_filter, and_comm]
    exact and_congr_right mem_rightSides_iff
  rw [(collects_of_load hg).symbols, written_of_load hg]
  simp only [List.mem_cons, List.mem_append, List.mem_map, List.mem_eraseDups, mem_leftSides_iff,
    hterminals]

theorem SameProductions.mem_symbols_iff (hs : g.SameProductions h) (hg : load lines = .ok g)
    (hh : load lines' = .ok h) {symbol : Symbol} : symbol ∈ g.symbols ↔ symbol ∈ h.symbols := by
  rw [mem_symbols_iff_of_load hg, mem_symbols_iff_of_load hh]
  simp only [hs.productions]

theorem WellFormed.name?_endIndex (hg : g.WellFormed) :
    g.name? Symbol.endIndex = some Symbol.endMarkerName := by
  rw [name?, hg.endMarker]
  rfl

/-- Both grammars number as many symbols. -/
theorem SameProductions.length_symbols (hs : g.SameProductions h) (hg : load lines = .ok g)
    (hh : load lines' = .ok h) : g.symbols.length = h.symbols.length := by
  have hperm : g.symbols.Perm h.symbols :=
    (List.perm_ext_iff_of_nodup (collects_of_load hg).indexed.nodup_names.of_map
      (collects_of_load hh).indexed.nodup_names.of_map).2 fun _ => hs.mem_symbols_iff hg hh
  exact hperm.length_eq

/-! ## Namesakes -/

theorem namesake_of_name? (hi : h.Indexed) {x y : Nat} {name : String}
    (hx : g.name? x = some name) (hy : h.name? y = some name) : namesake g h x = y := by
  rw [namesake, hx, Option.bind_some, (hi name y).2 (.inl hy), Option.getD_some]

theorem namesake_of_none {x : Nat} (hx : g.name? x = none) : namesake g h x = x := by
  rw [namesake, hx, Option.bind_none, Option.getD_none]

theorem name?_eq_none_iff {x : Nat} : g.name? x = none ↔ g.symbols.length ≤ x := by
  rw [name?, Option.map_eq_none_iff, List.getElem?_eq_none_iff]

theorem exists_name? {x : Nat} (hx : x < g.symbols.length) : ∃ name, g.name? x = some name := by
  rw [← Option.ne_none_iff_exists', ne_eq, name?_eq_none_iff]
  exact Nat.not_le_of_lt hx

/-- Numbers of symbols that have the same names are the same. -/
theorem Indexed.eq_of_map_name? (hi : g.Indexed) {xs ys : List Nat}
    (he : xs.map g.name? = ys.map g.name?) (hxs : ∀ x ∈ xs, x < g.symbols.length) : xs = ys := by
  induction xs generalizing ys with
  | nil => exact (List.map_eq_nil_iff.1 he.symm).symm
  | cons x xs ih =>
    rw [List.forall_mem_cons] at hxs
    obtain ⟨y, ys, rfl, hy, hrest⟩ := List.map_eq_cons_iff.1 he.symm
    obtain ⟨name, hx⟩ := exists_name? hxs.1
    rw [hi.eq_of_name? hx (hy.trans hx), ih hrest.symm hxs.2]

/-- What is written like a production of the grammar is that production. -/
theorem eq_of_written (hg : load lines = .ok g) {p q : Production}
    (hp : p ∈ g.productions) (he : g.written p = g.written q) : p = q := by
  have hi := (collects_of_load hg).indexed
  have hleft := (consistent_of_load hg).left p hp
  obtain ⟨name, hname⟩ := exists_name? (g.lt_length_of_isNonTerminal hleft)
  obtain ⟨hl, hr⟩ := Prod.mk.inj he
  have hsame : p.left = q.left := hi.eq_of_name? hname (hl.symm.trans hname)
  have hright : p.right = q.right := hi.eq_of_map_name? hr ((consistent_of_load hg).right p hp)
  cases p
  cases q
  exact congrArg₂ Production.mk hsame hright

namespace SameProductions

variable (hs : g.SameProductions h) (hg : load lines = .ok g) (hh : load lines' = .ok h)

include hs hg hh

theorem symbol_namesake (x : Nat) : h.symbols[namesake g h x]? = g.symbols[x]? := by
  cases hx : g.symbols[x]? with
  | none =>
    have hnone : g.name? x = none := by rw [name?, hx, Option.map_none]
    rw [namesake_of_none hnone, List.getElem?_eq_none_iff, ← hs.length_symbols hg hh]
    exact name?_eq_none_iff.1 hnone
  | some symbol =>
    obtain ⟨y, hy⟩ := List.getElem?_of_mem
      ((hs.mem_symbols_iff hg hh).1 (List.mem_of_getElem? hx))
    have hnx : g.name? x = some symbol.name := by rw [name?, hx, Option.map_some]
    have hny : h.name? y = some symbol.name := by rw [name?, hy, Option.map_some]
    rw [namesake_of_name? (collects_of_load hh).indexed hnx hny, hy]

theorem name?_namesake (x : Nat) : h.name? (namesake g h x) = g.name? x := by
  rw [name?, hs.symbol_namesake hg hh, name?]

theorem namesake_namesake (x : Nat) : namesake h g (namesake g h x) = x := by
  have hname := hs.name?_namesake hg hh x
  cases hx : g.name? x with
  | none =>
    rw [namesake_of_none hx] at hname ⊢
    exact namesake_of_none (hname.trans hx)
  | some name => exact namesake_of_name? (collects_of_load hg).indexed (hname.trans hx) hx

omit hs hg hh in
def equiv (hs : g.SameProductions h) (hg : load lines = .ok g) (hh : load lines' = .ok h) :
    Nat ≃ Nat where
  toFun := namesake g h
  invFun := namesake h g
  left_inv := hs.namesake_namesake hg hh
  right_inv := hs.symm.namesake_namesake hh hg

theorem name?_equiv (x : Nat) : h.name? (hs.equiv hg hh x) = g.name? x :=
  hs.name?_namesake hg hh x

theorem eq_equiv {x y : Nat} {name : String} (hx : g.name? x = some name)
    (hy : h.name? y = some name) : y = hs.equiv hg hh x :=
  (namesake_of_name? (collects_of_load hh).indexed hx hy).symm

theorem written_renumber (p : Production) :
    h.written (p.renumber (hs.equiv hg hh)) = g.written p := by
  rw [written, written, Production.renumber, List.map_map, hs.name?_equiv hg hh]
  congr 1
  exact List.map_congr_left fun x _ => hs.name?_equiv hg hh x

theorem renumber_mem_iff (p : Production) :
    p.renumber (hs.equiv hg hh) ∈ h.productions ↔ p ∈ g.productions := by
  have hw := hs.written_renumber hg hh p
  constructor
  · intro hp
    have hmem := (hs.productions _).2 (List.mem_map_of_mem hp)
    obtain ⟨q, hq, he⟩ := List.mem_map.1 hmem
    exact eq_of_written hg hq (he.trans hw) ▸ hq
  · intro hp
    have hmem := (hs.productions _).1 (List.mem_map_of_mem hp)
    obtain ⟨q, hq, he⟩ := List.mem_map.1 hmem
    exact eq_of_written hh hq (he.trans hw.symm) ▸ hq

theorem indexOf?_equiv (name : String) :
    h.indexOf? name = (g.indexOf? name).map (hs.equiv hg hh) := by
  apply Option.ext
  intro y
  obtain ⟨x, rfl⟩ := (hs.equiv hg hh).surjective y
  have hi := (collects_of_load hg).indexed name
  have hlambda := hs.eq_equiv hg hh (collects_of_load hg).name?_lambdaIndex
    (collects_of_load hh).name?_lambdaIndex
  rw [Option.map_eq_some_iff, (collects_of_load hh).indexed, hs.name?_equiv hg hh]
  constructor
  · rintro (hx | ⟨hword, hx⟩)
    · exact ⟨x, (hi x).2 (.inl hx), rfl⟩
    · exact ⟨_, (hi _).2 (.inr ⟨hword, rfl⟩), hlambda.symm.trans hx.symm⟩
  · rintro ⟨z, hz, he⟩
    obtain rfl := (hs.equiv hg hh).injective he
    rcases (hi z).1 hz with hz | ⟨hword, rfl⟩
    · exact .inl hz
    · exact .inr ⟨hword, hlambda.symm⟩

theorem start_equiv : h.start = g.start.map (hs.equiv hg hh) := by
  have hstart := hs.start
  cases hx : g.start with
  | none =>
    rw [hx, Option.bind_none] at hstart
    cases hy : h.start with
    | none => rfl
    | some y =>
      have hn := isNonTerminal_start_of_load hh hy
      obtain ⟨name, hname⟩ := exists_name? (h.lt_length_of_isNonTerminal hn)
      rw [hy, Option.bind_some, hname] at hstart
      cases hstart
  | some x =>
    have hn := isNonTerminal_start_of_load hg hx
    obtain ⟨name, hname⟩ := exists_name? (g.lt_length_of_isNonTerminal hn)
    rw [hx, Option.bind_some, hname] at hstart
    obtain ⟨y, hy, hyname⟩ := Option.bind_eq_some_iff.1 hstart.symm
    rw [hy, Option.map_some, hs.eq_equiv hg hh hname hyname]

theorem renumbers : g.Renumbers (hs.equiv hg hh) h where
  symbol := hs.symbol_namesake hg hh
  lambda := (hs.eq_equiv hg hh (collects_of_load hg).name?_lambdaIndex
    (collects_of_load hh).name?_lambdaIndex).symm
  endMarker := (hs.eq_equiv hg hh (consistent_of_load hg).name?_endIndex
    (consistent_of_load hh).name?_endIndex).symm
  index := hs.indexOf?_equiv hg hh
  production := hs.renumber_mem_iff hg hh
  start := hs.start_equiv hg hh

end SameProductions

end LLOne.Grammar

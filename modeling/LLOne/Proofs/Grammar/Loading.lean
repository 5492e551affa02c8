import LLOne.Grammar.Load
import LLOne.Proofs.Grammar.WellFormed

/-!
# Loaded grammars are well-formed

While a grammar is read, its names lead to symbols that it has, and the words in angle brackets
among them to non-terminals. Each step of the reading keeps this and the symbols that there are.
-/

namespace LLOne.Grammar

structure Consistent (g : Grammar) : Prop extends g.WellFormed where
  only_lambda : ∀ x, g.symbols[x]? = some .lambda → x = Symbol.lambdaIndex
  named : ∀ name x, g.indexOf? name = some x → x < g.symbols.length
  bracketed : ∀ name x, isBracketed name = true → g.indexOf? name = some x →
    g.isNonTerminal x = true

def Grows (g h : Grammar) : Prop := g.symbols <+: h.symbols

theorem Grows.refl (g : Grammar) : g.Grows g := List.prefix_rfl

theorem Grows.trans {g h k : Grammar} (hgh : g.Grows h) (hhk : h.Grows k) : g.Grows k :=
  List.IsPrefix.trans hgh hhk

theorem Grows.getElem? {g h : Grammar} (hgh : g.Grows h) {x : Nat} {symbol : Symbol}
    (hx : g.symbols[x]? = some symbol) : h.symbols[x]? = some symbol := by
  obtain ⟨more, he⟩ := hgh
  have hlt := (List.getElem?_eq_some_iff.1 hx).1
  rw [← he, List.getElem?_append_left hlt, hx]

theorem Grows.isNonTerminal {g h : Grammar} (hgh : g.Grows h) {x : Nat}
    (hx : g.isNonTerminal x = true) : h.isNonTerminal x = true := by
  obtain ⟨name, hn⟩ := isNonTerminal_iff.1 hx
  exact isNonTerminal_iff.2 ⟨name, hgh.getElem? hn⟩

theorem Grows.length_le {g h : Grammar} (hgh : g.Grows h) :
    g.symbols.length ≤ h.symbols.length := List.IsPrefix.length_le hgh

theorem grows_addSymbol (g : Grammar) (symbol : Symbol) : g.Grows (g.addSymbol symbol) :=
  List.prefix_append ..

theorem consistent_blank : blank.Consistent := by
  have hmem : ∀ name x, blank.indexOf? name = some x → (name, x) ∈ blank.names := by
    intro name x hx
    obtain ⟨before, after, he, -⟩ := List.lookup_eq_some_iff.1 hx
    exact he ▸ List.mem_append_right before List.mem_cons_self
  refine { lambda := rfl, endMarker := rfl, left := by simp [blank], right := by simp [blank],
           only_lambda := ?_, named := ?_, bracketed := ?_ }
  · intro x hx
    match x with
    | 0 => rfl
    | 1 => cases hx
    | x + 2 => cases hx
  · intro name x hx
    have hall : ∀ entry ∈ blank.names, entry.2 < blank.symbols.length := by decide
    exact hall (name, x) (hmem name x hx)
  · intro name x hb hx
    have hall : ∀ entry ∈ blank.names, isBracketed entry.1 = false := by decide
    rw [hall (name, x) (hmem name x hx)] at hb
    cases hb

namespace Consistent

variable {g : Grammar} (hg : g.Consistent)

include hg

theorem addSymbol {symbol : Symbol} (hl : symbol ≠ .lambda)
    (hb : isBracketed symbol.name = true → symbol.isNonTerminal = true) :
    (g.addSymbol symbol).Consistent := by
  have hgrow := g.grows_addSymbol symbol
  have hnew : (g.addSymbol symbol).symbols[g.symbols.length]? = some symbol := by
    simp [Grammar.addSymbol]
  refine { lambda := hgrow.getElem? hg.lambda, endMarker := hgrow.getElem? hg.endMarker,
           left := fun p hp => hgrow.isNonTerminal (hg.left p hp)
           right := fun p hp x hx => Nat.lt_of_lt_of_le (hg.right p hp x hx) hgrow.length_le
           only_lambda := ?_, named := ?_, bracketed := ?_ }
  · intro x hx
    by_cases hlt : x < g.symbols.length
    · apply hg.only_lambda
      have hold := hgrow.getElem? (List.getElem?_eq_getElem hlt)
      rw [List.getElem?_eq_getElem hlt, ← hold, hx]
    · have hle : x < g.symbols.length + 1 := by
        simpa [Grammar.addSymbol] using (List.getElem?_eq_some_iff.1 hx).1
      obtain rfl : x = g.symbols.length := by omega
      rw [hnew] at hx
      exact absurd (Option.some.inj hx) hl
  · intro name x hx
    rw [indexOf?_addSymbol] at hx
    split at hx
    · obtain rfl := Option.some.inj hx
      exact (List.getElem?_eq_some_iff.1 hnew).1
    · exact Nat.lt_of_lt_of_le (hg.named name x hx) hgrow.length_le
  · intro name x hbr hx
    rw [indexOf?_addSymbol] at hx
    split at hx
    next hn =>
      obtain rfl := Option.some.inj hx
      subst hn
      rw [Grammar.isNonTerminal, hnew, Option.any_some]
      exact hb hbr
    next hn => exact hgrow.isNonTerminal (hg.bracketed name x hbr hx)

theorem addProduction {left : Nat} {right : List Nat} (hl : g.isNonTerminal left = true)
    (hr : ∀ x ∈ right, x < g.symbols.length) : (g.addProduction left right).Consistent where
  lambda := hg.lambda
  endMarker := hg.endMarker
  left p hp := by
    rcases List.mem_append.1 hp with hp | hp
    · exact hg.left p hp
    · rw [List.mem_singleton.1 hp]
      exact hl
  right p hp := by
    rcases List.mem_append.1 hp with hp | hp
    · exact hg.right p hp
    · rw [List.mem_singleton.1 hp]
      exact hr
  only_lambda := hg.only_lambda
  named := hg.named
  bracketed := hg.bracketed

/-- A name that is looked for and added if it is missing. -/
theorem resolve (symbol : Symbol) (hl : symbol ≠ .lambda)
    (hb : isBracketed symbol.name = true → g.indexOf? symbol.name = none →
      symbol.isNonTerminal = true) :
    (g.resolve symbol).1.Consistent ∧ g.Grows (g.resolve symbol).1 ∧
      (g.resolve symbol).1.indexOf? symbol.name = some (g.resolve symbol).2 := by
  unfold Grammar.resolve
  split
  next x hx => exact ⟨hg, .refl g, hx⟩
  next hx =>
    refine ⟨hg.addSymbol hl fun h => hb h hx, g.grows_addSymbol symbol, ?_⟩
    rw [indexOf?_addSymbol, if_pos rfl]

end Consistent

theorem productions_resolve (g : Grammar) (symbol : Symbol) :
    (g.resolve symbol).1.productions = g.productions := by
  unfold resolve
  split <;> rfl

theorem readLeftSides_spec {lines : List String} {number : Nat} {g h : Grammar}
    {rules : List Rule} (hg : g.Consistent) (hr : readLeftSides number g lines = .ok (h, rules)) :
    h.Consistent ∧ g.Grows h ∧ h.productions = g.productions ∧
      ∀ rule ∈ rules, h.isNonTerminal rule.left = true := by
  induction lines generalizing number g rules with
  | nil =>
    obtain ⟨rfl, rfl⟩ := Prod.mk.inj (Except.ok.inj hr)
    exact ⟨hg, .refl g, rfl, by simp⟩
  | cons line rest ih =>
    unfold readLeftSides at hr
    split at hr
    · exact ih hg hr
    next left arrow word words _ =>
      split at hr
      next hc =>
        obtain ⟨hnew, hgrow, hindex⟩ := hg.resolve (.nonTerminal left)
          (fun he => by cases he) fun _ _ => rfl
        have hproductions := productions_resolve g (.nonTerminal left)
        simp only at hr
        cases hrest : readLeftSides (number + 1) (g.resolve (.nonTerminal left)).1 rest with
        | error e => rw [hrest] at hr; cases hr
        | ok result =>
          rw [hrest] at hr
          obtain ⟨rfl, rfl⟩ := Prod.mk.inj (Except.ok.inj hr)
          obtain ⟨hh, hgrow', hproductions', hrules⟩ := ih hnew hrest
          refine ⟨hh, hgrow.trans hgrow', hproductions'.trans hproductions, ?_⟩
          intro rule hrule
          rcases List.mem_cons.1 hrule with rfl | hrule
          · exact hgrow'.isNonTerminal (hnew.bracketed left _ hc.2 hindex)
          · exact hrules rule hrule
      next hc => cases hr
    · cases hr

theorem readRightSide_spec {words : List String} {g h : Grammar} {right : List Nat}
    (hg : g.Consistent) (hr : readRightSide g words = .ok (h, right)) :
    h.Consistent ∧ g.Grows h ∧ h.productions = g.productions ∧
      ∀ x ∈ right, x < h.symbols.length := by
  induction words generalizing g right with
  | nil =>
    obtain ⟨rfl, rfl⟩ := Prod.mk.inj (Except.ok.inj hr)
    exact ⟨hg, .refl g, rfl, by simp⟩
  | cons word rest ih =>
    unfold readRightSide at hr
    split at hr
    next hc => cases hr
    next hc =>
      obtain ⟨hnew, hgrow, hindex⟩ := hg.resolve (.terminal word)
        (fun he => by cases he) fun hb hn => by simp_all [Symbol.name]
      have hproductions := productions_resolve g (.terminal word)
      simp only at hr
      cases hrest : readRightSide (g.resolve (.terminal word)).1 rest with
      | error e => rw [hrest] at hr; cases hr
      | ok result =>
        rw [hrest] at hr
        obtain ⟨rfl, rfl⟩ := Prod.mk.inj (Except.ok.inj hr)
        obtain ⟨hh, hgrow', hproductions', hright⟩ := ih hnew hrest
        refine ⟨hh, hgrow.trans hgrow', hproductions'.trans hproductions, ?_⟩
        intro x hx
        rcases List.mem_cons.1 hx with rfl | hx
        · exact Nat.lt_of_lt_of_le (hnew.named word _ hindex) hgrow'.length_le
        · exact hright x hx

theorem readRightSides_spec {rules : List Rule} {g h : Grammar} (hg : g.Consistent)
    (hl : ∀ rule ∈ rules, g.isNonTerminal rule.left = true)
    (hr : readRightSides g rules = .ok h) : h.Consistent := by
  induction rules generalizing g with
  | nil => exact Except.ok.inj hr ▸ hg
  | cons rule rest ih =>
    unfold readRightSides at hr
    split at hr
    · cases hr
    next h' right hright =>
      obtain ⟨hnew, hgrow, -, hrange⟩ := readRightSide_spec hg hright
      split at hr
      · cases hr
      · refine ih (hnew.addProduction ?_ hrange) ?_ hr
        · exact hgrow.isNonTerminal (hl rule List.mem_cons_self)
        · intro rule' hrule'
          exact hgrow.isNonTerminal (hl rule' (List.mem_cons_of_mem rule hrule'))

variable {lines : List String} {g : Grammar}

theorem consistent_of_load (hload : load lines = .ok g) : g.Consistent := by
  unfold load at hload
  split at hload
  · cases hload
  next h rules hleft =>
    obtain ⟨hh, -, -, hrules⟩ := readLeftSides_spec consistent_blank hleft
    cases hright : readRightSides h rules with
    | error e => rw [hright] at hload; cases hload
    | ok k =>
      rw [hright] at hload
      obtain rfl := Except.ok.inj hload
      have hk := readRightSides_spec hh hrules hright
      exact ⟨⟨hk.lambda, hk.endMarker, hk.left, hk.right⟩, hk.only_lambda, hk.named, hk.bracketed⟩

/-- The start symbol is the left side of the first production. -/
theorem start_of_load (hload : load lines = .ok g) :
    g.start = g.productions.head?.map Production.left := by
  unfold load at hload
  split at hload
  · cases hload
  next h rules _ =>
    cases hright : readRightSides h rules with
    | error e => rw [hright] at hload; cases hload
    | ok k =>
      rw [hright] at hload
      obtain rfl := Except.ok.inj hload
      rfl

theorem isNonTerminal_start_of_load (hload : load lines = .ok g) {start : Nat}
    (hs : g.start = some start) : g.isNonTerminal start = true := by
  rw [start_of_load hload] at hs
  obtain ⟨p, hp, rfl⟩ := Option.map_eq_some_iff.1 hs
  exact (consistent_of_load hload).left p (List.mem_of_mem_head? hp)

end LLOne.Grammar

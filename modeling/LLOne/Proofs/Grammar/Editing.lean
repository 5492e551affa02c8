import LLOne.Proofs.Grammar.Ledger

/-!
# Editing a grammar

An edit adds a symbol or changes one in its place. So nothing that there is ever moves, and only the
edits that add a symbol matter to what a name leads to. Loading is a run of edits of the blank
grammar, so whatever is then edited, the ledger stays in step.
-/

namespace LLOne

namespace Ledger

variable {l m k : Ledger} {e : Edit} {es : List Edit}

/-! ## What edits keep -/

namespace Entry

theorem Keeps.refl (entry : Entry) : entry.Keeps entry := by
  cases entry with
  | lambda => exact .lambda
  | endMarker => exact .endMarker
  | nonTerminal index name ns => exact .nonTerminal List.prefix_rfl
  | terminal name => exact .terminal

theorem Keeps.trans {a b c : Entry} (hab : a.Keeps b) (hbc : b.Keeps c) : a.Keeps c := by
  cases hab with
  | lambda => exact hbc
  | endMarker => exact hbc
  | terminal => exact hbc
  | nonTerminal h =>
    cases hbc with
    | nonTerminal h' => exact .nonTerminal (h.trans h')

theorem keeps_addProduction (entry : Entry) (number : Nat) :
    entry.Keeps (entry.addProduction number) := by
  cases entry with
  | nonTerminal index name ns => exact .nonTerminal (List.prefix_append ns [number])
  | lambda => exact .lambda
  | endMarker => exact .endMarker
  | terminal name => exact .terminal

theorem keeps_rename (entry : Entry) (name : String) : entry.Keeps (entry.rename name) := by
  cases entry with
  | nonTerminal index old ns => exact .nonTerminal List.prefix_rfl
  | lambda => exact .lambda
  | endMarker => exact .endMarker
  | terminal old => exact .terminal

end Entry

/-- An edit either adds a symbol or changes an entry in its place and leaves the names alone. -/
theorem edit_cases (h : l.edit e = .ok m) :
    (∃ symbol, e.symbol? = some symbol ∧ m = l.addSymbol symbol) ∨
    e.symbol? = none ∧ m.names = l.names ∧ l.productions <+: m.productions ∧
      ∃ index f, (∀ entry : Entry, entry.Keeps (f entry)) ∧
        m.entries = l.entries.modify index f := by
  cases e with
  | addNonTerminal name => exact .inl ⟨_, rfl, (Except.ok.inj h).symm⟩
  | addTerminal name => exact .inl ⟨_, rfl, (Except.ok.inj h).symm⟩
  | addProduction left right =>
    simp only [edit] at h
    split at h
    · obtain rfl := Except.ok.inj h
      exact .inr ⟨rfl, rfl, List.prefix_append _ _, left, _,
        fun entry => entry.keeps_addProduction _, rfl⟩
    · cases h
  | setStart start =>
    obtain rfl := Except.ok.inj h
    exact .inr ⟨rfl, rfl, List.prefix_rfl, 0, id, Entry.Keeps.refl, (List.modify_id 0 _).symm⟩
  | rename index name =>
    simp only [edit] at h
    split at h
    · obtain rfl := Except.ok.inj h
      exact .inr ⟨rfl, rfl, List.prefix_rfl, index, _, fun entry => entry.keeps_rename name, rfl⟩
    · cases h

theorem Kept.refl (l : Ledger) : l.Kept l :=
  ⟨fun _ entry h => ⟨entry, h, .refl entry⟩, List.prefix_rfl⟩

theorem Kept.trans (hlk : l.Kept k) (hkm : k.Kept m) : l.Kept m := by
  refine ⟨fun x entry hx => ?_, hlk.productions.trans hkm.productions⟩
  obtain ⟨entry', hx', hkeeps⟩ := hlk.entries x entry hx
  obtain ⟨entry'', hx'', hkeeps'⟩ := hkm.entries x entry' hx'
  exact ⟨entry'', hx'', hkeeps.trans hkeeps'⟩

theorem kept_edit (h : l.edit e = .ok m) : l.Kept m := by
  rcases edit_cases h with ⟨symbol, -, rfl⟩ | ⟨-, -, hproductions, index, f, hf, hentries⟩
  · refine ⟨fun x entry hx => ⟨entry, ?_, .refl entry⟩, List.prefix_rfl⟩
    have hlt := (List.getElem?_eq_some_iff.1 hx).1
    rw [addSymbol, List.getElem?_append_left hlt, hx]
  · refine ⟨fun x entry hx => ?_, hproductions⟩
    rw [hentries, List.getElem?_modify, hx]
    by_cases hi : index = x
    · exact ⟨f entry, by simp [hi], hf entry⟩
    · exact ⟨entry, by simp [hi], .refl entry⟩

theorem kept_edits (h : l.edits es = .ok m) : l.Kept m := by
  induction es generalizing l with
  | nil => exact Except.ok.inj h ▸ .refl l
  | cons e es ih =>
    obtain ⟨k, hk, hrest⟩ := exists_of_bind_eq_ok h
    exact (kept_edit hk).trans (ih hrest)

/-! ## Which edits succeed -/

theorem length_entries_edit (h : l.edit e = .ok m) :
    m.entries.length = l.entries.length + e.symbol?.toList.length := by
  rcases edit_cases h with ⟨symbol, hs, rfl⟩ | ⟨hs, -, -, index, f, -, hentries⟩
  · simp [addSymbol, hs]
  · simp [hentries, hs]

theorem exists_edit_iff : (∃ m, l.edit e = .ok m) ↔ e.Within l.entries.length := by
  cases e with
  | addNonTerminal name => exact iff_of_true ⟨_, rfl⟩ trivial
  | addTerminal name => exact iff_of_true ⟨_, rfl⟩ trivial
  | setStart start => exact iff_of_true ⟨_, rfl⟩ trivial
  | addProduction left right =>
    by_cases hl : left < l.entries.length <;> simp [edit, Edit.Within, hl]
  | rename index name =>
    by_cases hl : index < l.entries.length <;> simp [edit, Edit.Within, hl]

theorem exists_edits_iff : (∃ m, l.edits es = .ok m) ↔ Edit.AllWithin l.entries.length es := by
  induction es generalizing l with
  | nil => exact iff_of_true ⟨l, rfl⟩ trivial
  | cons e es ih =>
    rw [Edit.AllWithin, ← exists_edit_iff]
    constructor
    · rintro ⟨m, hm⟩
      obtain ⟨k, hk, hrest⟩ := exists_of_bind_eq_ok hm
      rw [← length_entries_edit hk]
      exact ⟨⟨k, hk⟩, ih.1 ⟨m, hrest⟩⟩
    · rintro ⟨⟨k, hk⟩, hwithin⟩
      rw [← length_entries_edit hk] at hwithin
      obtain ⟨m, hm⟩ := ih.2 hwithin
      refine ⟨m, ?_⟩
      rw [edits, List.foldlM_cons, hk]
      exact hm

/-! ## Names -/

theorem indexOf?_addSymbol (symbol : Symbol) (name : String) :
    (l.addSymbol symbol).indexOf? name =
      if name = symbol.name then some l.entries.length else l.indexOf? name := by
  by_cases hn : name = symbol.name
  · simp [indexOf?, addSymbol, hn]
  · simp [indexOf?, addSymbol, List.lookup_cons, hn, beq_eq_false_iff_ne.2 hn]

theorem indexOf?_edits {name : String} (h : l.edits es = .ok m)
    (hes : ∀ e ∈ es, e.entered? ≠ some name) : m.indexOf? name = l.indexOf? name := by
  induction es generalizing l with
  | nil => rw [Except.ok.inj h]
  | cons e es ih =>
    obtain ⟨k, hk, hrest⟩ := exists_of_bind_eq_ok h
    rw [List.forall_mem_cons] at hes
    rw [ih hrest hes.2]
    rcases edit_cases hk with ⟨symbol, hs, rfl⟩ | ⟨-, hnames, -⟩
    · have hne : name ≠ symbol.name := by
        rintro rfl
        exact hes.1 (by simp [Edit.entered?, hs])
      rw [indexOf?_addSymbol, if_neg hne]
    · rw [indexOf?, hnames, indexOf?]

theorem resolves_edits (h : l.edits es = .ok m) : l.Resolves es m := by
  refine ⟨fun before e after symbol he hs hafter => ?_, fun name => indexOf?_edits h⟩
  rw [he, edits, List.foldlM_append] at h
  obtain ⟨k, hk, hrest⟩ := exists_of_bind_eq_ok h
  obtain ⟨k', hk', hrest⟩ := exists_of_bind_eq_ok hrest
  rcases edit_cases hk' with ⟨symbol', hs', rfl⟩ | ⟨hs', -⟩
  · obtain rfl : symbol = symbol' := Option.some.inj (hs.symm.trans hs')
    have hnew : (k.addSymbol symbol).entries[k.entries.length]? =
        some (.ofSymbol k.entries.length [] symbol) := by
      simp [addSymbol]
    obtain ⟨entry, hentry, hkeeps⟩ := (kept_edits hrest).entries _ _ hnew
    refine ⟨k, entry, hk, ?_, hentry, hkeeps⟩
    rw [indexOf?_edits hrest hafter, indexOf?_addSymbol, if_pos rfl]
  · rw [hs] at hs'
    cases hs'

end Ledger

/-! ## Loading -/

namespace Grammar

variable {g h k : Grammar}

def EditsTo (g h : Grammar) : Prop := ∃ es, g.edits es = .ok h

theorem EditsTo.refl (g : Grammar) : g.EditsTo g := ⟨[], rfl⟩

theorem EditsTo.trans (hgh : g.EditsTo h) (hhk : h.EditsTo k) : g.EditsTo k := by
  obtain ⟨es, hes⟩ := hgh
  obtain ⟨fs, hfs⟩ := hhk
  refine ⟨es ++ fs, ?_⟩
  rw [edits] at hes
  rw [edits, List.foldlM_append, hes]
  exact hfs

theorem EditsTo.of_edit {e : Edit} (he : g.edit e = .ok h) : g.EditsTo h := by
  refine ⟨[e], ?_⟩
  rw [edits, List.foldlM_cons, he]
  rfl

theorem editsTo_resolve {e : Edit} {symbol : Symbol} (he : g.edit e = .ok (g.addSymbol symbol)) :
    g.EditsTo (g.resolve symbol).1 := by
  unfold resolve
  split
  · exact .refl g
  · exact .of_edit he

theorem editsTo_readLeftSides {lines : List String} {number : Nat} {rules : List Rule}
    (hr : readLeftSides number g lines = .ok (h, rules)) : g.EditsTo h := by
  induction lines generalizing number g rules with
  | nil =>
    obtain ⟨rfl, -⟩ := Prod.mk.inj (Except.ok.inj hr)
    exact .refl g
  | cons line rest ih =>
    unfold readLeftSides at hr
    split at hr
    · exact ih hr
    next left arrow word words _ =>
      split at hr
      · simp only at hr
        cases hrest : readLeftSides (number + 1) (g.resolve (.nonTerminal left)).1 rest with
        | error e => rw [hrest] at hr; cases hr
        | ok result =>
          rw [hrest] at hr
          obtain ⟨rfl, -⟩ := Prod.mk.inj (Except.ok.inj hr)
          exact (editsTo_resolve (e := .addNonTerminal left) rfl).trans (ih hrest)
      · cases hr
    · cases hr

theorem editsTo_readRightSide {words : List String} {right : List Nat}
    (hr : readRightSide g words = .ok (h, right)) : g.EditsTo h := by
  induction words generalizing g right with
  | nil =>
    obtain ⟨rfl, -⟩ := Prod.mk.inj (Except.ok.inj hr)
    exact .refl g
  | cons word rest ih =>
    unfold readRightSide at hr
    split at hr
    · cases hr
    · simp only at hr
      cases hrest : readRightSide (g.resolve (.terminal word)).1 rest with
      | error e => rw [hrest] at hr; cases hr
      | ok result =>
        rw [hrest] at hr
        obtain ⟨rfl, -⟩ := Prod.mk.inj (Except.ok.inj hr)
        exact (editsTo_resolve (e := .addTerminal word) rfl).trans (ih hrest)

theorem editsTo_readRightSides {rules : List Rule} (hg : g.Consistent)
    (hl : ∀ rule ∈ rules, g.isNonTerminal rule.left = true)
    (hr : readRightSides g rules = .ok h) : g.EditsTo h := by
  induction rules generalizing g with
  | nil => exact Except.ok.inj hr ▸ .refl g
  | cons rule rest ih =>
    unfold readRightSides at hr
    rw [List.forall_mem_cons] at hl
    split at hr
    · cases hr
    next h' right hright =>
      obtain ⟨hnew, hgrow, -, hrange⟩ := readRightSide_spec hg hright
      split at hr
      · cases hr
      · have hleft := hgrow.isNonTerminal hl.1
        have hedit : h'.edit (.addProduction rule.left right) =
            .ok (h'.addProduction rule.left right) :=
          if_pos (h'.lt_length_of_isNonTerminal hleft)
        refine ((editsTo_readRightSide hright).trans (.of_edit hedit)).trans ?_
        exact ih (hnew.addProduction hleft hrange)
          (fun rule' hrule' => hgrow.isNonTerminal (hl.2 rule' hrule')) hr

/-- A grammar is loaded by edits of the blank one. -/
theorem editsTo_of_load {lines : List String} (hload : load lines = .ok g) : blank.EditsTo g := by
  unfold load at hload
  split at hload
  · cases hload
  next h rules hleft =>
    obtain ⟨hh, -, -, hrules⟩ := readLeftSides_spec consistent_blank hleft
    cases hright : readRightSides h rules with
    | error e => rw [hright] at hload; cases hload
    | ok k =>
      rw [hright] at hload
      obtain rfl := Except.ok.inj hload
      exact ((editsTo_readLeftSides hleft).trans (editsTo_readRightSides hh hrules hright)).trans
        (.of_edit (e := .setStart _) rfl)

theorem inRange_blank : blank.InRange := ⟨rfl, rfl, by simp [blank], by decide⟩

/-- However the blank grammar is edited, what is written down beside it is the ledger of the
grammar that comes out. -/
theorem ledger_of_edits_blank {es : List Edit} (he : blank.edits es = .ok g) :
    Ledger.blank.edits es = .ok g.ledger := by
  have hledger : Ledger.blank.edits es = (blank.edits es).map ledger :=
    inRange_blank.ledger_edits es
  rw [hledger, he]
  rfl

/-- Whatever edits are made of the ledger of a blank or loaded grammar, which edits of the blank one
lead to, it stays the ledger of the edited grammar and in step with it, nothing in it ever
changes its place, and names lead to the symbols last added under them. -/
theorem ledger_edits_inStep (hg : g = blank ∨ ∃ lines, load lines = .ok g) :
    (∃ es, blank.edits es = .ok g ∧ Ledger.blank.edits es = .ok g.ledger) ∧
    ∀ es, ((∃ l, g.ledger.edits es = .ok l) ↔ Edit.AllWithin g.symbols.length es) ∧
      ∀ l, g.ledger.edits es = .ok l →
        g.edits es = .ok l.grammar ∧ l.InStep ∧ g.ledger.Resolves es l ∧
          ∀ fs m, l.edits fs = .ok m → l.Kept m ∧ l.Resolves fs m := by
  have hreached : blank.EditsTo g := by
    rcases hg with rfl | ⟨lines, hload⟩
    · exact .refl blank
    · exact editsTo_of_load hload
  obtain ⟨es₀, hes₀⟩ := hreached
  have hrange : g.InRange := inRange_blank.edits hes₀
  refine ⟨⟨es₀, hes₀, ledger_of_edits_blank hes₀⟩, fun es => ⟨?_, fun l hl => ?_⟩⟩
  · rw [Ledger.exists_edits_iff, length_entries_ledger]
  · obtain ⟨h, hh, hinrange, rfl⟩ := hrange.of_ledger_edits hl
    rw [grammar_ledger]
    exact ⟨hh, hinrange.inStep_ledger, Ledger.resolves_edits hl,
      fun fs m hm => ⟨Ledger.kept_edits hm, Ledger.resolves_edits hm⟩⟩

def shadowed : Grammar where
  symbols := [.lambda, .endMarker, .nonTerminal "<S>", .terminal "a"]
  names := [("a", 3), ("<S>", 2), ("$", 1), ("lambda", 0), ("λ", 0)]
  productions := [⟨2, [3]⟩]
  start := some 2

/-- The name of `λ` goes to a terminal, `<S>` gets another name and its old one goes to a second
non-terminal, and a terminal is a left side in between. -/
def shadowingEdits : List Edit :=
  [.addTerminal "λ", .rename 2 "<T>", .addProduction 3 [2], .addNonTerminal "<S>",
    .addProduction 2 [], .setStart none]

def shadowedLedger : Ledger where
  entries := [.lambda, .endMarker, .nonTerminal 2 "<T>" [0, 2], .terminal "a", .terminal "λ",
    .nonTerminal 5 "<S>" []]
  names := [("<S>", 5), ("λ", 4), ("a", 3), ("<S>", 2), ("$", 1), ("lambda", 0), ("λ", 0)]
  productions := [⟨2, [3]⟩, ⟨3, [2]⟩, ⟨2, []⟩]
  start := none

theorem ledger_edits_inStep_shadowing :
    load ["<S> -> a"] = .ok shadowed ∧
      shadowed.edits shadowingEdits = .ok shadowedLedger.grammar ∧ shadowedLedger.InStep ∧
      shadowed.ledger.Kept shadowedLedger ∧ shadowedLedger.indexOf? "λ" = some 4 := by
  have hload : load ["<S> -> a"] = .ok shadowed := rfl
  have hedits : shadowed.ledger.edits shadowingEdits = .ok shadowedLedger := rfl
  obtain ⟨-, hall⟩ := ledger_edits_inStep (.inr ⟨_, hload⟩)
  obtain ⟨-, -, -, hkept⟩ := (hall []).2 _ rfl
  obtain ⟨hgrammar, hstep, hresolves, -⟩ := (hall shadowingEdits).2 _ hedits
  refine ⟨hload, hgrammar, hstep, (hkept _ _ hedits).1, ?_⟩
  obtain ⟨k, -, hk, hindex, -⟩ := hresolves.latest [] (.addTerminal "λ") _ _ rfl rfl (by decide)
  obtain rfl : shadowed.ledger = k := Except.ok.inj hk
  exact hindex

end Grammar

end LLOne

import LLOne.Proofs.Grammar.Loading

/-!
# What reading lines collects

While lines are read, the symbols of the grammar are `λ`, the end marker, the left sides and then
the words of right sides that name terminals, each once and in the order in which they came. Each
symbol is found under its own name, and `λ` under its second name too. So what one line adds, and
whether it fails, depends on the words read before it only through the left sides.
-/

namespace LLOne.Grammar

def isReserved (word : String) : Bool :=
  word == Symbol.lambdaName || word == Symbol.lambdaWord || word == Symbol.endMarkerName

def namesTerminal (word : String) : Bool := !isBracketed word && !isReserved word

def spelling (word : String) : String :=
  if word = Symbol.lambdaWord then Symbol.lambdaName else word

/-- Each symbol is found under its name, and nothing is found under another name except `λ` under
its second one. -/
def Indexed (g : Grammar) : Prop :=
  ∀ name x, g.indexOf? name = some x ↔
    g.name? x = some name ∨ name = Symbol.lambdaWord ∧ x = Symbol.lambdaIndex

/-- The grammar has the symbols of the given left sides and words of right sides. -/
structure Collects (g : Grammar) (lefts words : List String) : Prop where
  symbols : g.symbols = .lambda :: .endMarker :: (lefts.eraseDups.map .nonTerminal ++
    (words.filter namesTerminal).eraseDups.map .terminal)
  bracketed : ∀ left ∈ lefts, isBracketed left = true
  indexed : g.Indexed

def Undefined (lefts : List String) (word : String) : Prop :=
  isBracketed word = true ∧ word ∉ lefts

def MixesLambda (words : List String) : Prop :=
  1 < words.length ∧ (Symbol.lambdaName ∈ words ∨ Symbol.lambdaWord ∈ words)

def Unreadable (lefts words : List String) : Prop :=
  (∃ word ∈ words, Undefined lefts word) ∨ MixesLambda words

variable {g h : Grammar} {lefts words : List String}

/-! ## Names -/

theorem map_name_nonTerminal (names : List String) :
    (names.map Symbol.nonTerminal).map Symbol.name = names := by
  simp [Function.comp_def, Symbol.name]

theorem map_name_terminal (names : List String) :
    (names.map Symbol.terminal).map Symbol.name = names := by
  simp [Function.comp_def, Symbol.name]

theorem isReserved_iff {word : String} : isReserved word = true ↔
    word = Symbol.lambdaName ∨ word = Symbol.lambdaWord ∨ word = Symbol.endMarkerName := by
  simp [isReserved, or_assoc]

theorem not_isReserved_of_isBracketed {word : String} (hb : isBracketed word = true) :
    isReserved word = false := by
  rw [← Bool.not_eq_true, isReserved_iff]
  rintro (rfl | rfl | rfl) <;> revert hb <;> decide

theorem Grows.name? (hgh : g.Grows h) {x : Nat} {name : String} (hx : g.name? x = some name) :
    h.name? x = some name := by
  obtain ⟨symbol, hs, rfl⟩ := Option.map_eq_some_iff.1 hx
  exact Option.map_eq_some_iff.2 ⟨symbol, hgh.getElem? hs, rfl⟩

theorem Grows.map_name? (hgh : g.Grows h) {xs : List Nat} {names : List String}
    (hxs : xs.map g.name? = names.map some) : xs.map h.name? = names.map some := by
  rw [← hxs]
  apply List.map_congr_left
  intro x hx
  have hmem : g.name? x ∈ names.map some := hxs ▸ List.mem_map_of_mem hx
  obtain ⟨name, -, hn⟩ := List.mem_map.1 hmem
  rw [← hn, hgh.name? hn.symm]

theorem exists_name?_iff {name : String} :
    (∃ x, g.name? x = some name) ↔ name ∈ g.symbols.map Symbol.name := by
  simp [name?, List.mem_iff_getElem?]

theorem name?_addSymbol (symbol : Symbol) (x : Nat) : (g.addSymbol symbol).name? x =
    if x = g.symbols.length then some symbol.name else g.name? x := by
  simp only [name?, addSymbol, List.getElem?_append, List.getElem?_singleton]
  split
  next hlt => rw [if_neg (Nat.ne_of_lt hlt)]
  next hge =>
    by_cases hx : x = g.symbols.length
    · simp [hx]
    · rw [if_neg hx, if_neg (by omega), List.getElem?_eq_none (by omega)]

/-- A symbol with a name of its own may be added. -/
theorem Indexed.addSymbol (hi : g.Indexed) {symbol : Symbol}
    (hn : g.indexOf? symbol.name = none) : (g.addSymbol symbol).Indexed := by
  intro name x
  rw [indexOf?_addSymbol, name?_addSymbol]
  have hlambda : symbol.name ≠ Symbol.lambdaWord := by
    intro he
    rw [(hi symbol.name Symbol.lambdaIndex).2 (.inr ⟨he, rfl⟩)] at hn
    cases hn
  have hfree : ∀ x, g.name? x ≠ some symbol.name := by
    intro x hx
    rw [(hi symbol.name x).2 (.inl hx)] at hn
    cases hn
  have hnew : g.name? g.symbols.length = none := by simp [name?]
  by_cases he : name = symbol.name
  · subst he
    by_cases hx : x = g.symbols.length
    · simp [hx]
    · simp [hx, hfree x, hlambda, Ne.symm hx]
  · rw [if_neg he, hi]
    by_cases hx : x = g.symbols.length
    · simp [hx, hnew, Ne.symm he]
    · simp [hx]

/-- Each of the names stands for a symbol of its own. -/
theorem Indexed.eq_of_name? (hi : g.Indexed) {x y : Nat} {name : String}
    (hx : g.name? x = some name) (hy : g.name? y = some name) : x = y :=
  Option.some.inj (((hi name x).2 (.inl hx)).symm.trans ((hi name y).2 (.inl hy)))

theorem Indexed.indexOf?_eq_none_iff (hi : g.Indexed) {name : String} :
    g.indexOf? name = none ↔ name ≠ Symbol.lambdaWord ∧ name ∉ g.symbols.map Symbol.name := by
  rw [← exists_name?_iff, Option.eq_none_iff_forall_ne_some]
  constructor
  · intro hnone
    refine ⟨fun he => ?_, fun ⟨x, hx⟩ => ?_⟩
    · exact hnone Symbol.lambdaIndex ((hi name _).2 (.inr ⟨he, rfl⟩))
    · exact hnone x ((hi name x).2 (.inl hx))
  · rintro ⟨hne, hnot⟩ x hx
    rcases (hi name x).1 hx with hx | ⟨he, -⟩
    · exact hnot ⟨x, hx⟩
    · exact hne he

theorem resolve_cases (g : Grammar) (symbol : Symbol) :
    (∃ x, g.indexOf? symbol.name = some x ∧ g.resolve symbol = (g, x)) ∨
      g.indexOf? symbol.name = none ∧
        g.resolve symbol = (g.addSymbol symbol, g.symbols.length) := by
  cases hx : g.indexOf? symbol.name with
  | some x => exact .inl ⟨x, rfl, by simp only [resolve, hx]⟩
  | none => exact .inr ⟨rfl, by simp only [resolve, hx]⟩

theorem indexOf?_resolve (g : Grammar) (symbol : Symbol) :
    (g.resolve symbol).1.indexOf? symbol.name = some (g.resolve symbol).2 := by
  rcases g.resolve_cases symbol with ⟨x, hx, he⟩ | ⟨-, he⟩
  · rw [he, hx]
  · rw [he, indexOf?_addSymbol, if_pos rfl]

theorem grows_resolve (g : Grammar) (symbol : Symbol) : g.Grows (g.resolve symbol).1 := by
  rcases g.resolve_cases symbol with ⟨x, -, he⟩ | ⟨-, he⟩
  · exact he ▸ .refl g
  · exact he ▸ g.grows_addSymbol symbol

/-! ## Collecting -/

theorem collects_blank : blank.Collects [] [] where
  symbols := rfl
  bracketed := by simp
  indexed := by
    intro name x
    have hname : blank.name? x = if x = 0 then some Symbol.lambdaName
        else if x = 1 then some Symbol.endMarkerName else none := by
      match x with
      | 0 => rfl
      | 1 => rfl
      | x + 2 => rfl
    rw [hname]
    simp only [indexOf?, blank, List.lookup_cons, List.lookup_nil, Symbol.endMarkerName,
      Symbol.lambdaWord, Symbol.lambdaName, Symbol.endIndex, Symbol.lambdaIndex]
    grind

namespace Collects

variable (hc : g.Collects lefts words)

include hc

theorem name?_lambdaIndex : g.name? Symbol.lambdaIndex = some Symbol.lambdaName := by
  rw [name?, hc.symbols]
  rfl

/-- What a word stands for has the spelling of the word as its name. -/
theorem name?_of_indexOf? {word : String} {x : Nat} (hx : g.indexOf? word = some x) :
    g.name? x = some (spelling word) := by
  unfold spelling
  split
  next hl =>
    have hzero := (hc.indexed word Symbol.lambdaIndex).2 (.inr ⟨hl, rfl⟩)
    obtain rfl := Option.some.inj (hx.symm.trans hzero)
    exact hc.name?_lambdaIndex
  next hl =>
    rcases (hc.indexed word x).1 hx with hx | ⟨he, -⟩
    · exact hx
    · exact absurd he hl

theorem indexOf?_eq_none_iff {word : String} : g.indexOf? word = none ↔
    isReserved word = false ∧ word ∉ lefts ∧ word ∉ words.filter namesTerminal := by
  rw [hc.indexed.indexOf?_eq_none_iff, hc.symbols, ← Bool.not_eq_true, isReserved_iff]
  simp only [List.map_cons, List.map_append, map_name_nonTerminal, map_name_terminal,
    List.mem_cons, List.mem_append, List.mem_eraseDups, not_or, Symbol.name]
  constructor
  · rintro ⟨hword, hlambda, hend, hleft, hterminal⟩
    exact ⟨⟨hlambda, hword, hend⟩, hleft, hterminal⟩
  · rintro ⟨⟨hlambda, hword, hend⟩, hleft, hterminal⟩
    exact ⟨hword, hlambda, hend, hleft, hterminal⟩

theorem exists_indexOf?_of_isBracketed {word : String} (hb : isBracketed word = true) :
    (∃ x, g.indexOf? word = some x) ↔ word ∈ lefts := by
  rw [← Option.ne_none_iff_exists', ne_eq, hc.indexOf?_eq_none_iff]
  simp [not_isReserved_of_isBracketed hb, namesTerminal, hb]

theorem exists_indexOf?_of_namesTerminal {word : String} (ht : namesTerminal word = true) :
    (∃ x, g.indexOf? word = some x) ↔ word ∈ words.filter namesTerminal := by
  obtain ⟨hb, hr⟩ : isBracketed word = false ∧ isReserved word = false := by
    simpa [namesTerminal] using ht
  have hleft : word ∉ lefts := by
    intro hmem
    rw [hc.bracketed word hmem] at hb
    cases hb
  rw [← Option.ne_none_iff_exists', ne_eq, hc.indexOf?_eq_none_iff]
  simp [hr, hleft]

theorem addProduction (left : Nat) (right : List Nat) :
    (g.addProduction left right).Collects lefts words := ⟨hc.symbols, hc.bracketed, hc.indexed⟩

omit hc in
/-- A left side is found or added. -/
theorem declare (hc : g.Collects lefts []) {left : String} (hb : isBracketed left = true) :
    (g.resolve (.nonTerminal left)).1.Collects (lefts ++ [left]) [] := by
  have hfound := hc.exists_indexOf?_of_isBracketed hb
  have hall : ∀ l ∈ lefts ++ [left], isBracketed l = true :=
    List.forall_mem_append.2 ⟨hc.bracketed, by simpa using hb⟩
  rcases g.resolve_cases (.nonTerminal left) with ⟨x, hx, he⟩ | ⟨hx, he⟩
  · refine ⟨?_, hall, he ▸ hc.indexed⟩
    rw [he, hc.symbols, eraseDups_append_singleton, if_pos (hfound.1 ⟨x, hx⟩)]
  · have hnew : left ∉ lefts := by
      rw [← hfound, show g.indexOf? left = none from hx]
      simp
    refine ⟨?_, hall, he ▸ hc.indexed.addSymbol hx⟩
    rw [he, addSymbol, hc.symbols, eraseDups_append_singleton, if_neg hnew]
    simp

/-- A word of a right side is found or added, unless it is undefined. -/
theorem mention {word : String} (hw : ¬ Undefined lefts word) :
    (g.resolve (.terminal word)).1.Collects lefts (words ++ [word]) := by
  by_cases ht : namesTerminal word = true
  · have hfound := hc.exists_indexOf?_of_namesTerminal ht
    have hfilter : (words ++ [word]).filter namesTerminal =
        words.filter namesTerminal ++ [word] := by
      rw [List.filter_append, List.filter_cons_of_pos ht, List.filter_nil]
    rcases g.resolve_cases (.terminal word) with ⟨x, hx, he⟩ | ⟨hx, he⟩
    · refine ⟨?_, hc.bracketed, he ▸ hc.indexed⟩
      rw [he, hc.symbols, hfilter, eraseDups_append_singleton, if_pos (hfound.1 ⟨x, hx⟩)]
    · have hnew : word ∉ words.filter namesTerminal := by
        rw [← hfound, show g.indexOf? word = none from hx]
        simp
      refine ⟨?_, hc.bracketed, he ▸ hc.indexed.addSymbol hx⟩
      rw [he, addSymbol, hc.symbols, hfilter, eraseDups_append_singleton, if_neg hnew]
      simp
  · have hfilter : (words ++ [word]).filter namesTerminal = words.filter namesTerminal := by
      rw [List.filter_append, List.filter_cons_of_neg ht, List.filter_nil, List.append_nil]
    rcases g.resolve_cases (.terminal word) with ⟨x, -, he⟩ | ⟨hx, -⟩
    · refine ⟨?_, hc.bracketed, he ▸ hc.indexed⟩
      rw [he, hc.symbols, hfilter]
    · obtain ⟨hr, hl, -⟩ := hc.indexOf?_eq_none_iff.1 (show g.indexOf? word = none from hx)
      have hb : isBracketed word = true := by simpa [namesTerminal, hr] using ht
      exact absurd ⟨hb, hl⟩ hw

end Collects

/-! ## Right sides -/

/-- A word that is no undefined non-terminal can be read, and the others after it. -/
theorem readRightSide_cons (hc : g.Collects lefts words) {word : String}
    (hw : ¬ Undefined lefts word) (rest : List String) :
    readRightSide g (word :: rest) =
      (readRightSide (g.resolve (.terminal word)).1 rest).map fun (h, right) =>
        (h, (g.resolve (.terminal word)).2 :: right) := by
  have hdefined : ¬ (isBracketed word = true ∧ (g.indexOf? word).isNone = true) := by
    rintro ⟨hb, hn⟩
    refine hw ⟨hb, fun hl => ?_⟩
    obtain ⟨x, hx⟩ := (hc.exists_indexOf?_of_isBracketed hb).2 hl
    rw [hx] at hn
    cases hn
  simp only [readRightSide, hdefined, if_false]

theorem readRightSide_of_undefined (hc : g.Collects lefts words) {word : String}
    (hw : Undefined lefts word) (rest : List String) :
    readRightSide g (word :: rest) = .error (.undefinedNonTerminal word) := by
  have hnone : g.indexOf? word = none := by
    rw [Option.eq_none_iff_forall_ne_some]
    intro x hx
    exact hw.2 ((hc.exists_indexOf?_of_isBracketed hw.1).1 ⟨x, hx⟩)
  simp only [readRightSide, hw.1, hnone, Option.isNone_none, and_self, if_true]

/-- Words in front of which nothing is undefined are read before the rest. -/
theorem readRightSide_append {front : List String} (hc : g.Collects lefts words)
    (hf : ∀ word ∈ front, ¬ Undefined lefts word) (back : List String) :
    ∃ h right, h.Collects lefts (words ++ front) ∧ g.Grows h ∧ h.productions = g.productions ∧
      right.map h.name? = (front.map spelling).map some ∧
      readRightSide g (front ++ back) =
        (readRightSide h back).map fun (k, rest) => (k, right ++ rest) := by
  induction front generalizing g words with
  | nil =>
    refine ⟨g, [], by rwa [List.append_nil], .refl g, rfl, rfl, ?_⟩
    rw [List.nil_append]
    cases readRightSide g back <;> rfl
  | cons word front ih =>
    rw [List.forall_mem_cons] at hf
    have hnew := hc.mention hf.1
    obtain ⟨h, right, hh, hgrow, hproductions, hnames, hread⟩ := ih hnew hf.2
    have hname := hgrow.name? (hnew.name?_of_indexOf? (indexOf?_resolve g (.terminal word)))
    refine ⟨h, (g.resolve (.terminal word)).2 :: right, ?_, (grows_resolve g _).trans hgrow,
      hproductions.trans (productions_resolve g _), ?_, ?_⟩
    · rwa [List.append_assoc, List.singleton_append] at hh
    · rw [List.map_cons, hnames, hname]
      rfl
    · rw [List.cons_append, readRightSide_cons hc hf.1, hread]
      cases readRightSide h back <;> rfl

theorem spelling_eq_lambdaName_iff {word : String} : spelling word = Symbol.lambdaName ↔
    word = Symbol.lambdaName ∨ word = Symbol.lambdaWord := by
  unfold spelling
  split
  next hw => simp [hw]
  next hw => simp [hw]

/-- Symbols with the names of words have `λ` among them where the words have. -/
theorem Collects.lambdaIndex_mem_iff {xs : List Nat} (hc : g.Collects lefts words)
    {right : List String} (hx : xs.map g.name? = (right.map spelling).map some) :
    Symbol.lambdaIndex ∈ xs ↔ Symbol.lambdaName ∈ right ∨ Symbol.lambdaWord ∈ right := by
  have hname : ∀ x, x = Symbol.lambdaIndex ↔ g.name? x = some Symbol.lambdaName := by
    intro x
    constructor
    · rintro rfl
      exact hc.name?_lambdaIndex
    · intro hn
      exact hc.indexed.eq_of_name? hn hc.name?_lambdaIndex
  have hmem : Symbol.lambdaIndex ∈ xs ↔ some Symbol.lambdaName ∈ xs.map g.name? := by
    simp [← hname]
  rw [hmem, hx]
  simp [spelling_eq_lambdaName_iff, and_or_left, exists_or]

/-- The right side that is read. -/
theorem readRightSide_eq_ok (hc : g.Collects lefts words) {right : List String}
    (hr : ∀ word ∈ right, ¬ Undefined lefts word) :
    ∃ h xs, h.Collects lefts (words ++ right) ∧ g.Grows h ∧ h.productions = g.productions ∧
      xs.map h.name? = (right.map spelling).map some ∧ readRightSide g right = .ok (h, xs) ∧
      (1 < xs.length ∧ Symbol.lambdaIndex ∈ xs ↔ MixesLambda right) := by
  obtain ⟨h, xs, hh, hgrow, hproductions, hnames, hread⟩ := readRightSide_append hc hr []
  have hlength : xs.length = right.length := by simpa using congrArg List.length hnames
  refine ⟨h, xs, hh, hgrow, hproductions, hnames, ?_, ?_⟩
  · simpa [readRightSide, Except.map] using hread
  · rw [MixesLambda, hlength, hh.lambdaIndex_mem_iff hnames]

/-! ## Rules -/

/-- Rules that can be read are read before the rest, each into the production that it spells. -/
theorem readRightSides_append {rules : List Rule} (hc : g.Collects lefts words)
    (hr : ∀ rule ∈ rules, ¬ Unreadable lefts rule.words) (rest : List Rule) :
    ∃ h added, h.Collects lefts (words ++ rules.flatMap Rule.words) ∧ g.Grows h ∧
      h.productions = g.productions ++ added ∧
      (added.map fun p => (p.left, p.right.map h.name?)) =
        (rules.map fun rule => (rule.left, (rule.words.map spelling).map some)) ∧
      readRightSides g (rules ++ rest) = readRightSides h rest := by
  induction rules generalizing g words with
  | nil => exact ⟨g, [], by simpa using hc, .refl g, (List.append_nil _).symm, rfl, rfl⟩
  | cons rule rules ih =>
    rw [List.forall_mem_cons] at hr
    obtain ⟨hdefined, hplaced⟩ := not_or.1 hr.1
    obtain ⟨k, xs, hk, hgk, hproductions, hnames, hread, hmix⟩ :=
      readRightSide_eq_ok hc fun word hw hu => hdefined ⟨word, hw, hu⟩
    obtain ⟨h, added, hh, hkh, hadded, hspell, hrest⟩ := ih (hk.addProduction rule.left xs) hr.2
    have hkh : k.Grows h := hkh
    refine ⟨h, ⟨rule.left, xs⟩ :: added, ?_, hgk.trans hkh, ?_, ?_, ?_⟩
    · rwa [List.flatMap_cons, ← List.append_assoc]
    · rw [hadded, addProduction, hproductions, List.append_assoc]
      rfl
    · rw [List.map_cons, List.map_cons, hspell, hkh.map_name? hnames]
    · simp only [List.cons_append, readRightSides, hread, hmix, hplaced, if_false]
      exact hrest

theorem readRightSides_of_undefined {rule : Rule} {front back : List String} {word : String}
    (hc : g.Collects lefts words) (hr : rule.words = front ++ word :: back)
    (hf : ∀ w ∈ front, ¬ Undefined lefts w) (hw : Undefined lefts word) (rest : List Rule) :
    readRightSides g (rule :: rest) = .error (.undefinedNonTerminal word) := by
  obtain ⟨h, right, hh, -, -, -, hread⟩ := readRightSide_append hc hf (word :: back)
  rw [readRightSide_of_undefined hh hw, ← hr] at hread
  simp only [readRightSides, hread, Except.map]

theorem readRightSides_of_mixesLambda {rule : Rule} (hc : g.Collects lefts words)
    (hd : ∀ w ∈ rule.words, ¬ Undefined lefts w) (hm : MixesLambda rule.words)
    (rest : List Rule) :
    readRightSides g (rule :: rest) = .error (.misplacedLambda rule.lineNumber) := by
  obtain ⟨h, xs, -, -, -, -, hread, hmix⟩ := readRightSide_eq_ok hc hd
  simp only [readRightSides, hread, hmix.2 hm, and_self, if_true]

end LLOne.Grammar

import LLOne.Proofs.Grammar.Coverage
import LLOne.Proofs.Grammar.SameProductions
import LLOne.Proofs.Report.Productions

/-!
# A listing can be loaded again

The listing of a loaded grammar has its productions non-terminal by non-terminal. Lines with these
words are loaded to a grammar whose productions are the same, in this order. The left sides come in
the order in which they first came before, so the non-terminals keep their numbers, the first of
them stays the start symbol, and each has its right sides in their order.
-/

namespace LLOne

/-! ## Groups -/

/-- Groups of one name each, of which there are different ones. -/
theorem eraseDups_flatMap_replicate {α β : Type} [DecidableEq β] {l : List α} {name : α → β}
    {size : α → Nat} (hsize : ∀ a ∈ l, size a ≠ 0) (hnames : (l.map name).Nodup) :
    (l.flatMap fun a => List.replicate (size a) (name a)).eraseDups = l.map name := by
  induction l with
  | nil => rfl
  | cons a l ih =>
    rw [List.forall_mem_cons] at hsize
    rw [List.map_cons, List.nodup_cons] at hnames
    obtain ⟨k, hk⟩ := Nat.exists_eq_add_one_of_ne_zero hsize.1
    have hothers : ∀ b ∈ l.flatMap fun a => List.replicate (size a) (name a), b ≠ name a := by
      rintro b hb rfl
      obtain ⟨c, hc, hbc⟩ := List.mem_flatMap.1 hb
      exact hnames.1 (List.mem_map.2 ⟨c, hc, (List.eq_of_mem_replicate hbc).symm⟩)
    rw [List.flatMap_cons, hk, List.replicate_succ, List.cons_append, List.eraseDups_cons,
      List.filter_append, List.filter_replicate_of_neg (by simp), List.nil_append,
      List.filter_eq_self.2 (by simpa using hothers), ih hsize.2 hnames.2, List.map_cons]

/-- Of groups with different keys one is left. -/
theorem flatMap_ite_eq {α β : Type} [DecidableEq α] {l : List α} (hl : l.Nodup) {a : α}
    (ha : a ∈ l) (group : α → List β) :
    (l.flatMap fun b => if b = a then group b else []) = group a := by
  induction l with
  | nil => cases ha
  | cons b l ih =>
    rw [List.nodup_cons] at hl
    rw [List.flatMap_cons]
    rcases List.mem_cons.1 ha with rfl | ha
    · have hrest : (l.flatMap fun b => if b = a then group b else []) = [] := by
        rw [List.flatMap_eq_nil_iff]
        exact fun b hb => if_neg (ne_of_mem_of_not_mem hb hl.1)
      rw [if_pos rfl, hrest, List.append_nil]
    · rw [if_neg (ne_of_mem_of_not_mem ha hl.1).symm, List.nil_append, ih hl.2 ha]

namespace Grammar

def shown (g : Grammar) (x : Nat) : String := (g.name? x).getD ""

def alternatives (g : Grammar) (a : Nat) : Alternatives :=
  ⟨g.shown a, (g.rightsOf a).map (·.map g.shown)⟩

/-- The productions non-terminal by non-terminal. -/
def grouped (g : Grammar) : List Production :=
  g.nonTerminals.flatMap fun a => (g.rightsOf a).map (Production.mk a)

def lineWords (g : Grammar) (p : Production) : List String :=
  g.shown p.left :: "->" :: p.right.map g.shown

variable {g h : Grammar} {lines lines' : List String}

theorem name?_eq_shown {x : Nat} (hx : x < g.symbols.length) : g.name? x = some (g.shown x) := by
  obtain ⟨name, hn⟩ := exists_name? hx
  rw [shown, hn, Option.getD_some]

theorem name?_nonTerminal {a : Nat} (ha : g.isNonTerminal a = true) :
    g.name? a = some (g.shown a) := name?_eq_shown (g.lt_length_of_isNonTerminal ha)

theorem nameOf_eq_shown {x : Nat} (hx : x < g.symbols.length) : g.nameOf x = .ok (g.shown x) := by
  rw [nameOf, name?_eq_shown hx]

theorem WellFormed.listing_eq (hg : g.WellFormed) :
    g.listing = .ok (g.nonTerminals.map g.alternatives) := by
  apply mapM_eq_pure
  intro a ha
  have hrights : (g.rightsOf a).mapM g.namesOf = .ok ((g.rightsOf a).map (·.map g.shown)) := by
    apply mapM_eq_pure
    intro right hr
    exact mapM_eq_pure fun x hx => nameOf_eq_shown (hg.right _ (g.mem_rightsOf.1 hr) x hx)
  rw [alternativesOf, nameOf_eq_shown (g.lt_length_of_isNonTerminal (g.mem_nonTerminals.1 ha)),
    hrights]
  rfl

theorem WellFormed.mem_grouped (hg : g.WellFormed) {p : Production} :
    p ∈ g.grouped ↔ p ∈ g.productions := by
  simp only [grouped, List.mem_flatMap, List.mem_map]
  constructor
  · rintro ⟨a, -, right, hr, rfl⟩
    exact g.mem_rightsOf.1 hr
  · intro hp
    exact ⟨p.left, g.mem_nonTerminals.2 (hg.left p hp), p.right, g.mem_rightsOf.2 hp, rfl⟩

theorem flatMap_alternatives :
    ((g.nonTerminals.map g.alternatives).flatMap fun a =>
      a.rights.map fun right => a.left :: "->" :: right) = g.grouped.map g.lineWords := by
  simp [grouped, alternatives, lineWords, List.flatMap_map, List.map_flatMap, Function.comp_def]

/-! ## Loaded grammars by name -/

theorem map_some_leftSides (lines : List String) :
    (leftSides lines).map some = (spelledLines lines).map Prod.fst := by
  induction lines with
  | nil => rfl
  | cons line rest ih =>
    rw [leftSides_cons, List.map_append, ih]
    cases hblank : isBlankLine line with
    | true =>
      have hw : Text.words line = [] := List.isEmpty_iff.1 hblank
      rw [spelledLines_cons_of_blank hblank, hw]
      rfl
    | false =>
      obtain ⟨left, hleft⟩ := exists_head?_of_not_isBlankLine hblank
      rw [spelledLines_cons hblank, List.map_cons, spelledLine, hleft]
      rfl

section Loaded

variable (hload : load lines = .ok g)

include hload

theorem map_name?_nonTerminals :
    g.nonTerminals.map g.name? = (leftSides lines).eraseDups.map some := by
  have hc := collects_of_load hload
  apply List.ext_getElem?
  intro i
  rw [hc.nonTerminals_eq, List.getElem?_map, List.getElem?_map]
  by_cases hi : i < (leftSides lines).eraseDups.length
  · rw [List.getElem?_range' hi, Option.map_some, name?, hc.symbols, Nat.one_mul, Nat.add_comm]
    simp [List.getElem?_append, hi, Symbol.name]
  · simp [Nat.le_of_not_lt hi]

/-- The start symbol is the first of the non-terminals. -/
theorem start_eq_head?_nonTerminals : g.start = g.nonTerminals.head? := by
  have hc := collects_of_load hload
  have hlefts : (leftSides lines).map some = g.productions.map fun p => g.name? p.left := by
    rw [map_some_leftSides, ← written_of_load hload, List.map_map]
    rfl
  rw [start_of_load hload]
  cases hp : g.productions with
  | nil =>
    rw [hp, List.map_nil, List.map_eq_nil_iff] at hlefts
    rw [hc.nonTerminals_eq, hlefts]
    rfl
  | cons p productions =>
    obtain ⟨left, lefts, he, hleft, -⟩ := List.map_eq_cons_iff.1 (hp ▸ hlefts)
    have hnames := map_name?_nonTerminals hload
    rw [he, List.eraseDups_cons, List.map_cons] at hnames
    obtain ⟨a, as, has, ha, -⟩ := List.map_eq_cons_iff.1 hnames
    rw [has, hc.indexed.eq_of_name? ha hleft.symm]
    rfl

theorem shown_ne_lambdaWord {x : Nat} (hx : x < g.symbols.length) :
    g.shown x ≠ Symbol.lambdaWord := by
  intro he
  have hc := collects_of_load hload
  have hname : g.name? x = some Symbol.lambdaWord := he ▸ name?_eq_shown hx
  have hindex := (hc.indexed _ x).2 (.inl hname)
  have hzero := (hc.indexed Symbol.lambdaWord Symbol.lambdaIndex).2 (.inr ⟨rfl, rfl⟩)
  obtain rfl : x = Symbol.lambdaIndex := Option.some.inj (hindex.symm.trans hzero)
  rw [hc.name?_lambdaIndex] at hname
  exact absurd (Option.some.inj hname) (by decide)

theorem isBracketed_shown {a : Nat} (ha : g.isNonTerminal a = true) :
    isBracketed (g.shown a) = true := by
  have hc := collects_of_load hload
  have hname := name?_nonTerminal ha
  exact hc.bracketed _ (hc.mem_lefts_of_name? ha hname)

theorem legible_alternatives {a : Nat} (ha : a ∈ g.nonTerminals) : (g.alternatives a).Legible := by
  have hn := g.mem_nonTerminals.1 ha
  have hname := name?_nonTerminal hn
  have hbracketed := isBracketed_shown hload hn
  obtain ⟨right, hright⟩ := hasRights_of_load hload a hn
  refine ⟨isWord_of_name? hload hname, ?_, ?_, ?_, ?_⟩
  · intro he
    rw [show g.shown a = "|" from he] at hbracketed
    exact absurd hbracketed (by decide)
  · exact List.map_eq_nil_iff.not.2 (List.ne_nil_of_mem hright)
  · simp only [alternatives, List.forall_mem_map]
    intro right hr
    exact List.map_eq_nil_iff.not.2 (right_of_load hload (g.mem_rightsOf.1 hr)).1
  · simp only [alternatives, List.forall_mem_map]
    intro right hr x hx
    have hlt := (consistent_of_load hload).right _ (g.mem_rightsOf.1 hr) x hx
    exact isWord_of_name? hload (name?_eq_shown hlt)

end Loaded

/-- What is written with the name of a symbol on its left side is a production of that symbol. -/
theorem Indexed.filter_written (hi : g.Indexed) {a : Nat} {name : String}
    (ha : g.name? a = some name) (productions : List Production) :
    (productions.map g.written).filter (·.1 == some name) =
      (productions.filter (·.left == a)).map g.written := by
  rw [List.filter_map]
  congr 2
  funext p
  rw [Function.comp_apply, written, Bool.eq_iff_iff, beq_iff_eq, beq_iff_eq]
  exact ⟨fun hp => hi.eq_of_name? hp ha, fun hp => hp ▸ ha⟩

theorem rightsOf_eq (a : Nat) :
    g.rightsOf a = (g.productions.filter (·.left == a)).map Production.right := by
  have hfst : g.productions = g.productions.zipIdx.map Prod.fst := List.zipIdx_map_fst 0 _ |>.symm
  rw [rightsOf, numberedProductionsOf]
  conv_rhs => rw [hfst, List.filter_map, List.map_map]
  rfl

theorem Indexed.map_rightsOf (hi : g.Indexed) {a : Nat} {name : String}
    (ha : g.name? a = some name) : (g.rightsOf a).map (List.map g.name?) =
      ((g.productions.map g.written).filter (·.1 == some name)).map Prod.snd := by
  rw [hi.filter_written ha, rightsOf_eq, List.map_map, List.map_map]
  rfl

theorem filter_grouped {a : Nat} (ha : a ∈ g.nonTerminals) :
    g.grouped.filter (·.left == a) = (g.rightsOf a).map (Production.mk a) := by
  have hgroup : ∀ b, ((g.rightsOf b).map (Production.mk b)).filter (·.left == a) =
      if b = a then (g.rightsOf b).map (Production.mk b) else [] := by
    intro b
    rw [List.filter_map]
    split
    next hb => simp [hb, Function.comp_def]
    next hb => simp [hb, Function.comp_def]
  simp only [grouped, List.filter_flatMap, hgroup]
  exact flatMap_ite_eq (g.pairwise_nonTerminals.imp Nat.ne_of_lt) ha _

/-! ## Loading the listing -/

section Reloaded

variable (hload : load lines = .ok g) (hwords : lines'.map Text.words = g.grouped.map g.lineWords)

include hload hwords

theorem exists_production_of_mem {line : String} (hl : line ∈ lines') :
    ∃ p ∈ g.productions, Text.words line = g.lineWords p := by
  have hmem : Text.words line ∈ g.grouped.map g.lineWords := hwords ▸ List.mem_map_of_mem hl
  obtain ⟨p, hp, he⟩ := List.mem_map.1 hmem
  exact ⟨p, (consistent_of_load hload).toWellFormed.mem_grouped.1 hp, he.symm⟩

theorem spelledLines_of_words : spelledLines lines' = g.grouped.map g.written := by
  have hfull : lines'.filter (fun line => !isBlankLine line) = lines' := by
    rw [List.filter_eq_self]
    intro line hl
    obtain ⟨p, -, hp⟩ := exists_production_of_mem hload hwords hl
    rw [isBlankLine, hp]
    rfl
  have hspelled : lines'.map spelledLine = (lines'.map Text.words).map fun words =>
      (words.head?, ((words.drop 2).map spelling).map some) := by
    rw [List.map_map]
    rfl
  rw [spelledLines, hfull, hspelled, hwords, List.map_map]
  apply List.map_congr_left
  intro p hp
  have hg := consistent_of_load hload
  have hproduction := hg.toWellFormed.mem_grouped.1 hp
  have hleft := name?_nonTerminal (hg.left p hproduction)
  have hright : p.right.map ((some ∘ spelling) ∘ g.shown) = p.right.map g.name? := by
    apply List.map_congr_left
    intro x hx
    have hlt := hg.right p hproduction x hx
    rw [name?_eq_shown hlt]
    exact congrArg some (if_neg (shown_ne_lambdaWord hload hlt))
  simp only [written, hleft, ← hright, Function.comp_apply, lineWords, List.head?_cons,
    List.drop_succ_cons, List.drop_zero, List.map_map]

theorem shown_mem_leftSides {a : Nat} (ha : g.isNonTerminal a = true) :
    g.shown a ∈ leftSides lines' := by
  obtain ⟨right, hr⟩ := hasRights_of_load hload a ha
  have hp := (consistent_of_load hload).toWellFormed.mem_grouped.2 (g.mem_rightsOf.1 hr)
  rw [mem_leftSides_iff, spelledLines_of_words hload hwords]
  exact ⟨_, List.mem_map_of_mem hp, name?_nonTerminal ha⟩

theorem inFormat_of_words {line : String} (hl : line ∈ lines') : InFormat line := by
  obtain ⟨p, hp, hw⟩ := exists_production_of_mem hload hwords hl
  refine .inr ⟨_, _, hw, ?_, isBracketed_shown hload ((consistent_of_load hload).left p hp)⟩
  exact List.map_eq_nil_iff.not.2 (right_of_load hload hp).1

/-- What is in brackets has a line of its own, and `λ` is alone. -/
theorem not_faulty_of_words {line : String} (hl : line ∈ lines') : ¬ Faulty lines' line := by
  obtain ⟨p, hp, hw⟩ := exists_production_of_mem hload hwords hl
  have hi := (collects_of_load hload).indexed
  have hlt := (consistent_of_load hload).right p hp
  have hright : rightSide line = p.right.map g.shown := by rw [rightSide, hw]; rfl
  rw [Faulty, hright]
  rintro (⟨word, hword, hb, hmissing⟩ | ⟨hlong, hlambda | hlambda⟩)
  · obtain ⟨x, hx, rfl⟩ := List.mem_map.1 hword
    have hindex := (hi _ x).2 (.inl (name?_eq_shown (hlt x hx)))
    exact hmissing (shown_mem_leftSides hload hwords
      ((consistent_of_load hload).bracketed _ x hb hindex))
  · obtain ⟨x, hx, he⟩ := List.mem_map.1 hlambda
    obtain rfl : x = Symbol.lambdaIndex := hi.eq_of_name? (he ▸ name?_eq_shown (hlt x hx))
      (collects_of_load hload).name?_lambdaIndex
    rw [(right_of_load hload hp).2 hx] at hlong
    exact absurd hlong (by simp)
  · obtain ⟨x, hx, he⟩ := List.mem_map.1 hlambda
    exact shown_ne_lambdaWord hload (hlt x hx) he

theorem exists_load_of_words : ∃ h, load lines' = .ok h := by
  obtain ⟨-, h, -, -, hload', -⟩ := load_of_accepted
    (fun _ => inFormat_of_words hload hwords) (fun _ => not_faulty_of_words hload hwords)
  exact ⟨h, hload'⟩

theorem eraseDups_leftSides_of_words :
    (leftSides lines').eraseDups = g.nonTerminals.map g.shown := by
  have hlefts : leftSides lines' = (lines'.map Text.words).filterMap List.head? := by
    rw [leftSides, List.filterMap_map]
    rfl
  have hgroups : leftSides lines' = g.nonTerminals.flatMap fun a =>
      List.replicate (g.rightsOf a).length (g.shown a) := by
    rw [hlefts, hwords, List.filterMap_map]
    simp [grouped, lineWords, Function.comp_def, List.map_flatMap]
  rw [hgroups]
  apply eraseDups_flatMap_replicate
  · intro a ha
    obtain ⟨right, hr⟩ := hasRights_of_load hload a (g.mem_nonTerminals.1 ha)
    exact (List.length_pos_of_mem hr).ne'
  · refine List.Nodup.map_on ?_ (g.pairwise_nonTerminals.imp Nat.ne_of_lt)
    intro a ha b hb he
    have hname : ∀ x ∈ g.nonTerminals, g.name? x = some (g.shown x) :=
      fun x hx => name?_nonTerminal (g.mem_nonTerminals.1 hx)
    exact (collects_of_load hload).indexed.eq_of_name? (hname a ha) (he ▸ hname b hb)

variable (hload' : load lines' = .ok h)

include hload'

theorem nonTerminals_of_words : h.nonTerminals = g.nonTerminals := by
  have hlength := congrArg List.length (map_name?_nonTerminals hload)
  rw [List.length_map, List.length_map] at hlength
  rw [(collects_of_load hload').nonTerminals_eq, eraseDups_leftSides_of_words hload hwords,
    List.length_map, hlength, ← (collects_of_load hload).nonTerminals_eq]

theorem name?_of_words {a : Nat} (ha : a ∈ g.nonTerminals) : h.name? a = g.name? a := by
  have hnames := map_name?_nonTerminals hload'
  rw [nonTerminals_of_words hload hwords hload', eraseDups_leftSides_of_words hload hwords,
    List.map_map, List.map_inj_left] at hnames
  rw [hnames a ha, name?_nonTerminal (g.mem_nonTerminals.1 ha)]
  rfl

theorem start_of_words : h.start = g.start := by
  rw [start_eq_head?_nonTerminals hload, start_eq_head?_nonTerminals hload',
    nonTerminals_of_words hload hwords hload']

theorem productions_of_words : h.productions.map h.written = g.grouped.map g.written :=
  (written_of_load hload').trans (spelledLines_of_words hload hwords)

theorem rightsOf_of_words {a : Nat} (ha : a ∈ g.nonTerminals) :
    (h.rightsOf a).map (List.map h.name?) = (g.rightsOf a).map (List.map g.name?) := by
  have hn := name?_nonTerminal (g.mem_nonTerminals.1 ha)
  have hn' := (name?_of_words hload hwords hload' ha).trans hn
  rw [(collects_of_load hload').indexed.map_rightsOf hn', productions_of_words hload hwords hload',
    (collects_of_load hload).indexed.filter_written hn, filter_grouped ha, List.map_map,
    List.map_map]
  rfl

theorem sameProductions_of_words : g.SameProductions h where
  productions entry := by
    rw [productions_of_words hload hwords hload']
    simp only [List.mem_map, (consistent_of_load hload).toWellFormed.mem_grouped]
  start := by
    rw [start_of_words hload hwords hload']
    cases hs : g.start with
    | none => rfl
    | some start =>
      have ha := g.mem_nonTerminals.2 (isNonTerminal_start_of_load hload hs)
      exact (name?_of_words hload hwords hload' ha).symm

end Reloaded

/-- The listing of a loaded grammar is a grammar again when its bars are replaced, with the same
non-terminals under the same numbers, the same start symbol, the same terminals, and for each
non-terminal the same right sides in the same order. -/
theorem parse_listing (hload : load lines = .ok g) :
    ∃ l h, g.listing = .ok l ∧ parse (Text.withoutBars l.plain) = .ok h ∧
      h.nonTerminals = g.nonTerminals ∧ h.start = g.start ∧
      (∀ a ∈ g.nonTerminals, h.name? a = g.name? a ∧
        (h.rightsOf a).map (List.map h.name?) = (g.rightsOf a).map (List.map g.name?)) ∧
      ∀ name, name ∈ h.terminalNames ↔ name ∈ g.terminalNames := by
  have hg := (consistent_of_load hload).toWellFormed
  have hlegible : ∀ a ∈ g.nonTerminals.map g.alternatives, a.Legible := by
    rw [List.forall_mem_map]
    exact fun a ha => legible_alternatives hload ha
  have hwords := (Listing.words_withoutBars hlegible).trans flatMap_alternatives
  obtain ⟨h, hload'⟩ := exists_load_of_words hload hwords
  refine ⟨_, h, hg.listing_eq, hload', nonTerminals_of_words hload hwords hload',
    start_of_words hload hwords hload', fun a ha => ⟨name?_of_words hload hwords hload' ha,
      rightsOf_of_words hload hwords hload' ha⟩, fun name => ?_⟩
  rw [mem_terminalNames, mem_terminalNames,
    (sameProductions_of_words hload hwords hload').mem_symbols_iff hload hload']

def interleavedLines : List String :=
  ["<S> -> | <A>", "<A> -> -> | <S>", "", "<S> -> lambda", "<A> -> | |"]

def interleaved : Grammar where
  symbols := [.lambda, .endMarker, .nonTerminal "<S>", .nonTerminal "<A>", .terminal "|",
    .terminal "->"]
  names := [("->", 5), ("|", 4), ("<A>", 3), ("<S>", 2), ("$", 1), ("lambda", 0), ("λ", 0)]
  productions := [⟨2, [4, 3]⟩, ⟨3, [5, 4, 2]⟩, ⟨2, [0]⟩, ⟨3, [4, 4]⟩]
  start := some 2

theorem parse_listing_interleaved :
    ∃ l h, interleaved.listing = .ok l ∧
      l.plain = "<S> -> | <A>\n     | λ\n<A> -> -> | <S>\n     | | |" ∧
      parse (Text.withoutBars l.plain) = .ok h ∧ h.nonTerminals = [2, 3] ∧ h.start = some 2 ∧
      (h.rightsOf 3).map (List.map h.name?) =
        [[some "->", some "|", some "<S>"], [some "|", some "|"]] := by
  obtain ⟨l, h, hl, hh, hnonTerminals, hstart, hrights, -⟩ :=
    parse_listing (rfl : load interleavedLines = .ok interleaved)
  obtain rfl := Except.ok.inj ((rfl : interleaved.listing =
    .ok [⟨"<S>", [["|", "<A>"], ["λ"]]⟩, ⟨"<A>", [["->", "|", "<S>"], ["|", "|"]]⟩]).symm.trans hl)
  exact ⟨_, h, hl, by decide, hh, hnonTerminals, hstart, (hrights 3 (by decide)).2⟩

end Grammar

end LLOne

import LLOne.Proofs.Grammar.LineReading

/-!
# Which lines are a grammar

The first line that is out of format decides, whatever else is wrong. If there is none, the first
line decides that uses an undefined non-terminal or puts `λ` beside another word, where the
undefined non-terminal goes before the misplaced `λ`. Only if there is none of these either, the
lines are a grammar.
-/

namespace LLOne.Grammar

/-- The line is blank, or a left side in angle brackets, an arrow and one word or more. -/
def InFormat (line : String) : Prop :=
  Text.words line = [] ∨ ∃ left right, Text.words line = left :: "->" :: right ∧ right ≠ [] ∧
    isBracketed left = true

def rightSide (line : String) : List String := (Text.words line).drop 2

def leftSides (lines : List String) : List String :=
  lines.filterMap fun line => (Text.words line).head?

def Faulty (lines : List String) (line : String) : Prop :=
  Unreadable (leftSides lines) (rightSide line)

/-- What is wrong with lines that are no grammar, where lines are counted from one. -/
inductive Fault (lines : List String) : GrammarError → Prop
  | format {before after : List String} {line : String} (hl : lines = before ++ line :: after)
    (hb : ∀ l ∈ before, InFormat l) (h : ¬ InFormat line) :
    Fault lines (.format (before.length + 1) line)
  | undefinedNonTerminal {before after front back : List String} {line word : String}
    (hall : ∀ l ∈ lines, InFormat l) (hl : lines = before ++ line :: after)
    (hb : ∀ l ∈ before, ¬ Faulty lines l) (hr : rightSide line = front ++ word :: back)
    (hf : ∀ w ∈ front, ¬ Undefined (leftSides lines) w) (h : Undefined (leftSides lines) word) :
    Fault lines (.undefinedNonTerminal word)
  | misplacedLambda {before after : List String} {line : String}
    (hall : ∀ l ∈ lines, InFormat l) (hl : lines = before ++ line :: after)
    (hb : ∀ l ∈ before, ¬ Faulty lines l)
    (hd : ∀ w ∈ rightSide line, ¬ Undefined (leftSides lines) w)
    (h : MixesLambda (rightSide line)) : Fault lines (.misplacedLambda (before.length + 1))

def ruleOf? (g : Grammar) (line : String) (number : Nat) : Option Rule :=
  match Text.words line with
  | left :: _ :: right => some ⟨number, (g.indexOf? left).getD 0, right⟩
  | _ => none

def rulesOf (g : Grammar) (number : Nat) (lines : List String) : List Rule :=
  (lines.zipIdx number).filterMap fun (line, number) => g.ruleOf? line number

variable {g h : Grammar} {line : String} {lines : List String}

/-! ## Left sides -/

theorem readLeftSides_blank (hw : Text.words line = []) (number : Nat) (rest : List String) :
    readLeftSides number g (line :: rest) = readLeftSides (number + 1) g rest := by
  simp only [readLeftSides, hw]

theorem readLeftSides_rule {left : String} {right : List String}
    (hw : Text.words line = left :: "->" :: right) (hne : right ≠ [])
    (hb : isBracketed left = true) (number : Nat) (rest : List String) :
    readLeftSides number g (line :: rest) =
      (readLeftSides (number + 1) (g.resolve (.nonTerminal left)).1 rest).map fun (h, rules) =>
        (h, ⟨number, (g.resolve (.nonTerminal left)).2, right⟩ :: rules) := by
  obtain ⟨word, words, rfl⟩ := List.exists_cons_of_ne_nil hne
  simp only [readLeftSides, hw, hb, and_self, if_true]

theorem readLeftSides_of_not_inFormat (hline : ¬ InFormat line) (number : Nat)
    (rest : List String) :
    readLeftSides number g (line :: rest) = .error (.format number line) := by
  unfold readLeftSides
  split
  next hw => exact absurd (.inl hw) hline
  next left arrow word words hw =>
    rw [if_neg]
    rintro ⟨rfl, hb⟩
    exact hline (.inr ⟨left, word :: words, hw, List.cons_ne_nil _ _, hb⟩)
  · rfl

/-- The first line out of format is reported. -/
theorem readLeftSides_eq_error {before after : List String} (hb : ∀ l ∈ before, InFormat l)
    (hline : ¬ InFormat line) (number : Nat) :
    readLeftSides number g (before ++ line :: after) =
      .error (.format (number + before.length) line) := by
  induction before generalizing g number with
  | nil => exact readLeftSides_of_not_inFormat hline number after
  | cons l before ih =>
    rw [List.forall_mem_cons] at hb
    rw [List.cons_append, List.length_cons, Nat.add_comm before.length, ← Nat.add_assoc]
    rcases hb.1 with hw | ⟨left, right, hw, hne, hbr⟩
    · rw [readLeftSides_blank hw, ih hb.2]
    · rw [readLeftSides_rule hw hne hbr, ih hb.2]
      rfl

theorem rulesOf_cons (number : Nat) (rest : List String) : g.rulesOf number (line :: rest) =
    (g.ruleOf? line number).toList ++ g.rulesOf (number + 1) rest := by
  simp only [rulesOf, List.zipIdx_cons, List.filterMap_cons]
  cases g.ruleOf? line number <;> rfl

theorem rulesOf_append (number : Nat) (before after : List String) :
    g.rulesOf number (before ++ after) =
      g.rulesOf number before ++ g.rulesOf (number + before.length) after := by
  simp only [rulesOf, List.zipIdx_append, List.filterMap_append]

theorem leftSides_cons (rest : List String) : leftSides (line :: rest) =
    (Text.words line).head?.toList ++ leftSides rest := by
  simp only [leftSides, List.filterMap_cons]
  cases (Text.words line).head? <;> rfl

theorem Indexed.indexOf?_of_grows (hg : g.Indexed) (hh : h.Indexed) (hgrow : g.Grows h)
    {name : String} {x : Nat} (hx : g.indexOf? name = some x) : h.indexOf? name = some x :=
  (hh name x).2 (((hg name x).1 hx).imp_left hgrow.name?)

/-- Lines in format have their left sides collected. -/
theorem readLeftSides_eq_ok {lefts : List String} (hc : g.Collects lefts [])
    (hall : ∀ l ∈ lines, InFormat l) (number : Nat) :
    ∃ h, h.Collects (lefts ++ leftSides lines) [] ∧ g.Grows h ∧ h.productions = g.productions ∧
      readLeftSides number g lines = .ok (h, h.rulesOf number lines) := by
  induction lines generalizing g lefts number with
  | nil => exact ⟨g, by simpa [leftSides] using hc, .refl g, rfl, rfl⟩
  | cons line rest ih =>
    rw [List.forall_mem_cons] at hall
    rcases hall.1 with hw | ⟨left, right, hw, hne, hb⟩
    · obtain ⟨h, hh, hgrow, hproductions, hread⟩ := ih hc hall.2 (number + 1)
      refine ⟨h, ?_, hgrow, hproductions, ?_⟩
      · rwa [leftSides_cons, hw]
      · rw [readLeftSides_blank hw, hread, rulesOf_cons, ruleOf?, hw]
        rfl
    · have hnew := hc.declare hb
      obtain ⟨h, hh, hgrow, hproductions, hread⟩ := ih hnew hall.2 (number + 1)
      have hindex := hnew.indexed.indexOf?_of_grows hh.indexed hgrow
        (indexOf?_resolve g (.nonTerminal left))
      refine ⟨h, ?_, (grows_resolve g _).trans hgrow,
        hproductions.trans (productions_resolve g _), ?_⟩
      · rwa [List.append_assoc, show [left] ++ leftSides rest = leftSides (line :: rest) by
          rw [leftSides_cons, hw]; rfl] at hh
      · have hrule : h.ruleOf? line number =
            some ⟨number, (g.resolve (.nonTerminal left)).2, right⟩ := by
          simp only [ruleOf?, hw]
          rw [show h.indexOf? left = _ from hindex, Option.getD_some]
        rw [readLeftSides_rule hw hne hb, hread, rulesOf_cons, hrule]
        rfl

/-! ## Right sides -/

theorem exists_ruleOf?_eq_some (hne : rightSide line ≠ []) (number : Nat) :
    ∃ left, g.ruleOf? line number = some ⟨number, left, rightSide line⟩ := by
  unfold rightSide at hne ⊢
  unfold ruleOf?
  split
  next left arrow right hw =>
    rw [hw]
    exact ⟨(g.indexOf? left).getD 0, rfl⟩
  next hw =>
    match hl : Text.words line with
    | [] => simp [hl] at hne
    | [_] => simp [hl] at hne
    | left :: arrow :: right => exact absurd hl (hw left arrow right)

theorem words_of_ruleOf? {number : Nat} {rule : Rule} (hr : g.ruleOf? line number = some rule) :
    rule.words = rightSide line := by
  unfold ruleOf? at hr
  split at hr
  next left arrow right hw =>
    obtain rfl := Option.some.inj hr
    rw [rightSide, hw]
    rfl
  · cases hr

theorem exists_line_of_mem_rulesOf {number : Nat} {rule : Rule}
    (hr : rule ∈ g.rulesOf number lines) : ∃ line ∈ lines, rule.words = rightSide line := by
  obtain ⟨⟨line, n⟩, hmem, hrule⟩ := List.mem_filterMap.1 hr
  exact ⟨line, List.fst_mem_of_mem_zipIdx hmem, words_of_ruleOf? hrule⟩

/-! ## Loading -/

theorem load_of_inFormat (hall : ∀ l ∈ lines, InFormat l) :
    ∃ h, h.Collects (leftSides lines) [] ∧ h.productions = [] ∧
      load lines = (readRightSides h (h.rulesOf 1 lines)).map fun g =>
        g.setStart (g.productions.head?.map Production.left) := by
  obtain ⟨h, hh, -, hproductions, hread⟩ := readLeftSides_eq_ok collects_blank hall 1
  exact ⟨h, hh, hproductions, by simp only [load, hread]⟩

/-- In front of a faulty line all rules are read, and the faulty line is the next rule. -/
theorem load_of_faulty {before after : List String} (hl : lines = before ++ line :: after)
    (hall : ∀ l ∈ lines, InFormat l) (hb : ∀ l ∈ before, ¬ Faulty lines l)
    (hne : rightSide line ≠ []) {e : GrammarError}
    (he : ∀ k words left rest, k.Collects (leftSides lines) words →
      readRightSides k (⟨before.length + 1, left, rightSide line⟩ :: rest) = .error e) :
    load lines = .error e := by
  obtain ⟨h, hh, -, hload⟩ := load_of_inFormat hall
  have hreadable : ∀ rule ∈ h.rulesOf 1 before, ¬ Unreadable (leftSides lines) rule.words := by
    intro rule hrule
    obtain ⟨l, hmem, hwords⟩ := exists_line_of_mem_rulesOf hrule
    rw [hwords]
    exact hb l hmem
  obtain ⟨left, hrule⟩ := h.exists_ruleOf?_eq_some hne (before.length + 1)
  have hrules : h.rulesOf 1 lines = h.rulesOf 1 before ++
      ⟨before.length + 1, left, rightSide line⟩ :: h.rulesOf (before.length + 2) after := by
    rw [hl, rulesOf_append, rulesOf_cons, Nat.add_comm 1, hrule]
    rfl
  obtain ⟨k, -, hk, -, -, -, hread⟩ := readRightSides_append hh hreadable
    (⟨before.length + 1, left, rightSide line⟩ :: h.rulesOf (before.length + 2) after)
  rw [hload, hrules, hread, he k _ left _ hk]
  rfl

theorem Fault.load_eq {e : GrammarError} (hf : Fault lines e) : load lines = .error e := by
  cases hf with
  | @format before after line hl hb h =>
    have herror : readLeftSides 1 blank (before ++ line :: after) = _ :=
      readLeftSides_eq_error hb h 1
    rw [load, hl, herror, Nat.add_comm]
  | undefinedNonTerminal hall hl hb hr hf h =>
    refine load_of_faulty hl hall hb (hr ▸ List.append_ne_nil_of_right_ne_nil _ (by simp)) ?_
    intro k words left rest hk
    exact readRightSides_of_undefined hk hr hf h rest
  | @misplacedLambda before after line hall hl hb hd h =>
    refine load_of_faulty hl hall hb (fun hnil => ?_) fun k words left rest hk => ?_
    · rw [MixesLambda, hnil] at h
      exact absurd h.1 (by simp)
    · exact readRightSides_of_mixesLambda hk hd h rest

theorem exists_first {α : Type} {p : α → Prop} {l : List α} (h : ∃ a ∈ l, p a) :
    ∃ before a after, l = before ++ a :: after ∧ (∀ b ∈ before, ¬ p b) ∧ p a := by
  induction l with
  | nil => simp at h
  | cons a l ih =>
    by_cases ha : p a
    · exact ⟨[], a, l, rfl, by simp, ha⟩
    · obtain ⟨b, hb, hpb⟩ := h
      rcases List.mem_cons.1 hb with rfl | hb
      · exact absurd hpb ha
      · obtain ⟨before, c, after, rfl, hbefore, hc⟩ := ih ⟨b, hb, hpb⟩
        exact ⟨a :: before, c, after, rfl, List.forall_mem_cons.2 ⟨ha, hbefore⟩, hc⟩

/-- Lines that are not accepted have a fault. -/
theorem exists_fault (h : ¬ ((∀ l ∈ lines, InFormat l) ∧ ∀ l ∈ lines, ¬ Faulty lines l)) :
    ∃ e, Fault lines e := by
  by_cases hall : ∀ l ∈ lines, InFormat l
  · have hfaulty : ∃ l ∈ lines, Faulty lines l := by
      have hnot : ¬ ∀ l ∈ lines, ¬ Faulty lines l := fun hn => h ⟨hall, hn⟩
      simpa using hnot
    obtain ⟨before, line, after, hl, hb, hline⟩ := exists_first hfaulty
    by_cases hd : ∃ w ∈ rightSide line, Undefined (leftSides lines) w
    · obtain ⟨front, word, back, hr, hf, hw⟩ := exists_first hd
      exact ⟨_, .undefinedNonTerminal hall hl hb hr hf hw⟩
    · have hd' : ∀ w ∈ rightSide line, ¬ Undefined (leftSides lines) w :=
        fun w hw hu => hd ⟨w, hw, hu⟩
      exact ⟨_, .misplacedLambda hall hl hb hd' (hline.resolve_left hd)⟩
  · have hout : ∃ l ∈ lines, ¬ InFormat l := by simpa using hall
    obtain ⟨before, line, after, hl, hb, hline⟩ := exists_first hout
    exact ⟨_, .format hl (fun l hm => Classical.not_not.1 (hb l hm)) hline⟩

/-- Accepted lines are read to the end, into one production for each rule. -/
theorem load_of_accepted (hall : ∀ l ∈ lines, InFormat l) (hb : ∀ l ∈ lines, ¬ Faulty lines l) :
    ∃ h g : Grammar, h.Collects (leftSides lines) [] ∧ h.Grows g ∧ load lines = .ok g ∧
      g.Collects (leftSides lines) ((h.rulesOf 1 lines).flatMap Rule.words) ∧
      (g.productions.map fun p => (p.left, p.right.map g.name?)) =
        ((h.rulesOf 1 lines).map fun rule => (rule.left, (rule.words.map spelling).map some)) := by
  obtain ⟨h, hh, hproductions, hload⟩ := load_of_inFormat hall
  have hreadable : ∀ rule ∈ h.rulesOf 1 lines, ¬ Unreadable (leftSides lines) rule.words := by
    intro rule hrule
    obtain ⟨l, hmem, hwords⟩ := exists_line_of_mem_rulesOf hrule
    rw [hwords]
    exact hb l hmem
  obtain ⟨k, added, hk, hgrow, hadded, hspell, hread⟩ := readRightSides_append hh hreadable []
  rw [List.append_nil] at hread
  rw [hproductions, List.nil_append] at hadded
  refine ⟨h, k.setStart (k.productions.head?.map Production.left), hh, hgrow, ?_,
    ⟨hk.symbols, hk.bracketed, hk.indexed⟩, ?_⟩
  · rw [hload, hread]
    rfl
  · rw [← hspell, ← hadded]
    rfl

/-- Loading fails with the fault of the lines, and succeeds if and only if every line is in format
and none uses an undefined non-terminal or puts `λ` beside another word. -/
theorem load_exact (lines : List String) :
    (∀ e, load lines = .error e ↔ Fault lines e) ∧
      ((∃ g, load lines = .ok g) ↔
        (∀ l ∈ lines, InFormat l) ∧ ∀ l ∈ lines, ¬ Faulty lines l) := by
  by_cases haccept : (∀ l ∈ lines, InFormat l) ∧ ∀ l ∈ lines, ¬ Faulty lines l
  · obtain ⟨-, g, -, -, hload, -⟩ := load_of_accepted haccept.1 haccept.2
    refine ⟨fun e => ⟨fun he => ?_, Fault.load_eq⟩, iff_of_true ⟨g, hload⟩ haccept⟩
    rw [hload] at he
    cases he
  · obtain ⟨e, hf⟩ := exists_fault haccept
    refine ⟨fun e' => ⟨fun he => ?_, Fault.load_eq⟩, iff_of_false ?_ haccept⟩
    · obtain rfl := Except.error.inj (hf.load_eq.symm.trans he)
      exact hf
    · rintro ⟨g, hg⟩
      rw [hf.load_eq] at hg
      cases hg

example : load ["<S> -> <A> lambda", "", "<S> a"] = .error (.format 3 "<S> a") := rfl

example : load ["<S> -> lambda <A>", "<S> -> a λ"] = .error (.undefinedNonTerminal "<A>") := rfl

end LLOne.Grammar

import LLOne.Journal
import LLOne.Proofs.Grammar.FirstOrder
import LLOne.Proofs.Grammar.Representation

/-!
# The records of FIRST sets

A search can note down what it does: a non-terminal is marked when its set is opened, and when the
set is complete it is marked again and a record is written. This search finds what the search
through a table finds, and writes what is read off that table. So there is one record for each
non-terminal, which shows its set as it stays, and the records of its left corners come before.
-/

namespace LLOne

def Record.isOfFirst (r : Record) : Bool :=
  r.level == .trace && "FIRST(".toList.isPrefixOf r.message.toList

def Record.TellsFirst (r : Record) (name : String) : Prop :=
  r.level = .trace ∧ ∃ text, r.message = "FIRST(" ++ name ++ ") = " ++ text

/-- A word that stands in front of `) = ` is told by the text. -/
theorem Record.TellsFirst.inj {r : Record} {name name' : String} (h : r.TellsFirst name)
    (h' : r.TellsFirst name') (hw : Text.IsWord name) (hw' : Text.IsWord name') :
    name = name' := by
  obtain ⟨-, text, ht⟩ := h
  obtain ⟨-, text', ht'⟩ := h'
  have hclose : ∀ {word : String}, Text.IsWord word →
      ∀ c ∈ word.toList ++ [')'], (!Text.isBlank c) = true := by
    intro word hword
    refine List.forall_mem_append.2 ⟨fun c hc => ?_, List.forall_mem_singleton.2 rfl⟩
    rw [hword.not_blank c hc]
    rfl
  have hblank : ∀ rest : List Char, ∀ c ∈ (' ' :: rest).head?, (!Text.isBlank c) = false := by
    intro rest c hc
    obtain rfl := Option.some.inj hc
    rfl
  have he := congrArg String.toList (ht.symm.trans ht')
  have hparts : (name.toList ++ [')']) ++ ' ' :: '=' :: ' ' :: text.toList =
      (name'.toList ++ [')']) ++ ' ' :: '=' :: ' ' :: text'.toList := by
    simpa using he
  have hname := (append_inj_of_forall (p := fun c => !Text.isBlank c) (hclose hw)
    (hclose hw') (hblank _) (hblank _) hparts).1
  exact String.toList_inj.1 (List.append_cancel_right hname)

namespace Journal

def ToldAt (records : List Record) (name : String) (j : Nat) : Prop :=
  ∀ i, (∃ r, records[i]? = some r ∧ r.TellsFirst name) ↔ i = j

def firstRecord (g : Grammar) (a : Nat) (set : SymbolSet) : Record :=
  ⟨.trace, "FIRST(" ++ symbolText g a ++ ") = " ++ setText g set⟩

def firstRecords (g : Grammar) (table : SetTable) : List Record :=
  table.entries.map fun entry => firstRecord g entry.1 entry.2

theorem ofFirst_eq (g : Grammar) : ofFirst g = firstRecords g g.firstSearch.2 := rfl

theorem isOfFirst_firstRecord (g : Grammar) (a : Nat) (set : SymbolSet) :
    (firstRecord g a set).isOfFirst = true := by
  simp [firstRecord, Record.isOfFirst]

theorem not_isOfFirst_ofSets {g : Grammar} {ff : FirstFollow} {r : Record} (hr : r ∈ ofSets g ff) :
    r.isOfFirst = false := by
  obtain ⟨a, -, rfl⟩ := List.mem_map.1 hr
  rfl

/-- No other record of the analysis looks like one of a FIRST set. -/
theorem filter_isOfFirst {g : Grammar} {start : Nat} (hstart : g.start = some start) :
    (ofFirstFollow g).filter Record.isOfFirst = ofFirst g := by
  have hkept : (ofFirst g).filter Record.isOfFirst = ofFirst g := by
    refine List.filter_eq_self.2 fun r hr => ?_
    obtain ⟨entry, -, rfl⟩ := List.mem_map.1 hr
    exact isOfFirst_firstRecord g entry.1 entry.2
  unfold ofFirstFollow
  rw [hstart]
  dsimp only
  split
  next filled ff _ _ =>
    have hdropped : (ofSets g ff).filter Record.isOfFirst = [] :=
      List.filter_eq_nil_iff.2 fun r hr => Bool.eq_false_iff.1 (not_isOfFirst_ofSets hr)
    rw [List.filter_append, hkept, List.filter_cons_of_neg, hdropped, List.append_nil]
    simp [Record.isOfFirst]
  · exact hkept

end Journal

namespace Grammar

/-! ## A search that notes down what it does -/

inductive Mark where
  | opened
  | complete (set : SymbolSet)

structure Notes where
  /-- The marks of the non-terminals, the latest first. -/
  marks : List (Nat × Mark)
  records : List Record

namespace Notes

def blank : Notes := ⟨[], []⟩

def mark (notes : Notes) (a : Nat) (m : Mark) : Notes :=
  { notes with marks := (a, m) :: notes.marks }

def write (notes : Notes) (r : Record) : Notes := { notes with records := notes.records ++ [r] }

end Notes

abbrev Noted (α : Type) := Except GrammarError α × Notes

variable (g : Grammar)

def noteRight (visit : Nat → Notes → Noted SymbolSet) :
    List Nat → SymbolSet → Notes → Noted (SymbolSet × Bool)
  | [], found, notes => (.ok (found, true), notes)
  | x :: rest, found, notes =>
    match g.symbols[x]? with
    | none => (.error (.danglingIndex x), notes)
    | some .lambda => noteRight visit rest found notes
    | some (.nonTerminal _) =>
      match visit x notes with
      | (.error e, notes) => (.error e, notes)
      | (.ok first, notes) =>
        let found := found ∪ first.erase Symbol.lambdaIndex
        if Symbol.lambdaIndex ∈ first then noteRight visit rest found notes
        else (.ok (found, false), notes)
    | some _ => (.ok (found.insert x, false), notes)

def withLambda (vanishes : Bool) (found : SymbolSet) : SymbolSet :=
  if vanishes then found.insert Symbol.lambdaIndex else found

def noteRights (visit : Nat → Notes → Noted SymbolSet) :
    List (List Nat) → SymbolSet → Notes → Noted SymbolSet
  | [], found, notes => (.ok found, notes)
  | right :: rights, found, notes =>
    match g.noteRight visit right found notes with
    | (.error e, notes) => (.error e, notes)
    | (.ok (found, vanishes), notes) => noteRights visit rights (withLambda vanishes found) notes

/-- FIRST of the non-terminal `a`, which is found in its mark if it is complete and is left
recursive if it is open. -/
def noteFirst : Nat → Nat → Notes → Noted SymbolSet
  | 0, a, notes => (.error (.danglingIndex a), notes)
  | fuel + 1, a, notes =>
    match notes.marks.lookup a with
    | some (.complete first) => (.ok first, notes)
    | some .opened => (.error (.leftRecursion ((g.name? a).getD "")), notes)
    | none =>
      match g.noteRights (noteFirst fuel) (g.rightsOf a) ∅ (notes.mark a .opened) with
      | (.error e, notes) => (.error e, notes)
      | (.ok first, notes) =>
        (.ok first, (notes.write (Journal.firstRecord g a first)).mark a (.complete first))

def noteAll (fuel : Nat) : List Nat → SetTable → Notes → Noted SetTable
  | [], found, notes => (.ok found, notes)
  | a :: rest, found, notes =>
    match g.noteFirst fuel a notes with
    | (.error e, notes) => (.error e, notes)
    | (.ok first, notes) => noteAll fuel rest (found.update a fun _ => first) notes

def notedSearch (fuel : Nat) : Noted SetTable := g.noteAll fuel g.nonTerminals ∅ .blank

/-! ## The table and the notes -/

/-- The notes tell the sets of the table and which ones are open. -/
structure Mirrors (opened : List Nat) (table : SetTable) (notes : Notes) : Prop where
  marks : ∀ a, notes.marks.lookup a =
    if a ∈ opened then some .opened else (table.get? a).map .complete
  records : notes.records = Journal.firstRecords g table
  apart : ∀ o ∈ opened, table.get? o = none

/-- Both searches find what agrees, or both fail alike with the same records. -/
inductive Mirrored {α β : Type} (opened : List Nat) (agree : α → β → Prop) :
    Search α → Noted β → Prop
  | ok {x : α} {y : β} {table : SetTable} {notes : Notes} (hxy : agree x y)
      (h : g.Mirrors opened table notes) : Mirrored opened agree (.ok x, table) (.ok y, notes)
  | error {e : GrammarError} {table : SetTable} {notes : Notes}
      (h : notes.records = Journal.firstRecords g table) :
      Mirrored opened agree (.error e, table) (.error e, notes)

variable {g}

namespace Mirrors

variable {opened : List Nat} {table : SetTable} {notes : Notes} {a : Nat}

theorem blank : g.Mirrors [] ∅ .blank where
  marks _ := rfl
  records := rfl
  apart _ ho := absurd ho List.not_mem_nil

theorem enter (h : g.Mirrors opened table notes) (ha : table.get? a = none) :
    g.Mirrors (a :: opened) table (notes.mark a .opened) where
  marks b := by
    rw [Notes.mark, List.lookup_cons, h.marks]
    by_cases hb : b = a
    · simp [hb]
    · simp [hb, beq_eq_false_iff_ne.2 hb]
  records := h.records
  apart := List.forall_mem_cons.2 ⟨ha, h.apart⟩

theorem complete (h : g.Mirrors (a :: opened) table notes) (hn : a ∉ opened) (first : SymbolSet) :
    g.Mirrors opened (table.update a fun _ => first)
      ((notes.write (Journal.firstRecord g a first)).mark a (.complete first)) := by
  obtain ⟨hnone, hopened⟩ := List.forall_mem_cons.1 h.apart
  refine ⟨fun b => ?_, ?_, fun o ho => ?_⟩
  · rw [Notes.mark, Notes.write, List.lookup_cons, h.marks, SetTable.get?_update]
    by_cases hb : b = a
    · simp [hb, hn]
    · simp [hb, beq_eq_false_iff_ne.2 hb]
  · rw [Journal.firstRecords, SetTable.entries_update_of_none hnone, List.map_append]
    exact congrArg (· ++ [Journal.firstRecord g a first]) h.records
  · have hoa : o ≠ a := fun he => hn (he ▸ ho)
    rw [SetTable.get?_update, if_neg hoa]
    exact hopened o ho

end Mirrors

theorem Mirrored.imp {α β : Type} {opened : List Nat} {agree agree' : α → β → Prop}
    {result : Search α} {result' : Noted β} (h : g.Mirrored opened agree result result')
    (himp : ∀ x y, agree x y → agree' x y) : g.Mirrored opened agree' result result' := by
  cases h with
  | ok hxy h => exact .ok (himp _ _ hxy) h
  | error he => exact .error he

section Visits

variable {opened : List Nat} {visit : Nat → SetTable → Search SymbolSet}
  {visit' : Nat → Notes → Noted SymbolSet}
  (hv : ∀ x table notes, g.Mirrors opened table notes →
    g.Mirrored opened (· = ·) (visit x table) (visit' x notes))

include hv

theorem noteRight_mirrored (right : List Nat) (found : SymbolSet) {table : SetTable}
    {notes : Notes} (h : g.Mirrors opened table notes) :
    g.Mirrored opened (fun set result => set = withLambda result.2 result.1)
      (g.searchRight visit right found table) (g.noteRight visit' right found notes) := by
  induction right generalizing found table notes with
  | nil => exact .ok rfl h
  | cons x rest ih =>
    unfold searchRight noteRight
    cases hx : g.symbols[x]? with
    | none => exact .error h.records
    | some symbol =>
      cases symbol with
      | lambda => exact ih found h
      | endMarker => exact .ok rfl h
      | terminal name => exact .ok rfl h
      | nonTerminal name =>
        have hvisit := hv x table notes h
        generalize visit x table = result at hvisit
        generalize visit' x notes = result' at hvisit
        cases hvisit with
        | error he => exact .error he
        | ok heq h =>
          subst heq
          dsimp only
          split
          · exact ih _ h
          · exact .ok rfl h

theorem noteRights_mirrored (rights : List (List Nat)) (found : SymbolSet) {table : SetTable}
    {notes : Notes} (h : g.Mirrors opened table notes) :
    g.Mirrored opened (· = ·) (g.searchRights visit rights found table)
      (g.noteRights visit' rights found notes) := by
  induction rights generalizing found table notes with
  | nil => exact .ok rfl h
  | cons right rights ih =>
    unfold searchRights noteRights
    have hright := noteRight_mirrored hv right found h
    generalize g.searchRight visit right found table = result at hright
    generalize g.noteRight visit' right found notes = result' at hright
    cases hright with
    | error he => exact .error he
    | ok heq h =>
      subst heq
      exact ih _ h

end Visits

theorem noteFirst_mirrored (fuel : Nat) (opened : List Nat) (a : Nat) (table : SetTable)
    (notes : Notes) (h : g.Mirrors opened table notes) :
    g.Mirrored opened (· = ·) (g.searchFirst fuel opened a table) (g.noteFirst fuel a notes) := by
  induction fuel generalizing opened a table notes with
  | zero => exact .error h.records
  | succ fuel ih =>
    unfold searchFirst noteFirst
    rw [h.marks]
    by_cases ha : a ∈ opened
    · rw [h.apart a ha, if_pos ha, if_pos ha]
      exact .error h.records
    rw [if_neg ha, if_neg ha]
    cases hset : table.get? a with
    | some first => exact .ok rfl h
    | none =>
      have hrights := noteRights_mirrored (ih (a :: opened)) (g.rightsOf a) ∅ (h.enter hset)
      dsimp only [Option.map_none]
      generalize g.searchRights (g.searchFirst fuel (a :: opened)) (g.rightsOf a) ∅ table =
        result at hrights
      generalize g.noteRights (g.noteFirst fuel) (g.rightsOf a) ∅ (notes.mark a .opened) =
        result' at hrights
      cases hrights with
      | error he => exact .error he
      | ok heq h =>
        subst heq
        exact .ok rfl (h.complete ha _)

theorem searchFirst_eq {fuel : Nat} (hfuel : g.symbols.length < fuel) {a : Nat}
    (ha : g.isNonTerminal a = true) (table : SetTable) :
    g.searchFirst fuel [] a table = g.searchFirst (g.symbols.length + 1) [] a table := by
  obtain ⟨more, rfl⟩ := Nat.exists_eq_add_of_le (Nat.succ_le_of_lt hfuel)
  exact searchFirst_add _ more [] (by simp) List.nodup_nil (by rw [List.length_nil]; omega) ha table

namespace WellFormed

variable (hg : g.WellFormed) {fuel : Nat} (hfuel : g.symbols.length < fuel)

include hg hfuel

/-- What is found for each of the non-terminals is exact. -/
theorem noteAll_mirrored (as : List Nat) (has : ∀ a ∈ as, g.isNonTerminal a = true)
    {found table : SetTable} {notes : Notes} (h : g.Mirrors [] table notes)
    (hf : g.FirstExact found) (ht : g.FirstExact table) :
    g.Mirrored [] (fun _ all => g.FirstExact all ∧ Keeps found all ∧
      ∀ a ∈ as, (all.get? a).isSome = true) (g.searchAll as table)
      (g.noteAll fuel as found notes) := by
  induction as generalizing found table notes with
  | nil => exact .ok ⟨hf, .refl found, by simp⟩ h
  | cons a rest ih =>
    rw [List.forall_mem_cons] at has
    unfold searchAll noteAll
    have hfirst := noteFirst_mirrored fuel [] a table notes h
    rw [searchFirst_eq hfuel has.1] at hfirst
    cases hs : g.searchFirst (g.symbols.length + 1) [] a table with
    | mk result after =>
      rw [hs] at hfirst
      generalize g.noteFirst fuel a notes = result' at hfirst
      cases hfirst with
      | error he => exact .error he
      | @ok first _ _ _ heq h =>
        subst heq
        obtain ⟨hafter, -, -, hset⟩ := hg.searchFirst_explores _ [] a first table after has.1 hs ht
        refine (ih has.2 h (hf.update hset) hafter).imp fun _ all hall => ?_
        obtain ⟨hsets, hkeeps, hdone⟩ := hall
        have hentered : ((found.update a fun _ => first).get? a).isSome = true := by
          rw [SetTable.get?_update, if_pos rfl]
          rfl
        exact ⟨hsets, (keeps_update found a first).trans hkeeps,
          List.forall_mem_cons.2 ⟨hkeeps a hentered, hdone⟩⟩

theorem notedSearch_mirrored :
    g.Mirrored [] (fun _ found => g.FirstExact found ∧
      ∀ a ∈ g.nonTerminals, (found.get? a).isSome = true) g.firstSearch (g.notedSearch fuel) :=
  (hg.noteAll_mirrored hfuel g.nonTerminals (fun _ => g.mem_nonTerminals.1) .blank
    firstExact_empty firstExact_empty).imp fun _ _ hall => ⟨hall.1, hall.2.2⟩

/-- What is written down is what is read off the table, also if the search fails. -/
theorem records_notedSearch : (g.notedSearch fuel).2.records = Journal.ofFirst g := by
  have h := hg.notedSearch_mirrored hfuel
  rw [Journal.ofFirst_eq]
  generalize g.firstSearch = result at h
  generalize g.notedSearch fuel = result' at h
  cases h with
  | error he => exact he
  | ok _ h => exact h.records

theorem notedSearch_eq_ok {table : SetTable} (h : g.firstTable = .ok table) :
    ∃ found notes, g.notedSearch fuel = (.ok found, notes) ∧ g.Mirrors [] table notes ∧
      ∀ a, g.isNonTerminal a = true → found.get? a = table.get? a := by
  have hsearch := hg.notedSearch_mirrored hfuel
  rw [firstSearch_eq h] at hsearch
  generalize g.notedSearch fuel = result at hsearch ⊢
  cases hsearch with
  | @ok _ found _ notes hfound hmirrors =>
    obtain ⟨hsets, hdone⟩ := hfound
    refine ⟨found, notes, rfl, hmirrors, fun a ha => ?_⟩
    obtain ⟨set, hs⟩ := Option.isSome_iff_exists.1 (hdone a (g.mem_nonTerminals.2 ha))
    obtain ⟨set', hs', hexact⟩ := hg.firstTable_spec h ha
    rw [hs, hs', SymbolSet.ext fun t => (hsets a set hs t).trans (hexact t).symm]

end WellFormed

/-! ## One record for each non-terminal -/

theorem vanishes_form {symbols : List Nat} (h : ∀ x ∈ symbols, g.Derives (g.form [x]) []) :
    g.Vanishes (g.form symbols) := by
  induction symbols with
  | nil => exact vanishes_nil
  | cons x rest ih =>
    rw [List.forall_mem_cons] at h
    rw [← List.singleton_append, form_append]
    exact vanishes_append_iff.2 ⟨h.1, ih h.2⟩

/-- A symbol behind others that can vanish is a corner. -/
theorem corner_of_mem {a b : Nat} {before after : List Nat}
    (hp : ⟨a, before ++ b :: after⟩ ∈ g.productions)
    (hv : ∀ x ∈ before, g.Derives (g.form [x]) []) (hb : g.isNonTerminal b = true) :
    g.Corner a b := by
  refine ⟨before ++ b :: after, g.mem_rightsOf.2 hp, g.form before, g.form after, ?_,
    vanishes_form hv⟩
  rw [form_append, form_cons_of_ne (ne_lambda_of_isNonTerminal hb)]

theorem name?_of_nonTerminal {a : Nat} {name : String}
    (hs : g.symbols[a]? = some (.nonTerminal name)) : g.name? a = some name := by
  rw [name?, hs]
  rfl

theorem tellsFirst_firstRecord {a : Nat} {name : String} (hn : g.name? a = some name)
    (set : SymbolSet) : (Journal.firstRecord g a set).TellsFirst name := by
  refine ⟨rfl, Journal.setText g set, ?_⟩
  rw [Journal.firstRecord, Journal.symbolText, hn, Option.getD_some]

section Loaded

variable {lines : List String} (hload : load lines = .ok g)

include hload

/-- The record of a non-terminal stands where the table has its entry. -/
theorem toldAt_firstRecords {table : SetTable} (horder : g.CornersFirst table.symbols)
    {a j : Nat} {name : String} (hs : g.symbols[a]? = some (.nonTerminal name))
    (hj : table.symbols[j]? = some a) : Journal.ToldAt (Journal.firstRecords g table) name j := by
  have hn := name?_of_nonTerminal hs
  intro i
  simp only [Journal.firstRecords, List.getElem?_map, Option.map_eq_some_iff]
  constructor
  · rintro ⟨r, ⟨⟨b, set⟩, hi, rfl⟩, htells⟩
    have hb : table.symbols[i]? = some b := by rw [SetTable.symbols, List.getElem?_map, hi]; rfl
    obtain ⟨other, ho⟩ := isNonTerminal_iff.1 (horder.isNonTerminal b (List.mem_of_getElem? hb))
    have hno := name?_of_nonTerminal ho
    have hsame := htells.inj (tellsFirst_firstRecord hno set) (isWord_of_name? hload hn)
      (isWord_of_name? hload hno)
    obtain rfl : a = b := (collects_of_load hload).indexed.eq_of_name? hn (hsame ▸ hno)
    have hlt := (List.getElem?_eq_some_iff.1 hb).1
    exact (List.getElem?_inj hlt horder.nodup).1 (hb.trans hj.symm)
  · rintro rfl
    rw [SetTable.symbols, List.getElem?_map, Option.map_eq_some_iff] at hj
    obtain ⟨⟨b, set⟩, hi, rfl⟩ := hj
    exact ⟨_, ⟨(b, set), hi, rfl⟩, tellsFirst_firstRecord hn set⟩

/-- A search that succeeds writes one record for each non-terminal, with the set that is found for
it in the end, and behind the records of the non-terminals that its right sides have behind symbols
that can vanish. -/
theorem firstRecords_exact {ff : FirstFollow} (h : g.firstFollow = .ok ff) {fuel : Nat}
    (hfuel : g.symbols.length < fuel) :
    ∃ (found : SetTable) (notes : Notes), g.notedSearch fuel = (.ok found, notes) ∧
      (Journal.ofFirstFollow g).filter Record.isOfFirst = notes.records ∧
      notes.records.length = g.nonTerminals.length ∧
      ∀ a name, g.symbols[a]? = some (.nonTerminal name) → ∃ set j,
        ff.first.get? a = some set ∧ found.get? a = some set ∧
        notes.marks.lookup a = some (.complete set) ∧
        notes.records[j]? = some ⟨.trace, "FIRST(" ++ name ++ ") = " ++ Journal.setText g set⟩ ∧
        Journal.ToldAt notes.records name j ∧
        ∀ before b after other, ⟨a, before ++ b :: after⟩ ∈ g.productions →
          (∀ x ∈ before, g.Derives (g.form [x]) []) →
          g.symbols[b]? = some (.nonTerminal other) →
          ∃ i < j, Journal.ToldAt notes.records other i := by
  have hg := (consistent_of_load hload).toWellFormed
  obtain ⟨start, -, hstart, hfirst, -⟩ := parts_of_firstFollow h
  obtain ⟨horder, hperm⟩ := hg.symbols_firstTable hfirst
  obtain ⟨found, notes, hsearch, hmirrors, hfound⟩ := hg.notedSearch_eq_ok hfuel hfirst
  refine ⟨found, notes, hsearch, ?_, ?_, fun a name hs => ?_⟩
  · rw [Journal.filter_isOfFirst hstart, ← hg.records_notedSearch hfuel, hsearch]
  · rw [hmirrors.records, Journal.firstRecords, List.length_map, ← hperm.length_eq,
      SetTable.symbols, List.length_map]
  have ha := isNonTerminal_iff.2 ⟨name, hs⟩
  obtain ⟨set, hset, -⟩ := hg.firstTable_spec hfirst ha
  obtain ⟨j, hentry⟩ := SetTable.exists_entry_of_get? hset
  have hj : ff.first.symbols[j]? = some a := by
    rw [SetTable.symbols, List.getElem?_map, hentry]
    rfl
  refine ⟨set, j, hset, (hfound a ha).trans hset, ?_, ?_, ?_, ?_⟩
  · rw [hmirrors.marks, hset]
    rfl
  · rw [hmirrors.records, Journal.firstRecords, List.getElem?_map, hentry]
    simp [Journal.firstRecord, Journal.symbolText, name?_of_nonTerminal hs]
  · rw [hmirrors.records]
    exact toldAt_firstRecords hload horder hs hj
  · intro before b after other hp hv hb
    have hbn := isNonTerminal_iff.2 ⟨other, hb⟩
    obtain ⟨i, hlt, hi⟩ := horder.exists_lt hj hbn (corner_of_mem hp hv hbn)
    refine ⟨i, hlt, ?_⟩
    rw [hmirrors.records]
    exact toldAt_firstRecords hload horder hb hi

end Loaded

def sharedLines : List String :=
  ["<S> -> <A> <B> c", "<B> -> <A> b", "<A> -> a", "<A> -> lambda"]

def shared : Grammar where
  symbols := [.lambda, .endMarker, .nonTerminal "<S>", .nonTerminal "<B>", .nonTerminal "<A>",
    .terminal "c", .terminal "b", .terminal "a"]
  names := [("a", 7), ("b", 6), ("c", 5), ("<A>", 4), ("<B>", 3), ("<S>", 2), ("$", 1),
    ("lambda", 0), ("λ", 0)]
  productions := [⟨2, [4, 3, 5]⟩, ⟨3, [4, 6]⟩, ⟨4, [7]⟩, ⟨4, [0]⟩]
  start := some 2

def sharedSets : FirstFollow where
  first := ⟨[(4, .ofList [0, 7]), (3, .ofList [6, 7]), (2, .ofList [6, 7])]⟩
  follow := ⟨[(2, .ofList [1]), (3, .ofList [5]), (4, .ofList [6, 7])]⟩

theorem firstRecords_exact_shared :
    ∃ (notes : Notes) (i j : Nat),
      (Journal.ofFirstFollow shared).filter Record.isOfFirst = notes.records ∧
      notes.records.length = 3 ∧ i < j ∧ Journal.ToldAt notes.records "<B>" i ∧
      Journal.ToldAt notes.records "<S>" j ∧
      notes.records[j]? = some ⟨.trace, "FIRST(<S>) = [\"b\", \"a\"]"⟩ := by
  have hload : load sharedLines = .ok shared := rfl
  have hff : shared.firstFollow = .ok sharedSets := rfl
  obtain ⟨found, notes, -, hrecords, hlength, htold⟩ :=
    firstRecords_exact hload hff (show shared.symbols.length < 9 by decide)
  obtain ⟨set, j, hset, -, -, hj, htoldS, hbefore⟩ := htold 2 "<S>" rfl
  obtain rfl : .ofList [6, 7] = set := Option.some.inj hset
  have hvanish : ∀ x ∈ [4], shared.Derives (shared.form [x]) [] := by
    rw [List.forall_mem_singleton]
    exact Derives.of_mem (p := ⟨4, [0]⟩) (by decide)
  obtain ⟨i, hij, htoldB⟩ := hbefore [4] 3 [5] "<B>" (by decide) hvanish rfl
  exact ⟨notes, i, j, hrecords, hlength, hij, htoldB, htoldS, hj⟩

end Grammar

end LLOne

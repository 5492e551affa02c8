import LLOne.MessageTable
import Mathlib.Data.Finset.Card
import Mathlib.Tactic.Ring

/-!
# Which message counts

A table is filled by entries, those of its lines and those inserted afterwards, each of which takes
the place of an earlier one for the same non-terminal and token. So a look-up finds the last message
written for the pair, or else the last one for any token of the non-terminal, whichever of the two
was written first, and the table has as many messages as there are pairs. A table of tables, by
non-terminal and then by token, that gets the same entries has the same messages.
-/

namespace LLOne.MessageTable

abbrev Entry := (String × String) × String

def enter (t : MessageTable) (e : Entry) : MessageTable := t.insert e.1.1 e.1.2 e.2

def lastMessage? (es : List Entry) (key : String × String) : Option String :=
  (es.filter (·.1 == key)).getLast?.map Prod.snd

def keys (t : MessageTable) : List (String × String) := t.entries.map Prod.fst

abbrev Rows := List (String × List (String × String))

namespace Rows

def enter (rows : Rows) (e : Entry) : Rows :=
  put e.1.1 (put e.1.2 e.2 ((List.lookup e.1.1 rows).getD [])) rows

def lookup (rows : Rows) (nonTerminal token : String) : Option String :=
  (List.lookup nonTerminal rows).bind fun messages =>
    (messages.lookup token).or (messages.lookup anyToken)

def size (rows : Rows) : Nat := (rows.map fun row => row.2.length).sum

/-- The table of tables has the messages of the table, and no key twice. -/
structure Matches (rows : Rows) (t : MessageTable) : Prop where
  get : ∀ a x, (List.lookup a rows).bind (List.lookup x) = t.get? a x
  size : rows.size = t.size
  nonTerminals : (rows.map Prod.fst).Nodup
  tokens : ∀ a messages, List.lookup a rows = some messages → (messages.map Prod.fst).Nodup
  keys : t.keys.Nodup

end Rows

variable {t : MessageTable}

/-! ## Lines -/

/-- An entry has four words at least, the third of which is a bar. -/
theorem entryOf?_eq_some_iff {line a x message : String} :
    entryOf? line = some ((a, x), message) ↔ ∃ word words,
      Text.words line = a :: x :: "|" :: word :: words ∧
        message = " ".intercalate (word :: words) := by
  unfold entryOf?
  split
  next b y bar word words hwords =>
    rw [hwords]
    split
    next hbar =>
      subst hbar
      constructor
      · intro h
        cases h
        exact ⟨word, words, rfl, rfl⟩
      · rintro ⟨_, _, h, rfl⟩
        cases h
        rfl
    next hbar =>
      refine iff_of_false (by simp) ?_
      rintro ⟨_, _, h, -⟩
      cases h
      exact hbar rfl
  next hwords =>
    refine iff_of_false (by simp) ?_
    rintro ⟨word, words, h, -⟩
    exact hwords _ _ _ _ _ h

theorem load_eq (lines : List String) : load lines = (lines.filterMap entryOf?).foldl enter ∅ := by
  rw [load, List.foldl_filterMap]
  congr 1
  funext t line
  rw [insertLine]
  cases entryOf? line <;> rfl

/-! ## Messages -/

theorem lastMessage?_append (es fs : List Entry) (key : String × String) :
    lastMessage? (es ++ fs) key = (lastMessage? fs key).or (lastMessage? es key) := by
  rw [lastMessage?, List.filter_append, List.getLast?_append, Option.map_or]
  rfl

theorem get?_enter (e : Entry) (a x : String) :
    (t.enter e).get? a x = (lastMessage? [e] (a, x)).or (t.get? a x) := by
  rw [enter, get?_insert, Prod.mk.eta]
  by_cases h : (a, x) = e.1
  · simp [lastMessage?, h]
  · simp [lastMessage?, h, Ne.symm h]

theorem get?_foldl_enter (es : List Entry) (a x : String) :
    (es.foldl enter t).get? a x = (lastMessage? es (a, x)).or (t.get? a x) := by
  induction es generalizing t with
  | nil => rfl
  | cons e es ih =>
    rw [List.foldl_cons, ih, get?_enter, ← Option.or_assoc, ← lastMessage?_append]
    rfl

/-! ## Pairs -/

theorem nodup_put {α β : Type} [BEq α] [LawfulBEq α] {l : List (α × β)}
    (hl : (l.map Prod.fst).Nodup) (key : α) (value : β) :
    ((put key value l).map Prod.fst).Nodup := by
  refine List.nodup_cons.2 ⟨by simp, ?_⟩
  exact hl.sublist (List.filter_sublist.map Prod.fst)

theorem keys_enter (e : Entry) : (t.enter e).keys = e.1 :: t.keys.filter (· != e.1) := by
  rw [keys, enter, insert, put, List.map_cons, keys, List.filter_map]
  rfl

theorem nodup_keys_foldl_enter (ht : t.keys.Nodup) (es : List Entry) :
    (es.foldl enter t).keys.Nodup := by
  induction es generalizing t with
  | nil => exact ht
  | cons e es ih => exact ih (nodup_put ht e.1 e.2)

theorem mem_keys_foldl_enter (es : List Entry) (key : String × String) :
    key ∈ (es.foldl enter t).keys ↔ key ∈ t.keys ∨ key ∈ es.map Prod.fst := by
  induction es generalizing t with
  | nil => simp
  | cons e es ih =>
    rw [List.foldl_cons, ih, keys_enter]
    by_cases h : key = e.1 <;> simp [h]

theorem size_foldl_enter (es : List Entry) :
    (es.foldl enter ∅).size = (es.map Prod.fst).toFinset.card := by
  have hnodup := nodup_keys_foldl_enter (t := ∅) List.nodup_nil es
  have hkeys : (es.foldl enter ∅).keys.toFinset = (es.map Prod.fst).toFinset := by
    ext key
    rw [List.mem_toFinset, List.mem_toFinset, mem_keys_foldl_enter]
    exact or_iff_right List.not_mem_nil
  rw [← hkeys, List.toFinset_card_of_nodup hnodup, keys, List.length_map, size]

/-! ## Tables of tables -/

/-- A value takes the place of another one in a sum over all values. -/
theorem sum_put {α β : Type} [BEq α] [LawfulBEq α] (f : β → Nat) {l : List (α × β)}
    (hl : (l.map Prod.fst).Nodup) (key : α) (value : β) :
    ((put key value l).map fun e => f e.2).sum + ((l.lookup key).map f).getD 0 =
      (l.map fun e => f e.2).sum + f value := by
  induction l with
  | nil => simp [put]
  | cons e l ih =>
    obtain ⟨k, v⟩ := e
    rw [List.map_cons, List.nodup_cons] at hl
    have hsum := ih hl.2
    by_cases hk : k = key
    · subst hk
      have hrest : l.filter (·.1 != k) = l :=
        List.filter_eq_self.2 fun e he => bne_iff_ne.2 fun hek =>
          hl.1 (List.mem_map.2 ⟨e, he, hek⟩)
      simp [put, hrest]
      omega
    · have hlookup : List.lookup key ((k, v) :: l) = l.lookup key := by
        rw [List.lookup_cons, beq_eq_false_iff_ne.2 (Ne.symm hk)]
      have hrest : ((k, v) :: l).filter (·.1 != key) = (k, v) :: l.filter (·.1 != key) :=
        List.filter_cons_of_pos (bne_iff_ne.2 hk)
      simp only [put, hrest, List.map_cons, List.sum_cons, hlookup] at hsum ⊢
      omega

theorem length_put {α β : Type} [BEq α] [LawfulBEq α] {l : List (α × β)}
    (hl : (l.map Prod.fst).Nodup) (key : α) (value : β) :
    (put key value l).length + ((l.lookup key).map fun _ => 1).getD 0 = l.length + 1 := by
  simpa using sum_put (fun _ => 1) hl key value

theorem size_enter (ht : t.keys.Nodup) (e : Entry) :
    (t.enter e).size + ((t.get? e.1.1 e.1.2).map fun _ => 1).getD 0 = t.size + 1 :=
  length_put ht e.1 e.2

namespace Rows

variable {rows : Rows}

theorem lookup_enter (e : Entry) (b y : String) :
    (List.lookup b (rows.enter e)).bind (List.lookup y) =
      if (b, y) = e.1 then some e.2 else (List.lookup b rows).bind (List.lookup y) := by
  obtain ⟨⟨a, x⟩, message⟩ := e
  rw [enter, lookup_put]
  by_cases hb : b = a
  · subst hb
    rw [if_pos rfl, Option.bind_some, lookup_put]
    cases List.lookup b rows <;> simp
  · rw [if_neg hb, if_neg (by simp [hb])]

/-- The row in which the entry is written gets longer if the token is new to it. -/
theorem size_enter (hrows : (rows.map Prod.fst).Nodup) (e : Entry)
    (hrow : (((List.lookup e.1.1 rows).getD []).map Prod.fst).Nodup) :
    (rows.enter e).size +
        (((List.lookup e.1.1 rows).bind (List.lookup e.1.2)).map fun _ => 1).getD 0 =
      rows.size + 1 := by
  have hlength := length_put hrow e.1.2 e.2
  have hsum := sum_put List.length hrows e.1.1 (put e.1.2 e.2 ((List.lookup e.1.1 rows).getD []))
  change (rows.enter e).size + _ = rows.size + _ at hsum
  cases hold : List.lookup e.1.1 rows with
  | none =>
    simp only [hold, Option.getD_none, Option.bind_none, Option.map_none, List.lookup_nil,
      List.length_nil] at hlength hsum ⊢
    omega
  | some messages =>
    simp only [hold, Option.getD_some, Option.bind_some, Option.map_some] at hlength hsum ⊢
    omega

theorem Matches.enter (h : rows.Matches t) (e : Entry) : (rows.enter e).Matches (t.enter e) := by
  have hrow : (((List.lookup e.1.1 rows).getD []).map Prod.fst).Nodup := by
    cases ha : List.lookup e.1.1 rows with
    | none => exact List.nodup_nil
    | some messages => exact h.tokens e.1.1 messages ha
  refine ⟨fun b y => ?_, ?_, nodup_put h.nonTerminals _ _, fun b messages hb => ?_,
    nodup_put h.keys _ _⟩
  · rw [lookup_enter, h.get, MessageTable.enter, get?_insert]
  · have hrows := size_enter h.nonTerminals e hrow
    have hentries := MessageTable.size_enter h.keys e
    have hsize := h.size
    rw [h.get] at hrows
    omega
  · rw [Rows.enter, lookup_put] at hb
    split at hb
    · exact Option.some.inj hb ▸ nodup_put hrow _ _
    · exact h.tokens b messages hb

theorem matches_empty : Matches [] ∅ where
  get _ _ := rfl
  size := rfl
  nonTerminals := List.nodup_nil
  tokens _ _ h := by cases h
  keys := List.nodup_nil

theorem Matches.foldl_enter (h : rows.Matches t) (es : List Entry) :
    (es.foldl Rows.enter rows).Matches (es.foldl MessageTable.enter t) := by
  induction es generalizing rows t with
  | nil => exact h
  | cons e es ih => exact ih (h.enter e)

theorem Matches.lookup_eq (h : rows.Matches t) (a x : String) :
    rows.lookup a x = t.lookup a x := by
  rw [MessageTable.lookup, ← h.get, ← h.get, lookup]
  cases List.lookup a rows <;> rfl

end Rows

/-- The entries of the lines and those inserted behind them fill the table, the last one for a pair
counts, and other lines have no effect. A table of tables filled by the same entries gives the same
messages and is of the same size. -/
theorem lookup_exact (lines : List String) (inserted : List Entry) :
    (∀ line a x message, entryOf? line = some ((a, x), message) ↔
      ∃ word words, Text.words line = a :: x :: "|" :: word :: words ∧
        message = " ".intercalate (word :: words)) ∧
    load lines = (lines.filterMap entryOf?).foldl enter ∅ ∧
    (∀ a x, (inserted.foldl enter (load lines)).lookup a x =
      (lastMessage? (lines.filterMap entryOf? ++ inserted) (a, x)).or
        (lastMessage? (lines.filterMap entryOf? ++ inserted) (a, anyToken))) ∧
    (inserted.foldl enter (load lines)).size =
      ((lines.filterMap entryOf? ++ inserted).map Prod.fst).toFinset.card ∧
    (∀ a x, Rows.lookup ((lines.filterMap entryOf? ++ inserted).foldl Rows.enter []) a x =
      (inserted.foldl enter (load lines)).lookup a x) ∧
    Rows.size ((lines.filterMap entryOf? ++ inserted).foldl Rows.enter []) =
      (inserted.foldl enter (load lines)).size := by
  have hall : inserted.foldl enter (load lines) =
      (lines.filterMap entryOf? ++ inserted).foldl enter ∅ := by
    rw [load_eq, List.foldl_append]
  have hget : ∀ a x, (inserted.foldl enter (load lines)).get? a x =
      lastMessage? (lines.filterMap entryOf? ++ inserted) (a, x) := by
    intro a x
    rw [hall, get?_foldl_enter]
    exact Option.or_none
  have hrows := Rows.matches_empty.foldl_enter (lines.filterMap entryOf? ++ inserted)
  rw [← hall] at hrows
  refine ⟨fun _ _ _ _ => entryOf?_eq_some_iff, load_eq lines, fun a x => ?_, ?_, hrows.lookup_eq,
    hrows.size⟩
  · rw [lookup, hget, hget]
  · rw [hall, size_foldl_enter]

/-- The message for any token does not take the place of that for `+`, also where it comes later. -/
example :
    let t := (load ["<T> + | operand  missing", "<T> - no bar"]).insert "<T>" "?" "no operand"
    t.lookup "<T>" "+" = some "operand missing" ∧ t.lookup "<T>" "-" = some "no operand" ∧
      t.lookup "<E>" "+" = none ∧ t.size = 2 := by
  decide

end LLOne.MessageTable

import LLOne.Proofs.Lists
import LLOne.Text.Align
import LLOne.Text.Words

/-!
# Words and lines that are read back

Everything about words follows from what a space does: the words in front of it and those behind
it are the words of the whole. So words with spaces between them are read back one by one, and so
are lines with line feeds between them, unless they are empty or end in what belongs to a line end.
-/

namespace LLOne.Text

structure IsWord (word : String) : Prop where
  ne_nil : word.toList ≠ []
  not_blank : ∀ c ∈ word.toList, isBlank c = false

theorem isWord_iff {word : String} : IsWord word ↔
    (!word.toList.isEmpty && word.toList.all (!isBlank ·)) = true := by
  simp only [Bool.and_eq_true, Bool.not_eq_true', List.isEmpty_eq_false_iff, List.all_eq_true]
  exact ⟨fun h => ⟨h.ne_nil, h.not_blank⟩, fun h => ⟨h.1, h.2⟩⟩

instance (word : String) : Decidable (IsWord word) := decidable_of_iff' _ isWord_iff

/-! ## Words -/

/-- No part of a split has a character at which it was split. -/
theorem of_mem_splitOnP {α : Type} {p : α → Bool} {l part : List α} (h : part ∈ l.splitOnP p) :
    ∀ c ∈ part, p c = false := by
  induction l generalizing part with
  | nil =>
    rw [List.splitOnP_nil, List.mem_singleton] at h
    simp [h]
  | cons x l ih =>
    rw [List.splitOnP_cons_eq_if_modifyHead] at h
    split at h
    · rcases List.mem_cons.1 h with rfl | h
      · simp
      · exact ih h
    next hx =>
      obtain ⟨first, others, he⟩ := List.exists_cons_of_ne_nil (List.splitOnP_ne_nil p l)
      rw [he, List.modifyHead_cons] at h
      rcases List.mem_cons.1 h with rfl | h
      · rw [List.forall_mem_cons]
        exact ⟨eq_false_of_ne_true hx, ih (he ▸ List.mem_cons_self)⟩
      · exact ih (he ▸ List.mem_cons_of_mem first h)

theorem isWord_of_mem_words {word text : String} (h : word ∈ words text) : IsWord word := by
  obtain ⟨part, hpart, rfl⟩ := List.mem_map.1 h
  obtain ⟨hmem, hne⟩ := List.mem_filter.1 hpart
  refine ⟨by simpa using hne, ?_⟩
  rw [String.toList_ofList]
  exact of_mem_splitOnP hmem

theorem words_append_space (a b : String) : words (a ++ " " ++ b) = words a ++ words b := by
  have hchars : (a ++ " " ++ b).toList = a.toList ++ ' ' :: b.toList := by simp
  rw [words, hchars, List.splitOnP_append_cons _ _ (by decide), List.filter_append,
    List.map_append, words, words]

@[simp] theorem words_empty : words "" = [] := by
  simp [words, List.splitOnP_nil]

theorem words_eq_singleton {word : String} (h : IsWord word) : words word = [word] := by
  rw [words, List.splitOnP_eq_singleton h.not_blank]
  simp [List.isEmpty_eq_false_iff.2 h.ne_nil]

theorem words_word_append {word : String} (h : IsWord word) (b : String) :
    words (word ++ " " ++ b) = word :: words b := by
  rw [words_append_space, words_eq_singleton h, List.singleton_append]

theorem words_blanks_append (n : Nat) (text : String) : words (blanks n ++ text) = words text := by
  induction n with
  | zero => simp [blanks]
  | succ n ih =>
    have hsplit : blanks (n + 1) ++ text = "" ++ " " ++ (blanks n ++ text) := by
      apply String.toList_inj.1
      simp [blanks, List.replicate_succ]
    rw [hsplit, words_append_space, words_empty, List.nil_append, ih]

theorem words_intercalate {names : List String} (h : ∀ name ∈ names, IsWord name) :
    words (" ".intercalate names) = names := by
  induction names with
  | nil => simp
  | cons name names ih =>
    rw [List.forall_mem_cons] at h
    cases names with
    | nil => simpa using words_eq_singleton h.1
    | cons other names =>
      rw [String.intercalate_cons_cons, words_word_append h.1, ih h.2]

/-! ## Texts put together -/

theorem intercalate_cons (separator first : String) (others : List String) :
    separator.intercalate (first :: others) =
      first ++ String.join (others.map (separator ++ ·)) := by
  induction others generalizing first with
  | nil => simp
  | cons other others ih =>
    rw [String.intercalate_cons_cons, ih]
    simp [String.append_assoc]

theorem intercalate_flatMap {α : Type} (separator : String) {f : α → List String} {l : List α}
    (hf : ∀ a ∈ l, f a ≠ []) :
    separator.intercalate (l.flatMap f) =
      separator.intercalate (l.map fun a => separator.intercalate (f a)) := by
  induction l with
  | nil => rfl
  | cons a l ih =>
    rw [List.forall_mem_cons] at hf
    cases l with
    | nil => simp
    | cons b l =>
      have hrest : (b :: l).flatMap f ≠ [] := by simp [hf.2 b List.mem_cons_self]
      rw [List.flatMap_cons, String.intercalate_append_of_ne_nil hf.1 hrest, ih hf.2, List.map_cons,
        List.map_cons, List.map_cons, String.intercalate_cons_cons]

/-! ## Lines -/

structure IsLine (line : String) : Prop where
  ne_nil : line.toList ≠ []
  feed : '\n' ∉ line.toList
  returns : line.toList.getLast? ≠ some '\r'

theorem IsWord.isLine {word : String} (h : IsWord word) : IsLine word where
  ne_nil := h.ne_nil
  feed hc := absurd (h.not_blank _ hc) (by decide)
  returns he := absurd (h.not_blank _ (List.mem_of_getLast? he)) (by decide)

/-- What stands in front of a line on the same line. -/
theorem IsLine.append {front line : String} (hf : '\n' ∉ front.toList) (h : IsLine line) :
    IsLine (front ++ line) where
  ne_nil := by simp [h.ne_nil]
  feed := by simp [hf, h.feed]
  returns := by
    rw [String.toList_append, List.getLast?_append_of_ne_nil _ h.ne_nil]
    exact h.returns

theorem isLine_intercalate {names : List String} (hne : names ≠ [])
    (h : ∀ name ∈ names, IsWord name) : IsLine (" ".intercalate names) := by
  induction names with
  | nil => exact absurd rfl hne
  | cons name names ih =>
    rw [List.forall_mem_cons] at h
    cases names with
    | nil => simpa using h.1.isLine
    | cons other names =>
      rw [String.intercalate_cons_cons]
      refine .append ?_ (ih (by simp) h.2)
      simp [h.1.isLine.feed]

theorem lines_intercalate {ls : List String} (h : ∀ line ∈ ls, IsLine line) :
    lines ("\n".intercalate ls) = ls := by
  by_cases hne : ls = []
  · subst hne
    rfl
  have hpieces : ("\n".intercalate ls).toList.splitOnP (· == '\n') = ls.map String.toList := by
    rw [← List.splitOn_eq_splitOnP, String.toList_intercalate]
    apply List.splitOn_intercalate
    · simpa using fun line hl => (h line hl).feed
    · simpa using hne
  obtain ⟨front, last, rfl⟩ := (List.eq_nil_or_concat' ls).resolve_left hne
  rw [List.forall_mem_append, List.forall_mem_singleton] at h
  have hfront : (front.map String.toList).map dropReturn = front.map String.toList := by
    rw [List.map_map]
    apply List.map_congr_left
    intro line hl
    exact if_neg (h.1 line hl).returns
  have hlast : (some last.toList).filter (!·.isEmpty) = some last.toList := by
    simp [h.2.ne_nil]
  simp only [lines, hpieces, List.map_append, List.map_cons, List.map_nil, List.dropLast_concat,
    List.getLast?_concat, hlast, hfront, Option.toList_some]
  simp

end LLOne.Text

import LLOne.Report.Productions
import LLOne.Proofs.Text.Words

/-!
# The lines of a listing

In plain text the alternatives of a left side stand on one line each, the first behind the left side
and an arrow and the others behind a bar. With the left side and the arrow in the place of each such
bar, every line has one production again. A bar that is a symbol stands behind an arrow or a bar and
is left alone.
-/

namespace LLOne

namespace Text

/-! ## Bars -/

def replaceBar (left line : String) : String :=
  let front := line.toList.takeWhile isBlank
  let back := (line.toList.dropWhile isBlank).dropWhile (!isBlank ·)
  String.ofList front ++ left ++ " ->" ++ String.ofList back

/-- The lines with the most recent left side and an arrow in the place of every bar that is the
first word of its line. The left side is the first word of a line that begins with no bar. -/
def replaceBars : String → List String → List String
  | _, [] => []
  | left, line :: rest =>
    match words line with
    | [] => line :: replaceBars left rest
    | word :: _ =>
      if word = "|" then replaceBar left line :: replaceBars left rest
      else line :: replaceBars word rest

def withoutBars (text : String) : String := "\n".intercalate (replaceBars "" (lines text))

/-! ## Lines of words -/

def arrowLine (k : Nat) (left right : String) : String := blanks k ++ left ++ " -> " ++ right

def barLine (k : Nat) (right : String) : String := blanks k ++ "| " ++ right

theorem feed_not_mem_blanks (k : Nat) : '\n' ∉ (blanks k).toList := by
  simp [blanks]

section Lines

variable {left : String} {names : List String} (hne : names ≠ [])
  (hn : ∀ name ∈ names, IsWord name) (k : Nat)

include hn

theorem words_arrowLine (hl : IsWord left) :
    words (arrowLine k left (" ".intercalate names)) = left :: "->" :: names := by
  have hsplit : arrowLine k left (" ".intercalate names) =
      blanks k ++ (left ++ " " ++ ("->" ++ " " ++ " ".intercalate names)) := by
    apply String.toList_inj.1
    simp [arrowLine]
  have harrow : IsWord "->" := by decide
  rw [hsplit, words_blanks_append, words_word_append hl, words_word_append harrow,
    words_intercalate hn]

theorem words_barLine : words (barLine k (" ".intercalate names)) = "|" :: names := by
  have hsplit : barLine k (" ".intercalate names) =
      blanks k ++ ("|" ++ " " ++ " ".intercalate names) := by
    apply String.toList_inj.1
    simp [barLine]
  have hbar : IsWord "|" := by decide
  rw [hsplit, words_blanks_append, words_word_append hbar, words_intercalate hn]

include hne

theorem isLine_arrowLine (hl : IsWord left) :
    IsLine (arrowLine k left (" ".intercalate names)) := by
  refine .append ?_ (isLine_intercalate hne hn)
  simp [feed_not_mem_blanks, hl.isLine.feed]

theorem isLine_barLine : IsLine (barLine k (" ".intercalate names)) := by
  refine .append ?_ (isLine_intercalate hne hn)
  simp [feed_not_mem_blanks]

end Lines

theorem replaceBar_barLine (left : String) (k : Nat) (right : String) :
    replaceBar left (barLine k right) = arrowLine k left right := by
  have hchars : (barLine k right).toList = List.replicate k ' ' ++ '|' :: ' ' :: right.toList := by
    simp [barLine, blanks]
  have hfront : ∀ c ∈ List.replicate k ' ', isBlank c = true := by
    intro c hc
    rw [List.eq_of_mem_replicate hc]
    decide
  have hbar : isBlank '|' = false := by decide
  have hspace : isBlank ' ' = true := by decide
  apply String.toList_inj.1
  simp [replaceBar, hchars, arrowLine, blanks, List.takeWhile_append_of_pos hfront,
    List.dropWhile_append_of_pos hfront, hbar, hspace]

/-- Below a left side, bars become arrows behind it. -/
theorem replaceBars_barLines (left : String) (k : Nat) {rights : List (List String)}
    (hr : ∀ right ∈ rights, ∀ name ∈ right, IsWord name) (rest : List String) :
    replaceBars left ((rights.map (" ".intercalate ·)).map (barLine k) ++ rest) =
      (rights.map (" ".intercalate ·)).map (arrowLine k left) ++ replaceBars left rest := by
  induction rights with
  | nil => rfl
  | cons right rights ih =>
    rw [List.forall_mem_cons] at hr
    simp only [List.map_cons, List.cons_append, replaceBars, words_barLine hr.1, if_true,
      replaceBar_barLine, ih hr.2]

theorem replaceBars_arrowLine {left : String} {names : List String} (hl : IsWord left)
    (hb : left ≠ "|") (hn : ∀ name ∈ names, IsWord name) (before : String) (k : Nat)
    (rest : List String) :
    replaceBars before (arrowLine k left (" ".intercalate names) :: rest) =
      arrowLine k left (" ".intercalate names) :: replaceBars left rest := by
  simp only [replaceBars, words_arrowLine hn k hl, if_neg hb]

end Text

/-! ## Listings -/

namespace Alternatives

variable (a : Alternatives)

/-- The left side and the symbols are words, and there is a right side and none without symbols. -/
structure Legible : Prop where
  left : Text.IsWord a.left
  not_bar : a.left ≠ "|"
  rights : a.rights ≠ []
  right_ne_nil : ∀ right ∈ a.rights, right ≠ []
  right : ∀ right ∈ a.rights, ∀ name ∈ right, Text.IsWord name

def linesWith (width : Nat) (other : String → String) : List String :=
  match a.rightTexts with
  | [] => []
  | first :: others =>
    Text.arrowLine (width - a.left.length) a.left first :: others.map other

theorem block_eq (width : Nat) :
    a.block width = "\n".intercalate (a.linesWith width (Text.barLine (width + 2))) := by
  have hbar : ∀ right : String, "\n" ++ Text.blanks width ++ "  | " ++ right =
      "\n" ++ Text.barLine (width + 2) right := by
    intro right
    apply String.toList_inj.1
    simp [Text.barLine, Text.blanks, List.replicate_add]
  unfold block joined linesWith
  cases a.rightTexts with
  | nil => simp
  | cons first others =>
    simp only [Text.intercalate_cons, List.map_map, Function.comp_def, hbar]
    rfl

namespace Legible

variable {a : Alternatives} (h : a.Legible) (width : Nat)

include h

theorem exists_rights : ∃ first others, a.rights = first :: others ∧ first ≠ [] ∧
    (∀ name ∈ first, Text.IsWord name) ∧ (∀ right ∈ others, right ≠ []) ∧
    ∀ right ∈ others, ∀ name ∈ right, Text.IsWord name := by
  obtain ⟨first, others, he⟩ := List.exists_cons_of_ne_nil h.rights
  have hne := h.right_ne_nil
  have hwords := h.right
  rw [he, List.forall_mem_cons] at hne hwords
  exact ⟨first, others, he, hne.1, hwords.1, hne.2, hwords.2⟩

theorem linesWith_ne_nil (other : String → String) : a.linesWith width other ≠ [] := by
  obtain ⟨first, others, he, -⟩ := h.exists_rights
  simp [linesWith, rightTexts, he]

theorem isLine_of_mem_linesWith {other : String → String}
    (ho : ∀ right : List String, right ≠ [] → (∀ name ∈ right, Text.IsWord name) →
      Text.IsLine (other (" ".intercalate right))) :
    ∀ line ∈ a.linesWith width other, Text.IsLine line := by
  obtain ⟨first, others, he, hne, hwords, hnes, hothers⟩ := h.exists_rights
  simp only [linesWith, rightTexts, he, List.map_cons, List.forall_mem_cons, List.map_map,
    List.forall_mem_map]
  exact ⟨Text.isLine_arrowLine hne hwords _ h.left,
    fun right hr => ho right (hnes right hr) (hothers right hr)⟩

theorem replaceBars_linesWith (before : String) (k : Nat) (rest : List String) :
    Text.replaceBars before (a.linesWith width (Text.barLine k) ++ rest) =
      a.linesWith width (Text.arrowLine k a.left) ++ Text.replaceBars a.left rest := by
  obtain ⟨first, others, he, -, hwords, -, hothers⟩ := h.exists_rights
  simp only [linesWith, rightTexts, he, List.map_cons, List.cons_append]
  rw [Text.replaceBars_arrowLine h.left h.not_bar hwords, Text.replaceBars_barLines _ _ hothers]

theorem words_linesWith (k : Nat) :
    (a.linesWith width (Text.arrowLine k a.left)).map Text.words =
      a.rights.map fun right => a.left :: "->" :: right := by
  obtain ⟨first, others, he, -, hwords, -, hothers⟩ := h.exists_rights
  simp only [linesWith, rightTexts, he, List.map_cons, List.map_map]
  rw [Text.words_arrowLine hwords _ h.left]
  congr 1
  apply List.map_congr_left
  intro right hr
  exact Text.words_arrowLine (hothers right hr) k h.left

end Legible

end Alternatives

namespace Listing

variable {l : Listing} (hl : ∀ a ∈ l, a.Legible)

include hl

/-- The most recent left side is that of the alternatives in which a bar stands. -/
theorem replaceBars_blocks (before : String) (width : Nat) :
    Text.replaceBars before (l.flatMap fun a => a.linesWith width (Text.barLine (width + 2))) =
      l.flatMap fun a => a.linesWith width (Text.arrowLine (width + 2) a.left) := by
  induction l generalizing before with
  | nil => rfl
  | cons a l ih =>
    rw [List.forall_mem_cons] at hl
    rw [List.flatMap_cons, hl.1.replaceBars_linesWith, ih hl.2, List.flatMap_cons]

theorem lines_plain (width : Nat) (hw : width = Text.maxLength (l.map Alternatives.left)) :
    Text.lines l.plain = l.flatMap fun a => a.linesWith width (Text.barLine (width + 2)) := by
  have hplain : l.plain =
      "\n".intercalate (l.flatMap fun a => a.linesWith width (Text.barLine (width + 2))) := by
    rw [Text.intercalate_flatMap _ fun a ha => (hl a ha).linesWith_ne_nil _ _]
    simp only [plain, Alternatives.block_eq, hw]
  rw [hplain, Text.lines_intercalate]
  rw [List.forall_mem_flatMap]
  exact fun a ha => (hl a ha).isLine_of_mem_linesWith _ fun right hne hn =>
    Text.isLine_barLine hne hn _

/-- Without its bars, a listing has one line for each right side. -/
theorem words_withoutBars :
    (Text.lines (Text.withoutBars l.plain)).map Text.words =
      l.flatMap fun a => a.rights.map fun right => a.left :: "->" :: right := by
  rw [Text.withoutBars, lines_plain hl _ rfl, replaceBars_blocks hl, Text.lines_intercalate,
    List.map_flatMap]
  · exact List.flatMap_congr fun a ha => (hl a ha).words_linesWith _ _
  · rw [List.forall_mem_flatMap]
    exact fun a ha => (hl a ha).isLine_of_mem_linesWith _ fun right hne hn =>
      Text.isLine_arrowLine hne hn _ (hl a ha).left

end Listing

end LLOne

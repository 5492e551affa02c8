import LLOne.Token
import Mathlib.Data.List.Chain
import Mathlib.Tactic.Ring

/-!
# Locations and texts of tokens

The location that covers others is the smallest one that includes them all, which fixes it. Where
locations ascend, it runs from where the first one starts to where the last one stops. The single
characters of a token, each at the bytes that it takes up, ascend inside of the token if the token
has as many bytes as its text, and their texts in a row are the text of the token.
-/

namespace LLOne

namespace Location

variable {k l m : Location} {ls ms : List Location}

/-! ## Merging -/

theorem includes_iff : k.includes l = true ↔ k.start ≤ l.start ∧ l.stop ≤ k.stop := by
  simp [includes]

theorem includes_refl (l : Location) : l.includes l = true := by
  simp [includes]

theorem eq_of_includes (h : l.includes m = true) (h' : m.includes l = true) : l = m := by
  obtain ⟨start, stop⟩ := l
  obtain ⟨start', stop'⟩ := m
  simp only [includes_iff] at h h'
  rw [mk.injEq]
  omega

theorem includes_merge_iff :
    k.includes (l.merge m) = true ↔ k.includes l = true ∧ k.includes m = true := by
  simp only [includes_iff, merge]
  omega

theorem includes_foldl_merge_iff :
    k.includes (ls.foldl merge l) = true ↔
      k.includes l = true ∧ ∀ m ∈ ls, k.includes m = true := by
  induction ls generalizing l with
  | nil => simp
  | cons m ls ih => rw [List.foldl_cons, ih, includes_merge_iff, List.forall_mem_cons, and_assoc]

theorem mergeAll_eq_none_iff : mergeAll ls = none ↔ ls = [] := by
  cases ls <;> simp [mergeAll]

/-- What includes the location that covers all are the locations that include each of them. -/
theorem includes_iff_of_mergeAll (h : mergeAll ls = some l) :
    k.includes l = true ↔ ∀ m ∈ ls, k.includes m = true := by
  cases ls with
  | nil => cases h
  | cons m ls =>
    obtain rfl := Option.some.inj h
    rw [includes_foldl_merge_iff, List.forall_mem_cons]

theorem includes_of_mergeAll (h : mergeAll ls = some l) (hm : m ∈ ls) : l.includes m = true :=
  (includes_iff_of_mergeAll h).1 l.includes_refl m hm

theorem includes_of_subset (h : mergeAll ls = some l) (h' : mergeAll ms = some m) (hs : ms ⊆ ls) :
    l.includes m = true :=
  (includes_iff_of_mergeAll h').2 fun _ hk => includes_of_mergeAll h (hs hk)

theorem exists_mergeAll (h : ls ≠ []) : ∃ l, mergeAll ls = some l :=
  Option.ne_none_iff_exists'.1 fun hl => h (mergeAll_eq_none_iff.1 hl)

/-- Locations that are included in the same ones are covered by the same one. -/
theorem mergeAll_congr (hnil : ls = [] ↔ ms = [])
    (h : ∀ k : Location, (∀ l ∈ ls, k.includes l = true) ↔ ∀ m ∈ ms, k.includes m = true) :
    mergeAll ls = mergeAll ms := by
  by_cases hls : ls = []
  · rw [hls, hnil.1 hls]
  · obtain ⟨l, hl⟩ := exists_mergeAll hls
    obtain ⟨m, hm⟩ := exists_mergeAll fun hms => hls (hnil.2 hms)
    have heq : ∀ k : Location, k.includes l = true ↔ k.includes m = true := by
      intro k
      rw [includes_iff_of_mergeAll hl, includes_iff_of_mergeAll hm, h]
    rw [hl, hm, eq_of_includes ((heq l).1 l.includes_refl) ((heq m).2 m.includes_refl)]

/-! ## Ascending locations -/

/-- Each location stops where the next one starts, or before. -/
structure Ascending (ls : List Location) : Prop where
  le : ∀ l ∈ ls, l.start ≤ l.stop
  chain : ls.IsChain fun l m => l.stop ≤ m.start

theorem ascending_cons_iff : Ascending (l :: ls) ↔
    l.start ≤ l.stop ∧ (∀ m ∈ ls.head?, l.stop ≤ m.start) ∧ Ascending ls := by
  constructor
  · rintro ⟨hle, hchain⟩
    obtain ⟨hl, hls⟩ := List.forall_mem_cons.1 hle
    obtain ⟨hhead, htail⟩ := List.isChain_cons.1 hchain
    exact ⟨hl, hhead, hls, htail⟩
  · rintro ⟨hl, hhead, hls, htail⟩
    exact ⟨List.forall_mem_cons.2 ⟨hl, hls⟩, List.isChain_cons.2 ⟨hhead, htail⟩⟩

theorem Ascending.pairwise (h : Ascending ls) : ls.Pairwise fun l m => l.stop ≤ m.start := by
  induction ls with
  | nil => exact .nil
  | cons l ls ih =>
    obtain ⟨-, hhead, hls⟩ := ascending_cons_iff.1 h
    refine .cons ?_ (ih hls)
    cases ls with
    | nil => exact List.forall_mem_nil _
    | cons m ls =>
      have hlm := hhead m rfl
      have hm := hls.le m List.mem_cons_self
      refine List.forall_mem_cons.2 ⟨hlm, fun k hk => ?_⟩
      have hmk := List.rel_of_pairwise_cons (ih hls) hk
      omega

theorem ascending_of_pairwise (hle : ∀ l ∈ ls, l.start ≤ l.stop)
    (h : ls.Pairwise fun l m => l.stop ≤ m.start) : Ascending ls := ⟨hle, h.isChain⟩

theorem Ascending.sublist (h : Ascending ls) (hs : ms.Sublist ls) : Ascending ms :=
  ascending_of_pairwise (fun l hl => h.le l (hs.subset hl)) (h.pairwise.sublist hs)

theorem Ascending.foldl_merge (h : Ascending (l :: ls)) :
    ls.foldl merge l = ⟨l.start, (ls.getLastD l).stop⟩ := by
  induction ls generalizing l with
  | nil => rfl
  | cons m ls ih =>
    obtain ⟨hl, hhead, hrest⟩ := ascending_cons_iff.1 h
    obtain ⟨hm, hnext, hls⟩ := ascending_cons_iff.1 hrest
    have hlm := hhead m rfl
    have hmerge : l.merge m = ⟨l.start, m.stop⟩ := by
      simp only [merge, mk.injEq]
      omega
    have hcovered : Ascending (⟨l.start, m.stop⟩ :: ls) :=
      ascending_cons_iff.2 ⟨by dsimp only; omega, hnext, hls⟩
    rw [List.foldl_cons, hmerge, ih hcovered]
    cases ls <;> rfl

/-- Ascending locations are covered from the start of the first one to the stop of the last one. -/
theorem Ascending.mergeAll_eq (h : Ascending ls) (hl : ls.head? = some l)
    (hm : ls.getLast? = some m) : mergeAll ls = some ⟨l.start, m.stop⟩ := by
  cases ls with
  | nil => cases hl
  | cons k ls =>
    obtain rfl := Option.some.inj hl
    rw [List.getLast?_cons] at hm
    obtain rfl := Option.some.inj hm
    rw [mergeAll, h.foldl_merge, List.getLastD_eq_getLast?]

end Location

/-! ## Positions of 64 bits -/

def Location.Fits (l : Location) : Prop := l.start < 2 ^ 64 ∧ l.stop < 2 ^ 64

instance (l : Location) : Decidable l.Fits := inferInstanceAs (Decidable (_ ∧ _))

/-- All bytes of the text have positions of 64 bits, and so has their end. -/
def Token.Fits (t : Token) : Prop := t.location.start + t.text.utf8ByteSize < 2 ^ 64

instance (t : Token) : Decidable t.Fits := inferInstanceAs (Decidable (_ < _))

inductive PositionError where
  | tooLarge
  | negative
  /-- The least position that is allowed lies beyond the largest one. -/
  | emptyRange
deriving DecidableEq, Repr

namespace Position

def add (m n : Nat) : Except PositionError Nat :=
  if m + n < 2 ^ 64 then .ok (m + n) else .error .tooLarge

def sub (m n : Nat) : Except PositionError Nat :=
  if n ≤ m then .ok (m - n) else .error .negative

def clamp (n low high : Nat) : Except PositionError Nat :=
  if low ≤ high then .ok (min (max n low) high) else .error .emptyRange

end Position

/-! ## Single characters -/

theorem byteLength_eq (cs : List Char) : byteLength cs = (String.ofList cs).utf8ByteSize := by
  induction cs with
  | nil => rfl
  | cons c cs ih =>
    rw [byteLength, ih, String.ofList_cons, String.utf8ByteSize_append,
      String.utf8ByteSize_singleton]

theorem byteLength_toList (s : String) : byteLength s.toList = s.utf8ByteSize := by
  rw [byteLength_eq, String.ofList_toList]

theorem length_le_byteLength (cs : List Char) : cs.length ≤ byteLength cs := by
  induction cs with
  | nil => exact Nat.le_refl 0
  | cons c cs ih =>
    have hc := c.utf8Size_pos
    rw [List.length_cons, byteLength]
    omega

theorem byteLength_mono {as bs : List Char} (h : as <+: bs) : byteLength as ≤ byteLength bs := by
  obtain ⟨rest, rfl⟩ := h
  rw [byteLength_append]
  exact Nat.le_add_right _ _

/-- The characters up to a place are those in front of it and some behind these. -/
theorem byteLength_take_add (cs : List Char) (i n : Nat) :
    byteLength (cs.take (i + n)) = byteLength (cs.take i) + byteLength ((cs.drop i).take n) := by
  rw [List.take_add, byteLength_append]

/-- The characters one by one, in a row again. -/
theorem join_slices (cs : List Char) :
    String.join ((List.range cs.length).map fun i =>
      String.ofList ((cs.drop i).take (i + 1 - i))) = String.ofList cs := by
  induction cs with
  | nil => rfl
  | cons c cs ih =>
    rw [String.ofList_cons, ← ih, ← String.join_cons, List.length_cons, List.range_succ_eq_map]
    simp [Function.comp_def]

namespace Token

variable (t : Token)

def Spans : Prop := t.location.stop = t.location.start + t.text.utf8ByteSize

instance : Decidable t.Spans := inferInstanceAs (Decidable (_ = _))

theorem slice_add (i n : Nat) : t.slice i (i + n) =
    { location := ⟨t.location.start + byteLength (t.text.toList.take i),
        t.location.start + byteLength (t.text.toList.take (i + n))⟩
      kind := t.kind
      text := String.ofList ((t.text.toList.drop i).take n) } := by
  rw [byteLength_take_add, ← Nat.add_assoc, slice, Nat.add_sub_cancel_left]

theorem bounds_of_mem_separate {t : Token} (ht : t.Spans) {u : Token} (hu : u ∈ t.separate) :
    t.location.start ≤ u.location.start ∧ u.location.start ≤ u.location.stop ∧
      u.location.stop ≤ t.location.stop := by
  obtain ⟨i, -, rfl⟩ := List.mem_map.1 hu
  have hi := byteLength_mono
    (List.take_prefix_take_left (l := t.text.toList) (Nat.le_add_right i 1))
  have hstop : byteLength (t.text.toList.take (i + 1)) ≤ t.text.utf8ByteSize := by
    rw [← byteLength_toList]
    exact byteLength_mono (List.take_prefix (i + 1) t.text.toList)
  rw [slice_add, ht]
  dsimp only
  omega

theorem pairwise_separate :
    t.separate.Pairwise fun u v => u.location.stop ≤ v.location.start := by
  rw [separate, List.pairwise_map]
  apply List.pairwise_lt_range.imp
  intro i j hij
  rw [slice_add, slice_add]
  exact Nat.add_le_add_left (byteLength_mono (List.take_prefix_take_left hij)) _

theorem join_text_separate : String.join (t.separate.map text) = t.text := by
  rw [separate, List.map_map, ← String.length_toList]
  exact (join_slices t.text.toList).trans String.ofList_toList

end Token

end LLOne

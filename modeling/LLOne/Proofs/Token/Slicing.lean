import LLOne.Proofs.Lists
import LLOne.Proofs.Token
import Mathlib.Data.List.Forall2
import Mathlib.Data.List.Range

/-!
# Slices of tokens

A slice starts at the bytes in front of its first character and stops at those in front of the
character behind it, both counted in the whole token. So a slice of a slice is a slice of the token,
cut off where the first slice ends, also where there are no characters any more. The single
characters of a token are slices that follow on one another, and each of them is all of itself. If
the bytes of a token have positions of 64 bits, then no position on the way to a slice needs more.
-/

namespace LLOne.Token

/-- One piece for each character, which takes up the bytes of the character from where the piece
before it stops, the first one from where the token starts. -/
structure Tiled (t : Token) (pieces : List Token) : Prop where
  characters : List.Forall₂ (fun c u => u.text = String.singleton c ∧ u.kind = t.kind ∧
    u.location.stop = u.location.start + c.utf8Size) t.text.toList pieces
  start : ∀ u ∈ pieces.head?, u.location.start = t.location.start
  adjoin : pieces.IsChain fun u v => v.location.start = u.location.stop

variable (t : Token)

/-- As `slice`, with positions of 64 bits. -/
def sliceChecked (start stop : Nat) : Except PositionError Token := do
  let count ← Position.sub stop start
  let part := (t.text.toList.drop start).take count
  let first ← Position.add t.location.start (byteLength (t.text.toList.take start))
  let last ← Position.add first (byteLength part)
  return { location := ⟨first, last⟩, kind := t.kind, text := String.ofList part }

def separateChecked : Except PositionError (List Token) :=
  (List.range t.text.length).mapM fun i => do t.sliceChecked i (← Position.add i 1)

/-- Positions in a slice count from its start, and none of them leads beyond its end. -/
theorem slice_slice {start stop i j : Nat} (h : start ≤ stop) (hij : i ≤ j) :
    (t.slice start stop).slice i j = t.slice (min (start + i) stop) (min (start + j) stop) := by
  obtain ⟨n, rfl⟩ := Nat.exists_eq_add_of_le h
  obtain ⟨m, rfl⟩ := Nat.exists_eq_add_of_le hij
  have hend : min (i + m) n = min i n + min m (n - i) := by omega
  have hbytes : ∀ k, byteLength (t.text.toList.take (start + min k n)) =
      byteLength (t.text.toList.take start) +
        byteLength (((t.text.toList.drop start).take n).take k) := by
    intro k
    rw [byteLength_take_add, List.take_take]
  have htext : (((t.text.toList.drop start).take n).drop i).take m =
      (t.text.toList.drop (start + min i n)).take (min m (n - i)) := by
    rw [List.drop_take, List.take_take, List.drop_drop]
    rcases Nat.le_total i n with hin | hni
    · rw [Nat.min_eq_left hin]
    · rw [Nat.sub_eq_zero_of_le hni, Nat.min_zero, List.take_zero, List.take_zero]
  rw [Nat.add_min_add_left, Nat.add_min_add_left, hend, ← Nat.add_assoc, t.slice_add start n,
    slice_add, slice_add, Nat.add_assoc start, ← hend, hbytes, hbytes]
  simp only [String.toList_ofList, htext, Nat.add_assoc]

theorem slice_one {i : Nat} (hi : i < t.text.toList.length) : t.slice i (i + 1) =
    { location := ⟨t.location.start + byteLength (t.text.toList.take i),
        t.location.start + byteLength (t.text.toList.take i) + t.text.toList[i].utf8Size⟩
      kind := t.kind
      text := String.singleton t.text.toList[i] } := by
  have hpart : (t.text.toList.drop i).take 1 = [t.text.toList[i]] := by
    rw [List.drop_eq_getElem_cons hi, List.take_succ_cons, List.take_zero]
  rw [slice_add, byteLength_take_add, hpart, String.singleton_eq_ofList, byteLength, byteLength,
    Nat.add_zero, Nat.add_assoc]

theorem tiled_separate : t.Tiled t.separate where
  characters := by
    rw [List.forall₂_iff_get]
    refine ⟨by rw [length_separate, String.length_toList], fun i hi hu => ?_⟩
    have hpiece : t.separate.get ⟨i, hu⟩ = t.slice i (i + 1) := by simp [separate]
    rw [hpiece, t.slice_one hi]
    exact ⟨rfl, rfl, rfl⟩
  start := by
    intro u hu
    rw [separate, List.head?_map] at hu
    obtain ⟨i, hi, rfl⟩ := Option.map_eq_some_iff.1 hu
    obtain ⟨-, rfl⟩ : t.text ≠ "" ∧ 0 = i := by simpa [List.head?_range] using hi
    rfl
  adjoin := by
    rw [separate, List.isChain_map]
    apply (List.isChain_range _ _).2
    intro i hi
    rw [slice_add, slice_add]

/-- A single character is all of its piece. -/
theorem separate_of_mem_separate {u : Token} (hu : u ∈ t.separate) : u.separate = [u] := by
  obtain ⟨i, hi, rfl⟩ := List.mem_map.1 hu
  rw [List.mem_range, ← String.length_toList] at hi
  have hlength : (t.slice i (i + 1)).text.length = 1 := by
    rw [t.slice_one hi, String.length_singleton]
  have hself : (t.slice i (i + 1)).slice 0 1 = t.slice i (i + 1) := by
    rw [t.slice_slice (Nat.le_add_right i 1) (Nat.zero_le 1), Nat.add_zero, Nat.min_self,
      Nat.min_eq_left (Nat.le_add_right i 1)]
  rw [separate, hlength]
  exact congrArg (fun u => [u]) hself

/-! ## Slices in positions of 64 bits -/

/-- The bytes in front of a slice and those of the slice are bytes of the token. -/
theorem byteLength_slice_le (start n : Nat) :
    byteLength (t.text.toList.take start) + byteLength ((t.text.toList.drop start).take n) ≤
      t.text.utf8ByteSize := by
  rw [← byteLength_take_add, ← byteLength_toList]
  exact byteLength_mono (List.take_prefix _ _)

variable {t}

theorem Fits.slice (h : t.Fits) (start stop : Nat) : (t.slice start stop).Fits := by
  have hle := t.byteLength_slice_le start (stop - start)
  unfold Fits at h ⊢
  rw [Token.slice, ← byteLength_eq]
  dsimp only
  omega

theorem Fits.sliceChecked_eq (h : t.Fits) {start stop : Nat} (hle : start ≤ stop) :
    t.sliceChecked start stop = .ok (t.slice start stop) := by
  have hbytes := t.byteLength_slice_le start (stop - start)
  unfold Fits at h
  have hcount : Position.sub stop start = .ok (stop - start) := if_pos hle
  have hfirst : Position.add t.location.start (byteLength (t.text.toList.take start)) =
      .ok (t.location.start + byteLength (t.text.toList.take start)) := if_pos (by omega)
  have hlast : Position.add (t.location.start + byteLength (t.text.toList.take start))
      (byteLength ((t.text.toList.drop start).take (stop - start))) =
      .ok (t.slice start stop).location.stop := if_pos (by omega)
  rw [sliceChecked, hcount]
  simp only [bind, Except.bind, hfirst, hlast]
  rfl

theorem Fits.separateChecked_eq (h : t.Fits) : t.separateChecked = .ok t.separate := by
  refine mapM_eq_pure fun i hi => ?_
  have hlength := length_le_byteLength t.text.toList
  rw [byteLength_toList, String.length_toList] at hlength
  have hlt := List.mem_range.1 hi
  have hnext : Position.add i 1 = .ok (i + 1) := if_pos (by unfold Fits at h; omega)
  rw [hnext]
  exact h.sliceChecked_eq (Nat.le_add_right i 1)

/-- A slice of a slice is a slice of the token, and the single characters of a token tile it. If the
bytes of the token have positions of 64 bits, so have those of its slices, and both are found with
such positions alone. -/
theorem slicing_exact (t : Token) :
    (∀ start stop i j, start ≤ stop → i ≤ j → (t.slice start stop).slice i j =
      t.slice (min (start + i) stop) (min (start + j) stop)) ∧
    t.separate.length = t.text.length ∧ String.join (t.separate.map text) = t.text ∧
    t.Tiled t.separate ∧ (∀ u ∈ t.separate, u.separate = [u]) ∧
    (t.Fits → t.separateChecked = .ok t.separate ∧ ∀ start stop, start ≤ stop →
      t.sliceChecked start stop = .ok (t.slice start stop) ∧ (t.slice start stop).Fits) :=
  ⟨fun _ _ _ _ h hij => t.slice_slice h hij, t.length_separate, t.join_text_separate,
    t.tiled_separate, fun _ hu => t.separate_of_mem_separate hu, fun h => ⟨h.separateChecked_eq,
      fun start stop hle => ⟨h.sliceChecked_eq hle, h.slice start stop⟩⟩⟩

def widening : Token := ⟨⟨7, 17⟩, .word, "aé語𝄞"⟩

/-- The last character of a slice that goes on behind it, and what is cut off there. -/
theorem slicing_exact_widening :
    1 ≤ 9 ∧ 2 ≤ 5 ∧ (widening.slice 1 9).slice 2 5 = ⟨⟨13, 17⟩, .word, "𝄞"⟩ ∧
      (widening.slice 1 2).slice 1 5 = ⟨⟨10, 10⟩, .word, ""⟩ ∧
      ⟨⟨8, 10⟩, .word, "é"⟩ ∈ widening.separate ∧
      separate ⟨⟨8, 10⟩, .word, "é"⟩ = [⟨⟨8, 10⟩, .word, "é"⟩] ∧ widening.Fits ∧
      widening.sliceChecked 1 9 = .ok ⟨⟨8, 17⟩, .word, "é語𝄞"⟩ := by
  obtain ⟨hslice, -, -, -, hself, hchecked⟩ := slicing_exact widening
  have hmem : ⟨⟨8, 10⟩, .word, "é"⟩ ∈ widening.separate := by decide
  have hfits : widening.Fits := by decide
  refine ⟨by decide, by decide, ?_, ?_, hmem, hself _ hmem, hfits, ?_⟩
  · exact (hslice 1 9 2 5 (by decide) (by decide)).trans rfl
  · exact (hslice 1 2 1 5 (by decide) (by decide)).trans rfl
  · exact ((hchecked hfits).2 1 9 (by decide)).1.trans rfl

end LLOne.Token

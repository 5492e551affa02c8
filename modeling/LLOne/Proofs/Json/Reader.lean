import LLOne.Proofs.Json.Escape
import Mathlib.Data.List.Chain

/-!
# Values are read back from their text

A text is cut into the lexemes of its value, because what follows a number is never a character
with which the number could go on: between any two values there is a mark. The lexemes are then
read as the value, since a value ends where the next mark stands.
-/

namespace LLOne.Json

/-! ## Numbers -/

def continuesNumber (c : Char) : Bool := c.isDigit || c == '.' || c == 'e' || c == 'E'

/-- The digits of a number do not start with a zero, unless it is zero. -/
theorem exists_toDigits (n : Nat) :
    ∃ d ds, Nat.toDigits 10 n = d :: ds ∧ (d = '0' → n = 0) := by
  induction n using Nat.strong_induction_on with
  | _ n ih =>
    rw [Nat.toDigits_eq_if (by decide)]
    split
    next hlt =>
      have hdigit : ∀ k < 10, Nat.digitChar k = '0' → k = 0 := by decide
      exact ⟨_, [], rfl, hdigit n hlt⟩
    next hle =>
      obtain ⟨d, ds, hds, hd⟩ := ih (n / 10) (by omega)
      refine ⟨d, ds ++ [(n % 10).digitChar], by rw [hds, List.cons_append], fun hzero => ?_⟩
      have hquotient := hd hzero
      omega

theorem isDigit_toDigits (n : Nat) : ∀ c ∈ Nat.toDigits 10 n, c.isDigit = true :=
  fun _ => Nat.isDigit_of_mem_toDigits (by decide) (by decide)

theorem ne_of_isDigit {d c : Char} (hd : d.isDigit = true) (hc : c.isDigit = false) : d ≠ c := by
  rintro rfl
  rw [hd] at hc
  cases hc

theorem scanDigits?_append {digits rest : List Char} (hne : digits ≠ [])
    (hd : ∀ c ∈ digits, c.isDigit = true) (hrest : ∀ c ∈ rest.head?, c.isDigit = false) :
    scanDigits? (digits ++ rest) = some (digits, rest) := by
  have hstop : rest.takeWhile Char.isDigit = [] ∧ rest.dropWhile Char.isDigit = rest := by
    cases rest with
    | nil => exact ⟨rfl, rfl⟩
    | cons c rest => simp [hrest c rfl]
  rw [scanDigits?, List.takeWhile_append_of_pos hd, List.dropWhile_append_of_pos hd, hstop.1,
    hstop.2, List.append_nil, if_neg (by simpa using hne)]

section Number

variable {rest : List Char} (hrest : ∀ c ∈ rest.head?, continuesNumber c = false)

include hrest

theorem scanFraction?_eq : scanFraction? rest = some ([], rest) := by
  unfold scanFraction?
  split
  next c rest => exact absurd (hrest _ rfl) (by decide)
  · rfl

theorem scanExponent?_eq : scanExponent? rest = some ([], rest) := by
  cases rest with
  | nil => rfl
  | cons c rest =>
    have hc := hrest c rfl
    rw [scanExponent?, if_neg]
    rintro (rfl | rfl) <;> exact absurd hc (by decide)

theorem scanWhole?_toDigits (n : Nat) :
    scanWhole? (Nat.toDigits 10 n ++ rest) = some (Nat.toDigits 10 n, rest) := by
  obtain ⟨d, ds, hds, hzero⟩ := exists_toDigits n
  by_cases hd : d = '0'
  · obtain rfl := hzero hd
    rfl
  · have hdigits : ∀ c ∈ rest.head?, c.isDigit = false := by
      intro c hc
      have hstop := hrest c hc
      simp only [continuesNumber, Bool.or_eq_false_iff] at hstop
      exact hstop.1.1.1
    have hscan := scanDigits?_append (List.ne_nil_of_mem (hds ▸ List.mem_cons_self))
      (isDigit_toDigits n) hdigits
    rw [← hscan, hds, List.cons_append, scanWhole?]
    rintro _ h
    exact hd (List.cons.inj h).1

theorem scanNumber?_toDigits (n : Nat) :
    scanNumber? (Nat.toDigits 10 n ++ rest) = some (Nat.toDigits 10 n, rest) := by
  have hsign : scanSign ['-'] (Nat.toDigits 10 n ++ rest) = ([], Nat.toDigits 10 n ++ rest) := by
    obtain ⟨d, ds, hds, -⟩ := exists_toDigits n
    have hd := isDigit_toDigits n d (hds ▸ List.mem_cons_self)
    rw [hds, List.cons_append, scanSign, if_neg]
    rw [List.mem_singleton]
    exact ne_of_isDigit hd (by decide)
  rw [scanNumber?, hsign]
  simp [scanWhole?_toDigits hrest, scanFraction?_eq hrest, scanExponent?_eq hrest]

end Number

/-! ## Lexemes -/

namespace Lexeme

def isNumber : Lexeme → Bool
  | number _ => true
  | _ => false

def Written : Lexeme → Prop
  | number digits => ∃ n, digits = Nat.toDigits 10 n
  | string raw => ∃ cs, raw = escape cs
  | _ => True

/-- How the characters of a lexeme begin. -/
theorem Written.exists_chars {l : Lexeme} (hl : l.Written) :
    ∃ c cs, l.chars = c :: cs ∧ isSpace c = false ∧
      (l.isNumber = false → continuesNumber c = false) := by
  cases l with
  | bool value => cases value <;> exact ⟨_, _, rfl, by decide, fun _ => by decide⟩
  | number digits =>
    obtain ⟨n, rfl⟩ := hl
    obtain ⟨d, ds, hds, -⟩ := exists_toDigits n
    have hd := isDigit_toDigits n d (hds ▸ List.mem_cons_self)
    have hne : ∀ c : Char, c.isDigit = false → d ≠ c := fun _ => ne_of_isDigit hd
    refine ⟨d, ds, hds, ?_, fun h => nomatch h⟩
    simp [isSpace, hne]
  | string raw => exact ⟨_, _, rfl, by decide, fun _ => by decide⟩
  | _ => exact ⟨_, _, rfl, by decide, fun _ => by decide⟩

theorem Written.scanLexeme? {l : Lexeme} (hl : l.Written) {rest : List Char}
    (hrest : l.isNumber = true → ∀ c ∈ rest.head?, continuesNumber c = false) :
    scanLexeme? (l.chars ++ rest) = some (l, rest) := by
  cases l with
  | bool value => cases value <;> rfl
  | number digits =>
    obtain ⟨n, rfl⟩ := hl
    have hscan := scanNumber?_toDigits (hrest rfl) n
    obtain ⟨d, ds, hds, -⟩ := exists_toDigits n
    have hd := isDigit_toDigits n d (hds ▸ List.mem_cons_self)
    have hne : ∀ c : Char, c.isDigit = false → d ≠ c := fun _ => ne_of_isDigit hd
    rw [hds, List.cons_append] at hscan
    rw [chars, hds, List.cons_append]
    simp [Json.scanLexeme?, hne, hscan]
  | string raw =>
    obtain ⟨cs, rfl⟩ := hl
    have hscan := scanString?_escape cs rest
    simp [chars, Json.scanLexeme?, hscan]
  | _ => rfl

end Lexeme

structure Cuttable (ls : List Lexeme) : Prop where
  written : ∀ l ∈ ls, l.Written
  apart : ls.IsChain fun k l => k.isNumber = false ∨ l.isNumber = false

namespace Cuttable

theorem nil : Cuttable [] where
  written _ h := nomatch h
  apart := .nil

theorem singleton {l : Lexeme} (hl : l.Written) : Cuttable [l] :=
  ⟨List.forall_mem_singleton.2 hl, .singleton l⟩

section Mark

variable {ls : List Lexeme} (h : Cuttable ls) (mark : Lexeme) (hw : mark.Written)
  (hm : mark.isNumber = false)

include h hw hm

theorem cons_mark : Cuttable (mark :: ls) :=
  ⟨List.forall_mem_cons.2 ⟨hw, h.written⟩, List.isChain_cons.2 ⟨fun _ _ => .inl hm, h.apart⟩⟩

theorem append_mark {ks : List Lexeme} (hk : Cuttable ks) : Cuttable (ks ++ mark :: ls) := by
  have hmark := h.cons_mark mark hw hm
  refine ⟨List.forall_mem_append.2 ⟨hk.written, hmark.written⟩, ?_⟩
  refine List.isChain_append.2 ⟨hk.apart, hmark.apart, fun _ _ l hhead => ?_⟩
  obtain rfl := Option.some.inj hhead
  exact .inr hm

end Mark

/-- Parts with commas between them. -/
theorem intercalate {parts : List (List Lexeme)} (h : ∀ part ∈ parts, Cuttable part) :
    Cuttable ([Lexeme.comma].intercalate parts) := by
  induction parts with
  | nil => exact nil
  | cons part parts ih =>
    rw [List.forall_mem_cons] at h
    cases parts with
    | nil => simpa using h.1
    | cons next parts =>
      rw [List.intercalate_cons_cons, List.append_assoc]
      exact (ih h.2).append_mark .comma trivial rfl h.1

variable {ls : List Lexeme} (h : Cuttable ls)

include h

theorem length_le : ls.length ≤ (ls.flatMap Lexeme.chars).length := by
  induction ls with
  | nil => exact Nat.le_refl 0
  | cons l ls ih =>
    obtain ⟨hl, hw⟩ := List.forall_mem_cons.1 h.written
    obtain ⟨c, cs, hcs, -⟩ := hl.exists_chars
    have hrest := ih ⟨hw, (List.isChain_cons.1 h.apart).2⟩
    rw [List.flatMap_cons, List.length_append, hcs, List.length_cons, List.length_cons]
    omega

/-- The lexemes are cut off again one by one. -/
theorem scan?_chars {fuel : Nat} (hf : ls.length < fuel) :
    scan? fuel (ls.flatMap Lexeme.chars) = some ls := by
  induction ls generalizing fuel with
  | nil =>
    obtain ⟨fuel, rfl⟩ := Nat.exists_eq_add_one_of_ne_zero (Nat.ne_of_gt hf)
    rfl
  | cons l ls ih =>
    obtain ⟨fuel, rfl⟩ := Nat.exists_eq_add_one_of_ne_zero (Nat.ne_zero_of_lt hf)
    obtain ⟨hl, hw⟩ := List.forall_mem_cons.1 h.written
    obtain ⟨hnext, hrest⟩ := List.isChain_cons.1 h.apart
    have hstop : l.isNumber = true →
        ∀ c ∈ (ls.flatMap Lexeme.chars).head?, continuesNumber c = false := by
      intro hnumber c hc
      cases ls with
      | nil => cases hc
      | cons m ls =>
        have hm := (hnext m rfl).resolve_left (by simp [hnumber])
        obtain ⟨d, ds, hds, -, hd⟩ := (hw m List.mem_cons_self).exists_chars
        rw [List.flatMap_cons, hds] at hc
        obtain rfl := Option.some.inj hc
        exact hd hm
    have hscan := hl.scanLexeme? hstop
    obtain ⟨c, cs, hcs, hspace, -⟩ := hl.exists_chars
    rw [hcs, List.cons_append] at hscan
    have hlength : ls.length < fuel := Nat.lt_of_succ_lt_succ hf
    rw [List.flatMap_cons, hcs, List.cons_append, scan?, if_neg (by simp [hspace])]
    simp only [hscan, ih ⟨hw, hrest⟩ hlength, Option.map_some]

end Cuttable

/-! ## Values -/

namespace Value

def memberLexeme (member : List Char × Value) : List Lexeme :=
  .string member.1 :: .colon :: member.2.lexemes

theorem itemLexemes_eq (items : List Value) :
    itemLexemes items = [Lexeme.comma].intercalate (items.map lexemes) := by
  induction items with
  | nil => rfl
  | cons item items ih =>
    cases items with
    | nil => simp [itemLexemes]
    | cons next items =>
      rw [itemLexemes, ih, List.map_cons, List.map_cons, List.map_cons, List.intercalate_cons_cons,
        List.append_assoc, List.singleton_append]

theorem memberLexemes_eq (members : List (List Char × Value)) :
    memberLexemes members = [Lexeme.comma].intercalate (members.map memberLexeme) := by
  induction members with
  | nil => rfl
  | cons member members ih =>
    cases members with
    | nil => simp [memberLexemes, memberLexeme]
    | cons next members =>
      rw [memberLexemes, ih, List.map_cons, List.map_cons, List.map_cons,
        List.intercalate_cons_cons, List.append_assoc, List.singleton_append]
      rfl

/-- The value has whole numbers, and its strings and names are escaped. -/
inductive Written : Value → Prop
  | null : Written .null
  | bool (value : Bool) : Written (.bool value)
  | number (n : Nat) : Written (.ofNat n)
  | string (text : String) : Written (.ofString text)
  | array {items : List Value} (h : ∀ item ∈ items, Written item) : Written (.array items)
  | object {members : List (String × Value)} (h : ∀ member ∈ members, Written member.2) :
    Written (.ofMembers members)

theorem Written.cuttable {v : Value} (hv : v.Written) : Cuttable v.lexemes := by
  induction hv with
  | number n => exact .singleton ⟨n, rfl⟩
  | string text => exact .singleton ⟨text.toList, rfl⟩
  | @array items h ih =>
    have hitems := Cuttable.intercalate (List.forall_mem_map.2 ih)
    rw [lexemes, itemLexemes_eq]
    have hclosed := Cuttable.nil.append_mark .closeArray trivial rfl hitems
    exact hclosed.cons_mark .openArray trivial rfl
  | @object members h ih =>
    have hmember : ∀ member ∈ members,
        Cuttable (memberLexeme (escape member.1.toList, member.2)) := by
      intro member hm
      exact ((ih member hm).cons_mark .colon trivial rfl).cons_mark _ ⟨member.1.toList, rfl⟩ rfl
    have hmembers := Cuttable.intercalate (List.forall_mem_map.2 hmember)
    rw [ofMembers, lexemes, memberLexemes_eq, List.map_map]
    have hclosed := Cuttable.nil.append_mark .closeObject trivial rfl hmembers
    exact hclosed.cons_mark .openObject trivial rfl
  | _ => exact .singleton trivial

/-! ## Reading lexemes -/

/-- The value is read from its lexemes, and no more than these are taken. Two units of fuel for each
lexeme are enough for a list of items or members, and one less for a value. -/
def ReadBack (v : Value) : Prop :=
  ∀ fuel rest, 2 * v.lexemes.length ≤ fuel + 1 →
    readValue? fuel (v.lexemes ++ rest) = some (v, rest)

theorem exists_lexemes (v : Value) : ∃ l ls, v.lexemes = l :: ls ∧ l ≠ .closeArray := by
  cases v <;> exact ⟨_, _, rfl, by simp⟩

theorem readValue?_openArray {ls : List Lexeme} (h : ls.head? ≠ some .closeArray) (fuel : Nat) :
    readValue? (fuel + 1) (.openArray :: ls) =
      (readItems? fuel ls).map fun (items, rest) => (.array items, rest) := by
  cases ls with
  | nil => rfl
  | cons l ls =>
    cases l with
    | closeArray => exact absurd rfl h
    | _ => rfl

theorem readItems?_lexemes {items : List Value} (hne : items ≠ [])
    (h : ∀ item ∈ items, item.ReadBack) {fuel : Nat} (hf : 2 * (itemLexemes items).length ≤ fuel)
    (rest : List Lexeme) :
    readItems? fuel (itemLexemes items ++ .closeArray :: rest) = some (items, rest) := by
  induction items generalizing fuel with
  | nil => exact absurd rfl hne
  | cons item items ih =>
    rw [List.forall_mem_cons] at h
    obtain ⟨l, ls, hls, -⟩ := exists_lexemes item
    cases items with
    | nil =>
      rw [itemLexemes] at hf ⊢
      obtain ⟨fuel, rfl⟩ : ∃ k, fuel = k + 1 :=
        Nat.exists_eq_add_one_of_ne_zero (by rw [hls, List.length_cons] at hf; omega)
      rw [readItems?, h.1 fuel _ hf]
    | cons next items =>
      rw [itemLexemes] at hf ⊢
      rw [List.length_append, List.length_cons] at hf
      obtain ⟨fuel, rfl⟩ : ∃ k, fuel = k + 1 := Nat.exists_eq_add_one_of_ne_zero (by omega)
      rw [List.append_assoc, List.cons_append, readItems?, h.1 fuel _ (by omega)]
      simp only [ih (List.cons_ne_nil _ _) h.2 (show 2 * _ ≤ fuel by omega), Option.map_some]

theorem readMembers?_lexemes {members : List (List Char × Value)} (hne : members ≠ [])
    (h : ∀ member ∈ members, member.2.ReadBack) {fuel : Nat}
    (hf : 2 * (memberLexemes members).length ≤ fuel) (rest : List Lexeme) :
    readMembers? fuel (memberLexemes members ++ .closeObject :: rest) = some (members, rest) := by
  induction members generalizing fuel with
  | nil => exact absurd rfl hne
  | cons member members ih =>
    obtain ⟨name, value⟩ := member
    rw [List.forall_mem_cons] at h
    have hvalue : value.ReadBack := h.1
    cases members with
    | nil =>
      rw [memberLexemes] at hf ⊢
      simp only [List.length_cons] at hf
      obtain ⟨fuel, rfl⟩ : ∃ k, fuel = k + 1 := Nat.exists_eq_add_one_of_ne_zero (by omega)
      rw [List.cons_append, List.cons_append, readMembers?, hvalue fuel _ (by omega)]
    | cons next members =>
      rw [memberLexemes] at hf ⊢
      simp only [List.length_cons, List.length_append] at hf
      obtain ⟨fuel, rfl⟩ : ∃ k, fuel = k + 1 := Nat.exists_eq_add_one_of_ne_zero (by omega)
      rw [List.cons_append, List.cons_append, List.append_assoc, List.cons_append, readMembers?,
        hvalue fuel _ (by omega)]
      simp only [ih (List.cons_ne_nil _ _) h.2 (show 2 * _ ≤ fuel by omega), Option.map_some]

theorem readBack_array {items : List Value} (h : ∀ item ∈ items, item.ReadBack) :
    (array items).ReadBack := by
  intro fuel rest hf
  rw [Value.lexemes, List.length_cons, List.length_append, List.length_singleton] at hf
  obtain ⟨fuel, rfl⟩ : ∃ k, fuel = k + 1 := Nat.exists_eq_add_one_of_ne_zero (by omega)
  rw [Value.lexemes, List.cons_append, List.append_assoc, List.singleton_append]
  cases items with
  | nil => rfl
  | cons item items =>
    have hhead : (itemLexemes (item :: items) ++ .closeArray :: rest).head? ≠ some .closeArray := by
      obtain ⟨l, ls, hls, hl⟩ := exists_lexemes item
      cases items <;> simpa [itemLexemes, hls] using hl
    rw [readValue?_openArray hhead, readItems?_lexemes (List.cons_ne_nil _ _) h (by omega)]
    rfl

theorem readBack_object {members : List (List Char × Value)}
    (h : ∀ member ∈ members, member.2.ReadBack) : (object members).ReadBack := by
  intro fuel rest hf
  rw [Value.lexemes, List.length_cons, List.length_append, List.length_singleton] at hf
  obtain ⟨fuel, rfl⟩ : ∃ k, fuel = k + 1 := Nat.exists_eq_add_one_of_ne_zero (by omega)
  rw [Value.lexemes, List.cons_append, List.append_assoc, List.singleton_append]
  cases members with
  | nil => rfl
  | cons member members =>
    have hread : readValue? (fuel + 1)
        (.openObject :: (memberLexemes (member :: members) ++ .closeObject :: rest)) =
        (readMembers? fuel (memberLexemes (member :: members) ++ .closeObject :: rest)).map
          fun read => (.object read.1, read.2) := by
      cases members <;> rfl
    rw [hread, readMembers?_lexemes (List.cons_ne_nil _ _) h (by omega)]
    rfl

theorem Written.readBack {v : Value} (hv : v.Written) : v.ReadBack := by
  induction hv with
  | array h ih => exact readBack_array ih
  | object h ih => exact readBack_object (List.forall_mem_map.2 ih)
  | _ =>
    intro fuel rest hf
    cases fuel with
    | zero => exact absurd hf (Nat.not_succ_le_self 1)
    | succ fuel => rfl

/-- A value that is written as such is read from its text. -/
theorem Written.read?_text {v : Value} (hv : v.Written) : read? v.text = some v := by
  have hscan := hv.cuttable.scan?_chars (Nat.lt_succ_of_le hv.cuttable.length_le)
  have hread := hv.readBack (2 * v.lexemes.length + 2) [] (by omega)
  rw [List.append_nil] at hread
  simp only [read?, text, String.toList_ofList, hscan, hread]

end Value

end LLOne.Json

import LLOne.Json.Reader

/-!
# Escaped texts are read back

A character is written as an escape of two characters, as one of six with its code, or as itself.
In each case the reader stands outside of an escape again behind what is written, has the code of
the character, and has not seen the closing quote. No character is a surrogate, so the codes are
joined to the text again.
-/

namespace LLOne.Json

/-! ## One character -/

theorem hexValue?_hexDigit : ∀ n < 16, hexValue? (hexDigit n) = some n := by
  decide

/-- How a character is written. -/
theorem escapeChar_cases (c : Char) :
    (∃ letter, escapeChar c = ['\\', letter] ∧ letter ≠ 'u' ∧ shortEscape? letter = some c) ∨
    (c.toNat < 0x20 ∧
      escapeChar c = ['\\', 'u', '0', '0', hexDigit (c.toNat / 16), hexDigit (c.toNat % 16)]) ∨
    (escapeChar c = [c] ∧ c ≠ '"' ∧ c ≠ '\\' ∧ 0x20 ≤ c.toNat) := by
  have hcode : ∀ {n : Nat}, c.toNat = n → c = Char.ofNat n := by
    rintro n rfl
    exact (Char.ofNat_toNat c).symm
  unfold escapeChar
  split
  next h =>
    subst h
    exact .inl ⟨'"', rfl, by decide, rfl⟩
  split
  next h =>
    subst h
    exact .inl ⟨'\\', rfl, by decide, rfl⟩
  split
  next h => exact .inl ⟨'b', rfl, by decide, hcode h ▸ rfl⟩
  split
  next h => exact .inl ⟨'t', rfl, by decide, hcode h ▸ rfl⟩
  split
  next h => exact .inl ⟨'n', rfl, by decide, hcode h ▸ rfl⟩
  split
  next h => exact .inl ⟨'f', rfl, by decide, hcode h ▸ rfl⟩
  split
  next h => exact .inl ⟨'r', rfl, by decide, hcode h ▸ rfl⟩
  split
  next h => exact .inr (.inl ⟨h, rfl⟩)
  next hquote hbackslash _ _ _ _ _ h =>
    exact .inr (.inr ⟨rfl, hquote, hbackslash, Nat.le_of_not_lt h⟩)

theorem codePoints?_escapeChar (c : Char) (rest : List Char) :
    codePoints? .outside (escapeChar c ++ rest) =
      (codePoints? .outside rest).map (c.toNat :: ·) := by
  rcases escapeChar_cases c with ⟨letter, he, hne, hs⟩ | ⟨hlt, he⟩ | ⟨he, -, hne, -⟩
  · simp [he, codePoints?, hne, hs]
  · have hzero : hexValue? '0' = some 0 := by decide
    have hcode : c.toNat / 16 * 16 + c.toNat % 16 = c.toNat := Nat.div_add_mod' c.toNat 16
    simp [he, codePoints?, hzero, hexValue?_hexDigit (c.toNat / 16) (by omega),
      hexValue?_hexDigit (c.toNat % 16) (by omega), hcode]
  · simp [he, codePoints?, hne]

theorem scanString?_escapeChar (c : Char) (rest : List Char) :
    scanString? .outside (escapeChar c ++ rest) =
      (scanString? .outside rest).map fun (raw, rest) => (escapeChar c ++ raw, rest) := by
  rcases escapeChar_cases c with ⟨letter, he, hne, hs⟩ | ⟨hlt, he⟩ | ⟨he, hquote, hne, hle⟩
  · simp [he, scanString?, hne, hs, Function.comp_def]
  · have hzero : hexValue? '0' = some 0 := by decide
    simp [he, scanString?, hzero, hexValue?_hexDigit (c.toNat / 16) (by omega),
      hexValue?_hexDigit (c.toNat % 16) (by omega), Function.comp_def]
  · simp [he, scanString?, hne, hquote, Nat.not_lt.2 hle]

/-! ## Texts -/

theorem escape_cons (c : Char) (cs : List Char) : escape (c :: cs) = escapeChar c ++ escape cs :=
  List.flatMap_cons

theorem codePoints?_escape (cs : List Char) :
    codePoints? .outside (escape cs) = some (cs.map Char.toNat) := by
  induction cs with
  | nil => rfl
  | cons c cs ih => rw [escape_cons, codePoints?_escapeChar, ih, Option.map_some, List.map_cons]

/-- A string ends at its closing quote and not before. -/
theorem scanString?_escape (cs rest : List Char) :
    scanString? .outside (escape cs ++ '"' :: rest) = some (escape cs, rest) := by
  induction cs with
  | nil => rfl
  | cons c cs ih =>
    rw [escape_cons, List.append_assoc, scanString?_escapeChar, ih, Option.map_some]

theorem not_surrogate (c : Char) :
    isHighSurrogate c.toNat = false ∧ isLowSurrogate c.toNat = false := by
  have hvalid : c.toNat < 0xD800 ∨ 0xDFFF < c.toNat ∧ c.toNat < 0x110000 := c.valid
  simp only [isHighSurrogate, isLowSurrogate, Bool.and_eq_false_iff, decide_eq_false_iff_not]
  omega

theorem joinPairs?_toNat (cs : List Char) : joinPairs? (cs.map Char.toNat) = some cs := by
  induction cs with
  | nil => rfl
  | cons c cs ih =>
    obtain ⟨hhigh, hlow⟩ := not_surrogate c
    cases cs with
    | nil => simp [joinPairs?, hhigh, hlow]
    | cons d cs =>
      rw [List.map_cons] at ih
      simp [joinPairs?, hhigh, hlow, ih]

/-- Every text is read back from its escaped form. -/
theorem unescape?_escape (cs : List Char) : unescape? (escape cs) = some cs := by
  rw [unescape?, codePoints?_escape, Option.bind_some, joinPairs?_toNat]

end LLOne.Json

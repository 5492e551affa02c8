import LLOne.Text.Quoted
import LLOne.Proofs.Text.Words

/-!
# Quoted text can be read back

The written forms of two characters differ before either of them ends, and none begins with a quote.
So the quote that ends a quoted text can be told from those in it: whatever stands behind a quoted
text, the text and what stands behind it are determined.
-/

namespace LLOne.Text

/-! ## Hexadecimal digits -/

theorem hexDigits_eq_if (n : Nat) :
    hexDigits n = if n < 16 then [n.digitChar] else hexDigits (n / 16) ++ [(n % 16).digitChar] :=
  Nat.toDigits_eq_if (by decide)

theorem digitChar_inj : ∀ m < 16, ∀ n < 16, Nat.digitChar m = Nat.digitChar n → m = n := by
  decide

theorem digitChar_ne_brace : ∀ n < 16, Nat.digitChar n ≠ '\x7d' := by
  decide

theorem hexDigits_ne_nil (n : Nat) : hexDigits n ≠ [] := Nat.toDigits_ne_nil

theorem hexDigits_injective : Function.Injective hexDigits := by
  intro m
  induction m using Nat.strongRecOn with
  | ind m ih =>
    intro n h
    rw [hexDigits_eq_if m, hexDigits_eq_if n] at h
    split at h <;> split at h
    next hm hn => exact digitChar_inj m hm n hn (List.singleton_inj.1 h)
    next => exact absurd (List.append_eq_singleton_iff.1 h.symm) (by simp [hexDigits_ne_nil])
    next => exact absurd (List.append_eq_singleton_iff.1 h) (by simp [hexDigits_ne_nil])
    next hm hn =>
      obtain ⟨hhigh, hlow⟩ := List.append_inj' h rfl
      have hdiv := ih (m / 16) (by omega) hhigh
      have hmod := digitChar_inj (m % 16) (by omega) (n % 16) (by omega) (List.singleton_inj.1 hlow)
      omega

theorem ne_brace_of_mem_hexDigits {n : Nat} : ∀ c ∈ hexDigits n, c ≠ '\x7d' := by
  induction n using Nat.strongRecOn with
  | ind n ih =>
    rw [hexDigits_eq_if]
    split
    next hn => exact List.forall_mem_singleton.2 (digitChar_ne_brace n hn)
    next hn =>
      rw [List.forall_mem_append, List.forall_mem_singleton]
      exact ⟨ih (n / 16) (by omega), digitChar_ne_brace (n % 16) (by omega)⟩

theorem hexDigits_append_inj {m n : Nat} {r s : List Char}
    (h : hexDigits m ++ '\x7d' :: r = hexDigits n ++ '\x7d' :: s) : m = n ∧ r = s := by
  obtain ⟨hdigits, htail⟩ := append_inj_of_forall (p := (· != '\x7d'))
    (by simpa using ne_brace_of_mem_hexDigits) (by simpa using ne_brace_of_mem_hexDigits)
    (by simp) (by simp) h
  exact ⟨hexDigits_injective hdigits, (List.cons.inj htail).2⟩

/-! ## Characters -/

def shortEscapes : List (Char × Char) :=
  [('"', '"'), ('\\', '\\'), ('\n', 'n'), ('\r', 'r'), ('\t', 't'), ('\x00', '0')]

/-- The forms in which a character can stand in a quoted text. -/
inductive Written (c : Char) : List Char → Prop
  | short {letter : Char} (h : (c, letter) ∈ shortEscapes) : Written c ['\\', letter]
  | code : Written c ('\\' :: 'u' :: '\x7b' :: (hexDigits c.toNat ++ ['\x7d']))
  | plain (hq : c ≠ '"') (hb : c ≠ '\\') : Written c [c]

theorem written_quotedChar (c : Char) : Written c (quotedChar c) := by
  unfold quotedChar
  split_ifs with hq hb hn hr ht h0
  · subst hq; exact .short (by decide)
  · subst hb; exact .short (by decide)
  · subst hn; exact .short (by decide)
  · subst hr; exact .short (by decide)
  · subst ht; exact .short (by decide)
  · obtain rfl : c = '\x00' := Char.toNat_inj.1 h0
    exact .short (by decide)
  · exact .code
  · exact .plain hq hb

theorem shortEscapes_inj : ∀ e ∈ shortEscapes, ∀ f ∈ shortEscapes, e.2 = f.2 → e.1 = f.1 := by
  decide

theorem shortEscapes_ne_u : ∀ e ∈ shortEscapes, e.2 ≠ 'u' := by
  decide

namespace Written

variable {c d : Char} {u v r s : List Char}

/-- The written form of a character ends before those of two characters agree. -/
theorem append_inj (hu : Written c u) (hv : Written d v) (h : u ++ r = v ++ s) :
    c = d ∧ r = s := by
  cases hu with
  | short hc =>
    cases hv with
    | short hd =>
      obtain ⟨-, he⟩ := List.cons.inj h
      obtain ⟨rfl, hr⟩ := List.cons.inj he
      exact ⟨shortEscapes_inj _ hc _ hd rfl, hr⟩
    | code =>
      obtain ⟨-, he⟩ := List.cons.inj h
      exact absurd (List.cons.inj he).1 (shortEscapes_ne_u _ hc)
    | plain _ hb => exact absurd (List.cons.inj h).1.symm hb
  | code =>
    cases hv with
    | short hd =>
      obtain ⟨-, he⟩ := List.cons.inj h
      exact absurd (List.cons.inj he).1.symm (shortEscapes_ne_u _ hd)
    | code =>
      simp only [List.cons_append, List.append_assoc, List.cons.injEq, true_and,
        List.nil_append] at h
      obtain ⟨hcode, hr⟩ := hexDigits_append_inj h
      exact ⟨Char.toNat_inj.1 hcode, hr⟩
    | plain _ hb => exact absurd (List.cons.inj h).1.symm hb
  | plain _ hb =>
    cases hv with
    | short _ => exact absurd (List.cons.inj h).1 hb
    | code => exact absurd (List.cons.inj h).1 hb
    | plain _ _ => exact List.cons.inj h

theorem append_ne_quote (hu : Written c u) : u ++ r ≠ '"' :: s := by
  intro h
  cases hu with
  | short _ => exact absurd (List.cons.inj h).1 (by decide)
  | code => exact absurd (List.cons.inj h).1 (by decide)
  | plain hq _ => exact hq (List.cons.inj h).1

end Written

/-! ## Texts -/

theorem flatMap_quotedChar_inj {cs ds r s : List Char}
    (h : cs.flatMap quotedChar ++ '"' :: r = ds.flatMap quotedChar ++ '"' :: s) :
    cs = ds ∧ r = s := by
  induction cs generalizing ds with
  | nil =>
    cases ds with
    | nil => exact ⟨rfl, (List.cons.inj h).2⟩
    | cons d ds =>
      rw [List.flatMap_cons, List.append_assoc] at h
      exact absurd h.symm (written_quotedChar d).append_ne_quote
  | cons c cs ih =>
    cases ds with
    | nil =>
      rw [List.flatMap_cons, List.append_assoc] at h
      exact absurd h (written_quotedChar c).append_ne_quote
    | cons d ds =>
      rw [List.flatMap_cons, List.append_assoc, List.flatMap_cons, List.append_assoc] at h
      obtain ⟨rfl, hrest⟩ := (written_quotedChar c).append_inj (written_quotedChar d) h
      obtain ⟨rfl, hr⟩ := ih hrest
      exact ⟨rfl, hr⟩

theorem quoted_append_inj {text text' : String} {r s : List Char}
    (h : (quoted text).toList ++ r = (quoted text').toList ++ s) : text = text' ∧ r = s := by
  simp only [quoted, quotedChars, String.toList_ofList, List.cons_append, List.append_assoc,
    List.cons.injEq, true_and] at h
  obtain ⟨hchars, hr⟩ := flatMap_quotedChar_inj h
  exact ⟨String.toList_inj.1 hchars, hr⟩

theorem head?_quoted (text : String) : (quoted text).toList.head? = some '"' := by
  simp [quoted, quotedChars]

end LLOne.Text

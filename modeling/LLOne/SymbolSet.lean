/-!
# Sets of symbols

A set of symbol indices is its list of members in strictly increasing order, so that two
sets with the same members are equal. Each operation is described by its members.
-/

namespace LLOne

structure SymbolSet where
  members : List Nat
  sorted : members.Pairwise (· < ·)
deriving DecidableEq

namespace SymbolSet

instance : Membership Nat SymbolSet := ⟨fun s n => n ∈ s.members⟩

instance (n : Nat) (s : SymbolSet) : Decidable (n ∈ s) :=
  inferInstanceAs (Decidable (n ∈ s.members))

theorem mem_members {n : Nat} {s : SymbolSet} : n ∈ s.members ↔ n ∈ s := Iff.rfl

def empty : SymbolSet := ⟨[], .nil⟩

instance : EmptyCollection SymbolSet := ⟨empty⟩

instance : Inhabited SymbolSet := ⟨∅⟩

@[simp] theorem not_mem_empty (n : Nat) : n ∉ (∅ : SymbolSet) := List.not_mem_nil

def insertMember (n : Nat) : List Nat → List Nat
  | [] => [n]
  | m :: rest => if n < m then n :: m :: rest else if n = m then m :: rest
    else m :: insertMember n rest

theorem mem_insertMember {n x : Nat} {ms : List Nat} :
    x ∈ insertMember n ms ↔ x = n ∨ x ∈ ms := by
  induction ms with
  | nil => simp [insertMember]
  | cons m rest ih => grind [insertMember]

theorem sorted_insertMember {n : Nat} {ms : List Nat} (h : ms.Pairwise (· < ·)) :
    (insertMember n ms).Pairwise (· < ·) := by
  induction ms with
  | nil => simp [insertMember]
  | cons m rest ih =>
    rw [List.pairwise_cons] at h
    unfold insertMember
    split
    · rename_i hlt
      refine List.pairwise_cons.2 ⟨fun x hx => ?_, List.pairwise_cons.2 h⟩
      rcases List.mem_cons.1 hx with rfl | hx
      · exact hlt
      · exact Nat.lt_trans hlt (h.1 x hx)
    · split
      · exact List.pairwise_cons.2 h
      · refine List.pairwise_cons.2 ⟨fun x hx => ?_, ih h.2⟩
        rcases mem_insertMember.1 hx with rfl | hx
        · omega
        · exact h.1 x hx

def insert (n : Nat) (s : SymbolSet) : SymbolSet :=
  ⟨insertMember n s.members, sorted_insertMember s.sorted⟩

@[simp] theorem mem_insert {n x : Nat} {s : SymbolSet} : x ∈ s.insert n ↔ x = n ∨ x ∈ s :=
  mem_insertMember

def ofList (ns : List Nat) : SymbolSet := ns.foldr insert ∅

@[simp] theorem mem_ofList {x : Nat} {ns : List Nat} : x ∈ ofList ns ↔ x ∈ ns := by
  induction ns with
  | nil => simp [ofList]
  | cons n rest ih =>
    simp only [ofList, List.foldr_cons, mem_insert, List.mem_cons] at *
    rw [ih]

def filter (p : Nat → Bool) (s : SymbolSet) : SymbolSet :=
  ⟨s.members.filter p, s.sorted.filter p⟩

@[simp] theorem mem_filter {p : Nat → Bool} {x : Nat} {s : SymbolSet} :
    x ∈ s.filter p ↔ x ∈ s ∧ p x = true := List.mem_filter

def erase (n : Nat) (s : SymbolSet) : SymbolSet := s.filter (· != n)

@[simp] theorem mem_erase {n x : Nat} {s : SymbolSet} : x ∈ s.erase n ↔ x ≠ n ∧ x ∈ s := by
  simp [erase, and_comm]

def union (s t : SymbolSet) : SymbolSet := t.members.foldl (fun s n => s.insert n) s

instance : Union SymbolSet := ⟨union⟩

@[simp] theorem mem_union {x : Nat} {s t : SymbolSet} : x ∈ s ∪ t ↔ x ∈ s ∨ x ∈ t := by
  suffices h : ∀ (ns : List Nat) (s : SymbolSet),
      x ∈ ns.foldl (fun s n => s.insert n) s ↔ x ∈ s ∨ x ∈ ns from h t.members s
  intro ns
  induction ns with
  | nil => simp
  | cons n rest ih => intro s; grind [mem_insert]

theorem ext {s t : SymbolSet} (h : ∀ n, n ∈ s ↔ n ∈ t) : s = t := by
  suffices hl : ∀ {as bs : List Nat}, as.Pairwise (· < ·) → bs.Pairwise (· < ·) →
      (∀ n, n ∈ as ↔ n ∈ bs) → as = bs by
    cases s; cases t; congr; exact hl ‹_› ‹_› h
  intro as
  induction as with
  | nil =>
    intro bs _ _ h
    cases bs with
    | nil => rfl
    | cons b bs => exact absurd ((h b).2 List.mem_cons_self) List.not_mem_nil
  | cons a as ih =>
    intro bs ha hb h
    cases bs with
    | nil => exact absurd ((h a).1 List.mem_cons_self) List.not_mem_nil
    | cons b bs =>
      rw [List.pairwise_cons] at ha hb
      have hab : a = b := by
        have h1 := (h a).1 List.mem_cons_self
        have h2 := (h b).2 List.mem_cons_self
        rcases List.mem_cons.1 h1 with h1 | h1
        · exact h1
        · rcases List.mem_cons.1 h2 with h2 | h2
          · exact h2.symm
          · have := hb.1 a h1; have := ha.1 b h2; omega
      subst hab
      congr 1
      apply ih ha.2 hb.2
      intro n
      have hn := h n
      simp only [List.mem_cons] at hn
      constructor
      · intro hm
        rcases hn.1 (.inr hm) with rfl | hb'
        · exact absurd (ha.1 n hm) (Nat.lt_irrefl n)
        · exact hb'
      · intro hm
        rcases hn.2 (.inr hm) with rfl | ha'
        · exact absurd (hb.1 n hm) (Nat.lt_irrefl n)
        · exact ha'

end SymbolSet

end LLOne

import LLOne.SymbolSet

/-!
# Tables of sets

A table gives sets of symbols by symbol. Its entries stand in the order in which their
symbols were first entered, which tells the order in which the sets were completed.
-/

namespace LLOne

structure SetTable where
  entries : List (Nat × SymbolSet)
deriving DecidableEq

namespace SetTable

def empty : SetTable := ⟨[]⟩

instance : EmptyCollection SetTable := ⟨empty⟩

def get? (t : SetTable) (n : Nat) : Option SymbolSet := t.entries.lookup n

def get (t : SetTable) (n : Nat) : SymbolSet := (t.get? n).getD ∅

def updateEntries (n : Nat) (f : SymbolSet → SymbolSet) :
    List (Nat × SymbolSet) → List (Nat × SymbolSet)
  | [] => [(n, f ∅)]
  | (m, s) :: rest => if n = m then (m, f s) :: rest else (m, s) :: updateEntries n f rest

/-- Changes the set of a symbol; a symbol without an entry is entered last. -/
def update (t : SetTable) (n : Nat) (f : SymbolSet → SymbolSet) : SetTable :=
  ⟨updateEntries n f t.entries⟩

theorem get?_update (t : SetTable) (n m : Nat) (f : SymbolSet → SymbolSet) :
    (t.update n f).get? m = if m = n then some (f (t.get n)) else t.get? m := by
  obtain ⟨entries⟩ := t
  simp only [get, get?, update]
  induction entries with
  | nil => grind [updateEntries]
  | cons e rest ih => obtain ⟨k, s⟩ := e; grind [updateEntries]

theorem get_update (t : SetTable) (n m : Nat) (f : SymbolSet → SymbolSet) :
    (t.update n f).get m = if m = n then f (t.get n) else t.get m := by
  rw [get, get?_update]
  split <;> rfl

end SetTable

end LLOne

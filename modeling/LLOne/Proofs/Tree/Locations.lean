import LLOne.Proofs.Token
import LLOne.Tree.Basic

/-!
# Locations in trees

The location of a node covers the leaves below it. It includes whatever lies below and is covered by
what its children cover, whatever the locations of the leaves are. Where these ascend, it runs from
the first to the last of them, and the locations of the children ascend as well.
-/

namespace LLOne

open Location (Ascending)

def Forest.locations : Forest → List Location
  | nil => []
  | leaf token rest => token.location :: rest.locations
  | node id symbol label children rest =>
    (Tree.location ⟨id, symbol, label, children⟩).toList ++ rest.locations

/-- What the location of a tree says about its leaves, its children and all below them. -/
structure Tree.Located (t : Tree) : Prop where
  eq_none_iff : t.location = none ↔ t.leaves = []
  runs {first last : Token} (hf : t.leaves.head? = some first)
    (hl : t.leaves.getLast? = some last) :
    t.location = some ⟨first.location.start, last.location.stop⟩
  merged : t.location = Location.mergeAll t.children.locations
  includes_leaf {l : Location} (hl : t.location = some l) {u : Token} (hu : u ∈ t.leaves) :
    l.includes u.location = true
  includes_node {l m : Location} (hl : t.location = some l) {u : Tree}
    (hu : u ∈ t.children.nodes) (hm : u.location = some m) : l.includes m = true
  apart : t.children.locations.Pairwise fun l m => l.stop ≤ m.start

namespace Tree

variable {t : Tree}

theorem location_eq_none_iff : t.location = none ↔ t.leaves = [] := by
  rw [location, Location.mergeAll_eq_none_iff, List.map_eq_nil_iff]

theorem includes_location_iff {k l : Location} (hl : t.location = some l) :
    k.includes l = true ↔ ∀ u ∈ t.leaves, k.includes u.location = true := by
  rw [Location.includes_iff_of_mergeAll hl, List.forall_mem_map]

theorem location_eq (ht : Ascending (t.leaves.map Token.location)) {first last : Token}
    (hf : t.leaves.head? = some first) (hl : t.leaves.getLast? = some last) :
    t.location = some ⟨first.location.start, last.location.stop⟩ := by
  apply ht.mergeAll_eq
  · rw [List.head?_map, hf, Option.map_some]
  · rw [List.getLast?_map, hl, Option.map_some]

/-- What is covered starts where a leaf starts and stops where a leaf stops. -/
theorem bounds_mem_of_location (ht : Ascending (t.leaves.map Token.location)) {l : Location}
    (hl : t.location = some l) :
    l.start ∈ t.leaves.map (·.location.start) ∧ l.stop ∈ t.leaves.map (·.location.stop) := by
  have hne : t.leaves ≠ [] := by
    intro h
    rw [location_eq_none_iff.2 h] at hl
    cases hl
  have hrun := location_eq ht (List.head?_eq_some_head hne) (List.getLast?_eq_some_getLast hne)
  obtain rfl := Option.some.inj (hl.symm.trans hrun)
  exact ⟨List.mem_map.2 ⟨_, List.head_mem hne, rfl⟩, List.mem_map.2 ⟨_, List.getLast_mem hne, rfl⟩⟩

end Tree

namespace Forest

variable {f : Forest}

/-- The leaves below a node are some of the leaves in a row. -/
theorem leaves_sublist {t : Tree} (ht : t ∈ f.nodes) : t.leaves.Sublist f.leaves := by
  induction f with
  | nil => cases ht
  | leaf token rest ih => exact (ih ht).cons token
  | node id symbol label children rest ihc ih =>
    rcases List.mem_cons.1 ht with rfl | ht
    · exact List.sublist_append_left _ _
    · rcases List.mem_append.1 ht with ht | ht
      · exact (ihc ht).trans (List.sublist_append_left _ _)
      · exact (ih ht).trans (List.sublist_append_right _ _)

theorem locations_eq_nil_iff : f.locations = [] ↔ f.leaves = [] := by
  induction f with
  | nil => simp [locations, leaves]
  | leaf token rest ih => simp [locations, leaves]
  | node id symbol label children rest ihc ih =>
    simp only [locations, leaves, List.append_eq_nil_iff, ih, Option.toList_eq_nil_iff,
      Tree.location_eq_none_iff, Tree.leaves]

/-- What includes all leaves includes all that the trees and leaves side by side cover. -/
theorem includes_locations_iff {k : Location} :
    (∀ m ∈ f.locations, k.includes m = true) ↔ ∀ u ∈ f.leaves, k.includes u.location = true := by
  induction f with
  | nil => simp [locations, leaves]
  | leaf token rest ih => simp only [locations, leaves, List.forall_mem_cons, ih]
  | node id symbol label children rest ihc ih =>
    simp only [locations, leaves, List.forall_mem_append, ih]
    apply and_congr_left'
    cases hl : Tree.location ⟨id, symbol, label, children⟩ with
    | none =>
      have hempty : children.leaves = [] := Tree.location_eq_none_iff.1 hl
      simp [hempty]
    | some l =>
      rw [Option.toList_some, List.forall_mem_singleton]
      exact Tree.includes_location_iff hl

theorem bounds_mem_of_mem_locations (hf : Ascending (f.leaves.map Token.location))
    {m : Location} (hm : m ∈ f.locations) :
    m.start ∈ f.leaves.map (·.location.start) ∧ m.stop ∈ f.leaves.map (·.location.stop) := by
  induction f with
  | nil => cases hm
  | leaf token rest ih =>
    rcases List.mem_cons.1 hm with rfl | hm
    · exact ⟨List.mem_cons_self, List.mem_cons_self⟩
    · obtain ⟨hstart, hstop⟩ := ih (hf.sublist (List.sublist_cons_self _ _)) hm
      exact ⟨List.mem_cons_of_mem _ hstart, List.mem_cons_of_mem _ hstop⟩
  | node id symbol label children rest ihc ih =>
    simp only [leaves, List.map_append] at hf ⊢
    rcases List.mem_append.1 hm with hm | hm
    · obtain ⟨hstart, hstop⟩ := Tree.bounds_mem_of_location
        (hf.sublist (List.sublist_append_left _ _)) (Option.mem_toList.1 hm)
      exact ⟨List.mem_append_left _ hstart, List.mem_append_left _ hstop⟩
    · obtain ⟨hstart, hstop⟩ := ih (hf.sublist (List.sublist_append_right _ _)) hm
      exact ⟨List.mem_append_right _ hstart, List.mem_append_right _ hstop⟩

theorem pairwise_locations (hf : Ascending (f.leaves.map Token.location)) :
    f.locations.Pairwise fun l m => l.stop ≤ m.start := by
  induction f with
  | nil => exact .nil
  | leaf token rest ih =>
    have hrest := hf.sublist (List.sublist_cons_self _ _)
    refine .cons ?_ (ih hrest)
    intro m hm
    obtain ⟨u, hu, hstart⟩ := List.mem_map.1 (bounds_mem_of_mem_locations hrest hm).1
    rw [← hstart]
    exact List.rel_of_pairwise_cons hf.pairwise (List.mem_map_of_mem hu)
  | node id symbol label children rest ihc ih =>
    simp only [leaves, List.map_append] at hf
    have hchildren := hf.sublist (List.sublist_append_left _ _)
    have hrest := hf.sublist (List.sublist_append_right _ _)
    have hcross := (List.pairwise_append.1 hf.pairwise).2.2
    refine List.pairwise_append.2 ⟨?_, ih hrest, ?_⟩
    · cases Tree.location ⟨id, symbol, label, children⟩ with
      | none => exact .nil
      | some l => exact List.pairwise_singleton _ l
    · intro l hl m hm
      obtain ⟨u, hu, hstop⟩ := List.mem_map.1
        (Tree.bounds_mem_of_location (t := ⟨id, symbol, label, children⟩) hchildren
          (Option.mem_toList.1 hl)).2
      obtain ⟨v, hv, hstart⟩ := List.mem_map.1 (bounds_mem_of_mem_locations hrest hm).1
      rw [← hstop, ← hstart]
      exact hcross _ (List.mem_map_of_mem hu) _ (List.mem_map_of_mem hv)

end Forest

theorem Tree.located {t : Tree} (ht : Ascending (t.leaves.map Token.location)) : t.Located where
  eq_none_iff := location_eq_none_iff
  runs hf hl := location_eq ht hf hl
  merged := by
    apply Location.mergeAll_congr
    · rw [List.map_eq_nil_iff, Forest.locations_eq_nil_iff, leaves]
    · intro k
      rw [List.forall_mem_map, Forest.includes_locations_iff, leaves]
  includes_leaf hl u hu := Location.includes_of_mergeAll hl (List.mem_map_of_mem hu)
  includes_node hl u hu hm :=
    Location.includes_of_subset hl hm (List.map_subset _ (Forest.leaves_sublist hu).subset)
  apart := Forest.pairwise_locations ht

end LLOne

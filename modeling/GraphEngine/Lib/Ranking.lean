/-
Module: GraphEngine.Lib.Ranking
Layer: Lib
Purpose: The first k elements of a list in the order of a strict ranking, and
  how they change when one element joins the list.
Trusted boundary: none
Main exports: Ranking, topRanked, topRanked_congr, topRanked_insert
-/
import Mathlib.Data.List.Basic
import Mathlib.Data.List.Perm.Basic
import Mathlib.Data.List.Nodup

namespace GraphEngine

variable {α : Type*}

/-- A Boolean comparison that ranks any two distinct elements one way only. -/
structure Ranking (le : α → α → Bool) : Prop where
  trans : ∀ a b c, le a b → le b c → le a c
  total : ∀ a b, le a b || le b a
  antisymm : ∀ a b, le a b → le b a → a = b

/-- The first `k` elements of a list in ranking order. -/
def topRanked (le : α → α → Bool) (k : Nat) (l : List α) : List α :=
  (l.mergeSort le).take k

section

variable {le : α → α → Bool} {k : Nat} {l l' : List α}

/-- The highest ranked are a part of the ranking. -/
theorem topRanked_sublist : (topRanked le k l).Sublist (l.mergeSort le) :=
  List.take_sublist k _

/-- The highest ranked are among those ranked. -/
theorem mem_of_mem_topRanked {a : α} (member : a ∈ topRanked le k l) : a ∈ l :=
  List.mem_mergeSort.mp (topRanked_sublist.subset member)

/-- None is ranked twice. -/
theorem topRanked_nodup (distinct : l.Nodup) : (topRanked le k l).Nodup :=
  topRanked_sublist.nodup ((List.mergeSort_perm l le).nodup_iff.mpr distinct)

/-- As many as are asked for are taken, or all there are. -/
theorem length_topRanked : (topRanked le k l).length = min k l.length := by
  rw [topRanked, List.length_take, List.length_mergeSort]

/-- Asking for more elements than there are changes nothing. -/
theorem topRanked_min_length : topRanked le (min k l.length) l = topRanked le k l := by
  rw [topRanked, topRanked, List.take_eq_take_iff]
  simp

/-- A sorted list is determined by its elements. -/
theorem Ranking.mergeSort_congr (ranking : Ranking le) (perm : l.Perm l') :
    l.mergeSort le = l'.mergeSort le := by
  refine List.Perm.eq_of_pairwise (fun a b _ _ => ranking.antisymm a b)
    (List.pairwise_mergeSort ranking.trans ranking.total l)
    (List.pairwise_mergeSort ranking.trans ranking.total l') ?_
  exact (List.mergeSort_perm l le).trans (perm.trans (List.mergeSort_perm l' le).symm)

/-- The order of the list does not matter. -/
theorem topRanked_congr (ranking : Ranking le) (perm : l.Perm l') :
    topRanked le k l = topRanked le k l' := by
  rw [topRanked, topRanked, ranking.mergeSort_congr perm]

/-- A new element takes one place in the sorted list and moves nobody else. -/
theorem Ranking.mergeSort_insert (ranking : Ranking le) {a : α}
    (perm : l'.Perm (a :: l)) :
    ∃ above below, l'.mergeSort le = above ++ a :: below ∧
      l.mergeSort le = above ++ below := by
  have member : a ∈ l'.mergeSort le :=
    List.mem_mergeSort.mpr (perm.mem_iff.mpr List.mem_cons_self)
  obtain ⟨above, below, split⟩ := List.append_of_mem member
  refine ⟨above, below, split, ?_⟩
  have sorted := List.pairwise_mergeSort ranking.trans ranking.total l'
  rw [split] at sorted
  have rest : (a :: (above ++ below)).Perm (a :: l) := by
    have reordered := (List.mergeSort_perm l' le).trans perm
    rw [split] at reordered
    exact List.perm_middle.symm.trans reordered
  refine List.Perm.eq_of_pairwise (fun x y _ _ => ranking.antisymm x y)
    (List.pairwise_mergeSort ranking.trans ranking.total l) ?_ ?_
  · exact sorted.sublist ((List.sublist_cons_self a below).append_left above)
  · exact (List.mergeSort_perm l le).trans (rest.cons_inv).symm

/-- What one more element changes among the first `k`: nothing, or it enters and
displaces at most the last one. -/
theorem topRanked_insert (ranking : Ranking le) {a : α} (perm : l'.Perm (a :: l)) :
    topRanked le k l' = topRanked le k l ∨
      ∃ front back displaced, topRanked le k l' = front ++ a :: back ∧
        topRanked le k l = front ++ back ++ displaced ∧ displaced.length ≤ 1 := by
  obtain ⟨above, below, sorted', sorted⟩ := ranking.mergeSort_insert perm
  rw [topRanked, topRanked, sorted', sorted]
  rcases Nat.lt_or_ge above.length k with beyond | within
  · right
    -- the places left below the newcomer
    obtain ⟨places, rfl⟩ : ∃ places, k = above.length + (places + 1) :=
      ⟨k - above.length - 1, by omega⟩
    refine ⟨above, below.take places, (below.take (places + 1)).drop places, ?_, ?_, ?_⟩
    · rw [List.take_length_add_append, List.take_succ_cons]
    · rw [List.take_length_add_append, List.append_assoc]
      congr 1
      conv_lhs => rw [← List.take_append_drop places (below.take (places + 1))]
      rw [List.take_take]
      simp
    · simp only [List.length_drop, List.length_take]
      omega
  · left
    rw [List.take_append_of_le_length within, List.take_append_of_le_length within]

end

end GraphEngine

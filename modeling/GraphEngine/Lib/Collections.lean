/-
Module: GraphEngine.Lib.Collections
Layer: Lib
Purpose: The collection idioms of an imperative program over lists and keyed
  maps: appending what was not seen before, grouping by a key, bucketing by a
  comparison that need not be an equivalence, and collecting pairs into a map.
  Each operation comes with the lemmas that say what it keeps.
Trusted boundary: none
Main exports: mem_setFilter, appendUnseen, groupByKey, pushBucket, filterM_ok,
  collectMap
-/
import Std.Data.ExtTreeMap
import Std.Data.ExtTreeSet
import Mathlib.Algebra.Ring.Nat
import Mathlib.Data.List.Forall2
import Mathlib.Data.List.Induction
import Mathlib.Data.List.Nodup
import Mathlib.Data.List.Perm.Lattice

namespace GraphEngine

open Std (ExtTreeMap ExtTreeSet)

variable {α β κ γ ν : Type}

/-! ### Orders on wrapped keys -/

/-- Comparing injective images separates the keys. -/
theorem lawfulEqCmp_compareOn [Ord β] [Std.LawfulEqOrd β] {key : α → β}
    (injective : ∀ a b, key a = key b → a = b) : Std.LawfulEqCmp (compareOn key) where
  eq_of_compare {a b} same := injective a b (Std.LawfulEqOrd.eq_of_compare same)
  compare_self := Std.ReflOrd.compare_self

/-! ### Sets -/

section Sets

variable [Ord κ] [Std.TransOrd κ] [Std.LawfulEqOrd κ]

/-- The elements of a filtered set. -/
theorem mem_setFilter {s : ExtTreeSet κ compare} {keep : κ → Bool} {k : κ} :
    k ∈ s.filter keep ↔ k ∈ s ∧ keep k = true := by
  rw [ExtTreeSet.mem_filter]
  constructor
  · rintro ⟨member, kept⟩
    rw [ExtTreeSet.get_eq] at kept
    exact ⟨member, kept⟩
  · rintro ⟨member, kept⟩
    exact ⟨member, by rwa [ExtTreeSet.get_eq]⟩

/-- The elements of the set of a list. -/
theorem mem_setOfList [DecidableEq κ] {l : List κ} {k : κ} :
    k ∈ ExtTreeSet.ofList l compare ↔ k ∈ l := by
  rw [ExtTreeSet.mem_ofList, List.contains_iff_mem]

/-- An enumeration has the elements of the set. -/
theorem mem_setEnumeration {s : ExtTreeSet κ compare} {l : List κ}
    (perm : l.Perm s.toList) {k : κ} : k ∈ l ↔ k ∈ s := by
  rw [perm.mem_iff, ExtTreeSet.mem_toList]

end Sets

/-! ### Appending what was not seen before -/

section Unseen

variable [DecidableEq κ] (key : α → κ)

/-- Append to `kept`, in order, the elements whose key no kept element has. -/
def appendUnseen (kept : List α) : List α → List α
  | [] => kept
  | a :: rest =>
      if key a ∈ kept.map key then appendUnseen kept rest
      else appendUnseen (kept ++ [a]) rest

/-- What is kept was kept before or is new. -/
theorem mem_of_mem_appendUnseen {kept more : List α} {a : α}
    (member : a ∈ appendUnseen key kept more) : a ∈ kept ∨ a ∈ more := by
  induction more generalizing kept with
  | nil => exact .inl member
  | cons b rest inductionHypothesis =>
      rw [appendUnseen] at member
      split at member
      · exact (inductionHypothesis member).imp id (List.mem_cons_of_mem b)
      · rcases inductionHypothesis member with old | later
        · rw [List.mem_append, List.mem_singleton] at old
          exact old.imp id fun same => by rw [same]; exact List.mem_cons_self
        · exact .inr (List.mem_cons_of_mem b later)

/-- No key is lost. -/
theorem key_mem_appendUnseen {kept more : List α} {k : κ}
    (member : k ∈ kept.map key ∨ k ∈ more.map key) :
    k ∈ (appendUnseen key kept more).map key := by
  induction more generalizing kept with
  | nil => simpa [appendUnseen] using member
  | cons b rest inductionHypothesis =>
      rw [List.map_cons, List.mem_cons] at member
      rw [appendUnseen]
      split
      case isTrue seen =>
        refine inductionHypothesis ?_
        rcases member with old | rfl | later
        · exact .inl old
        · exact .inl seen
        · exact .inr later
      case isFalse =>
        refine inductionHypothesis ?_
        rcases member with old | rfl | later
        · exact .inl (by simp [old])
        · exact .inl (by simp)
        · exact .inr later

/-- With a faithful key nothing is lost but copies. -/
theorem mem_appendUnseen {kept more : List α}
    (faithful : ∀ a b, key a = key b → a = b) {a : α} :
    a ∈ appendUnseen key kept more ↔ a ∈ kept ∨ a ∈ more := by
  refine ⟨mem_of_mem_appendUnseen key, fun member => ?_⟩
  have keyMember : key a ∈ (appendUnseen key kept more).map key :=
    key_mem_appendUnseen key (member.imp List.mem_map_of_mem List.mem_map_of_mem)
  obtain ⟨b, bMember, sameKey⟩ := List.mem_map.mp keyMember
  rwa [← faithful b a sameKey]

/-- Elements of different keys stay so. -/
theorem nodup_appendUnseen {kept more : List α} (distinct : (kept.map key).Nodup) :
    ((appendUnseen key kept more).map key).Nodup := by
  induction more generalizing kept with
  | nil => exact distinct
  | cons b rest inductionHypothesis =>
      rw [appendUnseen]
      split
      case isTrue => exact inductionHypothesis distinct
      case isFalse unseen =>
        refine inductionHypothesis ?_
        rw [List.map_append, List.map_singleton]
        exact distinct.append (List.nodup_singleton _) (by simpa using unseen)

/-- Appending in two goes is appending at once. -/
theorem appendUnseen_append (kept more later : List α) :
    appendUnseen key (appendUnseen key kept more) later = appendUnseen key kept
      (more ++ later) := by
  induction more generalizing kept with
  | nil => rfl
  | cons a rest inductionHypothesis =>
      rw [List.cons_append, appendUnseen, appendUnseen]
      split
      · exact inductionHypothesis kept
      · exact inductionHypothesis (kept ++ [a])

/-- With a faithful key exactly one copy of every element is kept. -/
theorem count_appendUnseen [DecidableEq α] (faithful : ∀ a b, key a = key b → a = b)
    (more : List α) (a : α) :
    (appendUnseen key [] more).count a = if a ∈ more then 1 else 0 := by
  have nothing : (([] : List α).map key).Nodup := List.nodup_nil
  have distinct : (appendUnseen key [] more).Nodup :=
    (nodup_appendUnseen key nothing).of_map key
  have member : a ∈ appendUnseen key [] more ↔ a ∈ more := by
    simp [mem_appendUnseen key faithful]
  rw [distinct.count]
  simp only [member]

end Unseen

/-! ### Grouping by a key -/

section Groups

variable [Ord κ] [Std.TransOrd κ] [Std.LawfulEqOrd κ] [DecidableEq κ]

/-- Push onto the group of `k`, creating it when there is none. -/
def pushGroup (groups : ExtTreeMap κ (List α) compare) (k : κ) (a : α) :
    ExtTreeMap κ (List α) compare :=
  groups.alter k fun group => some (group.getD [] ++ [a])

/-- What a fold of changes leaves in a slot is what the changes of that slot
make of it. -/
theorem getElem?_foldl_alter (slot : α → κ) (change : α → Option ν → Option ν)
    (l : List α) (m : ExtTreeMap κ ν compare) (k : κ) :
    (l.foldl (fun m a => m.alter (slot a) (change a)) m)[k]? =
      (l.filter fun a => slot a = k).foldl (fun found a => change a found) m[k]? := by
  induction l generalizing m with
  | nil => rfl
  | cons a rest inductionHypothesis =>
      rw [List.foldl_cons, inductionHypothesis, Std.ExtTreeMap.getElem?_alter]
      by_cases same : slot a = k
      · subst same
        simp
      · have distinct : compare (slot a) k ≠ .eq :=
          fun equal => same (Std.LawfulEqOrd.eq_of_compare equal)
        simp [same, distinct]

/-- Group a list by a key, in list order inside each group. -/
def groupByKey (key : α → κ) (l : List α) : ExtTreeMap κ (List α) compare :=
  l.foldl (fun groups a => pushGroup groups (key a) a) ∅

/-- What a fold of pushes puts under a key: the elements with that key, in
order, behind those that were there. -/
theorem getElem?_foldl_pushGroup (key : α → κ) (l : List α)
    (groups : ExtTreeMap κ (List α) compare) (k : κ) :
    (l.foldl (fun groups a => pushGroup groups (key a) a) groups)[k]? =
      if l.filter (fun a => key a = k) = [] then groups[k]?
      else some (groups[k]?.getD [] ++ l.filter fun a => key a = k) := by
  induction l generalizing groups with
  | nil => simp
  | cons a rest inductionHypothesis =>
      rw [List.foldl_cons, inductionHypothesis, pushGroup, Std.ExtTreeMap.getElem?_alter]
      by_cases same : key a = k
      · subst same
        by_cases empty : rest.filter (fun b => key b = key a) = []
        · simp [empty]
        · simp [empty]
      · have distinct : compare (key a) k ≠ .eq :=
          fun equal => same (Std.LawfulEqOrd.eq_of_compare equal)
        simp [same, distinct]

/-- The group of `k` is the sublist with that key; empty groups do not exist. -/
theorem getElem?_groupByKey (key : α → κ) (l : List α) (k : κ) :
    (groupByKey key l)[k]? =
      if l.filter (fun a => key a = k) = [] then none
      else some (l.filter fun a => key a = k) := by
  rw [groupByKey, getElem?_foldl_pushGroup]
  simp

/-- A group is the elements with its key, and there is one if there are any. -/
theorem mem_toList_groupByKey {key : α → κ} {l : List α} {entry : κ × List α} :
    entry ∈ (groupByKey key l).toList ↔
      entry.2 = l.filter (fun a => key a = entry.1) ∧ entry.2 ≠ [] := by
  obtain ⟨k, group⟩ := entry
  rw [Std.ExtTreeMap.mem_toList_iff_getElem?_eq_some, getElem?_groupByKey]
  by_cases empty : l.filter (fun a => key a = k) = []
  · rw [if_pos empty]
    constructor
    · intro impossible; cases impossible
    · rintro ⟨same, nonempty⟩
      exact absurd (same.trans empty) nonempty
  · rw [if_neg empty, Option.some.injEq]
    exact ⟨fun same => ⟨same.symm, fun nil => empty (same.trans nil)⟩,
      fun both => both.1.symm⟩

omit [DecidableEq κ] in
/-- A map lists every key once. -/
theorem keys_nodup_toList (m : ExtTreeMap κ ν compare) :
    (m.toList.map Prod.fst).Nodup := by
  have distinct := m.distinct_keys_toList
  rw [List.Nodup, List.pairwise_map]
  refine distinct.imp fun {a b} apart same => ?_
  rw [same] at apart
  exact apart Std.ReflOrd.compare_self

omit [DecidableEq κ] in
/-- The keys of a map are those of a larger one that it has, in the same order. -/
theorem filter_keys {ν' : Type} {m : ExtTreeMap κ ν compare}
    {m' : ExtTreeMap κ ν' compare} (sub : ∀ k ∈ m, k ∈ m') :
    m'.keys.filter (fun k => decide (k ∈ m)) = m.keys := by
  have ordered : m.keys.Pairwise fun a b => compare a b = .lt := m.ordered_keys
  have ordered' : (m'.keys.filter fun k => decide (k ∈ m)).Pairwise fun a b =>
      compare a b = .lt :=
    m'.ordered_keys.filter _
  have distinct (l : List κ)
      (sorted : l.Pairwise fun a b => compare a b = .lt) : l.Nodup := by
    apply sorted.imp
    rintro a _ before rfl
    rw [Std.ReflOrd.compare_self] at before
    cases before
  apply List.Perm.eq_of_pairwise _ ordered' ordered
  · rw [List.perm_ext_iff_of_nodup (distinct _ ordered') (distinct _ ordered)]
    intro k
    rw [List.mem_filter, Std.ExtTreeMap.mem_keys, Std.ExtTreeMap.mem_keys,
      decide_eq_true_eq]
    exact ⟨And.right, fun member => ⟨sub k member, member⟩⟩
  · intro a b _ _ before after
    have swapped : compare a b = (compare b a).swap := Std.OrientedCmp.eq_swap
    rw [swapped, after] at before
    cases before

omit [DecidableEq κ] in
/-- A map with the keys of a list without duplicates has its length. -/
theorem size_eq_length {m : ExtTreeMap κ ν compare} {keys : List κ}
    (distinct : keys.Nodup) (sameKeys : ∀ k, k ∈ m ↔ k ∈ keys) :
    m.size = keys.length := by
  have perm : (m.toList.map Prod.fst).Perm keys := by
    apply (List.perm_ext_iff_of_nodup (keys_nodup_toList m) distinct).mpr
    intro k
    rw [← sameKeys, List.mem_map]
    constructor
    · rintro ⟨entry, listed, rfl⟩
      rw [ExtTreeMap.mem_iff_isSome_getElem?,
        ExtTreeMap.mem_toList_iff_getElem?_eq_some.mp listed]
      rfl
    · intro member
      exact ⟨(k, m[k]), ExtTreeMap.mem_toList_iff_getElem?_eq_some.mpr (by simp), rfl⟩
  rw [← perm.length_eq, List.length_map, ExtTreeMap.length_toList]

omit [Ord κ] [Std.TransOrd κ] [Std.LawfulEqOrd κ] in
/-- Cutting a list by distinct keys and gluing the pieces keeps every element
with such a key once. -/
theorem flatMap_filter_key_perm (key : α → κ) (l : List α) (keys : List κ)
    (distinct : keys.Nodup) :
    (keys.flatMap fun k => l.filter fun a => key a = k).Perm
      (l.filter fun a => key a ∈ keys) := by
  induction keys with
  | nil => simp
  | cons k keys inductionHypothesis =>
      have fresh : k ∉ keys := (List.nodup_cons.mp distinct).1
      have rest := inductionHypothesis (List.nodup_cons.mp distinct).2
      rw [List.flatMap_cons]
      refine (rest.append_left _).trans ?_
      have here : l.filter (fun a => key a = k) =
          (l.filter fun a => key a ∈ k :: keys).filter fun a => key a = k := by
        rw [List.filter_filter]
        refine List.filter_congr fun a _ => ?_
        by_cases same : key a = k <;> simp [same]
      have there : l.filter (fun a => key a ∈ keys) =
          (l.filter fun a => key a ∈ k :: keys).filter fun a => !decide (key a = k) := by
        rw [List.filter_filter]
        refine List.filter_congr fun a _ => ?_
        by_cases same : key a = k
        · simp [same, fresh]
        · simp [same]
      rw [here, there]
      exact List.filter_append_perm _ _

omit [Ord κ] [Std.TransOrd κ] [Std.LawfulEqOrd κ] [DecidableEq κ] in
/-- The pieces of a list that is cut by a number below a bound are together as
long as the list. -/
theorem sum_length_filter (piece : α → Nat) (bound : Nat)
    (bounded : ∀ a, piece a < bound) (l : List α) :
    ((List.range bound).map fun p => (l.filter fun a => piece a = p).length).sum =
      l.length := by
  have covered : (l.filter fun a => piece a ∈ List.range bound) = l := by
    apply List.filter_eq_self.mpr
    intro a _
    exact decide_eq_true (List.mem_range.mpr (bounded a))
  have glued := flatMap_filter_key_perm piece l (List.range bound) List.nodup_range
  rw [covered] at glued
  rw [← glued.length_eq, List.length_flatMap]

/-- The groups, in any order, glue back to the list. -/
theorem flatMap_groupByKey_perm (key : α → κ) (l : List α) :
    ((groupByKey key l).toList.flatMap Prod.snd).Perm l := by
  have pieces : (groupByKey key l).toList.flatMap Prod.snd =
      ((groupByKey key l).toList.map Prod.fst).flatMap fun k => l.filter fun a =>
        key a = k := by
    rw [List.flatMap_map]
    refine List.flatMap_congr fun entry member => ?_
    exact (mem_toList_groupByKey.mp member).1
  have covered :
      l.filter (fun a => key a ∈ (groupByKey key l).toList.map Prod.fst) = l := by
    refine List.filter_eq_self.mpr fun a member => ?_
    have nonempty : l.filter (fun b => key b = key a) ≠ [] := by
      refine List.ne_nil_of_mem (List.mem_filter.mpr ⟨member, ?_⟩)
      simp
    have entry : (key a, l.filter fun b => key b = key a) ∈ (groupByKey key l).toList :=
      mem_toList_groupByKey.mpr ⟨rfl, nonempty⟩
    exact decide_eq_true (List.mem_map_of_mem (f := Prod.fst) entry)
  rw [pieces]
  have glued := flatMap_filter_key_perm key l _ (keys_nodup_toList (groupByKey key l))
  rwa [covered] at glued

end Groups

/-! ### Bucketing by a comparison -/

section Buckets

variable (same : γ → γ → Bool)

/-- Push onto the first bucket whose label compares equal, or open a bucket at
the end. -/
def pushBucket (label : γ) (a : α) : List (γ × List α) → List (γ × List α)
  | [] => [(label, [a])]
  | (other, bucket) :: rest =>
      if same other label then (other, bucket ++ [a]) :: rest
      else (other, bucket) :: pushBucket label a rest

/-- Nothing is lost or copied by a push. -/
theorem flatMap_pushBucket_perm (label : γ) (a : α) (buckets : List (γ × List α)) :
    ((pushBucket same label a buckets).flatMap Prod.snd).Perm
      (buckets.flatMap Prod.snd ++ [a]) := by
  induction buckets with
  | nil => simp [pushBucket]
  | cons head rest inductionHypothesis =>
      obtain ⟨other, bucket⟩ := head
      rw [pushBucket]
      split
      · simp only [List.flatMap_cons, List.append_assoc]
        exact List.perm_append_comm.append_left bucket
      · simp only [List.flatMap_cons, List.append_assoc]
        exact inductionHypothesis.append_left bucket

/-- Whatever relates a label to the elements pushed under labels comparing equal
to it survives a push. -/
theorem forall_pushBucket {F : γ → α → Prop} {label : γ} {a : α}
    {buckets : List (γ × List α)}
    (old : ∀ entry ∈ buckets, ∀ b ∈ entry.2, F entry.1 b) (fresh : F label a)
    (joins : ∀ other, same other label = true → F other a) :
    ∀ entry ∈ pushBucket same label a buckets, ∀ b ∈ entry.2, F entry.1 b := by
  induction buckets with
  | nil =>
      intro entry member b inBucket
      rw [pushBucket, List.mem_singleton] at member
      subst member
      rw [List.mem_singleton] at inBucket
      subst inBucket
      exact fresh
  | cons head rest inductionHypothesis =>
      obtain ⟨other, bucket⟩ := head
      have oldRest : ∀ entry ∈ rest, ∀ b ∈ entry.2, F entry.1 b :=
        fun entry member => old entry (List.mem_cons_of_mem _ member)
      intro entry member
      rw [pushBucket] at member
      split at member
      case isTrue equal =>
        rcases List.mem_cons.mp member with rfl | later
        · intro b inBucket
          rcases List.mem_append.mp inBucket with before | pushed
          · exact old _ List.mem_cons_self b before
          · rw [List.mem_singleton] at pushed
            subst pushed
            exact joins other equal
        · exact oldRest entry later
      case isFalse =>
        rcases List.mem_cons.mp member with rfl | later
        · exact old _ List.mem_cons_self
        · exact inductionHypothesis oldRest entry later

end Buckets

/-! ### Filtering by a test that may fail -/

section FilterM

variable {Err : Type} {test : α → Except Err Bool}

/-- Where every test returns, the elements that pass are put in front of those
kept. -/
theorem filterAuxM_ok {keep : α → Bool} {l : List α}
    (each : ∀ a ∈ l, test a = .ok (keep a)) (kept : List α) :
    l.filterAuxM test kept = .ok ((l.filter keep).reverse ++ kept) := by
  induction l generalizing kept with
  | nil => rfl
  | cons a rest inductionHypothesis =>
      have later := inductionHypothesis fun b member =>
        each b (List.mem_cons_of_mem a member)
      rw [List.filterAuxM, each a List.mem_cons_self]
      refine (later _).trans ?_
      cases holds : keep a <;> simp [holds]

/-- A test that never fails filters as its result does. -/
theorem filterM_ok {keep : α → Bool} {l : List α}
    (each : ∀ a ∈ l, test a = .ok (keep a)) :
    l.filterM test = .ok (l.filter keep) := by
  rw [List.filterM, filterAuxM_ok each]
  simp [bind, Except.bind, pure, Except.pure]

/-- What is kept was kept before or comes from the list. -/
theorem mem_of_mem_filterAuxM {l kept out : List α}
    (ends : l.filterAuxM test kept = .ok out) {a : α} (member : a ∈ out) :
    a ∈ kept ∨ a ∈ l := by
  induction l generalizing kept with
  | nil =>
      cases ends
      exact .inl member
  | cons b rest inductionHypothesis =>
      rw [List.filterAuxM] at ends
      cases tested : test b with
      | error e =>
          rw [tested] at ends
          cases ends
      | ok holds =>
          rw [tested] at ends
          cases inductionHypothesis ends with
          | inr later => exact .inr (List.mem_cons_of_mem b later)
          | inl early =>
              cases holds with
              | false => exact .inl early
              | true =>
                  cases List.mem_cons.mp early with
                  | inl same => exact .inr (same ▸ List.mem_cons_self)
                  | inr old => exact .inl old

/-- A filtering that ends has tested every element. -/
theorem tested_of_filterAuxM {l kept out : List α}
    (ends : l.filterAuxM test kept = .ok out) {a : α} (member : a ∈ l) :
    ∃ holds, test a = .ok holds := by
  induction l generalizing kept with
  | nil => cases member
  | cons b rest inductionHypothesis =>
      rw [List.filterAuxM] at ends
      cases tested : test b with
      | error e =>
          rw [tested] at ends
          cases ends
      | ok holds =>
          rw [tested] at ends
          rcases List.mem_cons.mp member with rfl | later
          · exact ⟨holds, tested⟩
          · exact inductionHypothesis ends later

/-- A filter that ends has tested every element. -/
theorem tested_of_filterM {l out : List α} (ends : l.filterM test = .ok out) {a : α}
    (member : a ∈ l) : ∃ holds, test a = .ok holds := by
  rw [List.filterM] at ends
  cases filtered : l.filterAuxM test [] with
  | error e =>
      rw [filtered] at ends
      cases ends
  | ok reversed => exact tested_of_filterAuxM filtered member

/-- Nothing is added by filtering. -/
theorem mem_of_mem_filterM {l out : List α} (ends : l.filterM test = .ok out)
    {a : α} (member : a ∈ out) : a ∈ l := by
  rw [List.filterM] at ends
  cases filtered : l.filterAuxM test [] with
  | error e =>
      rw [filtered] at ends
      cases ends
  | ok reversed =>
      rw [filtered] at ends
      cases ends
      rw [List.mem_reverse] at member
      exact (mem_of_mem_filterAuxM filtered member).resolve_left List.not_mem_nil

end FilterM

/-! ### Collecting pairs into a map -/

section CollectMap

variable [Ord κ] [Std.TransOrd κ]

/-- Insert the pairs one after the other: a later pair replaces an earlier one
with its key. -/
def collectMap (pairs : List (κ × ν)) : ExtTreeMap κ ν compare :=
  pairs.foldl (fun m pair => m.insert pair.1 pair.2) ∅

/-- The last pair of a key stays. -/
theorem collectMap_append_singleton (pairs : List (κ × ν)) (pair : κ × ν) :
    collectMap (pairs ++ [pair]) = (collectMap pairs).insert pair.1 pair.2 := by
  simp [collectMap]

/-- Insert a pair, if there is one. -/
def insertSome (m : ExtTreeMap κ ν compare) : Option (κ × ν) → ExtTreeMap κ ν compare
  | some pair => m.insert pair.1 pair.2
  | none => m

/-- One more element is one more insertion, or none. -/
theorem collectMap_filterMap_append {α : Type} (pairOf : α → Option (κ × ν))
    (l : List α) (a : α) :
    collectMap ((l ++ [a]).filterMap pairOf) =
      insertSome (collectMap (l.filterMap pairOf)) (pairOf a) := by
  rw [List.filterMap_append]
  cases found : pairOf a with
  | none =>
      rw [List.filterMap_cons_none found, List.filterMap_nil, List.append_nil]
      rfl
  | some pair =>
      rw [List.filterMap_cons_some found, List.filterMap_nil, collectMap_append_singleton]
      rfl

/-- Pairs with the same keys and related values are collected into maps with
related lookups. -/
theorem collectMap_rel {ν' : Type} {R : ν → ν' → Prop} {key : α → κ} {value : α → ν}
    {value' : α → ν'} {l : List α} (related : ∀ a ∈ l, R (value a) (value' a))
    (k : κ) :
    Option.Rel R (collectMap (l.map fun a => (key a, value a)))[k]?
      (collectMap (l.map fun a => (key a, value' a)))[k]? := by
  induction l using List.reverseRecOn with
  | nil => exact .none
  | append_singleton l a inductionHypothesis =>
      rw [List.map_append, List.map_append, List.map_singleton, List.map_singleton,
        collectMap_append_singleton, collectMap_append_singleton,
        Std.ExtTreeMap.getElem?_insert, Std.ExtTreeMap.getElem?_insert]
      by_cases same : compare (key a) k = .eq
      · rw [if_pos same, if_pos same]
        exact .some (related a (List.mem_append_right _ List.mem_cons_self))
      · rw [if_neg same, if_neg same]
        exact inductionHypothesis fun b member =>
          related b (List.mem_append_left _ member)

variable [Std.LawfulEqOrd κ]

/-- What a collected map has is among the pairs. -/
theorem mem_of_getElem?_collectMap {pairs : List (κ × ν)} {k : κ} {v : ν}
    (found : (collectMap pairs)[k]? = some v) : (k, v) ∈ pairs := by
  induction pairs using List.reverseRecOn with
  | nil => simp [collectMap] at found
  | append_singleton pairs pair inductionHypothesis =>
      rw [collectMap_append_singleton, Std.ExtTreeMap.getElem?_insert] at found
      split at found
      case isTrue same =>
        have keyEq : pair.1 = k := Std.LawfulEqOrd.eq_of_compare same
        cases found
        rw [← keyEq]
        exact List.mem_append_right _ List.mem_cons_self
      case isFalse => exact List.mem_append_left _ (inductionHypothesis found)

/-- A collected map has the keys of the pairs. -/
theorem getElem?_collectMap_isSome {pairs : List (κ × ν)} {k : κ} :
    ((collectMap pairs)[k]?).isSome ↔ k ∈ pairs.map Prod.fst := by
  induction pairs using List.reverseRecOn with
  | nil => simp [collectMap]
  | append_singleton pairs pair inductionHypothesis =>
      rw [collectMap_append_singleton, Std.ExtTreeMap.getElem?_insert,
        List.map_append, List.mem_append]
      split
      case isTrue same =>
        have keyEq : pair.1 = k := Std.LawfulEqOrd.eq_of_compare same
        simp [keyEq]
      case isFalse distinct =>
        have keyNe : k ≠ pair.1 :=
          fun same => distinct (by rw [same]; exact Std.ReflOrd.compare_self)
        rw [inductionHypothesis]
        simp [keyNe]

/-- When all pairs of a key carry one value, collecting loses nothing. -/
theorem getElem?_collectMap_of_agree {pairs : List (κ × ν)} {k : κ} {v : ν}
    (member : (k, v) ∈ pairs) (agree : ∀ w, (k, w) ∈ pairs → w = v) :
    (collectMap pairs)[k]? = some v := by
  have present : ((collectMap pairs)[k]?).isSome :=
    getElem?_collectMap_isSome.mpr (List.mem_map_of_mem (f := Prod.fst) member)
  obtain ⟨w, found⟩ := Option.isSome_iff_exists.mp present
  rw [found, agree w (mem_of_getElem?_collectMap found)]

/-- Collecting what a lookup finds for a list of keys. -/
theorem getElem?_collectMap_lookup [DecidableEq κ] (find : κ → Option ν)
    (keys : List κ) (k : κ) :
    (collectMap (keys.filterMap fun k => (find k).map fun v => (k, v)))[k]? =
      if k ∈ keys then find k else none := by
  have pairs : ∀ v, (k, v) ∈ (keys.filterMap fun k => (find k).map fun v => (k, v)) ↔
      k ∈ keys ∧ find k = some v := by
    intro v
    rw [List.mem_filterMap]
    constructor
    · rintro ⟨other, member, same⟩
      obtain ⟨w, found, equal⟩ := Option.map_eq_some_iff.mp same
      cases equal
      exact ⟨member, found⟩
    · rintro ⟨member, found⟩
      exact ⟨k, member, by rw [found]; rfl⟩
  apply Option.ext
  intro v
  rw [Option.ite_none_right_eq_some]
  constructor
  · intro found
    exact (pairs v).mp (mem_of_getElem?_collectMap found)
  · intro listed
    apply getElem?_collectMap_of_agree ((pairs v).mpr listed)
    intro w other
    have foundW := ((pairs w).mp other).2
    rw [listed.2] at foundW
    exact (Option.some.inj foundW).symm

/-- With distinct keys a map collected from pairs holds exactly the pairs. -/
theorem getElem?_collectMap_iff {pairs : List (κ × ν)}
    (distinct : (pairs.map Prod.fst).Nodup) {k : κ} {v : ν} :
    (collectMap pairs)[k]? = some v ↔ (k, v) ∈ pairs := by
  refine ⟨mem_of_getElem?_collectMap, fun member =>
    getElem?_collectMap_of_agree member ?_⟩
  intro w other
  have samePair := List.inj_on_of_nodup_map distinct other member rfl
  exact congrArg Prod.snd samePair

/-- With distinct keys a map collected from pairs is as large as their list. -/
theorem size_collectMap [DecidableEq κ] {pairs : List (κ × ν)}
    (distinct : (pairs.map Prod.fst).Nodup) :
    (collectMap pairs).size = pairs.length := by
  have sameKeys : ∀ k, k ∈ collectMap pairs ↔ k ∈ pairs.map Prod.fst := by
    intro k
    rw [ExtTreeMap.mem_iff_isSome_getElem?, getElem?_collectMap_isSome]
  rw [size_eq_length distinct sameKeys, List.length_map]

end CollectMap

/-- With distinct keys a search by key finds the one element that has it. -/
theorem find?_key_iff {α : Type} [DecidableEq κ] {key : α → κ} {l : List α}
    (distinct : (l.map key).Nodup) {k : κ} {a : α} :
    (l.find? fun b => key b = k) = some a ↔ a ∈ l ∧ key a = k := by
  constructor
  · intro found
    have isKey := List.find?_some found
    exact ⟨List.mem_of_find?_eq_some found, of_decide_eq_true isKey⟩
  · rintro ⟨member, rfl⟩
    have some_ : (l.find? fun b => key b = key a).isSome :=
      List.find?_isSome.mpr ⟨a, member, decide_eq_true rfl⟩
    obtain ⟨b, found⟩ := Option.isSome_iff_exists.mp some_
    have isKey := List.find?_some found
    have same : b = a :=
      List.inj_on_of_nodup_map distinct (List.mem_of_find?_eq_some found) member
        (of_decide_eq_true isKey)
    rw [found, same]

/-! ### Partial maps over lists -/

section Fallible

variable {ε : Type}

/-- A sequence succeeds exactly where both parts do. -/
theorem bind_eq_ok_iff {f : α → Except ε β} {x : Except ε α} {b : β} :
    x >>= f = .ok b ↔ ∃ a, x = .ok a ∧ f a = .ok b := by
  cases x <;> simp [Bind.bind, Except.bind]

/-- Renaming errors leaves values alone. -/
theorem mapError_eq_ok_iff {ε' : Type} {f : ε → ε'} {x : Except ε α} {a : α} :
    x.mapError f = .ok a ↔ x = .ok a := by
  cases x <;> simp [Except.mapError]

/-- A mapped result succeeds exactly where the result does. -/
theorem map_eq_ok_iff {f : α → β} {x : Except ε α} {b : β} :
    x.map f = .ok b ↔ ∃ a, x = .ok a ∧ f a = b := by
  cases x <;> simp [Except.map]

end Fallible

/-- Mapping a partial function succeeds exactly when it does on every element. -/
theorem mapM_eq_some_iff {f : α → Option β} {l : List α} {out : List β} :
    l.mapM f = some out ↔ List.Forall₂ (fun a b => f a = some b) l out := by
  induction l generalizing out with
  | nil => simp [eq_comm]
  | cons a rest inductionHypothesis =>
      rw [List.mapM_cons, List.forall₂_cons_left_iff]
      cases found : f a with
      | none => simp
      | some b =>
          simp only [Option.pure_def, Option.bind_eq_bind, Option.bind_some,
            Option.bind_eq_some_iff, Option.some.injEq, inductionHypothesis,
            exists_and_left]
          constructor
          · rintro ⟨later, related, rfl⟩
            exact ⟨b, rfl, later, related, rfl⟩
          · rintro ⟨_, rfl, later, related, rfl⟩
            exact ⟨later, related, rfl⟩

/-- Mapping a fallible function succeeds exactly when it does on every element. -/
theorem mapM_eq_ok_iff {ε : Type} {f : α → Except ε β} {l : List α} {out : List β} :
    l.mapM f = .ok out ↔ List.Forall₂ (fun a b => f a = .ok b) l out := by
  induction l generalizing out with
  | nil => simp [pure, Except.pure, eq_comm]
  | cons a rest inductionHypothesis =>
      rw [List.mapM_cons, List.forall₂_cons_left_iff]
      cases found : f a with
      | error e => simp [bind, Except.bind]
      | ok b =>
          constructor
          · intro mapped
            cases later : rest.mapM f with
            | error e =>
                rw [later] at mapped
                cases mapped
            | ok more =>
                rw [later] at mapped
                cases mapped
                exact ⟨b, more, rfl, inductionHypothesis.mp later, rfl⟩
          · rintro ⟨_, more, ⟨⟩, related, rfl⟩
            rw [inductionHypothesis.mpr related]
            rfl

/-- A mapping that fails does so at an element. -/
theorem exists_error_of_mapM {ε : Type} {f : α → Except ε β} {l : List α} {e : ε}
    (fails : l.mapM f = .error e) : ∃ a ∈ l, f a = .error e := by
  induction l with
  | nil => cases fails
  | cons a rest inductionHypothesis =>
      rw [List.mapM_cons] at fails
      cases found : f a with
      | error other =>
          rw [found] at fails
          cases fails
          exact ⟨a, List.mem_cons_self, found⟩
      | ok b =>
          rw [found] at fails
          cases later : rest.mapM f with
          | ok more =>
              rw [later] at fails
              cases fails
          | error other =>
              rw [later] at fails
              cases fails
              obtain ⟨culprit, member, error⟩ := inductionHypothesis later
              exact ⟨culprit, List.mem_cons_of_mem a member, error⟩

/-- Each step of a loop that succeeds did. -/
theorem step_of_foldlM_ok {ε : Type} {body : β → α → Except ε β} {l : List α}
    {start last : β} (ends : l.foldlM body start = .ok last) :
    ∀ a ∈ l, ∃ before after, body before a = .ok after := by
  induction l generalizing start with
  | nil => simp
  | cons a rest inductionHypothesis =>
      rw [List.foldlM_cons] at ends
      cases step : body start a with
      | error e =>
          rw [step] at ends
          cases ends
      | ok next =>
          rw [step] at ends
          intro b member
          cases List.mem_cons.mp member with
          | inl same => exact ⟨start, next, same ▸ step⟩
          | inr later => exact inductionHypothesis ends b later

/-- Loops whose steps agree on the elements of a list do the same. -/
theorem foldlM_congr_mem {m : Type → Type} [Monad m] {body body' : β → α → m β}
    {l : List α} {start : β} (agree : ∀ a ∈ l, ∀ acc, body acc a = body' acc a) :
    l.foldlM body start = l.foldlM body' start := by
  induction l generalizing start with
  | nil => rfl
  | cons a rest inductionHypothesis =>
      rw [List.foldlM_cons, List.foldlM_cons, agree a List.mem_cons_self]
      congr
      funext next
      exact inductionHypothesis fun other member =>
        agree other (List.mem_cons_of_mem a member)

/-- Two relations that agree on the elements of a list relate it to the same
lists. -/
theorem forall₂_congr {R S : α → β → Prop} {l : List α}
    (agree : ∀ a ∈ l, ∀ b, R a b ↔ S a b) {out : List β} :
    List.Forall₂ R l out ↔ List.Forall₂ S l out := by
  induction l generalizing out with
  | nil => simp
  | cons a rest inductionHypothesis =>
      simp only [List.forall₂_cons_left_iff, agree a List.mem_cons_self,
        inductionHypothesis fun other member =>
          agree other (List.mem_cons_of_mem a member)]

/-- Elements that each have a partner have a list of partners. -/
theorem exists_forall₂ {R : α → β → Prop} {l : List α} (each : ∀ a ∈ l, ∃ b, R a b) :
    ∃ out, List.Forall₂ R l out := by
  induction l with
  | nil => exact ⟨[], .nil⟩
  | cons a rest inductionHypothesis =>
      obtain ⟨b, related⟩ := each a List.mem_cons_self
      obtain ⟨out, later⟩ := inductionHypothesis fun other member =>
        each other (List.mem_cons_of_mem a member)
      exact ⟨b :: out, .cons related later⟩

/-- Partners of related lists. -/
theorem forall₂_partner {R : α → β → Prop} {l : List α} {out : List β}
    (related : List.Forall₂ R l out) :
    (∀ b ∈ out, ∃ a ∈ l, R a b) ∧ ∀ a ∈ l, ∃ b ∈ out, R a b := by
  induction related with
  | nil => simp
  | cons head _ inductionHypothesis =>
      obtain ⟨left, right⟩ := inductionHypothesis
      constructor
      · intro b member
        rcases List.mem_cons.mp member with rfl | later
        · exact ⟨_, List.mem_cons_self, head⟩
        · obtain ⟨a, inRest, found⟩ := left b later
          exact ⟨a, List.mem_cons_of_mem _ inRest, found⟩
      · intro a member
        rcases List.mem_cons.mp member with rfl | later
        · exact ⟨_, List.mem_cons_self, head⟩
        · obtain ⟨b, inRest, found⟩ := right a later
          exact ⟨b, List.mem_cons_of_mem _ inRest, found⟩

/-- What the partners of a list hold together. -/
theorem mem_flatten_partners {Y : α → β → Prop} {l : List α} {pieces : List (List β)}
    (related : List.Forall₂ (fun a piece => ∀ b, b ∈ piece ↔ Y a b) l pieces) {b : β} :
    b ∈ pieces.flatten ↔ ∃ a ∈ l, Y a b := by
  obtain ⟨left, right⟩ := forall₂_partner related
  rw [List.mem_flatten]
  constructor
  · rintro ⟨piece, listed, member⟩
    obtain ⟨a, inList, here⟩ := left piece listed
    exact ⟨a, inList, (here b).mp member⟩
  · rintro ⟨a, inList, holds⟩
    obtain ⟨piece, listed, here⟩ := right a inList
    exact ⟨piece, listed, (here b).mpr holds⟩

/-- What the partners of distinct elements hold together is distinct when each
piece is and no two pieces meet. -/
theorem nodup_flatten_partners {Y : α → β → Prop} {D : α → Prop} {l : List α}
    {pieces : List (List β)}
    (related : List.Forall₂
      (fun a piece => (∀ b, b ∈ piece ↔ Y a b) ∧ (piece.Nodup ↔ D a)) l pieces)
    (distinct : l.Nodup) : pieces.flatten.Nodup ↔
      (∀ a ∈ l, D a) ∧ ∀ a ∈ l, ∀ a' ∈ l, a ≠ a' → ∀ b, Y a b → ¬ Y a' b := by
  induction related with
  | nil => simp
  | @cons a piece rest more head tail inductionHypothesis =>
      obtain ⟨fresh, distinctRest⟩ := List.nodup_cons.mp distinct
      have inMore : ∀ b, b ∈ more.flatten ↔ ∃ a' ∈ rest, Y a' b :=
        fun b => mem_flatten_partners (tail.imp fun _ _ both => both.1)
      rw [List.flatten_cons, List.nodup_append, inductionHypothesis distinctRest, head.2]
      constructor
      · rintro ⟨here, ⟨each, apart⟩, separate⟩
        have apartHere : ∀ a' ∈ rest, ∀ b, Y a b → ¬ Y a' b :=
          fun a' member b holds holds' =>
          separate b ((head.1 b).mpr holds) b ((inMore b).mpr ⟨a', member, holds'⟩) rfl
        refine ⟨List.forall_mem_cons.mpr ⟨here, each⟩, ?_⟩
        intro c cMember c' cMember' different b holds holds'
        rcases List.mem_cons.mp cMember with rfl | later
        · rcases List.mem_cons.mp cMember' with rfl | later'
          · exact different rfl
          · exact apartHere c' later' b holds holds'
        · rcases List.mem_cons.mp cMember' with rfl | later'
          · exact apartHere c later b holds' holds
          · exact apart c later c' later' different b holds holds'
      · rintro ⟨each, apart⟩
        refine ⟨each a List.mem_cons_self,
          ⟨fun a' member => each a' (List.mem_cons_of_mem a member), ?_⟩, ?_⟩
        · exact fun c member c' member' =>
            apart c (List.mem_cons_of_mem a member) c' (List.mem_cons_of_mem a member')
        · rintro b inPiece _ inLater rfl
          obtain ⟨a', member, holds⟩ := (inMore b).mp inLater
          refine apart a List.mem_cons_self a' (List.mem_cons_of_mem a member) ?_ b
            ((head.1 b).mp inPiece) holds
          rintro rfl
          exact fresh member

/-- Partners of the parts of a list, group by group, are partners of the whole
list. -/
theorem forall₂_flatMap {R : α → List β → Prop} {f : γ → List α} {groups : List γ}
    {pieces : List (List β)}
    (related : List.Forall₂ (fun group piece => ∃ parts,
        List.Forall₂ R (f group) parts ∧ piece.Perm parts.flatten) groups pieces) :
    ∃ parts, List.Forall₂ R (groups.flatMap f) parts ∧
      pieces.flatten.Perm parts.flatten := by
  induction related with
  | nil => exact ⟨[], .nil, .nil⟩
  | cons head _ inductionHypothesis =>
      obtain ⟨parts, here, handed⟩ := head
      obtain ⟨later, related, rest⟩ := inductionHypothesis
      refine ⟨parts ++ later, List.rel_append here related, ?_⟩
      rw [List.flatten_cons, List.flatten_append]
      exact handed.append rest

end GraphEngine

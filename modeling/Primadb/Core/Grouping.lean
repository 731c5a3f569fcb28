import Primadb.Core.Collections

/-!
# Grouping a set by a key

An ordered map of non-empty sets that holds every element of a set in the group of
its key. Such a map is determined by the set, so maintaining one step by step and
building it from scratch give equal maps.
-/

namespace Primadb

open Std

variable {κ ν : Type} [Ord κ] [TransOrd κ] [Ord ν] [TransOrd ν]

/-- The group of a key. -/
def group (groups : BTreeMap κ (BTreeSet ν)) (k : κ) : BTreeSet ν := groups[k]?.getD ∅

/-- Add an element to the group of its key. -/
def addToGroup (groups : BTreeMap κ (BTreeSet ν)) (k : κ) (x : ν) : BTreeMap κ (BTreeSet ν) :=
  groups.insert k ((group groups k).insert x)

/-- Remove an element from a group and drop the group when it becomes empty. -/
def removeFromGroup (groups : BTreeMap κ (BTreeSet ν)) (k : κ) (x : ν) :
    BTreeMap κ (BTreeSet ν) :=
  match groups[k]? with
  | some members =>
    if (members.erase x).isEmpty then groups.erase k else groups.insert k (members.erase x)
  | none => groups

/-- The map groups exactly the elements of `E` by `key`, and no group is empty. -/
structure Groups (groups : BTreeMap κ (BTreeSet ν)) (key : ν → κ) (E : Set ν) : Prop where
  mem : ∀ k x, x ∈ group groups k ↔ x ∈ E ∧ key x = k
  nonempty : ∀ k : κ, groups[k]? ≠ some (∅ : BTreeSet ν)

namespace Groups

variable {groups groups' : BTreeMap κ (BTreeSet ν)} {key : ν → κ} {E : Set ν}

theorem empty : Groups (∅ : BTreeMap κ (BTreeSet ν)) key ∅ := by
  constructor <;> intros <;> simp [group]

variable [LawfulEqOrd κ] [LawfulEqOrd ν]

/-- Maps that group the same set are equal. -/
theorem unique (h : Groups groups key E) (h' : Groups groups' key E) : groups = groups' := by
  have hgroup : ∀ k, group groups k = group groups' k := fun k =>
    ExtTreeSet.ext_mem fun x => (h.mem k x).trans (h'.mem k x).symm
  refine ExtTreeMap.ext_getElem? fun k => ?_
  have hk := hgroup k
  have hn := h.nonempty k
  have hn' := h'.nonempty k
  simp only [group] at hk
  rcases hg : groups[k]? with _ | s <;> rcases hg' : groups'[k]? with _ | s' <;>
    rw [hg] at hk hn <;> rw [hg'] at hk hn' <;> simp only [Option.getD_none, Option.getD_some] at hk
  · exact absurd (hk ▸ rfl) hn'
  · exact absurd (hk ▸ rfl) hn
  · rw [hk]

variable [DecidableEq κ]

private theorem add (h : Groups groups key E) (x : ν) :
    Groups (addToGroup groups (key x) x) key (insert x E) := by
  constructor
  · intro k y
    by_cases hk : key x = k
    · subst hk
      simp only [group, addToGroup, BTreeMap.get_insert, if_true, Option.getD_some,
        ExtTreeSet.mem_insert, Std.compare_eq_iff_eq, Set.mem_insert_iff]
      have hm := h.mem (key x) y
      rw [group] at hm
      rw [hm]
      constructor
      · rintro (rfl | ⟨hy, hk⟩)
        · exact ⟨Or.inl rfl, rfl⟩
        · exact ⟨Or.inr hy, hk⟩
      · rintro ⟨rfl | hy, hk⟩
        · exact Or.inl rfl
        · exact Or.inr ⟨hy, hk⟩
    · have hm := h.mem k y
      simp only [group, addToGroup, BTreeMap.get_insert, if_neg hk, Set.mem_insert_iff] at hm ⊢
      rw [hm]
      constructor
      · exact fun ⟨hy, he⟩ => ⟨Or.inr hy, he⟩
      · rintro ⟨rfl | hy, he⟩
        · exact absurd he hk
        · exact ⟨hy, he⟩
  · intro k
    rw [addToGroup, BTreeMap.get_insert]
    split
    · intro he
      have hx : x ∈ (∅ : BTreeSet ν) := by
        rw [← Option.some.inj he]
        exact ExtTreeSet.mem_insert_self
      exact absurd hx ExtTreeSet.not_mem_empty
    · exact h.nonempty k

omit [LawfulEqOrd ν] in
/-- Dropping a group drops the elements of its key. -/
theorem dropGroup (h : Groups groups key E) (k : κ) :
    Groups (groups.erase k) key {x ∈ E | key x ≠ k} := by
  constructor
  · intro k' y
    have hm := h.mem k' y
    simp only [group, BTreeMap.get_erase, Set.mem_ofPred_eq] at hm ⊢
    by_cases hk : k = k'
    · subst hk
      simp only [if_true, Option.getD_none, ExtTreeSet.not_mem_empty, false_iff]
      rintro ⟨⟨-, hne⟩, he⟩
      exact hne he
    · rw [if_neg hk, hm]
      constructor
      · rintro ⟨hy, rfl⟩
        exact ⟨⟨hy, fun he => hk he.symm⟩, rfl⟩
      · exact fun ⟨⟨hy, _⟩, he⟩ => ⟨hy, he⟩
  · intro k'
    rw [BTreeMap.get_erase]
    split
    · exact (Option.some_ne_none _).symm
    · exact h.nonempty k'

private theorem remove (h : Groups groups key E) (x : ν) :
    Groups (removeFromGroup groups (key x) x) key (E \ {x}) := by
  have hother : ∀ k y, key x ≠ k →
      (y ∈ group groups k ↔ y ∈ E \ {x} ∧ key y = k) := by
    intro k y hk
    rw [h.mem]
    constructor
    · rintro ⟨hy, rfl⟩
      exact ⟨⟨hy, fun he => hk (by rw [Set.mem_singleton_iff.mp he])⟩, rfl⟩
    · exact fun ⟨⟨hy, _⟩, he⟩ => ⟨hy, he⟩
  rw [removeFromGroup]
  cases hg : groups[key x]? with
  | none =>
    refine ⟨fun k y => ?_, h.nonempty⟩
    by_cases hk : key x = k
    · subst hk
      have hm := h.mem (key x) y
      simp only [group, hg, Option.getD_none, ExtTreeSet.not_mem_empty, false_iff] at hm ⊢
      exact fun ⟨⟨hy, _⟩, he⟩ => hm ⟨hy, he⟩
    · exact hother k y hk
  | some members =>
    have hm : ∀ y, y ∈ members.erase x ↔ y ∈ E \ {x} ∧ key y = key x := by
      intro y
      have hy := h.mem (key x) y
      simp only [group, hg, Option.getD_some] at hy
      rw [ExtTreeSet.mem_erase, hy, Set.mem_sdiff, Set.mem_singleton_iff, ne_eq,
        Std.compare_eq_iff_eq]
      constructor
      · exact fun ⟨hne, hE, he⟩ => ⟨⟨hE, fun h => hne h.symm⟩, he⟩
      · exact fun ⟨⟨hE, hne⟩, he⟩ => ⟨fun h => hne h.symm, hE, he⟩
    dsimp only
    split
    · rename_i hempty
      have hnone : ∀ y, y ∉ members.erase x := fun y hy => by
        rw [ExtTreeSet.isEmpty_iff.mp hempty] at hy
        exact ExtTreeSet.not_mem_empty hy
      refine ⟨fun k y => ?_, fun k => ?_⟩
      · by_cases hk : key x = k
        · subst hk
          simp only [group, BTreeMap.get_erase, if_true, Option.getD_none,
            ExtTreeSet.not_mem_empty, false_iff]
          exact fun hy => hnone y ((hm y).mpr hy)
        · have hy := hother k y hk
          simp only [group] at hy
          simp only [group, BTreeMap.get_erase, if_neg hk, hy]
      · rw [BTreeMap.get_erase]
        split
        · exact (Option.some_ne_none _).symm
        · exact h.nonempty k
    · rename_i hempty
      refine ⟨fun k y => ?_, fun k => ?_⟩
      · by_cases hk : key x = k
        · subst hk
          simp only [group, BTreeMap.get_insert, if_true, Option.getD_some]
          exact hm y
        · have hy := hother k y hk
          simp only [group] at hy
          simp only [group, BTreeMap.get_insert, if_neg hk, hy]
      · rw [BTreeMap.get_insert]
        split
        · intro he
          exact hempty (ExtTreeSet.isEmpty_iff.mpr (Option.some.inj he))
        · exact h.nonempty k

/-- Adding a list adds its elements. -/
theorem addAll (h : Groups groups key E) (l : List ν) :
    Groups (l.foldl (fun groups x => addToGroup groups (key x) x) groups) key
      {x | x ∈ E ∨ x ∈ l} := by
  induction l generalizing groups E with
  | nil => simpa using h
  | cons x l ih =>
    have hset : {y | y ∈ insert x E ∨ y ∈ l} = {y | y ∈ E ∨ y ∈ x :: l} := by
      ext y
      simp only [Set.mem_ofPred_eq, Set.mem_insert_iff, List.mem_cons]
      tauto
    exact hset ▸ ih (h.add x)

/-- Removing a list removes its elements. -/
theorem removeAll (h : Groups groups key E) (l : List ν) :
    Groups (l.foldl (fun groups x => removeFromGroup groups (key x) x) groups) key
      {x | x ∈ E ∧ x ∉ l} := by
  induction l generalizing groups E with
  | nil => simpa using h
  | cons x l ih =>
    have hset : {y | y ∈ E \ {x} ∧ y ∉ l} = {y | y ∈ E ∧ y ∉ x :: l} := by
      ext y
      simp only [Set.mem_ofPred_eq, Set.mem_sdiff, Set.mem_singleton_iff, List.mem_cons, not_or]
      tauto
    exact hset ▸ ih (h.remove x)

end Groups

end Primadb

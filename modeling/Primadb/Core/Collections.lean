import Mathlib

/-!
# Ordered finite maps and sets

The standard extensional tree maps are used as ordered maps: two of them are
equal exactly when their lookups agree, and their lists are in key order. The
lemmas restate only the lookup equations whose library form compares keys
through the comparison function instead of equality.
-/

namespace Primadb

open Std

/-- An ordered finite map whose equality is equality of lookups. -/
abbrev BTreeMap (κ ν : Type) [Ord κ] := ExtTreeMap κ ν compare

/-- An ordered finite set whose equality is equality of membership. -/
abbrev BTreeSet (κ : Type) [Ord κ] := ExtTreeSet κ compare

namespace BTreeMap

variable {κ ν : Type} [Ord κ] [TransOrd κ] [LawfulEqOrd κ] [DecidableEq κ]

/-- Inserting changes exactly the inserted key. -/
@[simp] theorem get_insert (m : BTreeMap κ ν) (k a : κ) (v : ν) :
    (m.insert k v)[a]? = if k = a then some v else m[a]? := by
  simp only [ExtTreeMap.getElem?_insert, Std.compare_eq_iff_eq]

/-- Erasing changes exactly the erased key. -/
@[simp] theorem get_erase (m : BTreeMap κ ν) (k a : κ) :
    (m.erase k)[a]? = if k = a then none else m[a]? := by
  simp only [ExtTreeMap.getElem?_erase, Std.compare_eq_iff_eq]

omit [DecidableEq κ] in
/-- Maps with the same keys list them alike. -/
theorem keys_eq_of_mem_iff {m n : BTreeMap κ ν} (h : ∀ k, k ∈ m ↔ k ∈ n) : m.keys = n.keys := by
  have hperm : m.keys.Perm n.keys :=
    (List.perm_ext_iff_of_nodup ExtTreeMap.nodup_keys ExtTreeMap.nodup_keys).mpr fun k => by
      simpa only [ExtTreeMap.mem_keys] using h k
  refine hperm.eq_of_pairwise (fun a b _ _ hab hba => ?_) ExtTreeMap.ordered_keys
    ExtTreeMap.ordered_keys
  rw [OrientedOrd.eq_swap, hba] at hab
  exact absurd hab (by decide)

omit [Ord κ] [TransOrd κ] [LawfulEqOrd κ] in
/-- A fold that leaves a projection alone at every listed key. -/
private theorem foldl_of_forall_ne {σ τ : Type} {step : σ → κ × ν → σ} {π : σ → τ} {k : κ}
    {g : τ → ν → τ} (l : List (κ × ν))
    (hstep : ∀ s, ∀ p ∈ l, π (step s p) = if p.1 = k then g (π s) p.2 else π s)
    (hl : ∀ p ∈ l, p.1 ≠ k) (s : σ) : π (l.foldl step s) = π s := by
  induction l generalizing s with
  | nil => rfl
  | cons p l ih =>
    rw [List.foldl_cons, ih (fun s q hq => hstep s q (List.mem_cons_of_mem _ hq))
      (fun q hq => hl q (List.mem_cons_of_mem _ hq)), hstep s p List.mem_cons_self,
      if_neg (hl p List.mem_cons_self)]

/-- A fold over the entries of a map that acts key by key, seen at one key. -/
theorem foldl_toList_at {σ τ : Type} (m : BTreeMap κ ν) {step : σ → κ × ν → σ} {π : σ → τ}
    {k : κ} {g : τ → ν → τ}
    (hstep : ∀ s a v, m[a]? = some v → π (step s (a, v)) = if a = k then g (π s) v else π s)
    (s : σ) :
    π (m.toList.foldl step s) =
      match m[k]? with
      | some v => g (π s) v
      | none => π s := by
  have hmem : ∀ p ∈ m.toList, ∀ s, π (step s p) = if p.1 = k then g (π s) p.2 else π s :=
    fun p hp s => hstep s p.1 p.2 (ExtTreeMap.mem_toList_iff_getElem?_eq_some.mp hp)
  cases hk : m[k]? with
  | none =>
    refine foldl_of_forall_ne _ (fun s p hp => hmem p hp s) (fun p hp => ?_) s
    rintro rfl
    rw [ExtTreeMap.mem_toList_iff_getElem?_eq_some.mp hp] at hk
    exact absurd hk (by simp)
  | some v =>
    have hkv := ExtTreeMap.mem_toList_iff_getElem?_eq_some.mpr hk
    have hdist := ExtTreeMap.distinct_keys_toList (t := m)
    obtain ⟨l, r, hlr⟩ := List.append_of_mem hkv
    rw [hlr, List.pairwise_append, List.pairwise_cons] at hdist
    obtain ⟨-, ⟨hr, -⟩, hl⟩ := hdist
    have hl' : ∀ p ∈ l, p.1 ≠ k := by
      intro p hp he
      exact hl p hp (k, v) List.mem_cons_self (by simp [he])
    have hr' : ∀ p ∈ r, p.1 ≠ k := by
      intro p hp he
      exact hr p hp (by simp [he])
    rw [hlr] at hmem
    simp only [hlr, List.foldl_append, List.foldl_cons]
    rw [foldl_of_forall_ne r (fun s p hp => hmem p (by simp [hp]) s) hr',
      hmem (k, v) (by simp), if_pos rfl,
      foldl_of_forall_ne l (fun s p hp => hmem p (by simp [hp]) s) hl']

/-- The values of a map in the order of their keys. -/
def valueList (m : BTreeMap κ ν) : List ν := m.toList.map Prod.snd

omit [DecidableEq κ] in
/-- The values are those found under some key. -/
theorem mem_valueList {m : BTreeMap κ ν} {v : ν} : v ∈ m.valueList ↔ ∃ k : κ, m[k]? = some v := by
  simp only [valueList, List.mem_map, Prod.exists, ExtTreeMap.mem_toList_iff_getElem?_eq_some,
    exists_eq_right]

omit [LawfulEqOrd κ] [DecidableEq κ] in
/-- The values of the library are the values in the order of their keys. -/
theorem values_eq_valueList (m : BTreeMap κ ν) : m.values = m.valueList := by
  obtain ⟨m⟩ := m
  obtain ⟨m⟩ := m
  induction m using Quotient.ind with
  | _ m =>
    obtain ⟨m, hm⟩ := m
    change m.values = (DTreeMap.Internal.Impl.Const.toList m).map Prod.snd
    rw [DTreeMap.Internal.Impl.values_eq_map_snd,
      DTreeMap.Internal.Impl.Const.toList_eq_toListModel_map, List.map_map]
    rfl

end BTreeMap

namespace BTreeSet

variable {κ : Type} [Ord κ] [TransOrd κ] [LawfulEqOrd κ] [DecidableEq κ]

/-- Inserting changes membership of the inserted element only. -/
theorem contains_insert (s : BTreeSet κ) (k a : κ) :
    (s.insert k).contains a = (decide (k = a) || s.contains a) := by
  rw [ExtTreeSet.contains_insert]
  congr 1
  by_cases h : k = a <;> simp [h]

/-- Erasing changes membership of the erased element only. -/
theorem contains_erase (s : BTreeSet κ) (k a : κ) :
    (s.erase k).contains a = (!decide (k = a) && s.contains a) := by
  rw [ExtTreeSet.contains_erase]
  congr 1
  by_cases h : k = a <;> simp [h]

omit [DecidableEq κ] in
/-- A set filled from a list holds what it held and the values of the list. -/
theorem mem_foldl_insert {α : Type*} (f : α → κ) (l : List α) (s : BTreeSet κ) (k : κ) :
    k ∈ l.foldl (fun s a => s.insert (f a)) s ↔ k ∈ s ∨ ∃ a ∈ l, f a = k := by
  induction l generalizing s with
  | nil => simp
  | cons a l ih =>
    rw [List.foldl_cons, ih]
    simp only [ExtTreeSet.mem_insert, Std.compare_eq_iff_eq, List.mem_cons, exists_eq_or_imp]
    tauto

end BTreeSet

/-- `saturating_add` on `u64`. -/
def saturatingAdd (a b : ℕ) : ℕ := min (a + b) (2 ^ 64 - 1)

end Primadb

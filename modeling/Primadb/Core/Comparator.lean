import Mathlib.Order.Compare
import Mathlib.Order.Lattice

/-!
# Comparators with a fallback

A comparator that answers only for comparable values is completed by comparing keys where it
is silent or finds two values equal. The completed comparator is transitive on a set of items
exactly when no item that is not comparable with two others has its key between theirs while
they stand in the opposite order.
-/

namespace Primadb

open Ordering

/-- What a sort asks of the comparator on the items it sorts. -/
structure SortOrder {ι : Type*} (cmp : ι → ι → Ordering) (items : List ι) : Prop where
  /-- Every item equals itself. -/
  refl : ∀ a ∈ items, cmp a a = .eq
  /-- The answers in the two directions are opposite, so two items that are not after each
  other are equal. -/
  antisymm : ∀ a ∈ items, ∀ b ∈ items, cmp b a = (cmp a b).swap
  /-- Not after is transitive. -/
  trans : ∀ a ∈ items, ∀ b ∈ items, ∀ c ∈ items, cmp a b ≠ .gt → cmp b c ≠ .gt → cmp a c ≠ .gt
  /-- One of two items is not after the other. -/
  total : ∀ a ∈ items, ∀ b ∈ items, cmp a b ≠ .gt ∨ cmp b a ≠ .gt

/-- A comparator that is a total preorder on every class of comparable values. -/
structure PartialComparator {α : Type*} (cmp : α → α → Option Ordering) : Prop where
  /-- The answers in the two directions are opposite. -/
  swap : ∀ a b, cmp b a = (cmp a b).map Ordering.swap
  /-- What is comparable with the same value is comparable. -/
  connected : ∀ {a b c x y}, cmp a b = some x → cmp b c = some y → cmp a c ≠ none
  /-- Not after is transitive, and strict as soon as one step is. -/
  trans : ∀ {a b c x y}, cmp a b = some x → cmp b c = some y → x ≠ .gt → y ≠ .gt →
    cmp a c = some (x.then y)

/-- Comparing the ranks of the values that have one. -/
def compareRanks {α ρ : Type*} [Ord ρ] (rank : α → Option ρ) (a b : α) : Option Ordering :=
  match rank a, rank b with
  | some a, some b => some (compare a b)
  | _, _ => none

/-- Comparing what is found in two items. -/
def compareFound {α β : Type*} (cmp : α → α → Option Ordering) (f : β → Option α) (a b : β) :
    Option Ordering :=
  match f a, f b with
  | some a, some b => cmp a b
  | _, _ => none

/-- Compare by value, and by key where that leaves the order open. -/
def withFallback {α κ : Type*} [Ord κ] (cmp : α → α → Option Ordering) (key : α → κ) (a b : α) :
    Ordering :=
  ((cmp a b).getD .eq).then (compare (key a) (key b))

namespace PartialComparator

variable {α κ : Type*} [LinearOrder κ] {cmp : α → α → Option Ordering} {key : α → κ} {a b c : α}

/-- Ranks in a linear order give a comparator. -/
theorem compareRanks (rank : α → Option κ) : PartialComparator (compareRanks rank) where
  swap a b := by
    simp only [Primadb.compareRanks]
    cases rank a with
    | none => cases rank b <;> rfl
    | some x =>
      cases rank b with
      | none => rfl
      | some y => exact congrArg some Std.OrientedCmp.eq_swap
  connected := by
    intro a b c x y hx hy
    simp only [Primadb.compareRanks] at hx hy ⊢
    cases ha : rank a with
    | none => simp [ha] at hx
    | some u =>
      cases hc : rank c with
      | none => cases hb : rank b <;> simp [hb, hc] at hy
      | some w => simp
  trans := by
    intro a b c x y hx hy hxne hyne
    simp only [Primadb.compareRanks] at hx hy ⊢
    cases ha : rank a with
    | none => simp [ha] at hx
    | some u =>
      cases hb : rank b with
      | none => simp [ha, hb] at hx
      | some v =>
        cases hc : rank c with
        | none => simp [hb, hc] at hy
        | some w =>
          simp only [ha, hb, hc, Option.some.injEq] at hx hy ⊢
          subst hx hy
          have huv := compare_le_iff_le.mp hxne
          have hvw := compare_le_iff_le.mp hyne
          rcases huv.lt_or_eq with huv | rfl
          · rw [compare_lt_iff_lt.mpr huv, compare_lt_iff_lt.mpr (huv.trans_le hvw)]
            rfl
          · rw [compare_eq_iff_eq.mpr rfl]
            rfl

/-- A comparator read the other way round is one too. -/
theorem reverse (h : PartialComparator cmp) : PartialComparator fun a b => cmp b a where
  swap a b := h.swap b a
  connected hx hy := h.connected hy hx
  trans {a b c x y} hx hy hxne hyne := by
    have hca := h.trans hy hx hyne hxne
    rw [hca]
    cases x <;> cases y <;> first | rfl | exact absurd rfl hxne | exact absurd rfl hyne

/-- Items are compared when values are found in both. -/
theorem compareFound_eq_some {β : Type*} {f : β → Option α} {a b : β} {x : Ordering} :
    Primadb.compareFound cmp f a b = some x ↔
      ∃ u v, f a = some u ∧ f b = some v ∧ cmp u v = some x := by
  rw [Primadb.compareFound]
  cases f a with
  | none => simp
  | some u => cases f b <;> simp

/-- The comparator on items that hold values. -/
theorem compareFound {β : Type*} (h : PartialComparator cmp) (f : β → Option α) :
    PartialComparator (compareFound cmp f) where
  swap a b := by
    simp only [Primadb.compareFound]
    cases f a with
    | none => cases f b <;> rfl
    | some x =>
      cases f b with
      | none => rfl
      | some y => exact h.swap x y
  connected {a b c x y} hx hy := by
    obtain ⟨u, v, hu, hv, hx⟩ := compareFound_eq_some.mp hx
    obtain ⟨v', w, hv', hw, hy⟩ := compareFound_eq_some.mp hy
    obtain rfl := Option.some.inj (hv.symm.trans hv')
    simp only [Primadb.compareFound, hu, hw]
    exact h.connected hx hy
  trans {a b c x y} hx hy hxne hyne := by
    obtain ⟨u, v, hu, hv, hx⟩ := compareFound_eq_some.mp hx
    obtain ⟨v', w, hv', hw, hy⟩ := compareFound_eq_some.mp hy
    obtain rfl := Option.some.inj (hv.symm.trans hv')
    exact compareFound_eq_some.mpr ⟨u, w, hu, hw, h.trans hx hy hxne hyne⟩

/-- A value without an answer has none in the other direction. -/
theorem none_swap (h : PartialComparator cmp) (hnone : cmp a b = none) : cmp b a = none := by
  rw [h.swap a b, hnone, Option.map_none]

/-- Only one of two comparable values can be incomparable with a third when both are. -/
theorem none_of_some (h : PartialComparator cmp) {x : Ordering} (hab : cmp a b = some x)
    (hac : cmp a c = none) : cmp b c = none := by
  by_contra hbc
  obtain ⟨y, hy⟩ := Option.ne_none_iff_exists'.mp hbc
  exact h.connected hab hy hac

/-- The fallback where there is no answer. -/
theorem withFallback_of_none (hnone : cmp a b = none) :
    withFallback cmp key a b = compare (key a) (key b) := by
  simp [withFallback, hnone]

/-- A value is after itself in no comparator. -/
theorem withFallback_self (h : PartialComparator cmp) (a : α) :
    withFallback cmp key a a = .eq := by
  have hkey : compare (key a) (key a) = .eq := Std.ReflCmp.compare_self
  rw [withFallback, hkey]
  cases ha : cmp a a with
  | none => rfl
  | some x =>
    have hswap := h.swap a a
    rw [ha] at hswap
    cases x with
    | eq => rfl
    | lt => cases hswap
    | gt => cases hswap

/-- The completed comparator answers oppositely in the two directions. -/
theorem withFallback_swap (h : PartialComparator cmp) (a b : α) :
    withFallback cmp key b a = (withFallback cmp key a b).swap := by
  rw [withFallback, withFallback, h.swap a b, Ordering.swap_then, ← Std.OrientedCmp.eq_swap]
  cases cmp a b <;> rfl

/-- What is not after by the completed comparator is not after by value. -/
theorem ne_gt_of_withFallback {x : Ordering} (hx : cmp a b = some x)
    (h : withFallback cmp key a b ≠ .gt) : x ≠ .gt := by
  rintro rfl
  exact h (by simp [withFallback, hx])

/-- What is equal by value and not after by the completed comparator is not after by key. -/
theorem key_le_of_withFallback (hx : (cmp a b).getD .eq = .eq)
    (h : withFallback cmp key a b ≠ .gt) : key a ≤ key b := by
  rw [withFallback, hx] at h
  exact compare_le_iff_le.mp h

/-- The completed comparator is transitive exactly when no value lies by its key between two
values it is not comparable with and whose keys are ordered against them. -/
theorem withFallback_trans_iff (h : PartialComparator cmp) (key : α → κ) (S : α → Prop) :
    (∀ a b c, S a → S b → S c → withFallback cmp key a b ≠ .gt → withFallback cmp key b c ≠ .gt →
      withFallback cmp key a c ≠ .gt) ↔
    ∀ a b c, S a → S b → S c → cmp a b = some .lt → cmp a c = none → key b ≤ key c →
      ¬ key c ≤ key a := by
  constructor
  · intro htrans a b c ha hb hc hab hac hbc hca
    -- by keys `b` is not after `c` and `c` is not after `a`, but `b` is after `a` by value
    have hlast := htrans b c a hb hc ha
      (by rw [withFallback_of_none (h.none_of_some hab hac)]; exact compare_le_iff_le.mpr hbc)
      (by rw [withFallback_of_none (h.none_swap hac)]; exact compare_le_iff_le.mpr hca)
    refine ne_gt_of_withFallback ?_ hlast rfl
    rw [h.swap a b, hab]
    rfl
  · intro hapart a b c ha hb hc hab hbc
    cases hx : cmp a b with
    | none =>
      have hkab : key a ≤ key b := key_le_of_withFallback (by simp [hx]) hab
      cases hy : cmp b c with
      | none =>
        have hkbc : key b ≤ key c := key_le_of_withFallback (by simp [hy]) hbc
        cases hz : cmp a c with
        | none =>
          rw [withFallback_of_none hz]
          exact compare_le_iff_le.mpr (hkab.trans hkbc)
        | some z =>
          rw [withFallback, hz]
          cases z with
          | lt => simp
          | eq => exact compare_le_iff_le.mpr (hkab.trans hkbc)
          | gt =>
            have hca : cmp c a = some .lt := by
              rw [h.swap a c, hz]
              rfl
            exact absurd hkbc (hapart c a b hc ha hb hca (h.none_swap hy) hkab)
      | some y =>
        have hba := h.none_swap hx
        have hac : cmp a c = none := h.none_swap (h.none_of_some hy hba)
        rw [withFallback_of_none hac, compare_le_iff_le]
        have hyne := ne_gt_of_withFallback hy hbc
        cases y with
        | lt => exact (not_le.mp fun hca => hapart b c a hb hc ha hy hba hca hkab).le
        | eq => exact hkab.trans (key_le_of_withFallback (by simp [hy]) hbc)
        | gt => exact absurd rfl hyne
    | some x =>
      have hxne := ne_gt_of_withFallback hx hab
      cases hy : cmp b c with
      | none =>
        have hkbc : key b ≤ key c := key_le_of_withFallback (by simp [hy]) hbc
        have hba : cmp b a = some x.swap := by
          rw [h.swap a b, hx]
          rfl
        have hac : cmp a c = none := h.none_of_some hba hy
        rw [withFallback_of_none hac, compare_le_iff_le]
        cases x with
        | lt => exact (not_le.mp (hapart a b c ha hb hc hx hac hkbc)).le
        | eq => exact (key_le_of_withFallback (by simp [hx]) hab).trans hkbc
        | gt => exact absurd rfl hxne
      | some y =>
        have hyne := ne_gt_of_withFallback hy hbc
        rw [withFallback, h.trans hx hy hxne hyne]
        cases x with
        | lt => simp
        | gt => exact absurd rfl hxne
        | eq =>
          cases y with
          | lt => simp
          | gt => exact absurd rfl hyne
          | eq =>
            exact compare_le_iff_le.mpr ((key_le_of_withFallback (by simp [hx]) hab).trans
              (key_le_of_withFallback (by simp [hy]) hbc))

end PartialComparator

end Primadb

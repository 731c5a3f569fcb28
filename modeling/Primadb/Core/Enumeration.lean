import Mathlib.Data.List.Sort
import Mathlib.Order.RelClasses

/-!
# Sorted enumerations

A list without repetition in the order of a strict total order is determined by its elements.
What comes behind an element is found by comparing with that element, and the first elements
of two enumerations agree exactly when nothing of the larger one gets in between.
-/

namespace Primadb

variable {α : Type*} {r : α → α → Prop} {p q : α → Prop} {l m : List α}

/-- The list holds exactly the elements with a property, in order. -/
structure Enumerates (r : α → α → Prop) (l : List α) (p : α → Prop) : Prop where
  /-- The elements are in order. -/
  sorted : l.Pairwise r
  /-- The elements are those with the property. -/
  mem_iff : ∀ x, x ∈ l ↔ p x

namespace Enumerates

section Any

/-- Elements that also have another property. -/
theorem filter (h : Enumerates r l p) (s : α → Bool) :
    Enumerates r (l.filter s) fun x => p x ∧ s x = true where
  sorted := h.sorted.sublist List.filter_sublist
  mem_iff x := by rw [List.mem_filter, h.mem_iff]

/-- The same elements described otherwise. -/
theorem congr (h : Enumerates r l p) (hpq : ∀ x, p x ↔ q x) : Enumerates r l q where
  sorted := h.sorted
  mem_iff x := (h.mem_iff x).trans (hpq x)

/-- The reversed list enumerates in the reversed order. -/
theorem reverse (h : Enumerates r l p) : Enumerates (fun a b => r b a) l.reverse p where
  sorted := List.pairwise_reverse.mpr h.sorted
  mem_iff x := by rw [List.mem_reverse, h.mem_iff]

end Any

variable [IsStrictTotalOrder α r]

/-- An order has one enumeration of a property. -/
theorem unique (h : Enumerates r l p) (h' : Enumerates r m p) : l = m := by
  have hperm : l.Perm m := (List.perm_ext_iff_of_nodup h.sorted.nodup h'.sorted.nodup).mpr
    fun x => (h.mem_iff x).trans (h'.mem_iff x).symm
  exact hperm.eq_of_pairwise (fun a b _ _ hab hba => absurd hab (asymm hba)) h.sorted h'.sorted

omit [IsStrictTotalOrder α r] in
/-- An enumeration with an element split off has everything before it in front and everything
after it behind. -/
theorem split {front back : List α} {x : α} (h : Enumerates r (front ++ x :: back) p) :
    (∀ y ∈ front, r y x) ∧ ∀ y ∈ back, r x y := by
  have hsorted := List.pairwise_append.mp h.sorted
  exact ⟨fun y hy => hsorted.2.2 y hy x List.mem_cons_self,
    (List.pairwise_cons.mp hsorted.2.1).1⟩

omit [IsStrictTotalOrder α r] in
/-- A list with an element at a place splits there. -/
theorem exists_split {n : ℕ} {x : α} (hx : l[n]? = some x) :
    ∃ front back, l = front ++ x :: back ∧ front.length = n ∧ back = l.drop (n + 1) := by
  obtain ⟨hlt, rfl⟩ := List.getElem?_eq_some_iff.mp hx
  refine ⟨l.take n, l.drop (n + 1), ?_, ?_, rfl⟩
  · rw [← List.drop_eq_getElem_cons hlt, List.take_append_drop]
  · rw [List.length_take, Nat.min_eq_left (Nat.le_of_lt hlt)]

/-- What lies behind an element is what comes after it. -/
theorem drop_eq_filter [DecidableRel r] (h : Enumerates r l p) {n : ℕ} {x : α}
    (hx : l[n]? = some x) : l.drop (n + 1) = l.filter fun y => decide (r x y) := by
  obtain ⟨front, back, hsplit, -, hback⟩ := exists_split hx
  have hsides := split (hsplit ▸ h : Enumerates r (front ++ x :: back) p)
  rw [← hback, hsplit, List.filter_append, List.filter_cons, if_neg (by simpa using irrefl x),
    List.filter_eq_nil_iff.mpr fun y hy => by simpa using asymm (hsides.1 y hy),
    List.filter_eq_self.mpr fun y hy => by simpa using hsides.2 y hy, List.nil_append]

/-- An element before one of the first is one of the first. -/
theorem mem_take_of_rel (h : Enumerates r l p) {n : ℕ} {x y : α} (hx : x ∈ l.take n) (hy : y ∈ l)
    (hyx : r y x) : y ∈ l.take n := by
  rw [← List.take_append_drop n l] at hy
  rcases List.mem_append.mp hy with hy | hy
  · exact hy
  · have hsorted := h.sorted
    rw [← List.take_append_drop n l] at hsorted
    exact absurd hyx (asymm ((List.pairwise_append.mp hsorted).2.2 x hx y hy))

variable [DecidableEq α]

/-- The first elements stay the first when everything added comes after them. -/
theorem take_eq_of_forall (h : Enumerates r l p) (h' : Enumerates r m q)
    (hpq : ∀ x, p x → q x) {n : ℕ} (hn : n ≤ l.length)
    (hafter : ∀ x, q x → ¬ p x → ∀ y ∈ l.take n, r y x) : l.take n = m.take n := by
  have hsorted := h.sorted
  rw [← List.take_append_drop n l] at hsorted
  have hapart := (List.pairwise_append.mp hsorted).2.2
  -- the larger enumeration is the first elements and then all others in order
  have hm : m = l.take n ++ m.filter fun x => decide (x ∉ l.take n) := by
    refine h'.unique ⟨List.pairwise_append.mpr ⟨h.sorted.sublist (List.take_sublist n l),
      h'.sorted.sublist List.filter_sublist, fun y hy x hx => ?_⟩, fun x => ?_⟩
    · obtain ⟨hxm, hxout⟩ := List.mem_filter.mp hx
      rw [decide_eq_true_eq] at hxout
      by_cases hpx : p x
      · have hxl := (h.mem_iff x).mpr hpx
        rw [← List.take_append_drop n l] at hxl
        exact hapart y hy x ((List.mem_append.mp hxl).resolve_left hxout)
      · exact hafter x ((h'.mem_iff x).mp hxm) hpx y hy
    · rw [List.mem_append, List.mem_filter, decide_eq_true_eq, h'.mem_iff]
      constructor
      · rintro (hx | hx)
        · exact hpq x ((h.mem_iff x).mp (List.mem_of_mem_take hx))
        · exact hx.1
      · exact fun hq => or_iff_not_imp_left.mpr fun hx => ⟨hq, hx⟩
  rw [hm, List.take_append_of_le_length (by simp [hn]), List.take_take, Nat.min_self]

variable [DecidableRel r]

omit [DecidableEq α] in
/-- An element that comes after as many as are taken comes after all that are taken. -/
theorem rel_of_mem_take (h : Enumerates r l p) {n : ℕ} {x : α}
    (hcount : n ≤ (l.filter fun y => decide (r y x)).length) : ∀ y ∈ l.take n, r y x := by
  intro y hy
  by_contra hyx
  obtain ⟨i, hi, hget⟩ := List.mem_iff_getElem.mp hy
  have hin : i < n := lt_of_lt_of_le hi (List.length_take_le n l)
  have hgetl : l[i]? = some y := by
    rw [List.getElem_take] at hget
    exact List.getElem?_eq_some_iff.mpr ⟨by
      rw [List.length_take] at hi
      omega, hget⟩
  obtain ⟨front, back, hsplit, hlength, -⟩ := exists_split hgetl
  have hsides := split (hsplit ▸ h : Enumerates r (front ++ y :: back) p)
  -- nothing from `y` on comes before `x`
  have hback : back.filter (fun z => decide (r z x)) = [] := by
    refine List.filter_eq_nil_iff.mpr fun z hz => ?_
    simpa using fun hzx => hyx (IsTrans.trans _ _ _ (hsides.2 z hz) hzx)
  rw [hsplit, List.filter_append, List.filter_cons, if_neg (by simpa using hyx), hback,
    List.append_nil] at hcount
  have hle := List.length_filter_le (fun z => decide (r z x)) front
  omega

/-- The first elements of a larger enumeration are the same exactly when every element it adds
comes after as many. -/
theorem take_eq_take_iff (h : Enumerates r l p) (h' : Enumerates r m q) (hpq : ∀ x, p x → q x)
    {n : ℕ} (hn : n ≤ l.length) :
    l.take n = m.take n ↔
      ∀ x, q x → ¬ p x → n ≤ (l.filter fun y => decide (r y x)).length := by
  constructor
  · intro heq x hqx hpx
    by_contra hcount
    -- one of the first elements is not before `x`, so `x` is one of the first
    obtain ⟨y, hy, hyx⟩ : ∃ y ∈ l.take n, ¬ r y x := by
      by_contra hall
      push Not at hall
      refine hcount ?_
      have hsub := (List.take_sublist n l).filter fun y => decide (r y x)
      rw [List.filter_eq_self.mpr fun y hy => by simpa using hall y hy] at hsub
      have hle := hsub.length_le
      rw [List.length_take, Nat.min_eq_left hn] at hle
      exact hle
    have hpy := (h.mem_iff y).mp (List.mem_of_mem_take hy)
    have hne : x ≠ y := fun hxy => hpx (hxy ▸ hpy)
    have hxy : r x y := by
      rcases trichotomous_of r x y with hxy | hxy | hxy
      · exact hxy
      · exact absurd hxy hne
      · exact absurd hxy hyx
    have hxm := h'.mem_take_of_rel (heq ▸ hy) ((h'.mem_iff x).mpr hqx) hxy
    rw [← heq] at hxm
    exact hpx ((h.mem_iff x).mp (List.mem_of_mem_take hxm))
  · intro hcount
    exact h.take_eq_of_forall h' hpq hn fun x hqx hpx => h.rel_of_mem_take (hcount x hqx hpx)

end Enumerates

end Primadb

import Mathlib.Data.Finset.Insert

/-!
# Gathering all of a set

Items arrive one after another and are gathered until all of a goal are there; then the gathering
is complete and starts again from nothing, as it does on a reset. It completes at least once
exactly when some stretch of arrivals without a reset has all items of the goal, and at least
twice exactly when there are two such stretches one after the other.
-/

namespace Primadb

/-- What an arrival means for a gathering. -/
inductive Signal (ι : Type) where
  | reset
  | item (i : ι)
  | idle
  deriving DecidableEq

namespace Gathering

variable {ι : Type} [DecidableEq ι] {goal S : Finset ι} {l m : List (Signal ι)}

/-- One arrival: what is gathered then, and whether the gathering was completed. -/
def step (goal S : Finset ι) : Signal ι → Finset ι × Bool
  | .reset => (∅, false)
  | .item i => if insert i S = goal then (∅, true) else (insert i S, false)
  | .idle => (S, false)

/-- What is there after an arrival, before it is looked whether that is all. -/
def received (S : Finset ι) : Signal ι → Finset ι
  | .reset => ∅
  | .item i => insert i S
  | .idle => S

/-- What is gathered after arrivals. -/
def gathered (goal : Finset ι) : Finset ι → List (Signal ι) → Finset ι :=
  List.foldl fun S signal => (step goal S signal).1

/-- How often the gathering is completed. -/
def completions (goal : Finset ι) : Finset ι → List (Signal ι) → ℕ
  | _, [] => 0
  | S, signal :: l =>
    (step goal S signal).2.toNat + completions goal (step goal S signal).1 l

/-- The items are of the goal. -/
def Within (goal : Finset ι) (l : List (Signal ι)) : Prop := ∀ i, .item i ∈ l → i ∈ goal

/-- A stretch without a reset that has all items of the goal that are not yet gathered. -/
def Completes (goal S : Finset ι) (stretch : List (Signal ι)) : Prop :=
  .reset ∉ stretch ∧ ∀ i ∈ goal, i ∈ S ∨ .item i ∈ stretch

/-- A stretch without a reset that has all items of the goal. -/
def Covers (goal : Finset ι) (stretch : List (Signal ι)) : Prop :=
  .reset ∉ stretch ∧ ∀ i ∈ goal, .item i ∈ stretch

omit [DecidableEq ι] in
/-- From nothing gathered, completing is covering. -/
theorem completes_empty {stretch : List (Signal ι)} :
    Completes goal ∅ stretch ↔ Covers goal stretch := by
  simp [Completes, Covers]

omit [DecidableEq ι] in
private theorem Covers.completes {stretch : List (Signal ι)} (h : Covers goal stretch) :
    Completes goal S stretch :=
  ⟨h.1, fun i hi => .inr (h.2 i hi)⟩

private theorem completions_append :
    completions goal S (l ++ m) =
      completions goal S l + completions goal (gathered goal S l) m := by
  induction l generalizing S with
  | nil => simp [completions, gathered]
  | cons signal l ih =>
    rw [List.cons_append, completions, completions, ih, Nat.add_assoc]
    rfl

/-- As long as not all is there, a step completes the gathering when all is there after it. -/
theorem step_eq (hpos : goal.Nonempty) (hS : S ≠ goal) (signal : Signal ι) :
    step goal S signal =
      if received S signal = goal then (∅, true) else (received S signal, false) := by
  cases signal with
  | reset => exact (if_neg hpos.ne_empty.symm).symm
  | idle => exact (if_neg hS).symm
  | item i => rfl

/-- What is gathered stays a proper part of the goal. -/
theorem step_ssubset (hpos : goal.Nonempty) (hS : S ⊂ goal) {signal : Signal ι}
    (hsignal : ∀ i, signal = .item i → i ∈ goal) : (step goal S signal).1 ⊂ goal := by
  have hempty : ∅ ⊂ goal := Finset.empty_ssubset.mpr hpos
  cases signal with
  | reset => exact hempty
  | idle => exact hS
  | item i =>
    rw [step]
    split
    · exact hempty
    · rename_i hne
      exact lt_of_le_of_ne (Finset.insert_subset (hsignal i rfl) hS.1) hne

/-- What is gathered stays a proper part of the goal along arrivals. -/
theorem gathered_ssubset (hpos : goal.Nonempty) (hS : S ⊂ goal) (hl : Within goal l) :
    gathered goal S l ⊂ goal := by
  induction l generalizing S with
  | nil => exact hS
  | cons signal l ih =>
    refine ih (step_ssubset hpos hS fun i hi => hl i ?_)
      fun i hi => hl i (List.mem_cons_of_mem _ hi)
    rw [← hi]
    exact List.mem_cons_self

/-- A stretch with all that is wanting completes the gathering. -/
theorem completions_pos_of_completes (hS : S ⊂ goal) (hl : Within goal l)
    (h : Completes goal S l) : 0 < completions goal S l := by
  induction l generalizing S with
  | nil =>
    refine absurd (fun i hi => ?_ : goal ⊆ S) hS.2
    exact (h.2 i hi).resolve_right (List.not_mem_nil)
  | cons signal l ih =>
    have hrest : Within goal l := fun i hi => hl i (List.mem_cons_of_mem _ hi)
    have hreset : .reset ∉ l := fun hin => h.1 (List.mem_cons_of_mem _ hin)
    rw [completions]
    cases signal with
    | reset => exact absurd List.mem_cons_self h.1
    | idle =>
      refine Nat.lt_add_left _ (ih hS hrest ⟨hreset, fun i hi => ?_⟩)
      exact (h.2 i hi).imp_right fun hin => (List.mem_cons.mp hin).resolve_left (by rintro ⟨⟩)
    | item i =>
      rw [step]
      split
      · exact Nat.add_pos_left Nat.one_pos _
      · rename_i hne
        have hinsert : insert i S ⊂ goal :=
          lt_of_le_of_ne (Finset.insert_subset (hl i List.mem_cons_self) hS.1) hne
        refine Nat.lt_add_left _ (ih hinsert hrest ⟨hreset, fun j hj => ?_⟩)
        rcases h.2 j hj with hin | hin
        · exact .inl (Finset.mem_insert_of_mem hin)
        · rcases List.mem_cons.mp hin with heq | hin
          · cases heq
            exact .inl (Finset.mem_insert_self _ _)
          · exact .inr hin

/-- A first arrival that does not complete is part of the stretch that does. -/
theorem Completes.cons {signal : Signal ι} (hsignal : signal ≠ .reset)
    (hstep : (step goal S signal).2 = false) (h : Completes goal (step goal S signal).1 l) :
    Completes goal S (signal :: l) := by
  refine ⟨fun hin => ?_, fun i hi => ?_⟩
  · rcases List.mem_cons.mp hin with heq | hin
    · exact hsignal heq.symm
    · exact h.1 hin
  · have hwanting := h.2 i hi
    cases signal with
    | reset => exact absurd rfl hsignal
    | idle => exact hwanting.imp_right (List.mem_cons_of_mem _)
    | item j =>
      rw [step] at hstep hwanting
      split at hstep
      · cases hstep
      · rename_i hne
        rw [if_neg hne] at hwanting
        rcases hwanting with hin | hin
        · rcases Finset.mem_insert.mp hin with rfl | hin
          · exact .inr List.mem_cons_self
          · exact .inl hin
        · exact .inr (List.mem_cons_of_mem _ hin)

/-- The first completion ends a stretch with all that was wanting. -/
theorem exists_first (h : 0 < completions goal S l) :
    ∃ a s b, l = a ++ s ++ b ∧ (a = [] ∧ Completes goal S s ∨ Covers goal s) ∧
      completions goal S l = completions goal ∅ b + 1 := by
  induction l generalizing S with
  | nil => cases h
  | cons signal l ih =>
    rw [completions] at h ⊢
    by_cases hreset : signal = .reset
    · subst hreset
      rw [step] at h ⊢
      obtain ⟨a, s, b, hl, hs, hb⟩ := ih (by simpa using h)
      refine ⟨.reset :: a, s, b, by rw [hl]; rfl, .inr ?_, by simpa using hb⟩
      exact hs.elim (fun hs => completes_empty.mp hs.2) id
    · cases hstep : (step goal S signal).2 with
      | true =>
        have hitem : (step goal S signal).1 = ∅ ∧ Completes goal S [signal] := by
          cases signal with
          | reset => exact absurd rfl hreset
          | idle => cases hstep
          | item i =>
            rw [step] at hstep ⊢
            split at hstep
            · rename_i hgoal
              rw [if_pos hgoal]
              refine ⟨rfl, by simp, fun j hj => ?_⟩
              rw [← hgoal] at hj
              rcases Finset.mem_insert.mp hj with rfl | hin
              · exact .inr List.mem_cons_self
              · exact .inl hin
            · cases hstep
        refine ⟨[], [signal], l, rfl, .inl ⟨rfl, hitem.2⟩, ?_⟩
        rw [hitem.1]
        exact Nat.add_comm _ _
      | false =>
        rw [hstep] at h
        obtain ⟨a, s, b, hl, hs, hb⟩ := ih (by simpa using h)
        have hcount : Bool.toNat false + completions goal (step goal S signal).1 l =
            completions goal ∅ b + 1 := by simpa using hb
        rcases hs with ⟨rfl, hs⟩ | hs
        · exact ⟨[], signal :: s, b, by rw [hl]; rfl, .inl ⟨rfl, hs.cons hreset hstep⟩, hcount⟩
        · exact ⟨signal :: a, s, b, by rw [hl]; rfl, .inr hs, hcount⟩

/-- From nothing gathered, the first completion ends a stretch that covers the goal. -/
theorem exists_covers (h : 0 < completions goal ∅ l) :
    ∃ a s b, l = a ++ s ++ b ∧ Covers goal s ∧
      completions goal ∅ l = completions goal ∅ b + 1 := by
  obtain ⟨a, s, b, hl, hs, hb⟩ := exists_first h
  exact ⟨a, s, b, hl, hs.elim (fun hs => completes_empty.mp hs.2) id, hb⟩

section Count

variable (hpos : goal.Nonempty)
include hpos

/-- A stretch that covers the goal adds a completion, whatever came before. -/
theorem completions_pos_of_covers {a s b : List (Signal ι)} (hS : S ⊂ goal)
    (hl : Within goal (a ++ s ++ b)) (hs : Covers goal s) :
    0 < completions goal S (a ++ s ++ b) := by
  have ha : Within goal a := fun i hi => hl i (by simp [hi])
  have hmid : Within goal s := fun i hi => hl i (by simp [hi])
  rw [completions_append, completions_append]
  have := completions_pos_of_completes (gathered_ssubset hpos hS ha) hmid hs.completes
  omega

/-- The gathering is completed exactly when a stretch covers the goal. -/
theorem completions_pos_iff (hl : Within goal l) :
    0 < completions goal ∅ l ↔ ∃ a s b, l = a ++ s ++ b ∧ Covers goal s := by
  constructor
  · intro h
    obtain ⟨a, s, b, hl, hs, -⟩ := exists_covers h
    exact ⟨a, s, b, hl, hs⟩
  · rintro ⟨a, s, b, rfl, hs⟩
    exact completions_pos_of_covers hpos (Finset.empty_ssubset.mpr hpos) hl hs

/-- The gathering is completed twice exactly when two stretches cover the goal one after the
other. -/
theorem one_lt_completions_iff (hl : Within goal l) :
    1 < completions goal ∅ l ↔
      ∃ a s b t c, l = a ++ s ++ (b ++ t ++ c) ∧ Covers goal s ∧ Covers goal t := by
  constructor
  · intro h
    obtain ⟨a, s, rest, hl, hs, hrest⟩ := exists_covers (Nat.zero_lt_of_lt h)
    obtain ⟨b, t, c, rfl, ht, -⟩ := exists_covers (by omega : 0 < completions goal ∅ rest)
    exact ⟨a, s, b, t, c, hl, hs, ht⟩
  · rintro ⟨a, s, b, t, c, rfl, hs, ht⟩
    have hfirst : Within goal (a ++ s) := fun i hi => hl i (List.mem_append_left _ hi)
    have hsecond : Within goal (b ++ t ++ c) := fun i hi => hl i (List.mem_append_right _ hi)
    have hempty := Finset.empty_ssubset.mpr hpos
    have h1 := completions_pos_of_covers (b := []) hpos hempty (by simpa using hfirst) hs
    have h2 := completions_pos_of_covers hpos (gathered_ssubset hpos hempty hfirst) hsecond ht
    rw [List.append_nil] at h1
    rw [completions_append]
    omega

/-- The gathering is completed once exactly when a stretch covers the goal and no two do one after
the other. -/
theorem completions_eq_one_iff (hl : Within goal l) :
    completions goal ∅ l = 1 ↔
      (∃ a s b, l = a ++ s ++ b ∧ Covers goal s) ∧
        ¬ ∃ a s b t c, l = a ++ s ++ (b ++ t ++ c) ∧ Covers goal s ∧ Covers goal t := by
  rw [← completions_pos_iff hpos hl, ← one_lt_completions_iff hpos hl]
  omega

end Count

end Gathering

end Primadb

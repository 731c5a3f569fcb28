import Mathlib.Logic.Relation
import Primadb.Core.Collections

/-!
# Worklists

A stack of pending elements is worked off: an element that was not met before is recorded and
its successors are pushed. When only the listed elements have successors, the loop ends and
records exactly what is reachable from the stack.
-/

namespace Primadb.Worklist

variable {κ : Type} (succ : κ → List κ)

/-- Reachability along successors. -/
def Reach : κ → κ → Prop := Relation.ReflTransGen fun a b => b ∈ succ a

variable [Ord κ] [Std.TransOrd κ]

/-- The loop; the fuel bounds the number of elements popped. -/
def loop : ℕ → BTreeSet κ → List κ → BTreeSet κ
  | 0, reached, _ => reached
  | _ + 1, reached, [] => reached
  | fuel + 1, reached, top :: pending =>
    if reached.contains top then loop fuel reached pending
    else loop fuel (reached.insert top) ((succ top).reverse ++ pending)

/-- The successors of the listed elements that were not met yet, and the pending ones. -/
def remaining (keys : List κ) (reached : BTreeSet κ) (pending : List κ) : ℕ :=
  pending.length + ((keys.filter fun key => !reached.contains key).map fun key =>
    (succ key).length).sum

/-- The successors of recorded elements are recorded or pending. -/
def Inv (reached : BTreeSet κ) (pending : List κ) : Prop :=
  ∀ a ∈ reached, ∀ b ∈ succ a, b ∈ reached ∨ b ∈ pending

variable {succ} [Std.LawfulEqOrd κ] [DecidableEq κ]

variable {reached : BTreeSet κ} {pending : List κ} {keys : List κ} {fuel : ℕ}

/-- Recording an element takes its successors from what remains. -/
theorem sum_insert_le (hnodup : keys.Nodup) (hkeys : ∀ key, key ∉ keys → succ key = []) {top : κ}
    (htop : reached.contains top = false) :
    (((keys.filter fun key => !(reached.insert top).contains key).map fun key =>
      (succ key).length).sum + (succ top).length) ≤
    ((keys.filter fun key => !reached.contains key).map fun key => (succ key).length).sum := by
  by_cases hmem : top ∈ keys
  · obtain ⟨before, after, rfl⟩ := List.append_of_mem hmem
    have hother : ∀ part : List κ, top ∉ part →
        (part.filter fun key => !(reached.insert top).contains key) =
          part.filter fun key => !reached.contains key := by
      intro part hpart
      refine List.filter_congr fun key hkey => ?_
      have hne : top ≠ key := fun h => hpart (h ▸ hkey)
      simp [hne]
    have hbefore : top ∉ before := fun h =>
      List.disjoint_of_nodup_append hnodup h List.mem_cons_self
    have hafter : top ∉ after := (List.nodup_cons.mp hnodup.of_append_right).1
    simp only [List.filter_append, List.filter_cons]
    rw [hother before hbefore, hother after hafter]
    simp only [BTreeSet.contains_insert, decide_true, Bool.true_or, Bool.not_true,
      Bool.false_eq_true, if_false, htop, Bool.not_false, if_true, List.map_append, List.map_cons,
      List.sum_append, List.sum_cons]
    omega
  · rw [hkeys top hmem, List.length_nil, Nat.add_zero]
    refine le_of_eq (congrArg List.sum (congrArg _ (List.filter_congr fun key hkey => ?_)))
    have hne : top ≠ key := fun h => hmem (h ▸ hkey)
    simp [hne]

/-- With enough fuel the result contains what was recorded or pending and is closed under
successors. -/
theorem loop_closed (hnodup : keys.Nodup) (hkeys : ∀ key, key ∉ keys → succ key = [])
    (hfuel : remaining succ keys reached pending ≤ fuel) (hinv : Inv succ reached pending) :
    (∀ k, k ∈ reached ∨ k ∈ pending → k ∈ loop succ fuel reached pending) ∧
      Inv succ (loop succ fuel reached pending) [] := by
  have hdone : ∀ reached : BTreeSet κ, Inv succ reached [] →
      (∀ k, k ∈ reached ∨ k ∈ ([] : List κ) → k ∈ reached) ∧ Inv succ reached [] :=
    fun reached h => ⟨fun k hk => hk.resolve_right List.not_mem_nil, h⟩
  induction fuel generalizing reached pending with
  | zero =>
    cases pending with
    | nil => exact hdone reached hinv
    | cons top pending =>
      simp only [remaining, List.length_cons] at hfuel
      omega
  | succ fuel ih =>
    cases pending with
    | nil => exact hdone reached hinv
    | cons top pending =>
      simp only [loop]
      split
      · rename_i htop
        have htop : top ∈ reached := htop
        have hfuel' : remaining succ keys reached pending ≤ fuel := by
          simp only [remaining, List.length_cons] at hfuel ⊢
          omega
        have hinv' : Inv succ reached pending := by
          intro a ha b hb
          rcases hinv a ha b hb with h | h
          · exact Or.inl h
          · rcases List.mem_cons.mp h with rfl | h
            · exact Or.inl htop
            · exact Or.inr h
        obtain ⟨hcontains, hclosed⟩ := ih hfuel' hinv'
        refine ⟨fun k hk => hcontains k ?_, hclosed⟩
        rcases hk with hk | hk
        · exact Or.inl hk
        · rcases List.mem_cons.mp hk with rfl | hk
          · exact Or.inl htop
          · exact Or.inr hk
      · rename_i htop
        have htop : reached.contains top = false := Bool.eq_false_iff.mpr htop
        have hfuel' : remaining succ keys (reached.insert top) ((succ top).reverse ++ pending) ≤
            fuel := by
          have := sum_insert_le hnodup hkeys htop
          simp only [remaining, List.length_cons, List.length_append, List.length_reverse]
            at hfuel ⊢
          omega
        have hmem : ∀ k, k ∈ reached.insert top ↔ k = top ∨ k ∈ reached := by
          intro k
          rw [Std.ExtTreeSet.mem_insert, Std.compare_eq_iff_eq, eq_comm]
        have hinv' : Inv succ (reached.insert top) ((succ top).reverse ++ pending) := by
          intro a ha b hb
          rcases (hmem a).mp ha with rfl | ha
          · exact Or.inr (List.mem_append_left _ (List.mem_reverse.mpr hb))
          · rcases hinv a ha b hb with h | h
            · exact Or.inl ((hmem b).mpr (Or.inr h))
            · rcases List.mem_cons.mp h with rfl | h
              · exact Or.inl ((hmem b).mpr (Or.inl rfl))
              · exact Or.inr (List.mem_append_right _ h)
        obtain ⟨hcontains, hclosed⟩ := ih hfuel' hinv'
        refine ⟨fun k hk => hcontains k ?_, hclosed⟩
        rcases hk with hk | hk
        · exact Or.inl ((hmem k).mpr (Or.inr hk))
        · rcases List.mem_cons.mp hk with rfl | hk
          · exact Or.inl ((hmem k).mpr (Or.inl rfl))
          · exact Or.inr (List.mem_append_right _ hk)

omit [DecidableEq κ] in
/-- The loop records only what was recorded or is reachable from the stack. -/
theorem reach_of_mem_loop {k : κ} (h : k ∈ loop succ fuel reached pending) :
    k ∈ reached ∨ ∃ p ∈ pending, Reach succ p k := by
  induction fuel generalizing reached pending with
  | zero => exact Or.inl h
  | succ fuel ih =>
    cases pending with
    | nil => exact Or.inl h
    | cons top pending =>
      simp only [loop] at h
      split at h
      · rcases ih h with h | ⟨p, hp, h⟩
        · exact Or.inl h
        · exact Or.inr ⟨p, List.mem_cons_of_mem _ hp, h⟩
      · rcases ih h with h | ⟨p, hp, h⟩
        · rw [Std.ExtTreeSet.mem_insert, Std.compare_eq_iff_eq] at h
          rcases h with rfl | h
          · exact Or.inr ⟨_, List.mem_cons_self, .refl⟩
          · exact Or.inl h
        · rcases List.mem_append.mp hp with hp | hp
          · exact Or.inr ⟨top, List.mem_cons_self, .head (List.mem_reverse.mp hp) h⟩
          · exact Or.inr ⟨p, List.mem_cons_of_mem _ hp, h⟩

omit [Ord κ] [Std.TransOrd κ] [Std.LawfulEqOrd κ] [DecidableEq κ] in
/-- What is reachable from a closed set lies in it. -/
theorem mem_of_reach {S : κ → Prop} (hclosed : ∀ a, S a → ∀ b ∈ succ a, S b) {a b : κ}
    (ha : S a) (h : Reach succ a b) : S b := by
  induction h with
  | refl => exact ha
  | tail _ hstep ih => exact hclosed _ ih _ hstep

/-- From an empty record the loop computes reachability. -/
theorem mem_loop_iff (hnodup : keys.Nodup) (hkeys : ∀ key, key ∉ keys → succ key = [])
    (hfuel : remaining succ keys ∅ pending ≤ fuel) (k : κ) :
    k ∈ loop succ fuel ∅ pending ↔ ∃ p ∈ pending, Reach succ p k := by
  obtain ⟨hcontains, hclosed⟩ := loop_closed hnodup hkeys hfuel
    (fun a ha => absurd ha Std.ExtTreeSet.not_mem_empty)
  constructor
  · intro h
    exact (reach_of_mem_loop h).resolve_left Std.ExtTreeSet.not_mem_empty
  · rintro ⟨p, hp, h⟩
    refine mem_of_reach (S := fun k => k ∈ loop succ fuel ∅ pending) (fun a ha b hb => ?_)
      (hcontains p (Or.inr hp)) h
    exact (hclosed a ha b hb).resolve_right List.not_mem_nil

end Primadb.Worklist

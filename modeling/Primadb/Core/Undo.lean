import Primadb.Core.Collections

/-!
# Undo journals

A journal notes the old value of a key before the first change of that key. While
every change is preceded by a note, writing the noted values back restores the old
contents, whatever happened in between.
-/

namespace Primadb

open Std

variable {κ ν σ : Type} [Ord κ] [TransOrd κ] [LawfulEqOrd κ] [DecidableEq κ]

/-- Note a value unless the key is noted already. -/
def noteOnce (journal : BTreeMap κ ν) (k : κ) (v : ν) : BTreeMap κ ν :=
  if journal.contains k then journal else journal.insert k v

/-- Noted keys have their old value in the journal, the others still have it. -/
def Recorded (journal : BTreeMap κ ν) (old new : κ → ν) : Prop :=
  ∀ k : κ,
    match journal[k]? with
    | some v => v = old k
    | none => new k = old k

namespace Recorded

variable {journal : BTreeMap κ ν} {old new new' : κ → ν}

omit [DecidableEq κ] [LawfulEqOrd κ] in
theorem start : Recorded (∅ : BTreeMap κ ν) old old := by
  intro k
  simp

/-- A value noted before its change is recorded. -/
theorem note (h : Recorded journal old new) (k : κ) :
    Recorded (noteOnce journal k (new k)) old new := by
  rw [noteOnce]
  split
  · exact h
  · rename_i hk
    intro a
    rw [BTreeMap.get_insert]
    by_cases ha : k = a
    · subst ha
      have hnone : journal[k]? = none := by
        rw [ExtTreeMap.contains_eq_isSome_getElem?, Option.isSome_iff_exists] at hk
        exact Option.eq_none_iff_forall_ne_some.mpr fun v hv => hk ⟨v, hv⟩
      have hold := h k
      rw [hnone] at hold
      rw [if_pos rfl]
      exact hold
    · rw [if_neg ha]
      exact h a

omit [DecidableEq κ] [LawfulEqOrd κ] in
/-- Noted keys may change. -/
theorem change (h : Recorded journal old new)
    (hnew : ∀ k, journal.contains k = false → new' k = new k) : Recorded journal old new' := by
  intro k
  have hk := h k
  cases hj : journal[k]? with
  | some v => rwa [hj] at hk
  | none =>
    rw [hj] at hk
    exact (hnew k (by rw [ExtTreeMap.contains_eq_isSome_getElem?, hj]; rfl)).trans hk

/-- Writing the noted values back restores the old contents. -/
theorem restore (read : σ → κ → ν) (write : σ → κ → ν → σ)
    (hread : ∀ s k v a, read (write s k v) a = if k = a then v else read s a) {s : σ}
    (h : Recorded journal old (read s)) (k : κ) :
    read (journal.toList.foldl (fun s entry => write s entry.1 entry.2) s) k = old k := by
  rw [BTreeMap.foldl_toList_at journal (π := (read · k)) (g := fun _ v => v)
    (fun s a v _ => hread s a v k)]
  have hk := h k
  cases hj : journal[k]? with
  | some v => rwa [hj] at hk
  | none => rwa [hj] at hk

end Recorded

/-- The keys noted. -/
theorem contains_noteOnce (journal : BTreeMap κ ν) (k a : κ) (v : ν) :
    (noteOnce journal k v).contains a = (decide (k = a) || journal.contains a) := by
  rw [noteOnce]
  split
  · rename_i hk
    by_cases ha : k = a
    · subst ha
      simp [hk]
    · simp [ha]
  · simp only [ExtTreeMap.contains_eq_isSome_getElem?, BTreeMap.get_insert]
    by_cases ha : k = a <;> simp [ha]

end Primadb

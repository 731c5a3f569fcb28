import Mathlib.Data.List.Nodup
import Mathlib.Data.Set.Basic
import Mathlib.Order.Basic
import Mathlib.Order.Nat
import Mathlib.Data.Nat.Find

/-!
# Ways and distances

A way leads from a start along steps; it is kept with all elements it passes. The distance of an
element is the length of the shortest ways to it.
-/

namespace Primadb

variable {κ : Type*} {starts : Set κ} {step : κ → κ → Prop}

/-- A way from a start along steps to an element. -/
inductive Way (starts : Set κ) (step : κ → κ → Prop) : List κ → κ → Prop
  | start {a : κ} : a ∈ starts → Way starts step [a] a
  | snoc {path : List κ} {a b : κ} : Way starts step path a → step a b →
      Way starts step (path ++ [b]) b

/-- The element lies this many steps from the starts, and not fewer. -/
structure IsDistance (starts : Set κ) (step : κ → κ → Prop) (a : κ) (d : ℕ) : Prop where
  /-- A shortest way. -/
  way : ∃ path, Way starts step path a ∧ path.length = d + 1
  /-- No way is shorter. -/
  least : ∀ path, Way starts step path a → d + 1 ≤ path.length

/-- A distance is unique. -/
theorem IsDistance.unique {a : κ} {d d' : ℕ} (h : IsDistance starts step a d)
    (h' : IsDistance starts step a d') : d = d' := by
  obtain ⟨path, hpath, hlength⟩ := h.way
  obtain ⟨path', hpath', hlength'⟩ := h'.way
  have hle := h.least path' hpath'
  have hle' := h'.least path hpath
  omega

/-- A way of this many steps that passes no element twice. -/
structure SimpleWay (starts : Set κ) (step : κ → κ → Prop) (path : List κ) (a : κ) (d : ℕ) :
    Prop where
  way : Way starts step path a
  /-- Nothing is passed twice. -/
  nodup : path.Nodup
  /-- The number of steps. -/
  length : path.length = d + 1

/-- A simple way goes on to an element it has not passed. -/
theorem SimpleWay.snoc {path : List κ} {a b : κ} {d : ℕ} (h : SimpleWay starts step path a d)
    (hstep : step a b) (hnew : b ∉ path) : SimpleWay starts step (path ++ [b]) b (d + 1) where
  way := h.way.snoc hstep
  nodup := List.nodup_append.mpr ⟨h.nodup, List.nodup_singleton b, fun x hx y hy hxy =>
    hnew (List.mem_singleton.mp hy ▸ hxy ▸ hx)⟩
  length := by rw [List.length_append, List.length_singleton, h.length]

namespace Way

variable {path : List κ} {a : κ}

private theorem mem (h : Way starts step path a) : a ∈ path := by
  cases h with
  | start _ => exact List.mem_singleton.mpr rfl
  | snoc _ _ => exact List.mem_append_right _ (List.mem_singleton.mpr rfl)

theorem length_pos (h : Way starts step path a) : 1 ≤ path.length :=
  List.length_pos_of_mem h.mem

/-- A way of one node is a start. -/
theorem mem_starts (h : Way starts step path a) (hlength : path.length = 1) : a ∈ starts := by
  cases h with
  | start ha => exact ha
  | snoc hway _ =>
    have := hway.length_pos
    rw [List.length_append, List.length_singleton] at hlength
    omega

/-- What holds of the starts and goes over along steps from elements that can be left holds at
the end of every way. -/
theorem induct {P : κ → Prop} (hstarts : ∀ a ∈ starts, P a) (hstep : ∀ a b, P a → step a b → P b)
    (h : Way starts step path a) : P a := by
  induction h with
  | start ha => exact hstarts _ ha
  | snoc _ hab ih => exact hstep _ _ ih hab

private theorem exists_distance (h : Way starts step path a) :
    ∃ d, IsDistance starts step a d ∧ d + 1 ≤ path.length := by
  classical
  have hex : ∃ n, ∃ path, Way starts step path a ∧ path.length = n + 1 :=
    ⟨path.length - 1, path, h, by have := h.length_pos; omega⟩
  have hleast : ∀ other, Way starts step other a → Nat.find hex + 1 ≤ other.length := by
    intro other hother
    have hpos := hother.length_pos
    have hle := Nat.find_le (h := hex) (n := other.length - 1) ⟨other, hother, by omega⟩
    omega
  exact ⟨Nat.find hex, ⟨Nat.find_spec hex, hleast⟩, hleast path h⟩

end Way

/-- Where the starts are done or pending, and the elements behind a done one are done or pending
at most one level later, a way leads to a done element or past a pending level. -/
theorem Way.done_or_pending {D : κ → Prop} {P : ℕ → Prop} {bound : ℕ}
    (hmono : ∀ {m n}, m ≤ n → P m → P n)
    (hstarts : ∀ a ∈ starts, D a ∨ P 0)
    (hstep : ∀ a b d, D a → IsDistance starts step a d → d < bound → step a b →
      D b ∨ P (d + 1))
    {path : List κ} {a : κ} (h : Way starts step path a) (hbound : path.length ≤ bound + 1) :
    D a ∨ P (path.length - 1) := by
  induction h with
  | start ha => exact hstarts _ ha
  | @snoc path a b hway hab ih =>
    rw [List.length_append, List.length_singleton] at hbound ⊢
    have hpos := hway.length_pos
    rcases ih (by omega) with hdone | hpending
    · obtain ⟨d, hd, hle⟩ := hway.exists_distance
      refine (hstep a b d hdone hd (by omega) hab).imp_right (hmono ?_)
      omega
    · exact .inr (hmono (by omega) hpending)

end Primadb

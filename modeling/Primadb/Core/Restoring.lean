import Mathlib.Data.List.Basic

/-!
# Programs that give back what they change

A program over a part that it changes on the way and a part that it leaves within an invariant. It
restores the first part when it returns with it as it was. Sequences and loops of such programs are
such programs.
-/

namespace Primadb

variable {V T α β : Type}

/-- From the part `v`, the program returns `a` with the part as it was, and keeps the invariant of
the rest. -/
def Restores (I : T → Prop) (v : V) (m : StateT (V × T) Option α) (a : α) : Prop :=
  ∀ t, I t → ∃ u, I u ∧ m (v, t) = some (a, (v, u))

namespace Restores

variable {I : T → Prop} {v : V}

theorem pure (a : α) : Restores I v (Pure.pure a) a := fun t ht => ⟨t, ht, rfl⟩

/-- Two steps that restore, one after the other. -/
theorem bind {m : StateT (V × T) Option α} {f : α → StateT (V × T) Option β} {a : α} {b : β}
    (hm : Restores I v m a) (hf : Restores I v (f a) b) : Restores I v (m >>= f) b := by
  intro t ht
  obtain ⟨u, hu, hmu⟩ := hm t ht
  obtain ⟨w, hw, hfw⟩ := hf u hu
  refine ⟨w, hw, ?_⟩
  change (m (v, t)).bind (fun p => f p.1 p.2) = _
  rw [hmu]
  exact hfw

/-- A program for every element of a list. -/
theorem mapM {f : β → StateT (V × T) Option α} {g : β → α} {l : List β}
    (h : ∀ b ∈ l, Restores I v (f b) (g b)) : Restores I v (l.mapM f) (l.map g) := by
  induction l with
  | nil => exact pure []
  | cons b l ih =>
    rw [List.mapM_cons]
    refine (h b List.mem_cons_self).bind (.bind (ih fun c hc => h c (List.mem_cons_of_mem _ hc)) ?_)
    exact pure _

/-- A fold of steps that restore. -/
theorem foldlM {f : α → β → StateT (V × T) Option α} {g : α → β → α} {l : List β}
    (h : ∀ b ∈ l, ∀ a, Restores I v (f a b) (g a b)) (a : α) :
    Restores I v (l.foldlM f a) (l.foldl g a) := by
  induction l generalizing a with
  | nil => exact pure a
  | cons b l ih =>
    rw [List.foldlM_cons, List.foldl_cons]
    exact (h b List.mem_cons_self a).bind (ih (fun c hc => h c (List.mem_cons_of_mem _ hc)) _)

end Restores

end Primadb

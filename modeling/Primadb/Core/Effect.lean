import Primadb.Core.Collections

/-!
# State that survives failure

A computation reads and writes a state and ends with a value or an error; the
state reached so far is kept in both cases, as with an exclusive borrow whose
owner returns early. Two rules are built up along sequencing: a unary one, that
every step moves the state along a preorder, and a binary one, that runs of two
systems from related states give equal answers and related states.
-/

namespace Primadb

variable {σ ε α β : Type}

/-- A sequence of checks that passes, part by part. -/
theorem except_bind_eq_ok {m : Except ε α} {f : α → Except ε β} {b : β}
    (h : (m >>= f) = .ok b) : ∃ a, m = .ok a ∧ f a = .ok b := by
  cases m with
  | error e => cases h
  | ok a => exact ⟨a, rfl, h⟩

/-- A computation on a state that is kept also when it fails. -/
def Effect (σ ε α : Type) := σ → Except ε α × σ

namespace Effect

/-- Return a value and leave the state alone. -/
protected def pure (a : α) : Effect σ ε α := fun s => (.ok a, s)

/-- Continue with the value of a computation that succeeded. -/
protected def bind (m : Effect σ ε α) (f : α → Effect σ ε β) : Effect σ ε β := fun s =>
  match m s with
  | (.ok a, s) => f a s
  | (.error e, s) => (.error e, s)

instance : Monad (Effect σ ε) where
  pure := Effect.pure
  bind := Effect.bind

/-- Fail with an error. -/
def fail (e : ε) : Effect σ ε α := fun s => (.error e, s)

/-- Read the state. -/
def get : Effect σ ε σ := fun s => (.ok s, s)

/-- Read a part of the state. -/
def gets (f : σ → α) : Effect σ ε α := fun s => (.ok (f s), s)

/-- Change the state. -/
def modify (f : σ → σ) : Effect σ ε Unit := fun s => (.ok (), f s)

/-- Run a state transformer that cannot fail. -/
def lift (f : σ → α × σ) : Effect σ ε α := fun s => (.ok (f s).1, (f s).2)

/-- The outcome of a pure check. -/
def ofExcept (r : Except ε α) : Effect σ ε α := fun s => (r, s)

@[simp] theorem pure_apply (a : α) (s : σ) : (pure a : Effect σ ε α) s = (.ok a, s) := rfl

theorem bind_apply (m : Effect σ ε α) (f : α → Effect σ ε β) (s : σ) :
    (m >>= f) s =
      match m s with
      | (.ok a, s) => f a s
      | (.error e, s) => (.error e, s) := rfl

/-- After a success the rest runs. -/
theorem bind_ok {m : Effect σ ε α} {f : α → Effect σ ε β} {s t : σ} {a : α}
    (h : m s = (.ok a, t)) : (m >>= f) s = f a t := by rw [bind_apply, h]

/-- After an error nothing runs. -/
theorem bind_error {m : Effect σ ε α} {f : α → Effect σ ε β} {s t : σ} {e : ε}
    (h : m s = (.error e, t)) : (m >>= f) s = (.error e, t) := by rw [bind_apply, h]

theorem get_bind (f : σ → Effect σ ε β) (s : σ) :
    ((get : Effect σ ε σ) >>= f) s = f s s := rfl

theorem gets_bind (g : σ → α) (f : α → Effect σ ε β) (s : σ) :
    ((gets g : Effect σ ε α) >>= f) s = f (g s) s := rfl

/-- Ending in the unit value adds nothing. -/
theorem bind_pure_unit (m : Effect σ ε PUnit) : (m >>= fun _ => pure ⟨⟩) = m := by
  funext s
  rw [bind_apply]
  rcases m s with ⟨_ | _, _⟩ <;> rfl

theorem forM_cons (f : β → Effect σ ε PUnit) (b : β) (l : List β) :
    (b :: l).forM f = f b >>= fun _ => l.forM f := rfl

theorem forM_singleton (f : β → Effect σ ε PUnit) (b : β) : [b].forM f = f b :=
  bind_pure_unit (f b)

/-- A sequence that succeeds, part by part. -/
theorem bind_eq_ok {m : Effect σ ε α} {f : α → Effect σ ε β} {s u : σ} {b : β}
    (h : (m >>= f) s = (.ok b, u)) : ∃ a t, m s = (.ok a, t) ∧ f a t = (.ok b, u) := by
  rw [bind_apply] at h
  rcases hm : m s with ⟨e | a, t⟩
  · rw [hm] at h
    cases h
  · rw [hm] at h
    exact ⟨a, t, rfl, h⟩

private theorem bind_assoc {γ : Type} (m : Effect σ ε α) (f : α → Effect σ ε β)
    (g : β → Effect σ ε γ) : (m >>= f) >>= g = m >>= fun a => f a >>= g := by
  funext s
  rw [bind_apply, bind_apply, bind_apply]
  rcases m s with ⟨_ | _, _⟩ <;> rfl

/-- Two lists one after the other. -/
theorem forM_append (f : β → Effect σ ε PUnit) (l m : List β) :
    (l ++ m).forM f = l.forM f >>= fun _ => m.forM f := by
  induction l with
  | nil => rfl
  | cons b l ih =>
    rw [List.cons_append, forM_cons, forM_cons, ih, bind_assoc]

/-- The elements of many lists one after the other. -/
theorem forM_flatMap (f : β → Effect σ ε PUnit) (g : α → List β) (l : List α) :
    (l.flatMap g).forM f = l.forM fun a => (g a).forM f := by
  induction l with
  | nil => rfl
  | cons a l ih => rw [List.flatMap_cons, forM_append, forM_cons, ih]

/-- Every run moves the state along `R`. -/
def Keeps (R : σ → σ → Prop) (m : Effect σ ε α) : Prop := ∀ s, R s (m s).2

/-- A relation that composes along runs. -/
structure Composes (R : σ → σ → Prop) : Prop where
  refl : ∀ s, R s s
  trans : ∀ {s t u}, R s t → R t u → R s u

namespace Composes

variable {R : σ → σ → Prop} (h : Composes R)
include h

theorem pure (a : α) : Keeps R (pure a : Effect σ ε α) := h.refl

theorem fail (e : ε) : Keeps R (fail e : Effect σ ε α) := h.refl

theorem get : Keeps R (get : Effect σ ε σ) := h.refl

theorem ofExcept (r : Except ε α) : Keeps R (ofExcept r : Effect σ ε α) := h.refl

/-- One action after another. -/
theorem bind {m : Effect σ ε α} {f : α → Effect σ ε β} (hm : Keeps R m)
    (hf : ∀ a, Keeps R (f a)) : Keeps R (m >>= f) := by
  intro s
  have hs := hm s
  rw [bind_apply]
  rcases hms : m s with ⟨r, t⟩
  rw [hms] at hs
  cases r with
  | ok a => exact h.trans hs (hf a t)
  | error e => exact hs

/-- An action for each element. -/
theorem forM {f : β → Effect σ ε PUnit} (hf : ∀ b, Keeps R (f b)) (l : List β) :
    Keeps R (l.forM f) := by
  induction l with
  | nil => exact h.pure _
  | cons b l ih => exact h.bind (hf b) fun _ => ih

end Composes

section Lockstep

variable {τ : Type}

/-- Runs from states related by `P` give equal answers, and states related as `Q` says for the
answer. -/
def Lockstep (P : σ → τ → Prop) (m : Effect σ ε α) (m' : Effect τ ε α)
    (Q : Except ε α → σ → τ → Prop) : Prop :=
  ∀ s t, P s t → (m s).1 = (m' t).1 ∧ Q (m s).1 (m s).2 (m' t).2

namespace Lockstep

variable {P : σ → τ → Prop} {Q : Except ε α → σ → τ → Prop} {S : Except ε β → σ → τ → Prop}

theorem pure (a : α) (h : ∀ s t, P s t → Q (.ok a) s t) :
    Lockstep P (pure a : Effect σ ε α) (pure a : Effect τ ε α) Q := fun s t hst => ⟨rfl, h s t hst⟩

theorem fail (e : ε) (h : ∀ s t, P s t → Q (.error e) s t) :
    Lockstep P (fail e : Effect σ ε α) (fail e : Effect τ ε α) Q := fun s t hst => ⟨rfl, h s t hst⟩

theorem bind {m : Effect σ ε α} {m' : Effect τ ε α} {f : α → Effect σ ε β} {f' : α → Effect τ ε β}
    (hm : Lockstep P m m' Q) (hf : ∀ a, Lockstep (Q (.ok a)) (f a) (f' a) S)
    (hQ : ∀ e s t, Q (.error e) s t → S (.error e) s t) : Lockstep P (m >>= f) (m' >>= f') S := by
  intro s t hst
  obtain ⟨h1, h2⟩ := hm s t hst
  simp only [bind_apply]
  rcases hs : m s with ⟨r, s'⟩
  rcases ht : m' t with ⟨r', t'⟩
  rw [hs, ht] at h1 h2
  simp only at h1 h2
  subst h1
  cases r with
  | ok a => exact hf a s' t' h2
  | error e => exact ⟨rfl, hQ e s' t' h2⟩

end Lockstep

end Lockstep

end Effect

end Primadb

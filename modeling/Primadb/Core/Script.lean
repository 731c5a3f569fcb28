import Primadb.Core.Effect

/-!
# Programs that issue commands

A script is a tree: it ends with a value or an error, or issues a command and goes
on with the answer. A handler gives every command an effect on a state, and running
a script threads the state through. What holds of every command of a handler holds
of every script, so a program is written once and run against several handlers.
-/

namespace Primadb

/-- A program over commands `κ`, where command `c` is answered by a value of `ρ c`. -/
inductive Script (κ : Type) (ρ : κ → Type) (ε α : Type) where
  | pure (a : α)
  | fail (e : ε)
  | call (c : κ) (next : ρ c → Script κ ρ ε α)

namespace Script

variable {κ : Type} {ρ : κ → Type} {ε α β γ σ τ : Type}

/-- Go on with the value of a script. -/
protected def bind : Script κ ρ ε α → (α → Script κ ρ ε β) → Script κ ρ ε β
  | .pure a, f => f a
  | .fail e, _ => .fail e
  | .call c next, f => .call c fun answer => (next answer).bind f

instance : Monad (Script κ ρ ε) where
  pure := Script.pure
  bind := Script.bind

/-- Issue one command. -/
def issue (c : κ) : Script κ ρ ε (ρ c) := .call c .pure

/-- The outcome of a pure check. -/
def ofExcept : Except ε α → Script κ ρ ε α
  | .ok a => .pure a
  | .error e => .fail e

/-- The effect of every command on a state. -/
abbrev Handler (κ : Type) (ρ : κ → Type) (σ ε : Type) := (c : κ) → Effect σ ε (ρ c)

/-- Run a script against a handler. -/
def run (handler : Handler κ ρ σ ε) : Script κ ρ ε α → Effect σ ε α
  | .pure a => Effect.pure a
  | .fail e => Effect.fail e
  | .call c next => Effect.bind (handler c) fun answer => (next answer).run handler

section Run

variable (handler : Handler κ ρ σ ε)

@[simp] theorem run_pure (a : α) :
    (Pure.pure a : Script κ ρ ε α).run handler = Pure.pure a := rfl

@[simp] theorem run_fail (e : ε) : (fail e : Script κ ρ ε α).run handler = Effect.fail e := rfl

@[simp] theorem run_ofExcept (r : Except ε α) :
    (ofExcept r : Script κ ρ ε α).run handler = Effect.ofExcept r := by
  cases r <;> rfl

@[simp] theorem run_issue (c : κ) : (issue c : Script κ ρ ε (ρ c)).run handler = handler c := by
  funext s
  simp only [issue, run, Effect.bind]
  rcases handler c s with ⟨r | r, t⟩ <;> rfl

/-- Running a sequence is running one part after the other. -/
@[simp] theorem run_bind (m : Script κ ρ ε α) (f : α → Script κ ρ ε β) :
    (m >>= f).run handler = m.run handler >>= fun a => (f a).run handler := by
  induction m with
  | pure a => rfl
  | fail e => rfl
  | call c next ih =>
    funext s
    change Effect.bind (handler c) (fun answer => ((next answer) >>= f).run handler) s = _
    simp only [ih]
    change _ = Effect.bind (Effect.bind _ _) _ s
    simp only [Effect.bind]
    rcases handler c s with ⟨r | r, t⟩ <;> rfl

end Run

variable {handler : Handler κ ρ σ ε} {allowed : κ → Prop} {m : Script κ ρ ε α}

/-- A relation kept by every command is kept by every script. -/
theorem keeps {R : σ → σ → Prop} (h : Effect.Composes R) (hstep : ∀ c, Effect.Keeps R (handler c))
    (m : Script κ ρ ε α) :
    Effect.Keeps R (m.run handler) := by
  induction m with
  | pure a => exact h.pure a
  | fail e => exact h.fail e
  | call c next ih => exact h.bind (hstep c) ih

/-- A property kept by every command is kept by every script. -/
theorem preserves {I : σ → Prop} (hstep : ∀ c s, I s → I (handler c s).2) (m : Script κ ρ ε α)
    {s : σ} (hs : I s) :
    I (m.run handler s).2 :=
  keeps (R := fun s t => I s → I t) ⟨fun _ h => h, fun hst htu h => htu (hst h)⟩ hstep m s hs

/-- Every command the script can issue is an allowed one. -/
def Only (allowed : κ → Prop) : Script κ ρ ε α → Prop
  | .pure _ => True
  | .fail _ => True
  | .call c next => allowed c ∧ ∀ answer, (next answer).Only allowed

theorem only_of_forall (h : ∀ c, allowed c) (m : Script κ ρ ε α) : m.Only allowed := by
  induction m with
  | pure | fail => exact trivial
  | call c next ih => exact ⟨h c, ih⟩

theorem only_issue {c : κ} (h : allowed c) :
    (issue c : Script κ ρ ε (ρ c)).Only allowed :=
  ⟨h, fun _ => trivial⟩

/-- Scripts of allowed commands in sequence. -/
theorem Only.bind {f : α → Script κ ρ ε β} (hm : m.Only allowed) (hf : ∀ a, (f a).Only allowed) :
    (m >>= f).Only allowed := by
  induction m with
  | pure a => exact hf a
  | fail e => exact trivial
  | call c next ih => exact ⟨hm.1, fun answer => ih answer (hm.2 answer)⟩

/-- A check of allowed commands for every element of a list. -/
theorem Only.forM {f : β → Script κ ρ ε PUnit} (l : List β) (hf : ∀ b ∈ l, (f b).Only allowed) :
    (l.forM f).Only allowed := by
  induction l with
  | nil => exact trivial
  | cons b l ih =>
    exact (hf b List.mem_cons_self).bind fun _ => ih fun b hb => hf b (List.mem_cons_of_mem _ hb)

/-- A property kept by the allowed commands is kept by every script of such commands. -/
theorem Only.preserves {I : σ → Prop} (hstep : ∀ c s, allowed c → I s → I (handler c s).2)
    (hm : m.Only allowed) {s : σ} (hs : I s) : I (m.run handler s).2 := by
  induction m generalizing s with
  | pure a => exact hs
  | fail e => exact hs
  | call c next ih =>
    have ht := hstep c s hm.1 hs
    rw [run, Effect.bind]
    rcases hc : handler c s with ⟨r | r, t⟩ <;> rw [hc] at ht
    · exact ht
    · exact ih r (hm.2 r) ht

/-- Two handlers that answer the allowed commands alike and keep a relation run every script of
such commands alike. -/
theorem Only.lockstep {handler' : Handler κ ρ τ ε} {P : σ → τ → Prop}
    (hstep : ∀ c, allowed c → Effect.Lockstep P (handler c) (handler' c) fun _ => P)
    (hm : m.Only allowed) :
    Effect.Lockstep P (m.run handler) (m.run handler') fun _ => P := by
  induction m with
  | pure a => exact Effect.Lockstep.pure a fun _ _ h => h
  | fail e => exact Effect.Lockstep.fail e fun _ _ h => h
  | call c next ih =>
    exact Effect.Lockstep.bind (hstep c hm.1) (fun answer => ih answer (hm.2 answer))
      fun _ _ _ h => h

/-- What is noted about the commands along a run, each in the state it is issued in. -/
def notes (handler : Handler κ ρ σ ε) (note : κ → σ → List γ) : Script κ ρ ε α → σ → List γ
  | .pure _, _ => []
  | .fail _, _ => []
  | .call c next, s => note c s ++
    match handler c s with
    | (.ok answer, t) => (next answer).notes handler note t
    | (.error _, _) => []

/-- A property of state and notes that every command keeps holds after every script. -/
theorem notes_invariant (handler : Handler κ ρ σ ε) (note : κ → σ → List γ)
    (I : σ → List γ → Prop)
    (hstep : ∀ c s l, I s l → I (handler c s).2 (l ++ note c s)) (m : Script κ ρ ε α) {s : σ}
    {l : List γ} (h : I s l) : I (m.run handler s).2 (l ++ m.notes handler note s) := by
  induction m generalizing s l with
  | pure a => simpa [run, notes, Effect.pure] using h
  | fail e => simpa [run, notes, Effect.fail] using h
  | call c next ih =>
    have ht := hstep c s l h
    simp only [run, notes, Effect.bind, ← List.append_assoc]
    rcases hc : handler c s with ⟨r | r, t⟩ <;> rw [hc] at ht
    · simpa using ht
    · exact ih r ht

end Script

end Primadb

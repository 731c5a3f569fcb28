import Primadb.Data.CompactedQueue
import Primadb.Db.Command

/-!
# What a write call can do to the state

Every write call is a sequence of elementary steps: load a node, create a node,
issue a node id, apply a locally issued operation, apply a remote one, and a final
persist. A relation that is closed under these steps holds between the
states before and after any call, whether the call succeeds or fails.
-/

namespace Primadb

open Effect

variable {σ : Type} [IncrementalStore σ]

/-- A relation closed under the elementary steps of write calls. -/
structure MicroClosed (R : Inner σ → Inner σ → Prop) : Prop extends Composes R where
  load : ∀ inner node, R inner (maybeLoadNode node inner).2
  ensureNode : ∀ inner node, R inner (inner.ensureNode node)
  nextNodeId : ∀ inner hint, R inner (inner.nextNodeId hint).2
  applyLocal : ∀ inner nspace action, nspace = action.nspace →
    R inner (inner.applyLocal nspace action)

namespace MicroClosed

section Programs

variable {τ : Type} [RecordStore τ] {R : Inner τ → Inner τ → Prop} (h : MicroClosed R)
include h

private theorem ensureCanonicalWriteAllowed (anchor : NodeId) (segments : List String) :
    Keeps R (ensureCanonicalWriteAllowed anchor segments : Call τ Unit) := by
  refine h.bind h.get fun inner => ?_
  split
  · exact h.pure ()
  · split
    · exact h.fail _
    · exact h.pure ()

/-- The commands of programs take elementary steps only. -/
theorem command (c : Command) : Keeps R (c.exec : Call τ c.Answer) := by
  cases c with
  | authorize anchor segments => exact h.ensureCanonicalWriteAllowed anchor segments
  | load node => exact fun s => h.load s node
  | tryLoad node => exact fun s => h.load s node
  | ensure node => exact fun s => h.ensureNode s node
  | nodeId hint => exact fun s => h.nextNodeId s hint
  | apply action => exact fun s => h.applyLocal s _ action rfl
  | field | state | edges | overlay | storedRecords => exact h.refl

private theorem exec {α : Type} (program : Program α) : Keeps R (program.exec : Call τ α) :=
  Script.keeps h.toComposes h.command program

end Programs

variable {R : Inner σ → Inner σ → Prop} (h : MicroClosed R)
include h

-- A write program never scans the store, so any store can stand for one with records.
private theorem putJsonInner (anchor : NodeId) (segments : List String) (value : JsonValue) :
    Keeps R (putJsonInner anchor segments value : Call σ Unit) := by
  let _ : RecordStore σ := ⟨fun _ _ => .ok none⟩
  exact Program.exec_putJson (σ := σ) anchor segments value ▸ h.exec _

private theorem unsetInner (anchor : NodeId) (segments : List String) :
    Keeps R (unsetInner anchor segments : Call σ Unit) := by
  let _ : RecordStore σ := ⟨fun _ _ => .ok none⟩
  exact Program.exec_unset (σ := σ) anchor segments ▸ h.exec _

private theorem setJsonInner (anchor : NodeId) (segments : List String) (value : JsonValue) :
    Keeps R (setJsonInner anchor segments value : Call σ NodeId) := by
  let _ : RecordStore σ := ⟨fun _ _ => .ok none⟩
  exact Program.exec_setJson (σ := σ) anchor segments value ▸ h.exec _

private theorem removeJsonInner (anchor : NodeId) (segments : List String) (value : JsonValue) :
    Keeps R (removeJsonInner anchor segments value : Call σ NodeId) := by
  let _ : RecordStore σ := ⟨fun _ _ => .ok none⟩
  exact Program.exec_removeJson (σ := σ) anchor segments value ▸ h.exec _

end MicroClosed

/-- The calls that change the graph. -/
inductive WriteCall where
  | put (anchor : NodeId) (segments : List String) (value : JsonValue)
  | set (anchor : NodeId) (segments : List String) (value : JsonValue)
  | remove (anchor : NodeId) (segments : List String) (value : JsonValue)
  | unset (anchor : NodeId) (segments : List String)
  | applyOperations (ops : List Operation)

/-- The state after a call, whatever its result. -/
def WriteCall.run (inner : Inner σ) : WriteCall → Inner σ
  | .put anchor segments value => (putJson anchor segments value inner).2
  | .set anchor segments value => (setJson anchor segments value inner).2
  | .remove anchor segments value => (removeJson anchor segments value inner).2
  | .unset anchor segments => (Primadb.unset anchor segments inner).2
  | .applyOperations ops => (Primadb.applyOperations ops inner).2

/-- The write of a chain as a call. -/
def ChainWrite.call : ChainWrite → WriteCall
  | .put anchor segments value => .put anchor segments value
  | .unset anchor segments => .unset anchor segments
  | .set anchor segments value => .set anchor segments value
  | .remove anchor segments value => .remove anchor segments value

/-- The write of a chain leaves the state its call leaves. -/
theorem ChainWrite.run_call {τ : Type} [RecordStore τ] (write : ChainWrite) (inner : Inner τ) :
    write.call.run inner = (write.run inner).2 := by
  have hmember : ∀ m : Call τ NodeId, (m inner).2 = ((do let _ ← m; pure ()) inner).2 := by
    intro m
    rw [bind_apply]
    rcases m inner with ⟨_ | _, _⟩ <;> rfl
  cases write with
  | put | unset => rfl
  | set anchor segments value => exact hmember (setJson anchor segments value)
  | remove anchor segments value => exact hmember (removeJson anchor segments value)

/-- The state after a sequence of calls. -/
def Inner.runCalls (inner : Inner σ) (calls : List WriteCall) : Inner σ :=
  calls.foldl WriteCall.run inner

/-- The calls that write on behalf of this replica. -/
def WriteCall.IsLocal : WriteCall → Prop
  | .applyOperations _ => False
  | _ => True

instance (call : WriteCall) : Decidable call.IsLocal := by
  cases call <;> unfold WriteCall.IsLocal <;> infer_instance

/-- A relation closed under everything a local write call does. -/
structure LocalClosed (R : Inner σ → Inner σ → Prop) : Prop extends MicroClosed R where
  persist : ∀ inner, R inner (persistIfNeeded inner).2

namespace LocalClosed

variable {R : Inner σ → Inner σ → Prop} (h : LocalClosed R)
include h

private theorem run (call : WriteCall) (hcall : call.IsLocal) (inner : Inner σ) :
    R inner (call.run inner) := by
  cases call with
  | put anchor segments value =>
    exact h.bind (h.putJsonInner anchor segments value) (fun _ => h.persist) inner
  | set anchor segments value =>
    exact h.bind (h.setJsonInner anchor segments value)
      (fun _ => h.bind h.persist fun _ => h.pure _) inner
  | remove anchor segments value =>
    exact h.bind (h.removeJsonInner anchor segments value)
      (fun _ => h.bind h.persist fun _ => h.pure _) inner
  | unset anchor segments =>
    exact h.bind (h.unsetInner anchor segments) (fun _ => h.persist) inner
  | applyOperations ops => exact absurd hcall id

end LocalClosed

/-- A relation closed under everything a write call does. -/
structure CallClosed (R : Inner σ → Inner σ → Prop) : Prop extends LocalClosed R where
  applyRemote : ∀ inner op, R inner (inner.applyOperationInternal op .remote).2

namespace CallClosed

variable {R : Inner σ → Inner σ → Prop} (h : CallClosed R)
include h

/-- Applying remote operations stays inside the relation. -/
theorem applyRemoteCounting (ops : List Operation) (inner : Inner σ) :
    R inner (applyRemoteCounting ops inner).2 := by
  induction ops generalizing inner with
  | nil => exact h.refl inner
  | cons op ops ih => exact h.trans (h.applyRemote inner op) (ih _)

/-- Applying remote operations and persisting stays inside the relation. -/
theorem applyOperations (ops : List Operation) :
    Keeps R (applyOperations ops : Call σ ℕ) := by
  refine h.bind (m := lift (Primadb.applyRemoteCounting ops)) (h.applyRemoteCounting ops)
    fun applied => ?_
  split
  · exact h.bind h.persist fun _ => h.pure _
  · exact h.pure _

private theorem run (call : WriteCall) (inner : Inner σ) : R inner (call.run inner) := by
  by_cases hcall : call.IsLocal
  · exact h.toLocalClosed.run call hcall inner
  · cases call with
    | applyOperations ops => exact h.applyOperations ops inner
    | _ => exact absurd trivial hcall

/-- Every run of calls stays inside the relation. -/
theorem runCalls (calls : List WriteCall) (inner : Inner σ) : R inner (inner.runCalls calls) := by
  induction calls generalizing inner with
  | nil => exact h.refl inner
  | cons call calls ih => exact h.trans (h.run call inner) (ih _)

end CallClosed

/-! ## Queues -/

/-- The positions of both queues are those of their operations. -/
structure Inner.QueuesWf {σ : Type} (inner : Inner σ) : Prop where
  pendingOps : inner.pendingOps.Wf
  unflushedOps : inner.unflushedOps.Wf

end Primadb

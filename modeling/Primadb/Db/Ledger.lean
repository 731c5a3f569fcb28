import Primadb.Data.CompactedQueue
import Primadb.Db.Transaction
import Primadb.Graph.SlotQueue

/-!
# What commands do to nodes and queues

Nodes, clock and queues of a state form its ledger. A command leaves the ledger
alone, creates a node, loads one that memory does not hold, or issues an operation
and applies it. Inside and outside a transaction the steps are the same, so what
holds along such steps holds of every call.
-/

namespace Primadb

/-- The part of the state that local operations go through. -/
@[ext] structure Ledger where
  /-- Nodes in memory. -/
  nodes : BTreeMap NodeId NodeState
  clock : HybridClock
  /-- Local operations not yet sent. -/
  pendingOps : CompactedOperations
  /-- Operations not yet stored. -/
  unflushedOps : CompactedOperations
  /-- Greatest length of the pending queue. -/
  maxPendingOps : ℕ

/-- The ledger of a state. -/
def Inner.ledger {σ : Type} (inner : Inner σ) : Ledger :=
  ⟨inner.nodes, inner.clock, inner.pendingOps, inner.unflushedOps, inner.limits.maxPendingOps⟩

namespace Ledger

/-- Whether the pending queue is below its limit. -/
def hasRoom (ledger : Ledger) : Bool := decide (ledger.pendingOps.len < ledger.maxPendingOps)

/-- The slot an operation goes to. -/
def slotOf (ledger : Ledger) (op : Operation) : Slot :=
  slotAt ledger.nodes op.action.node op.action.field

/-- Whether an operation is let in: the queue has room and the slot holds nothing newer. -/
def takes (ledger : Ledger) (op : Operation) : Bool :=
  ledger.hasRoom && (ledger.slotOf op).accepts op.slotOp

/-- The ledger after a local operation. -/
def apply (ledger : Ledger) (op : Operation) : Ledger :=
  if ledger.takes op then
    { ledger with
      nodes := (applyToNodes ledger.nodes op).1
      pendingOps := ledger.pendingOps.push op
      unflushedOps := ledger.unflushedOps.push op }
  else if ledger.hasRoom then { ledger with nodes := (applyToNodes ledger.nodes op).1 }
  else ledger

end Ledger

/-- An issued operation with the ledger it met. -/
structure Issued where
  /-- The ledger before the operation. -/
  before : Ledger
  op : Operation

/-- Whether an issued operation was let in. -/
def Issued.accepted (entry : Issued) : Bool := entry.before.takes entry.op

/-- A node is empty when its slots are. -/
theorem NodeState.isEmpty_iff (state : NodeState) :
    state.isEmpty = true ↔ ∀ f, state.slot f = Slot.empty := by
  simp [NodeState.isEmpty, Std.ExtTreeMap.isEmpty_iff,
    Std.ExtTreeMap.eq_empty_iff_forall_not_mem, NodeState.slot, Slot.empty, forall_and]

namespace Ledger

variable {ledger : Ledger} {op : Operation}

/-- Clock and limit are left to the caller. -/
@[simp] theorem apply_clock (ledger : Ledger) (op : Operation) :
    (ledger.apply op).clock = ledger.clock := by
  rw [apply]
  repeat' split
  all_goals rfl

private theorem apply_queues (ledger : Ledger) (op : Operation) :
    (ledger.apply op).pendingOps =
        (if ledger.takes op then ledger.pendingOps.push op else ledger.pendingOps) ∧
      (ledger.apply op).unflushedOps =
        (if ledger.takes op then ledger.unflushedOps.push op else ledger.unflushedOps) := by
  rw [apply]
  repeat' split
  all_goals exact ⟨rfl, rfl⟩

/-- An operation that is let in acts on its slot alone. -/
theorem apply_slot (ledger : Ledger) (op : Operation) (n : NodeId) (f : String) :
    slotAt (ledger.apply op).nodes n f =
      if ledger.takes op && op.at n f then (slotAt ledger.nodes n f).apply op.slotOp
      else slotAt ledger.nodes n f := by
  by_cases htakes : ledger.takes op = true
  · simp only [apply, htakes, if_true, Bool.true_and, slotAt_applyToNodes]
  · simp only [apply, htakes, Bool.false_eq_true, if_false, Bool.false_and]
    split
    · rename_i hroom
      refine slotAt_refused ?_ n f
      rw [applyToNodes_accepts]
      simpa [takes, hroom, slotOf] using htakes
    · rfl

/-- The node is in memory and not empty. -/
def Holds (ledger : Ledger) (node : NodeId) : Prop :=
  ∃ state, ledger.nodes[node]? = some state ∧ state.isEmpty = false

/-- A node is held exactly when one of its slots is written. -/
theorem holds_iff {node : NodeId} :
    ledger.Holds node ↔ ∃ f, slotAt ledger.nodes node f ≠ Slot.empty := by
  constructor
  · rintro ⟨state, hstate, hempty⟩
    rw [← Bool.not_eq_true, NodeState.isEmpty_iff, not_forall] at hempty
    simpa [slotAt, hstate] using hempty
  · rintro ⟨f, hf⟩
    cases hstate : ledger.nodes[node]? with
    | none => exact absurd (by simp [slotAt, hstate]) hf
    | some state =>
      refine ⟨state, hstate, ?_⟩
      rw [← Bool.not_eq_true, NodeState.isEmpty_iff, not_forall]
      exact ⟨f, by simpa [slotAt, hstate] using hf⟩

/-- An operation that is let in leaves its node held. -/
theorem holds_apply (htakes : ledger.takes op = true) :
    (ledger.apply op).Holds op.action.node := by
  refine holds_iff.mpr ⟨op.action.field, ?_⟩
  rw [apply_slot, htakes, if_pos (by simp [Operation.at])]
  rw [takes, Bool.and_eq_true] at htakes
  exact Slot.apply_ne_empty_of_accepts htakes.2

private theorem Holds.apply {node : NodeId} (h : ledger.Holds node) (op : Operation) :
    (ledger.apply op).Holds node := by
  obtain ⟨f, hf⟩ := holds_iff.mp h
  by_cases hat : (ledger.takes op && op.at node f) = true
  · obtain ⟨htakes, hat⟩ := Bool.and_eq_true_iff.mp hat
    obtain ⟨rfl, -⟩ : op.action.node = node ∧ op.action.field = f := by
      simpa [Operation.at] using hat
    exact holds_apply htakes
  · refine holds_iff.mpr ⟨f, ?_⟩
    rwa [apply_slot, if_neg hat]

end Ledger

/-- One command seen from the ledger, with the operation it issues. -/
inductive Ledger.Step : Ledger → List Issued → Ledger → Prop
  | rest (ledger : Ledger) (clock : HybridClock) (h : clock.revision = ledger.clock.revision) :
    Step ledger [] { ledger with clock := clock }
  | ensure (ledger : Ledger) (node : NodeId) :
    Step ledger [] { ledger with nodes := ledger.nodes.insert node (nodeEntry ledger.nodes node) }
  | load (ledger : Ledger) (state : NodeState)
      (h : ∀ existing, ledger.nodes[state.id]? = some existing → existing.isEmpty = true) :
    Step ledger [] { ledger with nodes := mergeNodeState ledger.nodes state }
  | issue (ledger : Ledger) (op : Operation) (clock : HybridClock)
      (hle : ledger.clock.revision ≤ op.revision) (hrev : clock.revision = op.revision) :
    Step ledger [⟨ledger, op⟩] ({ ledger with clock := clock }.apply op)

/-- Several steps, with all operations they issue. -/
inductive Ledger.Steps (start : Ledger) : List Issued → Ledger → Prop
  | refl : Steps start [] start
  | tail {log : List Issued} {entries : List Issued} {ledger ledger' : Ledger}
      (h : Steps start log ledger) (hstep : Step ledger entries ledger') :
    Steps start (log ++ entries) ledger'

/-- The operations of a log that were let in. -/
def acceptedOps (log : List Issued) : List Operation := (log.filter Issued.accepted).map Issued.op

@[simp] theorem acceptedOps_nil : acceptedOps [] = [] := rfl

/-- The operations let in by one step after another. -/
theorem acceptedOps_append (log entries : List Issued) :
    acceptedOps (log ++ entries) = acceptedOps log ++ acceptedOps entries := by
  simp [acceptedOps]

/-- The operation of one entry, when it was let in. -/
theorem acceptedOps_singleton (entry : Issued) :
    acceptedOps [entry] = if entry.accepted then [entry.op] else [] := by
  cases h : entry.accepted <;> simp [acceptedOps, h]

theorem exists_of_mem_acceptedOps {log : List Issued} {op : Operation}
    (h : op ∈ acceptedOps log) : ∃ entry ∈ log, entry.accepted = true ∧ entry.op = op := by
  obtain ⟨entry, hentry, rfl⟩ := List.mem_map.mp h
  exact ⟨entry, (List.mem_filter.mp hentry).1, (List.mem_filter.mp hentry).2, rfl⟩

/-- What an issued operation does to a slot. -/
def Issued.onSlot (node : NodeId) (field : String) (slot : Slot) (entry : Issued) : Slot :=
  if entry.accepted && entry.op.at node field then slot.apply entry.op.slotOp else slot

namespace Ledger

variable {start ledger ledger' : Ledger} {log entries : List Issued}

/-- One step leaves a held node held, and changes its slots by the operations let in. -/
theorem Step.held (h : Step ledger entries ledger') {node : NodeId} (hheld : ledger.Holds node) :
    ledger'.Holds node ∧ ∀ f, slotAt ledger'.nodes node f =
      entries.foldl (Issued.onSlot node f) (slotAt ledger.nodes node f) := by
  cases h with
  | rest clock hclock => exact ⟨hheld, fun f => rfl⟩
  | ensure other =>
    have hslots : ∀ f, slotAt (ledger.nodes.insert other (nodeEntry ledger.nodes other)) node f =
        slotAt ledger.nodes node f := by
      intro f
      rw [slotAt_insert, nodeEntry_slot]
      split
      · rename_i heq
        rw [heq]
      · rfl
    refine ⟨holds_iff.mpr ?_, hslots⟩
    simpa only [hslots] using holds_iff.mp hheld
  | load state hempty =>
    -- a held node is not the loaded one
    obtain ⟨existing, hexisting, hfull⟩ := hheld
    have hne : state.id ≠ node := by
      rintro rfl
      rw [hempty existing hexisting] at hfull
      cases hfull
    have hslots : ∀ f, slotAt (mergeNodeState ledger.nodes state) node f =
        slotAt ledger.nodes node f := by
      intro f
      rw [slotAt_mergeNodeState, if_neg hne]
    refine ⟨holds_iff.mpr ?_, hslots⟩
    simpa only [hslots] using holds_iff.mp ⟨existing, hexisting, hfull⟩
  | issue op clock hle hrev =>
    have hheld' : Holds { ledger with clock := clock } node := hheld
    exact ⟨hheld'.apply op, fun f => apply_slot { ledger with clock := clock } op node f⟩

/-- The nodes of accepted operations are held. -/
theorem Steps.held (h : Steps start log ledger) {op : Operation} (hop : op ∈ acceptedOps log) :
    ledger.Holds op.action.node := by
  induction h with
  | refl => simp [acceptedOps] at hop
  | tail hsteps hstep ih =>
    rw [acceptedOps_append, List.mem_append] at hop
    rcases hop with hop | hop
    · exact (hstep.held (ih hop)).1
    · cases hstep with
      | issue op' clock hle hrev =>
        obtain ⟨entry, hmem, hacc, rfl⟩ := exists_of_mem_acceptedOps hop
        rw [List.mem_singleton.mp hmem] at hacc ⊢
        exact holds_apply hacc
      | _ => simp at hop

/-- Issued revisions only grow, up to the clock. -/
theorem Steps.revision_le (h : Steps start log ledger) :
    ∀ entry ∈ log, entry.op.revision ≤ ledger.clock.revision := by
  induction h with
  | refl => simp
  | tail hsteps hstep ih =>
    intro entry hentry
    rcases List.mem_append.mp hentry with hmem | hmem
    · cases hstep with
      | rest clock hclock => exact hclock ▸ ih entry hmem
      | issue op clock hle hrev =>
        rw [apply_clock]
        exact hrev ▸ (ih entry hmem).trans hle
      | _ => exact ih entry hmem
    · cases hstep with
      | issue op clock hle hrev =>
        rw [List.mem_singleton.mp hmem, apply_clock]
        exact hrev.ge
      | _ => simp at hmem

/-- The clock does not go back along a log. -/
theorem Steps.clock_le (h : Steps start log ledger) :
    start.clock.revision ≤ ledger.clock.revision := by
  induction h with
  | refl => exact le_refl _
  | tail hsteps hstep ih =>
    cases hstep with
    | rest clock hclock => exact hclock ▸ ih
    | issue op clock hle hrev =>
      rw [apply_clock]
      exact hrev ▸ ih.trans hle
    | _ => exact ih

/-- The operations let in have growing revisions. -/
theorem Steps.sorted (h : Steps start log ledger) :
    (acceptedOps log).Pairwise (·.revision ≤ ·.revision) := by
  induction h with
  | refl => exact .nil
  | tail hsteps hstep ih =>
    rw [acceptedOps_append, List.pairwise_append]
    cases hstep with
    | issue op clock hle hrev =>
      rw [acceptedOps_singleton]
      refine ⟨ih, by split <;> simp, fun o ho last hlast => ?_⟩
      obtain ⟨entry, hentry, -, rfl⟩ := exists_of_mem_acceptedOps ho
      split at hlast
      · rw [List.mem_singleton.mp hlast]
        exact (hsteps.revision_le entry hentry).trans hle
      · cases hlast
    | _ => exact ⟨ih, by simp⟩

/-- Both queues take up the operations let in. -/
theorem Steps.queues (h : Steps start log ledger) :
    ledger.pendingOps = (acceptedOps log).foldl CompactedOperations.push start.pendingOps ∧
      ledger.unflushedOps =
        (acceptedOps log).foldl CompactedOperations.push start.unflushedOps := by
  induction h with
  | refl => exact ⟨rfl, rfl⟩
  | @tail log entries ledger ledger' hsteps hstep ih =>
    rw [acceptedOps_append, List.foldl_append, List.foldl_append, ← ih.1, ← ih.2]
    cases hstep with
    | issue op clock hle hrev =>
      have htakes : takes { ledger with clock := clock } op = Issued.accepted ⟨ledger, op⟩ := rfl
      rw [(apply_queues _ _).1, (apply_queues _ _).2, htakes, acceptedOps_singleton]
      split <;> exact ⟨rfl, rfl⟩
    | _ => exact ⟨rfl, rfl⟩

/-- The unflushed queue grows by the operations let in. -/
theorem Steps.grown (h : Steps start log ledger) (hwf : start.unflushedOps.Wf) :
    start.unflushedOps.Grown ledger.unflushedOps (acceptedOps log) := by
  rw [h.queues.2]
  exact .foldl hwf h.sorted

/-- The pending queue takes up the operations let in. -/
theorem Steps.pushed (h : Steps start log ledger) (hwf : start.pendingOps.Wf) :
    start.pendingOps.Pushed ledger.pendingOps (acceptedOps log) := by
  rw [h.queues.1]
  exact .foldl hwf h.sorted

end Ledger

/-- The operation a command issues. -/
def Command.issues {σ : Type} : Command → Inner σ → List Issued
  | .apply action, inner => [⟨inner.ledger, (inner.issue action.nspace action).1⟩]
  | _, _ => []

section Plain

variable {σ : Type}

private theorem Ledger.Step.still (ledger : Ledger) : Ledger.Step ledger [] ledger :=
  .rest ledger ledger.clock rfl

/-- A newly issued operation carries the revision its clock has reached. -/
theorem Inner.issue_revision (inner : Inner σ) (nspace : String) (action : OperationAction) :
    inner.clock.revision ≤ (inner.issue nspace action).1.revision ∧
      (inner.issue nspace action).2.clock.revision = (inner.issue nspace action).1.revision :=
  ⟨inner.clock.revision_le_next _, rfl⟩

/-- A local operation does to the ledger what the ledger says, and then the clock has observed
it. -/
theorem Inner.applyOperationInternal_untimed (inner : Inner σ) (op : Operation) :
    (inner.applyOperationInternal op .local).2.ledger =
        { inner.ledger.apply op with clock := (inner.applyOperationInternal op .local).2.clock } ∧
      (inner.applyOperationInternal op .local).1 = inner.ledger.takes op ∧
      ((inner.applyOperationInternal op .local).2.clock = inner.clock ∨
        (inner.applyOperationInternal op .local).2.clock = inner.clock.observe op.revision) := by
  have hacc := applyToNodes_accepts inner.nodes op
  rw [applyOperationInternal, admits]
  by_cases hroom : inner.pendingOps.len < inner.limits.maxPendingOps
  · obtain ⟨hflag, overlay, keys, index, heq⟩ := inner.applyAdmitted_eq op .local
    have htakes : inner.ledger.takes op = (applyToNodes inner.nodes op).2 := by
      simp only [Ledger.takes, Ledger.hasRoom, ledger, hroom, decide_true, Bool.true_and, hacc]
      rfl
    simp only [hroom, decide_true, if_true]
    refine ⟨?_, by rw [hflag, htakes], Or.inr (by rw [heq])⟩
    rw [heq, Ledger.apply, htakes]
    cases (applyToNodes inner.nodes op).2 with
    | true => simp [ledger]
    | false => simp [ledger, Ledger.hasRoom, hroom]
  · have htakes : inner.ledger.takes op = false := by
      simp [Ledger.takes, Ledger.hasRoom, ledger, hroom]
    have hfull : inner.ledger.hasRoom = false := by simp [Ledger.hasRoom, ledger, hroom]
    simp only [hroom, decide_false, Bool.false_eq_true, if_false]
    refine ⟨?_, htakes.symm, Or.inl trivial⟩
    simp only [Ledger.apply, htakes, hfull, Bool.false_eq_true, if_false]
    rfl

/-- A local operation that was just issued does to the ledger what the ledger says. -/
theorem Inner.applyOperationInternal_ledger (inner : Inner σ) (op : Operation)
    (hrev : inner.clock.revision = op.revision) :
    (inner.applyOperationInternal op .local).2.ledger = inner.ledger.apply op ∧
      (inner.applyOperationInternal op .local).1 = inner.ledger.takes op := by
  obtain ⟨hledger, hflag, hclock⟩ := inner.applyOperationInternal_untimed op
  rw [← hrev, inner.clock.observe_revision, or_self] at hclock
  refine ⟨?_, hflag⟩
  rw [hledger, hclock]
  exact Ledger.ext rfl (inner.ledger.apply_clock op).symm rfl rfl rfl

private theorem Inner.applyLocal_step (inner : Inner σ) (action : OperationAction) :
    Ledger.Step inner.ledger ((Command.apply action).issues inner)
      (inner.applyLocal action.nspace action).ledger := by
  obtain ⟨hle, hrev⟩ := inner.issue_revision action.nspace action
  rw [applyLocal, (applyOperationInternal_ledger _ _ hrev).1]
  exact .issue inner.ledger _ _ hle hrev

/-- A node that is not resident is absent or empty when a store is attached. -/
theorem Inner.isEmpty_of_not_resident {inner : Inner σ} {node : NodeId} {existing : NodeState}
    (h : ¬ inner.resident node = true) (he : inner.nodes[node]? = some existing) :
    existing.isEmpty = true := by
  simp only [resident, he, Bool.or_eq_true, Bool.not_eq_true', not_or] at h
  simpa using h.1

theorem ensureCanonicalWriteAllowed_state (anchor : NodeId) (segments : List String)
    (inner : Inner σ) : (ensureCanonicalWriteAllowed anchor segments inner).2 = inner := by
  rw [ensureCanonicalWriteAllowed, Effect.bind_ok (m := Effect.get) (rfl : Effect.get inner = _)]
  cases policyForPath inner.scopePolicies (watchPathKey anchor segments) with
  | none => rfl
  | some found =>
    dsimp only
    split <;> rfl

variable [RecordStore σ]

/-- Asking for a node is a step of the ledger. -/
theorem maybeLoadNode_step {inner : Inner σ} (hstore : inner.KeyedStore) (node : NodeId) :
    Ledger.Step inner.ledger [] (maybeLoadNode node inner).2.ledger := by
  rcases maybeLoadNode_cases inner node with
    heq | ⟨hres, -, engine, hengine, ⟨-, -, heq⟩ | ⟨state, hstate, heq⟩⟩ <;> rw [heq]
  · exact .still _
  · exact .still _
  · refine .load inner.ledger state fun existing he => ?_
    rw [hstore engine node state hengine hstate] at he
    exact Inner.isEmpty_of_not_resident (Bool.eq_false_iff.mp hres) he

private theorem Command.exec_step {inner : Inner σ} (hstore : inner.KeyedStore) (c : Command) :
    Ledger.Step inner.ledger (c.issues inner) (c.exec inner).2.ledger := by
  cases c with
  | authorize anchor segments =>
    rw [Command.exec, ensureCanonicalWriteAllowed_state]
    exact .still _
  | load node => exact maybeLoadNode_step hstore node
  | tryLoad node => exact maybeLoadNode_step hstore node
  | ensure node => exact .ensure inner.ledger node
  | nodeId hint => exact .rest inner.ledger _ rfl
  | apply action => exact inner.applyLocal_step action
  | field | state | edges | overlay | storedRecords => exact .still _

/-- Commands outside a transaction leave the store alone. -/
theorem Command.exec_storageEngine (inner : Inner σ) (c : Command) :
    (c.exec inner).2.storageEngine = inner.storageEngine := by
  cases c with
  | authorize anchor segments =>
    rw [Command.exec, ensureCanonicalWriteAllowed_state]
  | load node => exact storageEngine_load inner node
  | tryLoad node => exact storageEngine_load inner node
  | apply action => exact (Inner.applyOperationInternal_frame _ _ _).1
  | _ => rfl

/-- Persisting touches no part of the ledger but the unflushed queue. -/
theorem persistIfNeeded_ledger (inner : Inner σ) :
    ∃ unflushed, (persistIfNeeded inner).2.ledger =
      { inner.ledger with unflushedOps := unflushed } := by
  obtain ⟨unflushed, engine, id, overlay, keys, heq⟩ := persistIfNeeded_eq inner
  exact ⟨unflushed, congrArg Inner.ledger heq⟩

/-- Being keyed is about the attached store only. -/
theorem Inner.KeyedStore.congr {inner other : Inner σ} (h : inner.KeyedStore)
    (heq : other.storageEngine = inner.storageEngine) : other.KeyedStore :=
  fun engine node state hengine => h engine node state (heq ▸ hengine)

/-- The operations a call issues. -/
def Program.issued {α : Type} (program : Program α) (inner : Inner σ) : List Issued :=
  program.notes Command.exec Command.issues inner

/-- A call is a sequence of ledger steps that issue its operations. -/
theorem Program.exec_steps {α : Type} (program : Program α) {inner : Inner σ}
    (hstore : inner.KeyedStore) :
    Ledger.Steps inner.ledger (program.issued inner) (program.exec inner).2.ledger := by
  refine (Script.notes_invariant Command.exec Command.issues
    (fun s log => s.storageEngine = inner.storageEngine ∧
      Ledger.Steps inner.ledger log s.ledger) (fun c s log hs => ?_) program
    (⟨rfl, .refl⟩ : inner.storageEngine = inner.storageEngine ∧
      Ledger.Steps inner.ledger [] inner.ledger)).2
  have hs' : s.KeyedStore := hstore.congr hs.1
  exact ⟨(c.exec_storageEngine s).trans hs.1, hs.2.tail (c.exec_step hs')⟩

end Plain

namespace Session

variable {σ : Type}

/-- Inside a transaction an operation does what it does outside, but for the relationship
index. -/
theorem applyOperationInternal_inner (s : Session σ) (op : Operation) :
    ∃ index, (s.applyOperationInternal op).2.inner =
      { (s.inner.applyOperationInternal op .local).2 with relationshipIndex := index } := by
  rw [applyOperationInternal, Inner.applyOperationInternal]
  cases s.inner.admits op .local with
  | false => exact ⟨_, rfl⟩
  | true =>
    simp only [if_true, journalNode_inner, Inner.applyAdmitted]
    cases (applyToNodes s.inner.nodes op).2 with
    | false => exact ⟨_, rfl⟩
    | true =>
      simp only [if_true, accept, requestReindexNodeRelationships]
      exact ⟨_, rfl⟩

/-- Issuing and applying an operation inside a transaction. -/
theorem applyLocal_inner (s : Session σ) (action : OperationAction) :
    ∃ index, (s.applyLocal action).inner =
      { s.inner.applyLocal action.nspace action with relationshipIndex := index } :=
  applyOperationInternal_inner { s with inner := (s.inner.issue action.nspace action).2 }
    (s.inner.issue action.nspace action).1

/-- Bringing the relationship index up to date changes nothing else. -/
theorem flushPendingRelationshipIndex_inner (s : Session σ) :
    ∃ index, s.flushPendingRelationshipIndex.inner =
      { s.inner with relationshipIndex := index } := by
  refine List.foldlRecOn (motive := fun t : Session σ => ∃ index, t.inner =
    { s.inner with relationshipIndex := index }) _ _ ⟨_, rfl⟩ ?_
  rintro t ⟨index, heq⟩ node -
  rw [reindexNodeRelationships, journalNode_inner, heq]
  exact ⟨_, rfl⟩

variable [RecordStore σ]

/-- Loading inside a transaction leaves the relationship index for later. -/
theorem load_inner (s : Session σ) (node : NodeId) :
    (load node s).2.inner = { (maybeLoadNode node s.inner).2 with
      relationshipIndex := s.inner.relationshipIndex } := by
  rw [load, maybeLoadNode]
  repeat' split
  all_goals
    try simp only [requestReindexNodeRelationships, journalMissingNode_inner, journalNode_inner]
  all_goals simp_all [Inner.reindexNodeRelationships]

/-- A command inside a transaction does what it does outside, but for the relationship index. -/
theorem exec_inner (c : Command) (s : Session σ) :
    ∃ index, (exec c s).2.inner = { (c.exec s.inner).2 with relationshipIndex := index } := by
  cases c with
  | load node => exact ⟨_, load_inner s node⟩
  | tryLoad node => exact ⟨_, load_inner s node⟩
  | authorize anchor segments =>
    rw [Command.exec, ensureCanonicalWriteAllowed_state]
    exact ⟨_, rfl⟩
  | ensure node =>
    simp only [exec, Effect.modify, ensureNode, journalMissingNode_inner, journalNode_inner]
    exact ⟨_, rfl⟩
  | apply action => exact s.applyLocal_inner action
  | edges node => exact s.flushPendingRelationshipIndex_inner
  | nodeId | field | state | overlay | storedRecords => exact ⟨_, rfl⟩

/-- Every command inside a transaction is a step of the ledger, and leaves the store alone. -/
theorem exec_step {s : Session σ} (hstore : s.inner.KeyedStore) (c : Command) :
    Ledger.Step s.inner.ledger (c.issues s.inner) (exec c s).2.inner.ledger ∧
      (exec c s).2.inner.storageEngine = s.inner.storageEngine := by
  obtain ⟨index, heq⟩ := exec_inner c s
  rw [heq]
  exact ⟨c.exec_step hstore, c.exec_storageEngine s.inner⟩

/-- The operations a program issues inside a transaction. -/
def issued {α : Type} (program : Program α) (s : Session σ) :
    List Issued :=
  program.notes exec (fun c s => c.issues s.inner) s

/-- A program inside a transaction is a sequence of ledger steps that issue its operations. -/
theorem run_steps {α : Type} (program : Program α) {s : Session σ}
    (hstore : s.inner.KeyedStore) :
    Ledger.Steps s.inner.ledger (issued program s) (program.run exec s).2.inner.ledger := by
  refine (Script.notes_invariant exec (fun c (s : Session σ) => c.issues s.inner)
    (fun t log => t.inner.storageEngine = s.inner.storageEngine ∧
      Ledger.Steps s.inner.ledger log t.inner.ledger) (fun c t log ht => ?_) program
    (⟨rfl, .refl⟩ : s.inner.storageEngine = s.inner.storageEngine ∧
      Ledger.Steps s.inner.ledger [] s.inner.ledger)).2
  obtain ⟨hstep, hengine⟩ := exec_step (hstore.congr ht.1) c
  exact ⟨hengine.trans ht.1, ht.2.tail hstep⟩

end Session

namespace Database

variable {σ : Type}

/-- The operations a transaction body issues. -/
def issued [RecordStore σ] (db : Database σ) {α : Type} (program : Program α) : List Issued :=
  Session.issued program (Session.start db.inner db.scheduledNodeFetches)

/-- Finishing a transaction does not touch nodes or queues. -/
theorem committed_ledger (db : Database σ) (s : Session σ) :
    (db.committed s).inner.ledger = s.inner.ledger := by
  obtain ⟨index, heq⟩ := s.flushPendingRelationshipIndex_inner
  exact (congrArg Inner.ledger heq).trans rfl

end Database

end Primadb

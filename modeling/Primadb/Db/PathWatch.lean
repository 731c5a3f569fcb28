import Primadb.Data.CompactedQueue
import Primadb.Db.Announcement
import Primadb.Db.InMemory
import Primadb.Db.Overlap
import Primadb.Db.Snapshots

/-!
# Watches of paths

A watcher of a path is sent the new value when an event overlaps the text of its path. The
value asks for the fields its path leads over and for all that is reachable from where the path
ends. When each of these lies at, above or below the text of the path, and the nodes it shows are
there, a write that announces what it does misses no change of the value.
-/

namespace Primadb

open OperationCompactionKey

namespace Views

/-- The slots a path leads over, and the nodes that are shown where it ends. -/
def asked (views : Views) : NodeId → List String → List (NodeId × String) × List NodeId
  | current, [] => ([], [current])
  | current, [segment] =>
    ([(current, segment)], ((views.field current segment).map VisibleValue.targets).getD [])
  | current, segment :: next :: rest =>
    match views.field current segment with
    | some (.link target) =>
      let behind := views.asked target (next :: rest)
      ((current, segment) :: behind.1, behind.2)
    | _ => ([(current, segment)], [])

/-- Graphs that agree on what the value at a path asks for have the same value there. -/
theorem valueAt_of_asked {views views' : Views} {fuel : ℕ} {current : NodeId}
    {segments : List String}
    (hslots : ∀ slot ∈ (views.asked current segments).1,
      views'.field slot.1 slot.2 = views.field slot.1 slot.2)
    (hnodes : ∀ start ∈ (views.asked current segments).2, ∀ m,
      Worklist.Reach views.successors start m → views' m = views m) :
    views'.valueAt fuel current segments = views.valueAt fuel current segments := by
  induction segments generalizing current with
  | nil => exact valueAt_congr (hnodes current List.mem_cons_self)
  | cons segment rest ih =>
    cases rest with
    | nil =>
      rw [valueAt, valueAt, hslots (current, segment) List.mem_cons_self]
      cases hvalue : views.field current segment with
      | none => rfl
      | some value =>
        refine congrArg (fun value => Except.ok (some value)) (shownField_congr ?_)
        intro target htarget
        refine shownNode_congr (hnodes target ?_)
        simpa [asked, hvalue] using htarget
    | cons next rest =>
      rw [valueAt, valueAt]
      cases hvalue : views.field current segment with
      | none =>
        rw [hslots (current, segment) (by simp [asked, hvalue]), hvalue]
      | some value =>
        rw [hslots (current, segment) (by cases value <;> simp [asked, hvalue]), hvalue]
        cases value with
        | link target =>
          simp only [asked, hvalue] at hslots hnodes
          exact ih (fun slot hslot => hslots slot (List.mem_cons_of_mem _ hslot)) hnodes
        | _ => rfl

end Views

/-- Everything the value at a path asks for overlaps the text of the path, and the nodes it shows
are there. -/
def PathCovered (views : Views) (anchor : NodeId) (segments : List String) : Prop :=
  (∀ slot ∈ (views.asked anchor segments).1,
    pathOverlaps (watchPathKey anchor segments) (slot.1 ++ "/" ++ slot.2) = true) ∧
  ∀ start ∈ (views.asked anchor segments).2, ∀ m, Worklist.Reach views.successors start m →
    nodeMatchesRoot m (watchPathKey anchor segments) = true ∧ (views m).isSome = true

/-- A watcher of a path; `η` holds the content hashes. -/
structure PathWatcher (η : Type) where
  /-- The node the path starts at. -/
  anchor : NodeId
  /-- The fields it follows. -/
  segments : List String
  /-- The hash of the value sent last. -/
  lastHash : η
  /-- Whether the receiver is still there. -/
  isOpen : Bool

section Notify

variable {σ η : Type} [IncrementalStore σ] [DecidableEq η] (hash : Option JsonValue → η)

/-- `materialize`, with an error read as no value; the fuel exceeds the number of nodes. -/
def Inner.materialize (inner : Inner σ) (anchor : NodeId) (segments : List String) :
    Option JsonValue :=
  match (onceJson (inner.nodes.keys.length + 1) anchor segments inner).1 with
  | .ok value => value
  | .error _ => none

/-- The value due to a watcher after an event. -/
def PathWatcher.due (inner : Inner σ) (event : ChangeEvent) (watcher : PathWatcher η) :
    Option (Option JsonValue) :=
  if !event.impact.fullRefresh &&
      !watchChangeOverlaps (watchPathKey watcher.anchor watcher.segments) event then none
  else
    let snapshot := inner.materialize watcher.anchor watcher.segments
    if hash snapshot = watcher.lastHash then none else some snapshot

/-- `notify_subscribers`: the values sent and the watchers kept. -/
def notifySubscribers (inner : Inner σ) (event : ChangeEvent)
    (watchers : BTreeMap ℕ (PathWatcher η)) :
    List (ℕ × Option JsonValue) × BTreeMap ℕ (PathWatcher η) :=
  (watchers.toList.filterMap fun entry =>
      if entry.2.isOpen then (entry.2.due hash inner event).map (Prod.mk entry.1) else none,
    watchers.filterMap fun _ watcher =>
      match watcher.due hash inner event with
      | none => some watcher
      | some snapshot =>
        if watcher.isOpen then some { watcher with lastHash := hash snapshot } else none)

end Notify

/-- What a write does to the graph. -/
inductive GraphStep where
  /-- A node is created unless it is there. -/
  | ensure (node : NodeId)
  /-- An operation is applied. -/
  | apply (op : Operation)

/-- A call that changes the graph. -/
inductive GraphCall where
  /-- A write of a chain outside transactions, given by what it does. -/
  | localWrite (steps : List GraphStep)
  /-- A local transaction that commits, given by what its body does. -/
  | transaction (steps : List GraphStep)
  | applyOperations (ops : List Operation)

namespace Inner

variable {σ : Type}

/-- Take steps one after another; the answer carries the operations that were accepted. -/
def takeSteps (inner : Inner σ) (origin : OperationOrigin) :
    List GraphStep → List Operation × Inner σ
  | [] => ([], inner)
  | .ensure node :: steps => (inner.ensureNode node).takeSteps origin steps
  | .apply op :: steps =>
    let applied := inner.applyOperationInternal op origin
    let rest := applied.2.takeSteps origin steps
    (if applied.1 then op :: rest.1 else rest.1, rest.2)

end Inner

namespace GraphCall

/-- The steps of a call. -/
def steps : GraphCall → List GraphStep
  | .localWrite steps | .transaction steps => steps
  | .applyOperations ops => ops.map .apply

/-- The origin of the operations of a call. -/
def origin : GraphCall → OperationOrigin
  | .localWrite _ | .transaction _ => .local
  | .applyOperations _ => .remote

variable {σ : Type}

/-- The accepted operations and the state after the steps of a call. -/
def take (call : GraphCall) (inner : Inner σ) : List Operation × Inner σ :=
  inner.takeSteps call.origin call.steps

/-- The operations a call announces: a write of a chain all unflushed ones, a transaction the
unflushed ones behind those of its start, `apply_operations` the accepted ones. -/
def announced (call : GraphCall) (inner : Inner σ) : List Operation :=
  match call with
  | .localWrite _ => (call.take inner).2.unflushedOps.operations
  | .transaction _ =>
    (call.take inner).2.unflushedOps.operations.drop inner.unflushedOps.operations.length
  | .applyOperations _ => (call.take inner).1

/-- The change a call announces. -/
def impact (call : GraphCall) (inner : Inner σ) : ChangeImpact :=
  ChangeImpact.fromOps (call.announced inner) (call.take inner).2.nodes

/-- The values a call sends to watchers of paths. -/
def sends {η : Type} [IncrementalStore σ] [DecidableEq η] (hash : Option JsonValue → η)
    (call : GraphCall) (inner : Inner σ) (revision pending : ℕ)
    (watchers : BTreeMap ℕ (PathWatcher η)) : List (ℕ × Option JsonValue) :=
  if (call.impact inner).dataChanged then
    (notifySubscribers hash (persistIfNeeded (call.take inner).2).2
      ⟨revision, pending, call.impact inner⟩ watchers).1
  else []

/-- A call announces an operation on a path that overlaps the text of a watched one. -/
def Overlaps (call : GraphCall) (inner : Inner σ) (anchor : NodeId) (segments : List String) :
    Prop :=
  ∃ op ∈ call.announced inner,
    pathOverlaps (watchPathKey anchor segments) (operationTouchedPath op) = true

end GraphCall

namespace Inner

variable {σ : Type}

private theorem field_view_eq_slot (inner : Inner σ) (n : NodeId) (f : String) :
    Views.field inner.view n f = (slotAt inner.nodes n f).visible := by
  rw [field_view, fieldValue, slotAt]
  cases inner.nodes[n]? with
  | none => rfl
  | some state =>
    simp only [Option.bind_some, Option.map_map, Option.map_some, Option.getD_some, Slot.visible,
      NodeState.slot]
    rfl

/-- What one operation does: nothing, or what the graph model says, and then it is queued when it
is accepted. -/
theorem applyOperationInternal_cases (inner : Inner σ) (op : Operation) (origin : OperationOrigin) :
    inner.applyOperationInternal op origin = (false, inner) ∨
      (inner.applyOperationInternal op origin).1 = (applyToNodes inner.nodes op).2 ∧
      (inner.applyOperationInternal op origin).2.nodes = (applyToNodes inner.nodes op).1 ∧
      (inner.applyOperationInternal op origin).2.unflushedOps =
        if (applyToNodes inner.nodes op).2 then inner.unflushedOps.push op
        else inner.unflushedOps := by
  rw [applyOperationInternal]
  split
  · obtain ⟨haccepted, overlay, keys, index, heq⟩ := inner.applyAdmitted_eq op origin
    exact Or.inr ⟨haccepted, by rw [heq], by rw [heq]⟩
  · exact Or.inl rfl

/-- A node that is absent takes every operation. -/
theorem applyToNodes_accepts_of_absent {nodes : BTreeMap NodeId NodeState} {op : Operation}
    (h : op.action.node ∉ nodes) : (applyToNodes nodes op).2 = true := by
  have hempty : slotAt nodes op.action.node op.action.field = Slot.empty := by
    rw [slotAt, Std.ExtTreeMap.getElem?_eq_none h]
    rfl
  rw [applyToNodes_accepts, hempty, Operation.slotOp]
  cases op.action <;> rfl

section Steps

variable {inner : Inner σ} {origin : OperationOrigin} {steps : List GraphStep}

/-- Steps change the slots of their accepted operations only. -/
theorem takeSteps_slot {n : NodeId} {f : String}
    (h : ∀ op ∈ (inner.takeSteps origin steps).1, op.at n f = false) :
    slotAt (inner.takeSteps origin steps).2.nodes n f = slotAt inner.nodes n f := by
  induction steps generalizing inner with
  | nil => rfl
  | cons step steps ih =>
    cases step with
    | ensure node =>
      rw [takeSteps, ih h, ensureNode, slotAt_insert, nodeEntry_slot]
      split
      · rename_i heq
        rw [heq]
      · rfl
    | apply op =>
      simp only [takeSteps] at h ⊢
      rcases inner.applyOperationInternal_cases op origin with hcase | ⟨haccepted, hnodes, -⟩
      · rw [hcase] at h ⊢
        exact ih h
      · cases hacc : (applyToNodes inner.nodes op).2 with
        | false =>
          rw [haccepted, hacc] at h
          rw [ih h, hnodes]
          exact slotAt_refused hacc n f
        | true =>
          rw [haccepted, hacc, if_pos rfl] at h
          rw [ih fun op hop => h op (List.mem_cons_of_mem _ hop), hnodes, slotAt_applyToNodes,
            h op List.mem_cons_self]
          rfl

/-- Steps change the nodes of their accepted operations and the nodes they create only. -/
theorem takeSteps_node {n : NodeId} (hops : ∀ op ∈ (inner.takeSteps origin steps).1,
    op.action.node ≠ n) (hensure : GraphStep.ensure n ∈ steps → n ∈ inner.nodes) :
    (inner.takeSteps origin steps).2.nodes[n]? = inner.nodes[n]? := by
  induction steps generalizing inner with
  | nil => rfl
  | cons step steps ih =>
    -- a step that leaves the node leaves the rest to the induction
    have hrest : ∀ next : Inner σ, next.nodes[n]? = inner.nodes[n]? →
        GraphStep.ensure n ∈ steps → n ∈ next.nodes := by
      intro next hnext hmem
      have hn := hensure (List.mem_cons_of_mem _ hmem)
      rw [Std.ExtTreeMap.mem_iff_isSome_getElem?] at hn ⊢
      rwa [hnext]
    cases step with
    | ensure node =>
      have hsame : (inner.ensureNode node).nodes[n]? = inner.nodes[n]? := by
        by_cases heq : node = n
        · subst heq
          rw [ensureNode, insert_nodeEntry (hensure List.mem_cons_self)]
        · rw [ensureNode, BTreeMap.get_insert, if_neg heq]
      rw [takeSteps, ih hops (hrest _ hsame), hsame]
    | apply op =>
      simp only [takeSteps] at hops ⊢
      rcases inner.applyOperationInternal_cases op origin with hcase | ⟨haccepted, hnodes, -⟩
      · rw [hcase] at hops ⊢
        exact ih hops (hrest _ rfl)
      · have hsame : (inner.applyOperationInternal op origin).2.nodes[n]? = inner.nodes[n]? := by
          rw [hnodes]
          by_cases heq : op.action.node = n
          · have hrefused : (applyToNodes inner.nodes op).2 = false := by
              rw [← Bool.not_eq_true]
              intro hacc
              rw [haccepted, hacc, if_pos rfl] at hops
              exact hops op List.mem_cons_self heq
            have hmem : op.action.node ∈ inner.nodes := by
              by_contra habsent
              rw [applyToNodes_accepts_of_absent habsent] at hrefused
              cases hrefused
            rw [applyToNodes_refused hmem hrefused]
          · rw [applyToNodes, BTreeMap.get_insert, if_neg heq]
        rw [ih (fun other hother => hops other ?_) (hrest _ hsame), hsame]
        split
        · exact List.mem_cons_of_mem _ hother
        · exact hother

private theorem takeSteps_storageEngine :
    (inner.takeSteps origin steps).2.storageEngine = inner.storageEngine := by
  induction steps generalizing inner with
  | nil => rfl
  | cons step steps ih =>
    cases step with
    | ensure node =>
      rw [takeSteps, ih]
      rfl
    | apply op =>
      simp only [takeSteps]
      rw [ih, (inner.applyOperationInternal_frame op origin).1]

/-- What steps accept is queued, itself or by another operation of its key, and queued keys
stay. -/
theorem takeSteps_queued (hwf : inner.unflushedOps.Wf) :
    (∀ key, (inner.unflushedOps.entry key).isSome = true →
      ((inner.takeSteps origin steps).2.unflushedOps.entry key).isSome = true) ∧
    ∀ op ∈ (inner.takeSteps origin steps).1,
      ((inner.takeSteps origin steps).2.unflushedOps.entry (fromOperation op)).isSome = true := by
  induction steps generalizing inner with
  | nil => exact ⟨fun _ h => h, fun op hop => by cases hop⟩
  | cons step steps ih =>
    cases step with
    | ensure node => exact @ih (inner.ensureNode node) hwf
    | apply op =>
      simp only [takeSteps]
      rcases inner.applyOperationInternal_cases op origin with hcase | ⟨haccepted, -, hqueue⟩
      · rw [hcase]
        exact ih hwf
      · cases hacc : (applyToNodes inner.nodes op).2 with
        | false =>
          rw [hacc] at hqueue
          obtain ⟨hkeys, hops⟩ :=
            @ih (inner.applyOperationInternal op origin).2 (by rw [hqueue]; exact hwf)
          rw [hqueue] at hkeys
          rw [haccepted, hacc]
          exact ⟨hkeys, hops⟩
        | true =>
          rw [hacc, if_pos rfl] at hqueue
          obtain ⟨hkeys, hops⟩ := @ih (inner.applyOperationInternal op origin).2
            (by rw [hqueue]; exact hwf.push op)
          rw [hqueue] at hkeys
          have hpushed : ∀ key, (inner.unflushedOps.entry key).isSome = true ∨
              fromOperation op = key →
              ((inner.unflushedOps.push op).entry key).isSome = true := by
            intro key hkey
            rw [hwf.entry_push]
            split
            · rfl
            · rename_i hne
              exact hkey.resolve_right hne
          rw [haccepted, hacc, if_pos rfl]
          refine ⟨fun key hkey => hkeys key (hpushed key (Or.inl hkey)), fun other hother => ?_⟩
          rcases List.mem_cons.mp hother with rfl | hother
          · exact hkeys _ (hpushed _ (Or.inr rfl))
          · exact hops other hother

/-- Steps taken in two parts. -/
theorem takeSteps_append (more : List GraphStep) :
    (inner.takeSteps origin (steps ++ more)).2 =
      ((inner.takeSteps origin steps).2.takeSteps origin more).2 := by
  induction steps generalizing inner with
  | nil => rfl
  | cons step steps ih =>
    cases step with
    | ensure node => exact ih
    | apply op => exact ih

end Steps

end Inner

section Programs

variable {σ : Type} [RecordStore σ]

/-- What a command does to the graph of a database without a store. -/
def Command.graphSteps : Command → Inner σ → List GraphStep
  | .ensure node, _ => [.ensure node]
  | .apply action, inner => [.apply (inner.issue action.nspace action).1]
  | _, _ => []

/-- The ledger at another reading of the clock. -/
def Ledger.timed (ledger : Ledger) (clock : HybridClock) : Ledger := { ledger with clock := clock }

/-- An operation is let in or refused at any reading of the clock. -/
theorem Ledger.timed_apply (ledger : Ledger) (clock : HybridClock) (op : Operation) :
    (ledger.apply op).timed clock = (ledger.timed clock).apply op := by
  have htakes : (ledger.timed clock).takes op = ledger.takes op := rfl
  have hroom : (ledger.timed clock).hasRoom = ledger.hasRoom := rfl
  rw [apply, apply, htakes, hroom]
  repeat' split
  all_goals rfl

/-- A state without a store has the nodes and queues that steps leave. -/
def Inner.Took (start : Inner σ) (steps : List GraphStep) (inner : Inner σ) : Prop :=
  inner.storageEngine = none ∧ inner.ledger.timed start.clock =
    (start.takeSteps .local steps).2.ledger.timed start.clock

/-- A command takes its steps. -/
theorem Inner.Took.exec {start inner : Inner σ} {steps : List GraphStep}
    (h : start.Took steps inner) (c : Command) :
    start.Took (steps ++ c.graphSteps inner) (c.exec inner).2 := by
  obtain ⟨hstore, hledger⟩ := h
  refine ⟨(c.exec_storageEngine inner).trans hstore, ?_⟩
  rw [Inner.takeSteps_append]
  have hload : ∀ node, (maybeLoadNode node inner).2 = inner := fun node =>
    congrArg Prod.snd (Inner.maybeLoadNode_of_none hstore node)
  cases c with
  | authorize anchor segments =>
    rw [Command.exec, ensureCanonicalWriteAllowed_state]
    exact hledger
  | load node => exact (congrArg (fun t : Inner σ => t.ledger.timed _) (hload node)).trans hledger
  | tryLoad node =>
    exact (congrArg (fun t : Inner σ => t.ledger.timed _) (hload node)).trans hledger
  | ensure node =>
    exact congrArg (fun ledger : Ledger =>
      { ledger with nodes := ledger.nodes.insert node (nodeEntry ledger.nodes node) }) hledger
  | apply action =>
    have happly : ∀ (t : Inner σ) (op : Operation),
        (t.applyOperationInternal op .local).2.ledger.timed start.clock =
          (t.ledger.timed start.clock).apply op := by
      intro t op
      rw [(t.applyOperationInternal_untimed op).1, ← Ledger.timed_apply]
      rfl
    calc ((Command.apply action).exec inner).2.ledger.timed start.clock
      _ = (inner.ledger.timed start.clock).apply (inner.issue action.nspace action).1 :=
        happly (inner.issue action.nspace action).2 _
      _ = ((start.takeSteps .local steps).2.ledger.timed start.clock).apply
          (inner.issue action.nspace action).1 := by rw [hledger]
      _ = _ := (happly _ _).symm
  | nodeId | field | state | edges | overlay | storedRecords => exact hledger

/-- A program takes the steps of its commands: without a store, a write of a chain leaves the nodes
and queues of a local write with these steps. -/
theorem Program.exec_took {α : Type} (program : Program α) {inner : Inner σ}
    (hstore : inner.storageEngine = none) :
    inner.Took (program.notes Command.exec Command.graphSteps inner) (program.exec inner).2 :=
  Script.notes_invariant Command.exec Command.graphSteps (fun s steps => inner.Took steps s)
    (fun c _ _ h => h.exec c) program (l := []) ⟨hstore, rfl⟩

/-- The body of a transaction takes the steps of its commands. -/
theorem Session.run_took {α : Type} (program : Program α) {s : Session σ}
    (hstore : s.inner.storageEngine = none) :
    s.inner.Took (program.notes Session.exec (fun c s => c.graphSteps s.inner) s)
      (program.run Session.exec s).2.inner := by
  refine Script.notes_invariant Session.exec (fun c (t : Session σ) => c.graphSteps t.inner)
    (fun t steps => s.inner.Took steps t.inner) (fun c t steps h => ?_) program (l := [])
    ⟨hstore, rfl⟩
  obtain ⟨index, heq⟩ := Session.exec_inner c t
  rw [heq]
  exact h.exec c

end Programs

private theorem operationTouchedPath_of_key {o op : Operation}
    (h : fromOperation o = fromOperation op) :
    operationTouchedPath o = operationTouchedPath op := by
  have hslot : o.action.node = op.action.node ∧ o.action.field = op.action.field := by
    unfold fromOperation at h
    cases ho : o.action <;> cases hop : op.action <;> rw [ho, hop] at h <;>
      simp_all [OperationAction.node, OperationAction.field]
  rw [operationTouchedPath, operationTouchedPath, hslot.1, hslot.2]

section Sent

variable {σ η : Type} [IncrementalStore σ] [DecidableEq η] {hash : Option JsonValue → η}
  {inner : Inner σ}

omit [IncrementalStore σ] in
/-- Outside transactions the path of every accepted operation is that of an announced one. -/
theorem GraphCall.touched {call : GraphCall} (hcall : ∀ steps, call ≠ .transaction steps)
    (hwf : inner.unflushedOps.Wf) : ∀ op ∈ (call.take inner).1,
      ∃ other ∈ call.announced inner, operationTouchedPath other = operationTouchedPath op := by
  intro op hop
  cases call with
  | applyOperations ops => exact ⟨op, hop, rfl⟩
  | transaction steps => exact absurd rfl (hcall steps)
  | localWrite steps =>
    obtain ⟨o, ho⟩ := Option.isSome_iff_exists.mp ((Inner.takeSteps_queued hwf).2 op hop)
    exact ⟨o, List.mem_of_find?_eq_some ho,
      operationTouchedPath_of_key (CompactedOperations.fromOperation_of_entry ho)⟩

omit [IncrementalStore σ] in
/-- The event of a call overlaps a path exactly when an announced operation does. -/
theorem GraphCall.watchChangeOverlaps_iff (call : GraphCall) (revision pending : ℕ)
    (anchor : NodeId) (segments : List String) :
    watchChangeOverlaps (watchPathKey anchor segments) ⟨revision, pending, call.impact inner⟩ =
      true ↔ call.Overlaps inner anchor segments := by
  have hrefresh : (call.impact inner).fullRefresh = false := rfl
  simp only [watchChangeOverlaps, hrefresh, Bool.false_or, List.any_eq_true, Overlaps]
  constructor
  · rintro ⟨path, hpath, hoverlaps⟩
    obtain ⟨op, hop, rfl⟩ := ChangeImpact.mem_touchedPaths.mp hpath
    exact ⟨op, hop, hoverlaps⟩
  · rintro ⟨op, hop, hoverlaps⟩
    exact ⟨_, ChangeImpact.mem_touchedPaths.mpr ⟨op, hop, rfl⟩, hoverlaps⟩

omit [IncrementalStore σ] in
/-- A call that announces an operation changes data. -/
theorem GraphCall.Overlaps.dataChanged {call : GraphCall} {anchor : NodeId}
    {segments : List String} (h : call.Overlaps inner anchor segments) :
    (call.impact inner).dataChanged = true := by
  obtain ⟨op, hop, -⟩ := h
  exact Bool.not_eq_true' _ ▸ List.isEmpty_eq_false_iff_exists_mem.mpr ⟨op, hop⟩

omit [IncrementalStore σ] in
private theorem Inner.view_of_not_mem_keys (inner : Inner σ) (n : NodeId)
    (h : n ∉ inner.nodes.keys) : inner.view n = none := by
  rw [view, Std.ExtTreeMap.getElem?_eq_none fun hn => h (Std.ExtTreeMap.mem_keys.mpr hn)]
  rfl

/-- Without a store the value is the one at the path, with any fuel above the number of nodes. -/
theorem Inner.materialize_of_none (h : inner.storageEngine = none) {fuel : ℕ}
    (hfuel : inner.nodes.keys.length < fuel) (anchor : NodeId) (segments : List String) :
    inner.materialize anchor segments =
      match Views.valueAt inner.view fuel anchor segments with
      | .ok value => value
      | .error _ => none := by
  rw [materialize, onceJson_of_none h]
  rw [Views.valueAt_fuel inner.view_of_not_mem_keys (Nat.lt_succ_self _) hfuel]

/-- Databases whose values at a path agree materialize it alike. -/
theorem Inner.materialize_congr {other : Inner σ} (h : inner.storageEngine = none)
    (hother : other.storageEngine = none) {anchor : NodeId} {segments : List String}
    (hvalue : ∀ fuel, Views.valueAt other.view fuel anchor segments =
      Views.valueAt inner.view fuel anchor segments) :
    other.materialize anchor segments = inner.materialize anchor segments := by
  have hfuel := Nat.lt_succ_of_le (Nat.le_add_right inner.nodes.keys.length other.nodes.keys.length)
  have hfuel' := Nat.lt_succ_of_le
    (Nat.le_add_left other.nodes.keys.length inner.nodes.keys.length)
  rw [materialize_of_none h hfuel, materialize_of_none hother hfuel', hvalue]

/-- Persisting without a store changes no value. -/
theorem Inner.materialize_persist (h : inner.storageEngine = none) (anchor : NodeId)
    (segments : List String) :
    (persistIfNeeded inner).2.materialize anchor segments =
      inner.materialize anchor segments := by
  obtain ⟨queue, hqueue⟩ :=
    inner.markDurableOperationsFlushed_eq inner.unflushedOps.operations
  have heq : (persistIfNeeded inner).2 = { inner with unflushedOps := queue } := by
    simp only [persistIfNeeded, h, hqueue]
  rw [heq]
  exact materialize_congr h (by exact h) fun _ => rfl

/-- What a call sends to an open watcher whose hash is current: the new value, when the event
overlaps the path and the hash of the value changes. -/
theorem GraphCall.mem_sends_iff (call : GraphCall) (hstore : inner.storageEngine = none)
    (revision pending : ℕ) {watchers : BTreeMap ℕ (PathWatcher η)} {id : ℕ}
    {watcher : PathWatcher η} (hwatcher : watchers[id]? = some watcher)
    (hopen : watcher.isOpen = true) :
    (id, (call.take inner).2.materialize watcher.anchor watcher.segments) ∈
        call.sends hash inner revision pending watchers ↔
      call.Overlaps inner watcher.anchor watcher.segments ∧
      hash ((call.take inner).2.materialize watcher.anchor watcher.segments) ≠
        watcher.lastHash := by
  have hstore' : (call.take inner).2.storageEngine = none :=
    Inner.takeSteps_storageEngine.trans hstore
  have hrefresh : (call.impact inner).fullRefresh = false := rfl
  have hdue : watcher.due hash (persistIfNeeded (call.take inner).2).2
      ⟨revision, pending, call.impact inner⟩ =
        some ((call.take inner).2.materialize watcher.anchor watcher.segments) ↔
      call.Overlaps inner watcher.anchor watcher.segments ∧
      hash ((call.take inner).2.materialize watcher.anchor watcher.segments) ≠
        watcher.lastHash := by
    rw [PathWatcher.due, Inner.materialize_persist hstore',
      ← call.watchChangeOverlaps_iff revision pending, hrefresh]
    cases watchChangeOverlaps (watchPathKey watcher.anchor watcher.segments)
      ⟨revision, pending, call.impact inner⟩ <;> simp
  rw [← hdue]
  constructor
  · intro hmem
    unfold sends at hmem
    split at hmem
    · obtain ⟨entry, hentry, hsent⟩ := List.mem_filterMap.mp hmem
      split at hsent
      · obtain ⟨value, hvalue, heq⟩ := Option.map_eq_some_iff.mp hsent
        obtain ⟨hid, rfl⟩ := Prod.mk.inj heq
        have hsame : entry.2 = watcher := by
          have hget := Std.ExtTreeMap.mem_toList_iff_getElem?_eq_some.mp hentry
          rw [hid, hwatcher] at hget
          exact (Option.some.inj hget).symm
        rwa [hsame] at hvalue
      · cases hsent
    · cases hmem
  · intro hsent
    rw [sends, if_pos (hdue.mp hsent).1.dataChanged]
    refine List.mem_filterMap.mpr ⟨(id, watcher),
      Std.ExtTreeMap.mem_toList_iff_getElem?_eq_some.mpr hwatcher, ?_⟩
    rw [if_pos hopen, hsent]
    rfl

section Unchanged

omit [IncrementalStore σ]

variable {call : GraphCall} {root : String}
  (hmiss : ∀ op ∈ (call.take inner).1, pathOverlaps root (operationTouchedPath op) ≠ true)
include hmiss

/-- A call whose operations miss a path leaves the slots the path overlaps. -/
theorem GraphCall.slot_unchanged {n : NodeId} {f : String}
    (hslot : pathOverlaps root (n ++ "/" ++ f) = true) :
    slotAt (call.take inner).2.nodes n f = slotAt inner.nodes n f := by
  refine Inner.takeSteps_slot fun op hop => Bool.eq_false_iff.mpr fun hat => ?_
  obtain ⟨hnode, hfield⟩ : op.action.node = n ∧ op.action.field = f := by
    simpa [Operation.at] using hat
  refine hmiss op hop ?_
  rw [operationTouchedPath, hnode, hfield]
  exact hslot

/-- A call whose operations miss a path leaves the nodes at and below it that are there. -/
theorem GraphCall.node_unchanged {m : NodeId} (hm : m ∈ inner.nodes)
    (hbelow : nodeMatchesRoot m root = true) :
    (call.take inner).2.nodes[m]? = inner.nodes[m]? := by
  refine Inner.takeSteps_node (fun op hop heq => hmiss op hop ?_) fun _ => hm
  have hpath := nodeMatchesRoot_below (heq ▸ hbelow) op.action.field
  rw [nodeMatchesRoot, Bool.or_eq_true] at hpath
  rw [operationTouchedPath, pathOverlaps, Bool.or_eq_true, Bool.or_eq_true]
  rcases hpath with heq | hstart
  · exact Or.inl (Or.inl (beq_iff_eq.mpr (beq_iff_eq.mp heq).symm))
  · exact Or.inr hstart

end Unchanged

/-- Where the path covers what its value asks for, a call outside transactions that changes the
value overlaps the path. -/
theorem PathCovered.overlaps {anchor : NodeId} {segments : List String}
    (hcovered : PathCovered inner.view anchor segments) (hstore : inner.storageEngine = none)
    (hwf : inner.unflushedOps.Wf) {call : GraphCall} (hcall : ∀ steps, call ≠ .transaction steps)
    (hchanged : (call.take inner).2.materialize anchor segments ≠
      inner.materialize anchor segments) :
    call.Overlaps inner anchor segments := by
  by_contra hnone
  have hmiss : ∀ op ∈ (call.take inner).1,
      pathOverlaps (watchPathKey anchor segments) (operationTouchedPath op) ≠ true := by
    intro op hop hoverlaps
    obtain ⟨other, hother, heq⟩ := GraphCall.touched hcall hwf op hop
    exact hnone ⟨other, hother, heq ▸ hoverlaps⟩
  have hstore' : (call.take inner).2.storageEngine = none :=
    Inner.takeSteps_storageEngine.trans hstore
  refine hchanged (Inner.materialize_congr hstore hstore' fun fuel =>
    Views.valueAt_of_asked (fun slot hslot => ?_) fun start hstart m hm => ?_)
  · rw [Inner.field_view_eq_slot, Inner.field_view_eq_slot,
      GraphCall.slot_unchanged hmiss (hcovered.1 slot hslot)]
  · obtain ⟨hbelow, hthere⟩ := hcovered.2 start hstart m hm
    have hmem : m ∈ inner.nodes := by
      rw [Inner.view, Option.isSome_map] at hthere
      exact Std.ExtTreeMap.mem_iff_isSome_getElem?.mpr hthere
    rw [Inner.view, GraphCall.node_unchanged hmiss hmem hbelow, Inner.view]

end Sent

/-- A remote operation on an empty slot. -/
def remoteOp (action : OperationAction) : Operation :=
  ⟨zeroMarker.opId, "", zeroMarker.revision, action⟩

/-- A database in memory after remote operations. -/
def receivedDb (ops : List Operation) : Inner Empty :=
  ((GraphCall.applyOperations ops).take (Inner.withReplicaId "" ⟨fun _ => 0, 0⟩)).2

end Primadb

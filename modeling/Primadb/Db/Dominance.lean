import Primadb.Core.Run
import Primadb.Db.Mutation

/-!
# Local revisions and the revisions seen

Every revision the clock issued or observed lies at or before the millisecond and counter
it has reached. The next revision lies behind it by a later reading or by the next value of
the counter, and then a local assignment is never refused by the versions of its field. A
counter that has reached its greatest value stays there, so until the wall clock catches up
the actor alone decides.
-/

namespace Primadb

namespace HybridClock

variable {clock : HybridClock} {r : Revision}

/-- The clock has come as far as a revision, actors apart. -/
def Reached (clock : HybridClock) (r : Revision) : Prop :=
  r.millis.toNat < clock.lastMillis.toNat ∨
    r.millis.toNat = clock.lastMillis.toNat ∧ r.counter.toNat ≤ clock.counter.toNat

private theorem reached_observe (clock : HybridClock) (r : Revision) :
    (clock.observe r).Reached r := by
  simp only [Reached, observe, gt_iff_lt, UInt64.lt_iff_toNat_lt, UInt32.lt_iff_toNat_lt,
    ← UInt64.toNat_inj]
  split
  · exact Or.inr ⟨rfl, le_rfl⟩
  · split
    · rename_i h
      exact Or.inr ⟨h.1, le_rfl⟩
    · omega

private theorem Reached.observe (h : clock.Reached r) (seen : Revision) :
    (clock.observe seen).Reached r := by
  unfold Reached at h
  simp only [Reached, HybridClock.observe, gt_iff_lt, UInt64.lt_iff_toNat_lt,
    UInt32.lt_iff_toNat_lt, ← UInt64.toNat_inj]
  split
  · dsimp only
    omega
  · split
    · dsimp only
      omega
    · exact h

private theorem reached_foldl_observe {seen : List Revision} (h : clock.Reached r ∨ r ∈ seen) :
    (seen.foldl observe clock).Reached r := by
  induction seen generalizing clock with
  | nil => exact h.resolve_right List.not_mem_nil
  | cons first seen ih =>
    refine ih ?_
    rcases h with h | h
    · exact Or.inl (h.observe first)
    · rcases List.mem_cons.mp h with rfl | h
      · exact Or.inl (clock.reached_observe r)
      · exact Or.inr h

private theorem Reached.nextRevision (h : clock.Reached r) (now : UInt64) :
    (clock.nextRevision now).2.Reached r := by
  have hcounter := le_saturatingSucc32 clock.counter
  unfold Reached at h
  simp only [Reached, HybridClock.nextRevision, gt_iff_lt, UInt64.lt_iff_toNat_lt]
  split
  · dsimp only
    omega
  · dsimp only
    omega

private theorem reached_nextRevision (clock : HybridClock) (now : UInt64) :
    (clock.nextRevision now).2.Reached (clock.nextRevision now).1 :=
  Or.inr ⟨rfl, le_rfl⟩

/-- The next revision is above a reached one exactly when the reading is later, the counter
can still grow, or the reached one is below by its actor at the greatest counter. -/
theorem lt_nextRevision_iff (h : clock.Reached r) (now : UInt64) :
    r < (clock.nextRevision now).1 ↔ clock.lastMillis < now ∨ clock.counter.toNat + 1 < 2 ^ 32 ∨
      (r.millis = clock.lastMillis → r.counter = clock.counter → r.actor < clock.actor) := by
  unfold Reached at h
  rw [Revision.lt_iff]
  simp only [HybridClock.nextRevision, gt_iff_lt]
  by_cases hnow : clock.lastMillis < now
  · simp only [hnow, if_true, true_or, iff_true]
    have := UInt64.lt_iff_toNat_lt.mp hnow
    omega
  · simp only [hnow, if_false, false_or, saturatingSucc32]
    by_cases hroom : clock.counter.toNat + 1 < 2 ^ 32
    · simp only [hroom, if_true, true_or, iff_true]
      have hone : (1 : UInt32).toNat = 1 := rfl
      rw [UInt32.toNat_add]
      omega
    · simp only [hroom, if_false, false_or, ← UInt64.toNat_inj, ← UInt32.toNat_inj]
      constructor
      · rintro (hlt | ⟨-, hlt | ⟨-, hlt⟩⟩) hmillis hcounter
        · omega
        · omega
        · exact hlt
      · intro hactor
        by_cases hsame : r.millis.toNat = clock.lastMillis.toNat ∧
            r.counter.toNat = clock.counter.toNat
        · exact Or.inr ⟨hsame.1, Or.inr ⟨hsame.2, hactor hsame.1 hsame.2⟩⟩
        · omega

end HybridClock

/-- All revisions of a node state. -/
def NodeState.revisions (state : NodeState) : List Revision :=
  state.tombstones.valueList.map VersionMarker.revision ++
    state.fields.valueList.flatMap fun field =>
      field.version.revision ::
        match field.value with
        | .set set =>
          set.baseline.revision ::
            (set.members.valueList ++ set.removed.valueList).map VersionMarker.revision
        | .scalar _ | .bytes _ | .blob _ | .link _ => []

private theorem HybridClock.observeNodeState_eq (clock : HybridClock) (state : NodeState) :
    clock.observeNodeState state = state.revisions.foldl observe clock := by
  simp only [observeNodeState, NodeState.revisions, List.foldl_append, List.foldl_map,
    List.foldl_flatMap]
  congr 1
  funext clock field
  cases hvalue : field.value with
  | set set => simp only [List.foldl_cons, List.foldl_map, List.foldl_append]
  | _ => rfl

private theorem NodeState.mem_revisions_of_carries {state : NodeState} {f : String}
    {m : VersionMarker} (h : (state.slot f).Carries m) : m.revision ∈ state.revisions := by
  rcases h with h | h
  · obtain ⟨field, hfield, rfl⟩ := Option.map_eq_some_iff.mp h
    refine List.mem_append_right _ (List.mem_flatMap.mpr ⟨field, ?_, List.mem_cons_self⟩)
    exact BTreeMap.mem_valueList.mpr ⟨f, hfield⟩
  · refine List.mem_append_left _ (List.mem_map.mpr ⟨m, ?_, rfl⟩)
    exact BTreeMap.mem_valueList.mpr ⟨f, h⟩

/-- A slot whose markers all have smaller revisions takes an assignment. -/
theorem Slot.accepts_assign {slot : Slot} {value : OperationValue} {marker : VersionMarker}
    (h : ∀ m, slot.Carries m → m.revision < marker.revision) :
    slot.accepts ⟨marker, .assign value⟩ = true := by
  have hlt : ∀ m, slot.Carries m → ¬marker ≤ m := fun m hm =>
    not_le.mpr (VersionMarker.lt_iff.mpr (Or.inl (h m hm)))
  have hblocks : ∀ current, (∀ m, current = some m → slot.Carries m) →
      blocks current marker = false := by
    intro current hcurrent
    cases current with
    | none => rfl
    | some m => simpa [blocks] using hlt m (hcurrent m rfl)
  have htombstone := hblocks slot.tombstone fun m hm => Or.inr hm
  have hfield := hblocks (slot.field.map FieldState.version) fun m hm => Or.inl hm
  simp only [accepts, blocksReset, htombstone, hfield, Bool.or_self, Bool.not_false]

/-- A database with the revisions it issued or observed. -/
structure SeenDb (σ : Type) where
  /-- The database. -/
  inner : Inner σ
  /-- Revisions issued or observed so far. -/
  seen : List Revision

/-- What moves the clock of a database. -/
inductive ClockEvent where
  /-- A local operation. -/
  | write (nspace : String) (action : OperationAction)
  /-- A node id is issued. -/
  | nodeId (hint : String)
  /-- An operation arrives. -/
  | receive (op : Operation)
  /-- A node state is merged. -/
  | merge (state : NodeState)

namespace SeenDb

variable {σ : Type}

/-- One event. An operation that the policies refuse is not observed. -/
def step (s : SeenDb σ) : ClockEvent → SeenDb σ
  | .write nspace action =>
    ⟨s.inner.applyLocal nspace action, (s.inner.issue nspace action).1.revision :: s.seen⟩
  | .nodeId hint => ⟨(s.inner.nextNodeId hint).2, s.seen⟩
  | .receive op =>
    ⟨(s.inner.applyOperationInternal op .remote).2,
      if s.inner.admits op .remote then op.revision :: s.seen else s.seen⟩
  | .merge state => ⟨s.inner.mergeState state, state.revisions ++ s.seen⟩

/-- A database without nodes that has seen nothing yet. -/
def start (inner : Inner σ) : SeenDb σ := ⟨{ inner with nodes := ∅ }, []⟩

/-- The next revision is above all revisions seen, and no version of a field refuses a local
assignment: it is taken whenever the queue of pending operations has room. -/
def Dominates (s : SeenDb σ) : Prop :=
  (∀ r ∈ s.seen, r < (s.inner.clock.nextRevision s.inner.wall.nowMillis.1).1) ∧
    ∀ node field value,
      let issued := s.inner.issue "set" (.setField node field value)
      (issued.2.applyOperationInternal issued.1 .local).1 =
        decide (s.inner.pendingOps.len < s.inner.limits.maxPendingOps)

/-- The wall clock is ahead, the counter can still grow, or what was seen at the millisecond and
counter reached comes from smaller actors. -/
def Advances (s : SeenDb σ) : Prop :=
  s.inner.clock.lastMillis < s.inner.wall.nowMillis.1 ∨ s.inner.clock.counter.toNat + 1 < 2 ^ 32 ∨
    ∀ r ∈ s.seen, r.millis = s.inner.clock.lastMillis → r.counter = s.inner.clock.counter →
      r.actor < s.inner.clock.actor

/-- The clock has reached everything seen, and every marker of the graph was seen. -/
structure Covered (s : SeenDb σ) : Prop where
  reached : ∀ r ∈ s.seen, s.inner.clock.Reached r
  carried : ∀ n f m, (slotAt s.inner.nodes n f).Carries m → m.revision ∈ s.seen

namespace Covered

variable {s : SeenDb σ}

/-- An operation that is applied and seen. -/
theorem apply {inner : Inner σ} {seen : List Revision} (h : Covered ⟨inner, seen⟩)
    (op : Operation) (origin : OperationOrigin) :
    Covered ⟨(inner.applyAdmitted op origin).2, op.revision :: seen⟩ := by
  obtain ⟨-, overlay, keys, index, heq⟩ := inner.applyAdmitted_eq op origin
  rw [heq]
  constructor
  · intro r hr
    rcases List.mem_cons.mp hr with rfl | hr
    · exact inner.clock.reached_observe _
    · exact (h.reached r hr).observe op.revision
  · intro n f m hm
    change (slotAt (applyToNodes inner.nodes op).1 n f).Carries m at hm
    rw [slotAt_applyToNodes] at hm
    split at hm
    · rcases Slot.carries_apply hm with hm | rfl
      · exact List.mem_cons_of_mem _ (h.carried n f m hm)
      · exact List.mem_cons_self
    · exact List.mem_cons_of_mem _ (h.carried n f m hm)

private theorem issue (h : s.Covered) (nspace : String) (action : OperationAction) :
    Covered ⟨(s.inner.issue nspace action).2, s.seen⟩ :=
  ⟨fun r hr => (h.reached r hr).nextRevision s.inner.wall.nowMillis.1, h.carried⟩

private theorem write (h : s.Covered) (nspace : String) (action : OperationAction) :
    (s.step (.write nspace action)).Covered := by
  have hissue := h.issue nspace action
  simp only [SeenDb.step, Inner.applyLocal, Inner.applyOperationInternal]
  split
  · exact hissue.apply _ _
  · refine ⟨fun r hr => ?_, fun n f m hm => List.mem_cons_of_mem _ (hissue.carried n f m hm)⟩
    rcases List.mem_cons.mp hr with rfl | hr
    · exact s.inner.clock.reached_nextRevision _
    · exact hissue.reached r hr

private theorem merge (h : s.Covered) (state : NodeState) : (s.step (.merge state)).Covered := by
  constructor
  · intro r hr
    change (s.inner.clock.observeNodeState state).Reached r
    rw [HybridClock.observeNodeState_eq]
    refine HybridClock.reached_foldl_observe ?_
    exact (List.mem_append.mp hr).symm.imp_left (h.reached r)
  · intro n f m hm
    change (slotAt (mergeNodeState s.inner.nodes state) n f).Carries m at hm
    rw [slotAt_mergeNodeState] at hm
    split at hm
    · rcases Slot.carries_merge hm with hm | hm
      · exact List.mem_append_right _ (h.carried n f m hm)
      · exact List.mem_append_left _ (NodeState.mem_revisions_of_carries hm)
    · exact List.mem_append_right _ (h.carried n f m hm)

private theorem step (h : s.Covered) (event : ClockEvent) : (s.step event).Covered := by
  cases event with
  | write nspace action => exact h.write nspace action
  | nodeId hint => exact ⟨h.reached, h.carried⟩
  | receive op =>
    simp only [SeenDb.step, Inner.applyOperationInternal]
    split
    · exact h.apply op .remote
    · exact h
  | merge state => exact h.merge state

private theorem start (inner : Inner σ) : (SeenDb.start inner).Covered := by
  refine ⟨fun r hr => (by cases hr), fun n f m hm => ?_⟩
  have hempty : slotAt (∅ : BTreeMap NodeId NodeState) n f = Slot.empty := by simp [slotAt]
  change (slotAt ∅ n f).Carries m at hm
  rw [hempty] at hm
  rcases hm with hm | hm <;> cases hm

private theorem lt_next_iff (h : s.Covered) :
    (∀ r ∈ s.seen, r < (s.inner.clock.nextRevision s.inner.wall.nowMillis.1).1) ↔ s.Advances := by
  have hiff := fun r hr => HybridClock.lt_nextRevision_iff (h.reached r hr)
    s.inner.wall.nowMillis.1
  unfold Advances
  by_cases hnow : s.inner.clock.lastMillis < s.inner.wall.nowMillis.1
  · simp only [hnow, true_or, iff_true] at hiff ⊢
    exact hiff
  · by_cases hroom : s.inner.clock.counter.toNat + 1 < 2 ^ 32
    · simp only [hroom, true_or, or_true, iff_true] at hiff ⊢
      exact hiff
    · simp only [hnow, hroom, false_or] at hiff ⊢
      exact forall₂_congr hiff

/-- A local assignment above all revisions seen is taken when there is room. -/
theorem takes_set (h : s.Covered)
    (hlt : ∀ r ∈ s.seen, r < (s.inner.clock.nextRevision s.inner.wall.nowMillis.1).1)
    (node : NodeId) (field : String) (value : OperationValue) :
    let issued := s.inner.issue "set" (.setField node field value)
    (issued.2.applyOperationInternal issued.1 .local).1 =
      decide (s.inner.pendingOps.len < s.inner.limits.maxPendingOps) := by
  intro issued
  have haccepts : (slotAt s.inner.nodes node field).accepts issued.1.slotOp = true :=
    Slot.accepts_assign fun m hm => hlt _ (h.carried node field m hm)
  have htaken : (issued.2.applyAdmitted issued.1 .local).1 = true := by
    rw [(issued.2.applyAdmitted_eq issued.1 .local).1, applyToNodes_accepts]
    exact haccepts
  have hroom : issued.2.admits issued.1 .local =
      decide (s.inner.pendingOps.len < s.inner.limits.maxPendingOps) := rfl
  rw [Inner.applyOperationInternal, hroom]
  cases decide (s.inner.pendingOps.len < s.inner.limits.maxPendingOps) with
  | false => rfl
  | true => exact htaken

end Covered

/-- After every sequence of readings, observations and local writes, the next local revision
dominates everything seen exactly when the clock advances. -/
theorem dominates_iff (inner : Inner σ) (events : List ClockEvent) :
    let s := events.foldl step (start inner)
    s.Dominates ↔ s.Advances := by
  intro s
  have hcovered : s.Covered :=
    Run.invariant (fun _ event h => h.step event) (Covered.start inner) events
  constructor
  · exact fun h => hcovered.lt_next_iff.mp h.1
  · intro h
    have hlt := hcovered.lt_next_iff.mpr h
    exact ⟨hlt, hcovered.takes_set hlt⟩

/-- An operation of another replica at the greatest counter. -/
def lastCounter : Operation :=
  ⟨"b/set/0-ffffffff-1", "b", ⟨0, 4294967295, "b"⟩, .setField "n" "f" (.scalar .null)⟩

/-- After it, while the wall clock stands, a local assignment is issued below it and refused. -/
theorem refused_after_lastCounter :
    let s := [ClockEvent.receive lastCounter].foldl step
      (start (Inner.withReplicaId (σ := Unit) "a" ⟨fun _ => 0, 0⟩))
    let issued := s.inner.issue "set" (.setField "n" "f" (.scalar .null))
    s.inner.pendingOps.len < s.inner.limits.maxPendingOps ∧ lastCounter.revision ∈ s.seen ∧
      issued.1.revision < lastCounter.revision ∧
      (issued.2.applyOperationInternal issued.1 .local).1 = false := by
  decide +kernel

end SeenDb

end Primadb

import Primadb.Db.Delivery
import Primadb.Db.Footprint
import Primadb.Db.InMemory
import Primadb.Graph.MergeHistories

/-!
# Merging reachable node states

The node states a run of calls can reach on an in-memory database, and what
merging them does.
-/

namespace Primadb

/-- Every node carries its own id and has well formed slots. -/
def NodesWf (nodes : BTreeMap NodeId NodeState) : Prop :=
  ∀ (n : NodeId) (state : NodeState), nodes[n]? = some state →
    state.id = n ∧ ∀ f, (state.slot f).Wf

namespace NodesWf

variable {nodes : BTreeMap NodeId NodeState}

private theorem empty : NodesWf ∅ := by
  intro n state h
  simp at h

private theorem nodeEntry (h : NodesWf nodes) (n : NodeId) :
    (nodeEntry nodes n).id = n ∧ ∀ f, ((Primadb.nodeEntry nodes n).slot f).Wf := by
  unfold Primadb.nodeEntry
  cases hn : nodes[n]? with
  | none => exact ⟨rfl, fun f => by simpa using Slot.Wf.empty⟩
  | some state => exact h n state hn

/-- Storing a well formed state under its id. -/
theorem insert (h : NodesWf nodes) {n : NodeId} {state : NodeState}
    (hs : state.id = n ∧ ∀ f, (state.slot f).Wf) : NodesWf (nodes.insert n state) := by
  intro m other hm
  rw [BTreeMap.get_insert] at hm
  split at hm
  · rename_i he
    subst he
    cases hm
    exact hs
  · exact h m other hm

end NodesWf

/-- Operations keep the nodes well formed. -/
theorem NodesWf.applyToNodes {nodes : BTreeMap NodeId NodeState} (h : NodesWf nodes)
    (op : Operation) : NodesWf (applyToNodes nodes op).1 := by
  obtain ⟨hid, hslots⟩ := h.nodeEntry op.action.node
  refine h.insert ⟨?_, fun f => ?_⟩
  · rw [NodeState.applyAction_id, hid]
  · rw [NodeState.applyAction_slot]
    split
    · exact (hslots f).apply _
    · exact hslots f

section Calls

variable {σ : Type}

namespace Inner

/-- Marking a flush changes the queue alone. -/
theorem markDurableOperationsFlushed_eq (inner : Inner σ) (ops : List Operation) :
    ∃ queue, inner.markDurableOperationsFlushed ops = { inner with unflushedOps := queue } := by
  simp only [markDurableOperationsFlushed]
  repeat' split
  all_goals exact ⟨_, rfl⟩

variable [IncrementalStore σ]

/-- The states that write calls reach on a fresh in-memory database. -/
def Reached (inner : Inner σ) : Prop :=
  ∃ (replicaId : String) (wall : WallClock) (policies : BTreeMap String ScopePolicy)
    (limits : PrimadbLimits) (calls : List WriteCall),
    inner = (configured replicaId wall policies limits).runCalls calls

section InMemory

variable {P : BTreeMap NodeId NodeState → Prop}
  (hensure : ∀ nodes node, P nodes → P (nodes.insert node (nodeEntry nodes node)))
  (happly : ∀ nodes op, P nodes → P (applyToNodes nodes op).1)
include hensure happly

/-- Without a store, write calls keep of the nodes what entering a node and applying an operation
keep. -/
private theorem callClosed_inMemory : CallClosed fun s t : Inner σ =>
    s.storageEngine = none ∧ P s.nodes → t.storageEngine = none ∧ P t.nodes := by
  have happlied : ∀ (inner : Inner σ) (op : Operation) (origin : OperationOrigin),
      inner.storageEngine = none ∧ P inner.nodes →
        (inner.applyOperationInternal op origin).2.storageEngine = none ∧
          P (inner.applyOperationInternal op origin).2.nodes := by
    refine fun inner op origin h =>
      ⟨(inner.applyOperationInternal_frame op origin).1.trans h.1, ?_⟩
    rw [Inner.applyOperationInternal]
    split
    · rw [applyAdmitted_nodes]
      exact happly inner.nodes op h.2
    · exact h.2
  exact {
    refl := fun _ => id
    trans := fun h h' hs => h' (h hs)
    load := fun inner node h => by rwa [Inner.maybeLoadNode_of_none h.1]
    ensureNode := fun inner node h => ⟨h.1, hensure inner.nodes node h.2⟩
    nextNodeId := fun inner hint h => h
    applyLocal := fun inner nspace action _ h => happlied (inner.issue nspace action).2 _ _ h
    applyRemote := fun inner op h => happlied inner op .remote h
    persist := fun inner h => by
      obtain ⟨queue, hq⟩ := inner.markDurableOperationsFlushed_eq inner.unflushedOps.operations
      simp only [persistIfNeeded, h.1, hq]
      exact ⟨trivial, h.2⟩ }

/-- So it is in every state that write calls reach on a fresh database. -/
theorem Reached.inMemory (hempty : P ∅) {inner : Inner σ} (h : inner.Reached) :
    inner.storageEngine = none ∧ P inner.nodes := by
  obtain ⟨replicaId, wall, policies, limits, calls, rfl⟩ := h
  exact (callClosed_inMemory hensure happly).runCalls calls _ ⟨rfl, hempty⟩

end InMemory

/-- The nodes of a reached state are well formed. -/
theorem Reached.memoryWf {inner : Inner σ} (h : inner.Reached) :
    inner.storageEngine = none ∧ NodesWf inner.nodes :=
  h.inMemory (fun _ node hwf => hwf.insert (hwf.nodeEntry node))
    (fun _ op hwf => hwf.applyToNodes op) NodesWf.empty

end Inner

end Calls

/-- Every entry of the set lies above its baseline. -/
def SetState.AboveBaseline (set : SetState) : Prop :=
  (∀ (id : NodeId) (m : VersionMarker), set.members[id]? = some m → set.baseline < m) ∧
    ∀ (id : NodeId) (m : VersionMarker), set.removed[id]? = some m → set.baseline < m

/-- No tombstone stands beside a present field, and every entry of a set is above its baseline. -/
def NodeState.Mergeable (state : NodeState) : Prop :=
  ∀ f : String, (state.fields[f]? = none ∨ state.tombstones[f]? = none) ∧
    ∀ (set : SetState) (version : VersionMarker),
      state.fields[f]? = some ⟨.set set, version⟩ → set.AboveBaseline

/-- The entries of a disjoint set are those of its two halves. -/
theorem SetState.Disjoint.forall_writes_iff {set : SetState} (h : set.Disjoint) :
    (∀ w ∈ set.writes, set.baseline < w.stamp) ↔ set.AboveBaseline := by
  constructor
  · intro hw
    exact ⟨fun id m hm => hw ⟨m, id, true⟩ ((set.members_eq_some_iff id m).mp hm),
      fun id m hm => hw ⟨m, id, false⟩ ((h.removed_eq_some_iff id m).mp hm)⟩
  · rintro ⟨hadd, hdrop⟩ ⟨m, id, present⟩ hw
    cases present with
    | true => exact hadd id m ((set.members_eq_some_iff id m).mpr hw)
    | false => exact hdrop id m ((h.removed_eq_some_iff id m).mpr hw)

/-- Merging a well formed state with itself changes nothing exactly for mergeable states. -/
theorem NodeState.mergeWith_self_iff {state : NodeState} (h : ∀ f, (state.slot f).Wf) :
    state.mergeWith state = state ↔ state.Mergeable := by
  have hslots : state.mergeWith state = state ↔
      ∀ f, (state.slot f).merge (state.slot f) = state.slot f := by
    constructor
    · intro heq f
      rw [← NodeState.mergeWith_slot, heq]
    · intro heq
      refine NodeState.ext_slot (NodeState.mergeWith_id state state) fun f => ?_
      rw [NodeState.mergeWith_slot, heq]
  rw [hslots]
  refine forall_congr' fun f => ?_
  rw [(h f).merge_self_eq_iff]
  refine and_congr_right fun _ => forall_congr' fun set => forall_congr' fun version => ?_
  constructor
  · exact fun hw hf => ((h f).disjoint set version hf).forall_writes_iff.mp (hw hf)
  · exact fun hw hf => ((h f).disjoint set version hf).forall_writes_iff.mpr (hw hf)

/-- A node state of a reached database is unchanged by merging a copy of it exactly when it is
mergeable. -/
theorem Inner.Reached.merge_copy_iff {σ : Type} [IncrementalStore σ] {inner : Inner σ}
    (h : inner.Reached) (n : NodeId) {state : NodeState} (hn : inner.nodes[n]? = some state) :
    mergeNodeState inner.nodes state = inner.nodes ↔ state.Mergeable := by
  obtain ⟨hid, hslots⟩ := h.memoryWf.2 n state hn
  rw [← NodeState.mergeWith_self_iff hslots]
  have hentry : nodeEntry inner.nodes state.id = state := by
    rw [nodeEntry, hid, hn]
    rfl
  rw [mergeNodeState, hentry]
  constructor
  · intro heq
    have hget := congrArg (·[n]?) heq
    simp only [BTreeMap.get_insert, hid, if_true, hn] at hget
    exact Option.some.inj hget
  · intro heq
    refine Std.ExtTreeMap.ext_getElem? fun m => ?_
    rw [heq, BTreeMap.get_insert, hid]
    split
    · rename_i hm
      rw [← hm, hn]
    · rfl

/-- A fresh database on which one object with a set of links was put. -/
def putLinkSet : Inner Empty :=
  (Inner.configured "a" ⟨fun _ => 0, 0⟩ ∅ .default).runCalls
    [.put "n" [] (.object [("f", .object [("$set", .array [.object [("$link", .string "x")]])])])]

/-- Merging a copy of the node drops the member of its set. -/
theorem Inner.merge_copy_putLinkSet : ∃ state, putLinkSet.nodes["n"]? = some state ∧
    mergeNodeState putLinkSet.nodes state ≠ putLinkSet.nodes :=
  ⟨nodeEntry putLinkSet.nodes "n", by decide, by decide⟩

/-- A fresh database on which a scalar was put and a member was added to another field. -/
def putScalarAddMember : Inner Empty :=
  (Inner.configured "a" ⟨fun _ => 0, 0⟩ ∅ .default).runCalls
    [.put "n" ["f"] .null, .set "n" ["g"] (.object [("$link", .string "x")])]

/-- Its node survives the merge of a copy, so it is mergeable. -/
theorem Inner.Reached.merge_copy_putScalarAddMember : ∃ state,
    putScalarAddMember.nodes["n"]? = some state ∧ state.Mergeable :=
  ⟨nodeEntry putScalarAddMember.nodes "n", by decide +kernel,
    (Inner.Reached.merge_copy_iff (show putScalarAddMember.Reached from ⟨_, _, _, _, _, rfl⟩) "n"
      (by decide +kernel)).mp (by decide +kernel)⟩

/-- Nodes keyed by their id with equal slots are equal. -/
theorem KeyedById.ext {a b : BTreeMap NodeId NodeState} (ha : KeyedById a) (hb : KeyedById b)
    (hmem : ∀ n, a.contains n = b.contains n) (hslot : ∀ n f, slotAt a n f = slotAt b n f) :
    a = b := by
  refine Std.ExtTreeMap.ext_getElem? fun n => ?_
  have hn := hmem n
  rw [Std.ExtTreeMap.contains_eq_isSome_getElem?, Std.ExtTreeMap.contains_eq_isSome_getElem?] at hn
  cases hx : a[n]? with
  | none =>
    rw [hx] at hn
    exact (Option.not_isSome_iff_eq_none.mp (by simp [← hn])).symm
  | some x =>
    rw [hx] at hn
    obtain ⟨y, hy⟩ := Option.isSome_iff_exists.mp hn.symm
    rw [hy]
    refine congrArg some (NodeState.ext_slot ((ha n x hx).trans (hb n y hy).symm) fun f => ?_)
    simpa [slotAt, hx, hy] using hslot n f

private theorem NodesWf.foldl_applyToNodes {nodes : BTreeMap NodeId NodeState} (h : NodesWf nodes)
    (ops : List Operation) :
    NodesWf (ops.foldl (fun nodes op => (Primadb.applyToNodes nodes op).1) nodes) := by
  induction ops generalizing nodes with
  | nil => exact h
  | cons op ops ih => exact ih (h.applyToNodes op)

/-- Delivered nodes are those the operations name. -/
theorem contains_foldl_applyToNodes (ops : List Operation) (nodes : BTreeMap NodeId NodeState)
    (n : NodeId) :
    (ops.foldl (fun nodes op => (applyToNodes nodes op).1) nodes).contains n =
      (nodes.contains n || ops.any fun op => op.action.node == n) := by
  induction ops generalizing nodes with
  | nil => simp
  | cons op ops ih =>
    rw [List.foldl_cons, ih, applyToNodes, Std.ExtTreeMap.contains_insert, List.any_cons]
    have hcompare : (compare op.action.node n == .eq) = (op.action.node == n) := by
      rw [Bool.eq_iff_iff]
      simp
    rw [hcompare]
    grind

namespace History

variable {H : History} {σ : Type}

/-- An operation that deletes its field or assigns anything but a set. -/
def IsSimple (n : NodeId) (f : String) (op : Operation) : Prop :=
  (∃ value, op.action = .setField n f value ∧ ∀ ids, value ≠ .set ids) ∨
    op.action = .deleteField n f

/-- Every slot meets simple resets only or member operations only. -/
def Unmixed (ops : Finset Operation) : Prop :=
  ∀ n f, (∀ op ∈ ops, op.at n f = true → IsSimple n f op) ∨
    ∀ op ∈ ops, op.at n f = true → IsMember n f op

private theorem IsSimple.slotOp {n : NodeId} {f : String} {op : Operation} (h : IsSimple n f op) :
    op.slotOp.IsSimple := by
  rcases h with ⟨value, hact, hv⟩ | hact
  · exact Or.inr ⟨value, by simp [Operation.slotOp, hact, OperationAction.slotAction], hv⟩
  · exact Or.inl (by simp [Operation.slotOp, hact, OperationAction.slotAction])

/-- The nodes of a fresh database after a delivery. -/
def delivered (σ : Type) (r : String) (w : WallClock) (ops : List Operation) :
    BTreeMap NodeId NodeState :=
  ((Inner.withReplicaId r w : Inner σ).applyRemote ops).nodes

private theorem delivered_wf (r : String) (w : WallClock) (ops : List Operation) :
    NodesWf (delivered σ r w ops) := by
  rw [delivered, Inner.applyRemote_nodes rfl]
  exact NodesWf.empty.foldl_applyToNodes ops

/-- Delivered nodes are those the operations name. -/
theorem delivered_contains (r : String) (w : WallClock) (ops : List Operation) (n : NodeId) :
    (delivered σ r w ops).contains n = ops.any fun op => op.action.node == n := by
  rw [delivered, Inner.applyRemote_nodes rfl, contains_foldl_applyToNodes]
  exact Bool.or_eq_right_iff_imp.mpr (by simp [Inner.withReplicaId])

/-- Merging the slots of two deliveries gives the slot of their union. -/
theorem merge_slots (hslots : Unmixed H.ops) {s t u : List Operation} (hu : H.Delivers u)
    (hst : ∀ op, op ∈ u ↔ op ∈ s ∨ op ∈ t) (n : NodeId) (f : String) :
    (Slot.empty.run (slotOps s n f)).merge (Slot.empty.run (slotOps t n f)) =
      Slot.empty.run (slotOps u n f) := by
  have hunion : {o | o ∈ slotOps u n f} =
      {o | o ∈ slotOps s n f} ∪ {o | o ∈ slotOps t n f} := by
    ext o
    simp only [Set.mem_union, Set.mem_ofPred_eq, mem_slotOps, hst, or_and_right, exists_or]
  obtain ⟨hsub, hexpl⟩ := explained_slotOps (fun op hop => (hu op).mp hop) n f
  have hs := (explained_slotOps (fun op hop => (hu op).mp ((hst op).mpr (Or.inl hop))) n f).2
  have ht := (explained_slotOps (fun op hop => (hu op).mp ((hst op).mpr (Or.inr hop))) n f).2
  rw [hunion] at hsub hexpl
  rcases hslots n f with hsimple | hmember
  · refine hs.merge_simple ht hexpl hsub fun o ho => ?_
    obtain ⟨op, hop, hat, rfl⟩ := hsub ho
    exact (hsimple op hop hat).slotOp
  · refine hs.merge_members ht hexpl hsub fun o ho => ?_
    obtain ⟨op, hop, hat, rfl⟩ := hsub ho
    exact (hmember op hop hat).slotOp

/-- Where no slot mixes resets with member operations, merging the nodes that two sets of
operations leave gives the nodes that their union leaves, in any order of delivery. -/
theorem mergeNodes_delivered (H : History) (σ : Type) (H₁ H₂ : Finset Operation)
    (hH : H.ops = H₁ ∪ H₂) (hslots : Unmixed H.ops) (r r₁ r₂ : String) (w w₁ w₂ : WallClock)
    (s t u : List Operation) (hs : ∀ op, op ∈ s ↔ op ∈ H₁) (ht : ∀ op, op ∈ t ↔ op ∈ H₂)
    (hu : H.Delivers u) :
    mergeNodes (delivered σ r₁ w₁ s) (delivered σ r₂ w₂ t) = delivered σ r w u := by
  have hst : ∀ op, op ∈ u ↔ op ∈ s ∨ op ∈ t := by
    intro op
    rw [hu op, hH, Finset.mem_union, hs, ht]
  have hwfs := delivered_wf (σ := σ) r₁ w₁ s
  have hkey : ∀ {nodes}, NodesWf nodes → KeyedById nodes := fun h n state hn => (h n state hn).1
  have hkeyt := hkey (delivered_wf (σ := σ) r₂ w₂ t)
  have hget := mergeNodes_get (delivered σ r₁ w₁ s) hkeyt
  refine KeyedById.ext (fun n state hn => ?_) (hkey (delivered_wf r w u)) (fun n => ?_)
    fun n f => ?_
  · rw [hget] at hn
    split at hn
    · cases hn
      rw [NodeState.mergeWith_id, (hwfs.nodeEntry n).1]
    · exact hkey hwfs n state hn
  · rw [mergeNodes_contains _ hkeyt, delivered_contains, delivered_contains, delivered_contains,
      Bool.eq_iff_iff]
    simp only [Bool.or_eq_true, List.any_eq_true, hst, or_and_right, exists_or]
  · rw [slotAt_mergeNodes _ hkeyt]
    simp only [delivered, Inner.slotAt_applyRemote]
    exact merge_slots hslots hu hst n f

/-- An add with the zero marker is lost by a merge, while delivery keeps it. -/
theorem mergeNodes_delivered_zeroMarker :
    let first := opAt 0 (.addSetMember "n" "f" "x")
    let second := opAt 1 (.addSetMember "n" "f" "y")
    first.marker ≠ second.marker ∧ Unmixed {first, second} ∧
      mergeNodes (delivered Unit "a" ⟨fun _ => 0, 0⟩ [first])
          (delivered Unit "a" ⟨fun _ => 0, 0⟩ [second]) ≠
        delivered Unit "a" ⟨fun _ => 0, 0⟩ [first, second] := by
  refine ⟨by decide, fun n f => Or.inr ?_, by decide +kernel⟩
  intro op hop hat
  simp only [Finset.mem_insert, Finset.mem_singleton] at hop
  rcases hop with rfl | rfl <;>
    simp_all [IsMember, opAt, Operation.at, OperationAction.node, OperationAction.field]

/-- A scalar assigned at the zero marker and deleted, two adds and a removal. -/
def assignedAtZero : History where
  ops := {opAt 0 (.setField "n" "f" (.scalar .null)), opAt 2 (.deleteField "n" "f"),
    opAt 3 (.addSetMember "n" "g" "x"), opAt 4 (.addSetMember "n" "g" "y"),
    opAt 5 (.removeSetMember "n" "g" "x")}
  distinct := by decide
  positive := by decide

/-- They are split over two replicas, and delivered newest first with a repeat to a third. -/
theorem mergeNodes_delivered_assignedAtZero :
    mergeNodes
        (delivered Unit "a" ⟨fun _ => 0, 0⟩
          [opAt 0 (.setField "n" "f" (.scalar .null)), opAt 4 (.addSetMember "n" "g" "y"),
            opAt 3 (.addSetMember "n" "g" "x")])
        (delivered Unit "b" ⟨fun _ => 0, 0⟩
          [opAt 2 (.deleteField "n" "f"), opAt 5 (.removeSetMember "n" "g" "x")]) =
      delivered Unit "c" ⟨fun _ => 0, 0⟩
        [opAt 5 (.removeSetMember "n" "g" "x"), opAt 4 (.addSetMember "n" "g" "y"),
          opAt 3 (.addSetMember "n" "g" "x"), opAt 2 (.deleteField "n" "f"),
          opAt 0 (.setField "n" "f" (.scalar .null)), opAt 4 (.addSetMember "n" "g" "y")] := by
  refine mergeNodes_delivered assignedAtZero Unit
    {opAt 0 (.setField "n" "f" (.scalar .null)), opAt 4 (.addSetMember "n" "g" "y"),
      opAt 3 (.addSetMember "n" "g" "x")}
    {opAt 2 (.deleteField "n" "f"), opAt 5 (.removeSetMember "n" "g" "x")}
    (by decide) (fun n f => ?_) _ _ _ _ _ _ _ _ _ (by simp) (by simp) fun op => ?_
  · by_cases hf : f = "g"
    · refine Or.inr fun op hop hat => ?_
      simp only [assignedAtZero, Finset.mem_insert, Finset.mem_singleton] at hop
      rcases hop with rfl | rfl | rfl | rfl | rfl <;>
        simp_all [IsMember, opAt, Operation.at, OperationAction.node, OperationAction.field]
    · refine Or.inl fun op hop hat => ?_
      simp only [assignedAtZero, Finset.mem_insert, Finset.mem_singleton] at hop
      rcases hop with rfl | rfl | rfl | rfl | rfl <;>
        simp_all [IsSimple, opAt, Operation.at, OperationAction.node, OperationAction.field]
  · simp only [assignedAtZero, List.mem_cons, List.not_mem_nil, Finset.mem_insert,
      Finset.mem_singleton]
    tauto

end History

end Primadb

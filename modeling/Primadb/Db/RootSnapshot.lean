import Primadb.Db.InMemory
import Primadb.Db.Mutation
import Primadb.Db.Snapshots
import Primadb.Graph.SlotVersions

/-!
# Snapshots of a root

A snapshot of a root holds the nodes at or below the root and all that is reachable from them
over links and set members. The worklist loop finds exactly these. A fresh database that merges
the snapshot answers every read from one of these nodes as the source does, exactly when the
tombstones beside fields of these nodes are older than the fields, since a merge drops a field for
a tombstone that is not older. Write calls leave no such tombstone.
-/

namespace Primadb

/-- The nodes a node state leads to. -/
def NodeState.targets (state : NodeState) : List NodeId :=
  state.fields.valueList.flatMap fun field =>
    match field.value with
    | .scalar _ | .bytes _ | .blob _ => []
    | .link target => [target]
    | .set set => set.members.keys

/-- The nodes a node leads to; an absent node leads nowhere. -/
def nodeSuccessors (nodes : BTreeMap NodeId NodeState) (node : NodeId) : List NodeId :=
  (nodes[node]?.map NodeState.targets).getD []

/-- `collect_snapshot_root_closure`; the fuel is the number of ids that can be pending. -/
def collectSnapshotRootClosure (nodes : BTreeMap NodeId NodeState) (root : String) :
    BTreeSet NodeId :=
  let pending := (nodes.keys.filter fun node => nodeMatchesRoot node root).reverse
  Worklist.loop (nodeSuccessors nodes)
    (Worklist.remaining (nodeSuccessors nodes) nodes.keys ∅ pending) ∅ pending

/-- The least set that contains the ids at or below a root and what its members lead to. -/
def rootSet (nodes : BTreeMap NodeId NodeState) (root : String) : Set NodeId :=
  ⋂₀ {S | (∀ n, nodeMatchesRoot n root = true → n ∈ S) ∧
    ∀ n ∈ S, ∀ target ∈ nodeSuccessors nodes n, target ∈ S}

section Closure

variable (nodes : BTreeMap NodeId NodeState) {root : String}

/-- The least set is what can be reached from the ids at or below the root. -/
theorem mem_rootSet_iff {n : NodeId} :
    n ∈ rootSet nodes root ↔
      ∃ start, nodeMatchesRoot start root = true ∧
        Worklist.Reach (nodeSuccessors nodes) start n := by
  constructor
  · intro h
    refine h {n | ∃ start, nodeMatchesRoot start root = true ∧
      Worklist.Reach (nodeSuccessors nodes) start n} ⟨fun n hn => ⟨n, hn, .refl⟩, ?_⟩
    rintro n ⟨start, hstart, hreach⟩ target htarget
    exact ⟨start, hstart, hreach.tail htarget⟩
  · rintro ⟨start, hstart, hreach⟩ S ⟨hroot, hclosed⟩
    exact Worklist.mem_of_reach hclosed (hroot start hstart) hreach

/-- The loop finds the existing ids of the least set. -/
theorem mem_closure_iff {n : NodeId} (hn : n ∈ nodes) :
    n ∈ collectSnapshotRootClosure nodes root ↔ n ∈ rootSet nodes root := by
  have hkeys : ∀ key, key ∉ nodes.keys → nodeSuccessors nodes key = [] := by
    intro key hkey
    rw [nodeSuccessors, Std.ExtTreeMap.getElem?_eq_none fun h =>
      hkey (Std.ExtTreeMap.mem_keys.mpr h)]
    rfl
  rw [collectSnapshotRootClosure, Worklist.mem_loop_iff Std.ExtTreeMap.nodup_keys hkeys le_rfl,
    mem_rootSet_iff]
  constructor
  · rintro ⟨start, hstart, hreach⟩
    exact ⟨start, (List.mem_filter.mp (List.mem_reverse.mp hstart)).2, hreach⟩
  · rintro ⟨start, hstart, hreach⟩
    have hmem : start ∈ nodes := by
      -- an absent node leads nowhere, so it starts nothing but itself
      rcases Relation.ReflTransGen.cases_head hreach with rfl | ⟨next, hnext, -⟩
      · exact hn
      · by_contra habsent
        rw [hkeys start fun h => habsent (Std.ExtTreeMap.mem_keys.mp h)] at hnext
        cases hnext
    exact ⟨start, List.mem_reverse.mpr (List.mem_filter.mpr
      ⟨Std.ExtTreeMap.mem_keys.mpr hmem, hstart⟩), hreach⟩

end Closure

/-- `operation_matches_snapshot_nodes`. -/
def operationMatchesSnapshotNodes (op : Operation) (nodes : BTreeSet NodeId) : Bool :=
  nodes.contains op.action.node

namespace Inner

variable {σ : Type}

/-- `snapshot_for_root` on a database without a store. -/
def snapshotForRoot (inner : Inner σ) : Option String → DatabaseSnapshot
  | none => ⟨inner.clock, inner.nodes, inner.pendingOps.operations, inner.scopePolicies⟩
  | some root =>
    let reachable := collectSnapshotRootClosure inner.nodes root
    { clock := inner.clock
      nodes := inner.nodes.filter fun node _ => reachable.contains node
      pendingOps := inner.pendingOps.operations.filter
        (operationMatchesSnapshotNodes · reachable)
      scopePolicies := inner.scopePolicies.filter fun scope _ => nodeMatchesRoot scope root }

private theorem successors_view (inner : Inner σ) :
    Views.successors inner.view = nodeSuccessors inner.nodes := by
  funext node
  rw [Views.successors, nodeSuccessors, view]
  cases inner.nodes[node]? with
  | none => rfl
  | some state =>
    simp only [Option.map_some, Option.getD_some, NodeView.targets, NodeState.targets,
      NodeState.view, BTreeMap.valueList, Std.ExtTreeMap.toList_map, List.map_map]
    rw [List.flatMap_map, List.flatMap_map]
    congr 1
    funext entry
    cases hvalue : entry.2.value <;> simp [Function.comp, FieldValue.visible, hvalue,
      VisibleValue.targets]

private theorem snapshotForRoot_nodes (inner : Inner σ) (root : String) (n : NodeId) :
    (inner.snapshotForRoot (some root)).nodes[n]? =
      if (collectSnapshotRootClosure inner.nodes root).contains n then inner.nodes[n]?
      else none := by
  simp only [snapshotForRoot, Std.ExtTreeMap.getElem?_filter']
  cases inner.nodes[n]? <;> simp [Option.filter]

end Inner

/-- An empty slot takes over a field beside which no newer tombstone stands. -/
theorem Slot.empty_merge_field {slot : Slot} (h : slot.TombstoneOlder) :
    (Slot.empty.merge slot).field = slot.field := by
  obtain ⟨field, tombstone⟩ := slot
  cases field with
  | none =>
    cases tombstone <;> simp [Slot.merge, absorbTombstone, absorbField, mergeTombstone,
      blocksReset, Slot.empty, blocks]
  | some state =>
    cases tombstone with
    | none => simp [Slot.merge, absorbTombstone, absorbField, mergeField, Slot.empty, blocks]
    | some marker =>
      have hlt := not_le.mpr (h state marker rfl rfl)
      simp [Slot.merge, absorbTombstone, absorbField, mergeTombstone, mergeField, blocksReset,
        Slot.empty, blocks, hlt]

/-- An empty slot drops any other field. -/
theorem Slot.empty_merge_dropped {state : FieldState} {marker : VersionMarker}
    (h : state.version ≤ marker) :
    (Slot.empty.merge ⟨some state, some marker⟩).field = none := by
  simp [Slot.merge, absorbTombstone, absorbField, mergeTombstone, mergeField, blocksReset,
    Slot.empty, blocks, h]

/-- A fresh database that merges a snapshot holds the nodes of the snapshot, each merged into an
empty node. -/
theorem Inner.nodes_mergeSnapshot {σ : Type} (replicaId : String) (wall : WallClock)
    {snapshot : DatabaseSnapshot} (hkeyed : KeyedById snapshot.nodes) (n : NodeId) :
    ((Inner.withReplicaId replicaId wall : Inner σ).mergeSnapshotIntoInner snapshot).nodes[n]? =
      snapshot.nodes[n]?.map fun state => (NodeState.new n).mergeWith state := by
  obtain ⟨overlay, keys, index, heq⟩ :=
    (Inner.withReplicaId replicaId wall : Inner σ).mergeSnapshotIntoInner_eq snapshot
  have hnodes : snapshot.nodes.valueList.foldl mergeNodeState
      (∅ : BTreeMap NodeId NodeState) = mergeNodes ∅ snapshot.nodes := by
    rw [BTreeMap.valueList, List.foldl_map, mergeNodes]
  rw [heq]
  change (snapshot.nodes.valueList.foldl mergeNodeState (∅ : BTreeMap NodeId NodeState))[n]? = _
  rw [hnodes, mergeNodes_get ∅ hkeyed]
  cases snapshot.nodes[n]? with
  | none => simp
  | some state => simp [nodeEntry]

/-- The field of a node merged into an empty node. -/
theorem NodeState.new_mergeWith_field (n : NodeId) (state : NodeState) (f : String) :
    ((NodeState.new n).mergeWith state).fields[f]? = (Slot.empty.merge (state.slot f)).field := by
  have hempty : (NodeState.new n).slot f = Slot.empty := by
    simp [NodeState.new, NodeState.slot, Slot.empty]
  rw [← hempty, ← NodeState.mergeWith_slot]
  rfl

/-- A node without newer tombstones is shown as it was. -/
theorem NodeState.view_new_mergeWith {state : NodeState}
    (h : ∀ f, (state.slot f).TombstoneOlder) :
    ((NodeState.new state.id).mergeWith state).view = state.view := by
  have hfields : ((NodeState.new state.id).mergeWith state).fields = state.fields := by
    refine Std.ExtTreeMap.ext_getElem? fun f => ?_
    rw [NodeState.new_mergeWith_field, Slot.empty_merge_field (h f)]
    rfl
  rw [NodeState.view, NodeState.view, NodeState.mergeWith_id, hfields]
  rfl

namespace Inner

variable {σ : Type} {inner : Inner σ}

/-- A snapshot of a root holds exactly the existing nodes of the least set. -/
theorem snapshotForRoot_get (inner : Inner σ) (root : String) (n : NodeId) (state : NodeState) :
    (inner.snapshotForRoot (some root)).nodes[n]? = some state ↔
      inner.nodes[n]? = some state ∧ n ∈ rootSet inner.nodes root := by
  rw [Inner.snapshotForRoot_nodes]
  constructor
  · intro h
    split at h
    · rename_i hmem
      have hn : n ∈ inner.nodes := Std.ExtTreeMap.mem_iff_isSome_getElem?.mpr (by rw [h]; rfl)
      exact ⟨h, (mem_closure_iff inner.nodes hn).mp hmem⟩
    · cases h
  · rintro ⟨h, hset⟩
    have hn : n ∈ inner.nodes := Std.ExtTreeMap.mem_iff_isSome_getElem?.mpr (by rw [h]; rfl)
    have hmem : (collectSnapshotRootClosure inner.nodes root).contains n = true :=
      (mem_closure_iff inner.nodes hn).mpr hset
    rw [if_pos hmem]
    exact h

/-- Write calls on a fresh database leave no tombstone beside an older field. -/
theorem Reached.tombstonesOlder [IncrementalStore σ] (h : inner.Reached) :
    ∀ n f, (slotAt inner.nodes n f).TombstoneOlder := by
  refine (h.inMemory (P := fun nodes => ∀ n f, (slotAt nodes n f).TombstoneOlder)
    (fun nodes node hold n f => ?_) (fun nodes op hold n f => ?_) fun n f => ?_).2
  · rw [slotAt_insert, nodeEntry_slot]
    split
    · rename_i heq
      exact heq ▸ hold node f
    · exact hold n f
  · rw [slotAt_applyToNodes]
    split
    · exact (hold n f).apply _
    · exact hold n f
  · have hempty : slotAt (∅ : BTreeMap NodeId NodeState) n f = Slot.empty := by simp [slotAt]
    exact hempty ▸ Slot.TombstoneOlder.of_field none

end Inner

/-- A snapshot of a root holds exactly the existing nodes of the least set. A fresh database that
merges it answers every read from an id of the set as the source does, exactly when no field of
the set stands beside a tombstone that is not older. -/
theorem snapshot_for_root_exact {σ : Type} [IncrementalStore σ] {inner : Inner σ}
    (hstore : inner.storageEngine = none) (hkeyed : KeyedById inner.nodes)
    (root replicaId : String) (wall : WallClock) :
    let snapshot := inner.snapshotForRoot (some root)
    let merged := (Inner.withReplicaId replicaId wall : Inner σ).mergeSnapshotIntoInner snapshot
    (∀ n state, snapshot.nodes[n]? = some state ↔
      inner.nodes[n]? = some state ∧ n ∈ rootSet inner.nodes root) ∧
    ((∀ n ∈ rootSet inner.nodes root, ∀ fuel segments,
        (onceJson fuel n segments merged).1 = (onceJson fuel n segments inner).1 ∧
          (mapAt fuel n segments merged).1 = (mapAt fuel n segments inner).1) ↔
      ∀ n ∈ rootSet inner.nodes root, ∀ f, (slotAt inner.nodes n f).TombstoneOlder) := by
  intro snapshot merged
  have hget := inner.snapshotForRoot_get root
  have hsnapshot : KeyedById snapshot.nodes := fun m state hm =>
    hkeyed m state ((hget m state).mp hm).1
  -- the merged database holds the existing nodes of the set
  have hnodes : ∀ m ∈ rootSet inner.nodes root,
      merged.nodes[m]? = inner.nodes[m]?.map fun state => (NodeState.new m).mergeWith state := by
    intro m hm
    rw [Inner.nodes_mergeSnapshot replicaId wall hsnapshot]
    refine congrArg (Option.map _) (Option.ext fun state => ?_)
    rw [hget m state]
    exact and_iff_left hm
  have hmerged : merged.storageEngine = none := by
    obtain ⟨overlay, keys, index, heq⟩ :=
      (Inner.withReplicaId replicaId wall : Inner σ).mergeSnapshotIntoInner_eq snapshot
    change ((Inner.withReplicaId replicaId wall : Inner σ).mergeSnapshotIntoInner
      snapshot).storageEngine = none
    rw [heq]
    rfl
  simp only [Inner.onceJson_of_none hmerged, Inner.onceJson_of_none hstore,
    Inner.mapAt_of_none hmerged, Inner.mapAt_of_none hstore]
  refine ⟨hget, ⟨fun hreads n hn f state marker hfield htombstone => ?_,
    fun holder n hn fuel segments => ?_⟩⟩
  · -- a field that the merge drops is read by its own path
    by_contra hnewer
    obtain ⟨node, hnode⟩ : ∃ node, inner.nodes[n]? = some node := by
      rw [slotAt] at hfield
      cases hnode : inner.nodes[n]? with
      | none =>
        rw [hnode] at hfield
        cases hfield
      | some node => exact ⟨node, rfl⟩
    have hslot : node.slot f = ⟨some state, some marker⟩ := by
      rw [slotAt, hnode] at hfield htombstone
      exact Slot.ext hfield htombstone
    have hpath := (hreads n hn 0 [f]).1
    have hbefore : Views.field inner.view n f = some state.value.visible := by
      rw [Views.field, Inner.view, hnode, Option.map_some, Option.bind_some, NodeState.view,
        Std.ExtTreeMap.getElem?_map, show node.fields[f]? = some state from
          congrArg Slot.field hslot, Option.map_some]
    have hafter : Views.field merged.view n f = none := by
      rw [Views.field, Inner.view, hnodes n hn, hnode, Option.map_some, Option.map_some,
        Option.bind_some, NodeState.view, Std.ExtTreeMap.getElem?_map,
        NodeState.new_mergeWith_field, hslot, Slot.empty_merge_dropped (not_lt.mp hnewer),
        Option.map_none]
    rw [Views.valueAt, Views.valueAt, hbefore, hafter] at hpath
    cases hpath
  · -- the views agree on the whole set, and reads do not leave it
    have hviews : ∀ m, Worklist.Reach (Views.successors inner.view) n m →
        merged.view m = inner.view m := by
      intro m hm
      rw [inner.successors_view] at hm
      obtain ⟨start, hstart, hreach⟩ := (mem_rootSet_iff inner.nodes).mp hn
      have hmset : m ∈ rootSet inner.nodes root :=
        (mem_rootSet_iff inner.nodes).mpr ⟨start, hstart, hreach.trans hm⟩
      rw [Inner.view, Inner.view, hnodes m hmset]
      cases hnode : inner.nodes[m]? with
      | none => rfl
      | some state =>
        obtain rfl := hkeyed m state hnode
        refine congrArg some (NodeState.view_new_mergeWith fun f => ?_)
        have hslot : slotAt inner.nodes state.id f = state.slot f := by simp [slotAt, hnode]
        exact hslot ▸ holder _ hmset f
    exact ⟨Views.valueAt_congr hviews, Views.entriesAt_congr hviews⟩

/-- Two nodes that link to each other, with a deleted and rewritten field, a link to an absent node
and a node outside the root. -/
def cyclicDb : Inner Empty :=
  (Inner.configured "r" ⟨fun _ => 0, 0⟩ ∅ .default).runCalls
    [.put "a" [] (.object [("x", .object [("$link", .string "b")]), ("y", .bool true)]),
      .put "b" [] (.object [("back", .object [("$link", .string "a")]),
        ("lost", .object [("$link", .string "gone")])]),
      .unset "a" ["y"], .put "a" ["y"] .null, .put "c" ["z"] .null]

/-- The snapshot of a root has both nodes of the cycle, and merging it reads as the source does. -/
theorem snapshot_for_root_exact_cyclicDb :
    let snapshot := cyclicDb.snapshotForRoot (some "a")
    let merged := (Inner.withReplicaId "s" ⟨fun _ => 0, 0⟩ : Inner Empty).mergeSnapshotIntoInner
      snapshot
    snapshot.nodes.keys = ["a", "b"] ∧
      ∀ n ∈ rootSet cyclicDb.nodes "a", ∀ fuel segments,
        (onceJson fuel n segments merged).1 = (onceJson fuel n segments cyclicDb).1 ∧
          (mapAt fuel n segments merged).1 = (mapAt fuel n segments cyclicDb).1 := by
  have hreached : cyclicDb.Reached := ⟨_, _, _, _, _, rfl⟩
  refine ⟨by decide +kernel, ?_⟩
  exact (snapshot_for_root_exact hreached.memoryWf.1 (fun n state hn =>
    (hreached.memoryWf.2 n state hn).1) "a" "s" ⟨fun _ => 0, 0⟩).2.mpr
    fun n _ f => hreached.tombstonesOlder n f

/-- A database whose only field stands beside a newer tombstone. -/
def tombstonedDb : Inner Empty :=
  { Inner.withReplicaId "r" ⟨fun _ => 0, 0⟩ with
    nodes := (∅ : BTreeMap NodeId NodeState).insert "a"
      ⟨"a", (∅ : BTreeMap String FieldState).insert "x" ⟨.scalar .null, ⟨⟨1, 0, "r"⟩, "1"⟩⟩,
        (∅ : BTreeMap String VersionMarker).insert "x" ⟨⟨2, 0, "r"⟩, "2"⟩⟩ }

/-- The field is in the snapshot, and it is read from the source and not after the merge. -/
theorem snapshot_for_root_tombstonedDb :
    let merged := (Inner.withReplicaId "s" ⟨fun _ => 0, 0⟩ : Inner Empty).mergeSnapshotIntoInner
      (tombstonedDb.snapshotForRoot (some "a"))
    (tombstonedDb.snapshotForRoot (some "a")).nodes = tombstonedDb.nodes ∧
      (onceJson 3 "a" ["x"] tombstonedDb).1 = .ok (some .null) ∧
      (onceJson 3 "a" ["x"] merged).1 = .ok none := by
  refine ⟨?_, ?_, ?_⟩ <;> decide +kernel

end Primadb

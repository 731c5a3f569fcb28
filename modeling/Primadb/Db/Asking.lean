import Primadb.Db.IndexRuns
import Primadb.Graph.SlotRank

/-!
# Asking for nodes

A node is asked for before it is read. Memory answers when it holds something of the node, the
notes of missing nodes answer next, and otherwise the store is read and merged into memory. What
the answer is does not depend on what was asked for before.
-/

namespace Primadb

variable {σ : Type} [RecordStore σ] {inner : Inner σ}

namespace NodeState

private theorem mergeWith_of_isEmpty {state incoming : NodeState} (h : incoming.isEmpty = true) :
    state.mergeWith incoming = state := by
  rw [isEmpty, Bool.and_eq_true, Std.ExtTreeMap.isEmpty_iff, Std.ExtTreeMap.isEmpty_iff] at h
  rw [mergeWith, h.1, h.2]
  rfl

private theorem isEmpty_of_mergeWith {state incoming : NodeState} (hstate : state.isEmpty = true)
    (h : (state.mergeWith incoming).isEmpty = true) : incoming.isEmpty = true := by
  rw [isEmpty_iff] at hstate h ⊢
  intro f
  by_contra hne
  have hslot := h f
  rw [mergeWith_slot, hstate f] at hslot
  exact Slot.empty_merge_ne_empty hne hslot

end NodeState

namespace Inner

/-- The answer when a node is asked for, and the state of the node then. -/
def asking (inner : Inner σ) (node : NodeId) : Except PrimadbError Bool × Option NodeState :=
  ((maybeLoadNode node inner).1, (maybeLoadNode node inner).2.nodes[node]?)

/-- The answer over the store, the memory and the notes. -/
theorem asking_eq (hkeyed : KeyedNodes σ) (inner : Inner σ) (node : NodeId) :
    inner.asking node =
      if inner.resident node then (.ok true, inner.nodes[node]?)
      else if inner.missingNodes.contains node then (.ok false, inner.nodes[node]?)
      else
        match inner.storageEngine with
        | none => (.ok false, inner.nodes[node]?)
        | some engine =>
          match IncrementalStore.getNode engine node with
          | .error e => (.error e, inner.nodes[node]?)
          | .ok (some state) => (.ok true, some ((nodeEntry inner.nodes node).mergeWith state))
          | .ok none => (.ok (inner.nodes.contains node), inner.nodes[node]?) := by
  rw [asking, maybeLoadNode]
  split
  · rfl
  split
  · rfl
  cases hengine : inner.storageEngine with
  | none => rfl
  | some engine =>
    dsimp only
    cases hstored : IncrementalStore.getNode engine node with
    | error e => rfl
    | ok stored =>
      cases stored with
      | none =>
        dsimp only
        split
        · rename_i hpresent
          rw [hpresent]
        · rename_i habsent
          rw [Bool.eq_false_iff.mpr habsent]
      | some state =>
        obtain rfl := hkeyed engine node state hstored
        have hmerged : (mergeNodeState inner.nodes state)[state.id]? =
            some ((nodeEntry inner.nodes state.id).mergeWith state) := by
          rw [mergeNodeState, BTreeMap.get_insert, if_pos rfl]
        exact congrArg (fun merged => (Except.ok true, merged)) hmerged

/-- The answer depends on the store and on what memory and notes say of the node. -/
theorem asking_congr (hkeyed : KeyedNodes σ) {other : Inner σ} {node : NodeId}
    (hengine : other.storageEngine = inner.storageEngine)
    (hnode : other.nodes[node]? = inner.nodes[node]?)
    (hmissing : other.missingNodes.contains node = inner.missingNodes.contains node) :
    other.asking node = inner.asking node := by
  have hcontains : other.nodes.contains node = inner.nodes.contains node := by
    rw [Std.ExtTreeMap.contains_eq_isSome_getElem?, hnode,
      ← Std.ExtTreeMap.contains_eq_isSome_getElem?]
  rw [asking_eq hkeyed, asking_eq hkeyed, resident, resident, nodeEntry, nodeEntry, hengine, hnode,
    hmissing, hcontains]

omit [RecordStore σ] in
/-- A node that memory asks the store for has nothing in memory. -/
theorem nodeEntry_isEmpty {engine : σ} (hengine : inner.storageEngine = some engine)
    {node : NodeId} (h : inner.resident node = false) :
    (nodeEntry inner.nodes node).isEmpty = true := by
  rw [resident, hengine] at h
  rw [nodeEntry]
  cases hnode : inner.nodes[node]? with
  | none => rfl
  | some state =>
    rw [hnode] at h
    simpa using h

/-- What was asked for before does not matter. -/
theorem asking_load (hkeyed : KeyedNodes σ) (inner : Inner σ) (loaded node : NodeId) :
    (maybeLoadNode loaded inner).2.asking node = inner.asking node := by
  rcases maybeLoadNode_cases inner loaded with
    heq | ⟨hresident, hmissing, engine, hengine,
      ⟨hstored, habsent, heq⟩ | ⟨state, hstored, heq⟩⟩ <;> rw [heq]
  · by_cases hnode : loaded = node
    · subst hnode
      have hnone : inner.nodes[loaded]? = none :=
        Option.isNone_iff_eq_none.mp (by
          rw [← Option.not_isSome, ← Std.ExtTreeMap.contains_eq_isSome_getElem?, habsent]
          rfl)
      simp [asking_eq hkeyed, resident, hengine, hstored, hmissing, habsent, hnone]
    · refine asking_congr hkeyed rfl rfl ?_
      rw [BTreeSet.contains_insert, decide_eq_false hnode, Bool.false_or]
  · obtain rfl := hkeyed engine loaded state hstored
    by_cases hnode : state.id = node
    · subst hnode
      have hentry := nodeEntry_isEmpty hengine hresident
      have hbefore : inner.asking state.id =
          (.ok true, some ((nodeEntry inner.nodes state.id).mergeWith state)) := by
        rw [asking_eq hkeyed, hresident, hmissing, hengine]
        simp [hstored]
      have hnodes : (mergeNodeState inner.nodes state)[state.id]? =
          some ((nodeEntry inner.nodes state.id).mergeWith state) :=
        (BTreeMap.get_insert _ _ _ _).trans (if_pos rfl)
      rw [hbefore, reindexNodeRelationships_eq, asking_eq hkeyed, resident]
      dsimp only
      rw [hnodes]
      cases hmerged : ((nodeEntry inner.nodes state.id).mergeWith state).isEmpty with
      | false => simp [hmerged]
      | true =>
        -- an empty node is read again, and what is stored of it is empty
        have hstate := NodeState.isEmpty_of_mergeWith hentry hmerged
        simp [hengine, hstored, nodeEntry, hnodes, NodeState.mergeWith_of_isEmpty hstate]
    · refine asking_congr hkeyed rfl ?_ ?_
      · exact (BTreeMap.get_insert _ _ _ _).trans (if_neg hnode)
      · exact (BTreeSet.contains_erase _ _ _).trans (by simp [hnode])

/-- Asking for a node leaves the other nodes. -/
theorem nodes_load_of_ne (hkeyed : KeyedNodes σ) {loaded node : NodeId} (h : loaded ≠ node) :
    (maybeLoadNode loaded inner).2.nodes[node]? = inner.nodes[node]? := by
  rcases maybeLoadNode_cases inner loaded with
    heq | ⟨-, -, engine, -, ⟨-, -, heq⟩ | ⟨state, hstored, heq⟩⟩ <;> rw [heq]
  obtain rfl := hkeyed engine loaded state hstored
  exact (BTreeMap.get_insert _ _ _ _).trans (if_neg h)

/-- A node that is found has a state. -/
theorem isSome_of_asking (hkeyed : KeyedNodes σ) {node : NodeId}
    (h : (inner.asking node).1 = .ok true) : (inner.asking node).2.isSome = true := by
  rw [asking_eq hkeyed] at h ⊢
  split
  · rename_i hresident
    rw [resident] at hresident
    cases hnode : inner.nodes[node]? with
    | none =>
      rw [hnode] at hresident
      cases hresident
    | some state => rfl
  · rename_i hresident
    rw [if_neg hresident] at h
    split
    · rename_i hmissing
      rw [if_pos hmissing] at h
      cases h
    · rename_i hmissing
      rw [if_neg hmissing] at h
      split at h
      · cases h
      · split at h
        · cases h
        · rfl
        · dsimp only
          rw [← Std.ExtTreeMap.contains_eq_isSome_getElem?]
          exact Except.ok.inj h

/-- The answer when a node is asked for without an error. -/
def asked (inner : Inner σ) (node : NodeId) : Except PrimadbError (Bool × Option NodeState) :=
  (maybeLoadNode node inner).1.map fun found => (found, (maybeLoadNode node inner).2.nodes[node]?)

/-- The answer of a call without an error. -/
theorem asked_eq_asking (inner : Inner σ) (node : NodeId) :
    inner.asked node = (inner.asking node).1.map fun found => (found, (inner.asking node).2) :=
  rfl

/-- The answer without an error over the store, the memory and the notes. -/
theorem asked_eq (hkeyed : KeyedNodes σ) (inner : Inner σ) (node : NodeId) :
    inner.asked node =
      if inner.resident node then .ok (true, inner.nodes[node]?)
      else if inner.missingNodes.contains node then .ok (false, inner.nodes[node]?)
      else
        match inner.storageEngine with
        | none => .ok (false, inner.nodes[node]?)
        | some engine =>
          (IncrementalStore.getNode engine node).map fun stored =>
            match stored with
            | some state => (true, some ((nodeEntry inner.nodes node).mergeWith state))
            | none => (inner.nodes.contains node, inner.nodes[node]?) := by
  rw [asked_eq_asking, asking_eq hkeyed]
  split
  · rfl
  split
  · rfl
  cases inner.storageEngine with
  | none => rfl
  | some engine =>
    dsimp only
    rcases IncrementalStore.getNode engine node with e | _ | state <;> rfl

/-- Asking for a node keeps the nodes that memory answers for. -/
theorem resident_load (hkeyed : KeyedNodes σ) {node : NodeId} (h : inner.resident node = true)
    (loaded : NodeId) : (maybeLoadNode loaded inner).2.resident node = true := by
  rcases maybeLoadNode_cases inner loaded with
    heq | ⟨hresident, -, engine, -, ⟨-, -, heq⟩ | ⟨state, hstored, -⟩⟩
  · rwa [heq]
  · rwa [heq]
  · have hne : loaded ≠ node := by
      rintro rfl
      rw [h] at hresident
      cases hresident
    rw [resident, storageEngine_load, nodes_load_of_ne hkeyed hne]
    exact h

/-- A node of the whole graph: what is stored, merged into what is in memory. -/
def wholeNode (inner : Inner σ) (node : NodeId) : Option NodeState :=
  match inner.storageEngine with
  | none => inner.nodes[node]?
  | some engine =>
    match IncrementalStore.getNode engine node with
    | .ok (some state) => some ((nodeEntry inner.nodes node).mergeWith state)
    | .ok none | .error _ => inner.nodes[node]?

/-- Memory holds all that is stored of the nodes it answers for, and no node noted as missing is
anywhere. -/
structure Loaded (inner : Inner σ) : Prop where
  /-- The nodes memory answers for. -/
  resident : ∀ node, inner.resident node = true → inner.nodes[node]? = inner.wholeNode node
  /-- The nodes noted as missing. -/
  missing : ∀ node, inner.resident node = false → node ∈ inner.missingNodes →
    inner.wholeNode node = none

/-- Asking for a node gives the node of the whole graph. -/
theorem Loaded.asked (hkeyed : KeyedNodes σ) (h : inner.Loaded) {node : NodeId}
    {answer : Bool × Option NodeState} (hasked : inner.asked node = .ok answer) :
    answer = ((inner.wholeNode node).isSome, inner.wholeNode node) := by
  rw [asked_eq hkeyed] at hasked
  split at hasked
  · rename_i hresident
    cases hasked
    have hnode := h.resident node hresident
    rw [← hnode]
    rw [Inner.resident] at hresident
    cases hentry : inner.nodes[node]? with
    | none =>
      rw [hentry] at hresident
      cases hresident
    | some state => rfl
  · rename_i hresident
    rw [Bool.not_eq_true] at hresident
    split at hasked
    · rename_i hmissing
      cases hasked
      have hwhole := h.missing node hresident (Std.ExtTreeSet.mem_iff_contains.mpr hmissing)
      rw [hwhole]
      refine Prod.ext rfl ?_
      rw [wholeNode] at hwhole
      repeat' split at hwhole
      · exact hwhole
      · cases hwhole
      · exact hwhole
      · exact hwhole
    · rw [wholeNode]
      cases hengine : inner.storageEngine with
      | none =>
        rw [hengine] at hasked
        cases hasked
        rw [Inner.resident, hengine] at hresident
        cases hentry : inner.nodes[node]? with
        | none => rfl
        | some state =>
          rw [hentry] at hresident
          simp at hresident
      | some engine =>
        rw [hengine] at hasked
        dsimp only at hasked ⊢
        cases hstored : IncrementalStore.getNode engine node with
        | error e =>
          rw [hstored] at hasked
          cases hasked
        | ok stored =>
          rw [hstored] at hasked
          cases stored with
          | none =>
            cases hasked
            rw [Std.ExtTreeMap.contains_eq_isSome_getElem?]
          | some state =>
            cases hasked
            rfl

/-- An answer is the node of the whole graph. -/
theorem Loaded.asking (hkeyed : KeyedNodes σ) (h : inner.Loaded) {node : NodeId} {found : Bool}
    {state : Option NodeState} (hasking : inner.asking node = (.ok found, state)) :
    found = (inner.wholeNode node).isSome ∧ state = inner.wholeNode node := by
  have hasked : inner.asked node = .ok (found, state) := by
    rw [asked_eq_asking, hasking]
    rfl
  exact Prod.mk.inj (h.asked hkeyed hasked)

end Inner

end Primadb

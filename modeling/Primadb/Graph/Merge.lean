import Primadb.Graph.SetState

/-!
# Merging node states

`merge_node_state` and its parts, and the same merge seen by one slot: first the
incoming tombstone, then the incoming field.
-/

namespace Primadb

/-- The greater of two optional markers. -/
def maxMarker : Option VersionMarker → Option VersionMarker → Option VersionMarker
  | some left, some right => some (max left right)
  | some left, none => some left
  | none, some right => some right
  | none, none => none

/-- Whether an optional marker lies above the baseline. -/
def validMarker (baseline : VersionMarker) : Option VersionMarker → Bool
  | some marker => decide (marker > baseline)
  | none => false

/-- The entry kept for one member id: `true` for a member, `false` for a removed one. -/
def mergedEntry (baseline : VersionMarker) (add drop : Option VersionMarker) :
    Option (VersionMarker × Bool) :=
  match validMarker baseline add, validMarker baseline drop, add, drop with
  | true, true, some add, some drop => if add > drop then some (add, true) else some (drop, false)
  | true, false, some add, _ => some (add, true)
  | false, true, _, some drop => some (drop, false)
  | _, _, _, _ => none

/-- Merge two set states. -/
def mergeSetState (current incoming : SetState) : SetState :=
  let baseline := max current.baseline incoming.baseline
  let candidateIds : BTreeSet NodeId := Std.ExtTreeSet.ofList
    (current.members.keys ++ current.removed.keys ++ incoming.members.keys ++
      incoming.removed.keys) compare
  candidateIds.toList.foldl
    (fun set member =>
      let add := maxMarker current.members[member]? incoming.members[member]?
      let drop := maxMarker current.removed[member]? incoming.removed[member]?
      match mergedEntry baseline add drop with
      | some (marker, true) => { set with members := set.members.insert member marker }
      | some (marker, false) => { set with removed := set.removed.insert member marker }
      | none => set)
    ⟨baseline, ∅, ∅⟩

/-- Merge two states of one field. -/
def mergeFieldState (existing incoming : FieldState) : FieldState :=
  match existing.value, incoming.value with
  | .set current, .set other =>
    ⟨.set (mergeSetState current other),
      if incoming.version > existing.version then incoming.version else existing.version⟩
  | _, value =>
    if incoming.version > existing.version then ⟨value, incoming.version⟩ else existing

/-- Merge one incoming tombstone. -/
def NodeState.mergeTombstone (current : NodeState) (entry : String × VersionMarker) : NodeState :=
  let tombstoneBlocks := blocks current.tombstones[entry.1]? entry.2
  let fieldBlocks := blocks (current.fields[entry.1]?.map FieldState.version) entry.2
  if tombstoneBlocks || fieldBlocks then current
  else
    { current with
      fields := current.fields.erase entry.1
      tombstones := current.tombstones.insert entry.1 entry.2 }

/-- Merge one incoming field. -/
def NodeState.mergeField (current : NodeState) (entry : String × FieldState) : NodeState :=
  if blocks current.tombstones[entry.1]? entry.2.version then current
  else
    { current with
      tombstones := current.tombstones.erase entry.1
      fields := current.fields.insert entry.1
        (match current.fields[entry.1]? with
        | some existing => mergeFieldState existing entry.2
        | none => entry.2) }

/-- Merge an incoming state into a node: first all tombstones, then all fields. -/
def NodeState.mergeWith (current incoming : NodeState) : NodeState :=
  let current := incoming.tombstones.toList.foldl NodeState.mergeTombstone current
  incoming.fields.toList.foldl NodeState.mergeField current

/-- Merge an incoming node state into a node map. -/
def mergeNodeState (nodes : BTreeMap NodeId NodeState) (incoming : NodeState) :
    BTreeMap NodeId NodeState :=
  nodes.insert incoming.id ((nodeEntry nodes incoming.id).mergeWith incoming)

/-- Merge all nodes of a snapshot, as the loop of `merge_snapshot_into_inner` does. -/
def mergeNodes (nodes incoming : BTreeMap NodeId NodeState) : BTreeMap NodeId NodeState :=
  incoming.toList.foldl (fun nodes entry => mergeNodeState nodes entry.2) nodes

/-- A fold that writes one key idempotently, seen at that key. -/
private theorem foldl_at_of_idempotent {α σ τ : Type} [DecidableEq α] {step : σ → α → σ}
    {π : σ → τ} {k : α} {g : τ → τ}
    (hstep : ∀ s a, π (step s a) = if a = k then g (π s) else π s) (hg : ∀ t, g (g t) = g t)
    (l : List α) (s : σ) : π (l.foldl step s) = if k ∈ l then g (π s) else π s := by
  induction l generalizing s with
  | nil => simp
  | cons a l ih =>
    rw [List.foldl_cons, ih, hstep]
    by_cases ha : a = k
    · subst ha
      simp [hg]
    · simp [ha, Ne.symm ha]

private theorem mergeSetState_entries (current incoming : SetState) (id : NodeId) :
    ((mergeSetState current incoming).members[id]?,
        (mergeSetState current incoming).removed[id]?) =
      match mergedEntry (max current.baseline incoming.baseline)
        (maxMarker current.members[id]? incoming.members[id]?)
        (maxMarker current.removed[id]? incoming.removed[id]?) with
      | some (marker, true) => (some marker, none)
      | some (marker, false) => (none, some marker)
      | none => (none, none) := by
  let entry := mergedEntry (max current.baseline incoming.baseline)
    (maxMarker current.members[id]? incoming.members[id]?)
    (maxMarker current.removed[id]? incoming.removed[id]?)
  let g : Option VersionMarker × Option VersionMarker →
      Option VersionMarker × Option VersionMarker := fun t =>
    match entry with
    | some (marker, true) => (some marker, t.2)
    | some (marker, false) => (t.1, some marker)
    | none => t
  have hg : ∀ t, g (g t) = g t := by
    intro t
    simp only [g]
    rcases entry with _ | ⟨marker, _ | _⟩ <;> rfl
  unfold mergeSetState
  rw [foldl_at_of_idempotent (k := id) (g := g)
    (π := fun set : SetState => (set.members[id]?, set.removed[id]?)) ?_ hg]
  · split
    · simp only [g, entry, Std.ExtTreeMap.getElem?_empty]
    · rename_i hout
      have hnot : ∀ m : BTreeMap NodeId VersionMarker,
          (m = current.members ∨ m = current.removed ∨ m = incoming.members ∨
            m = incoming.removed) → m[id]? = none := by
        intro m hm
        rw [Std.ExtTreeMap.getElem?_eq_none]
        intro hin
        apply hout
        rw [Std.ExtTreeSet.mem_toList, Std.ExtTreeSet.mem_ofList, List.contains_iff_mem]
        simp only [List.mem_append, Std.ExtTreeMap.mem_keys]
        rcases hm with rfl | rfl | rfl | rfl <;> simp [hin]
      simp [hnot current.members (by simp), hnot current.removed (by simp),
        hnot incoming.members (by simp), hnot incoming.removed (by simp), maxMarker, mergedEntry,
        validMarker]
  · intro set a
    by_cases ha : a = id
    · subst ha
      simp only [g, entry, if_true]
      split <;> simp [*]
    · simp only [ha, if_false]
      split <;> simp [ha]

/-- Sets merge entry by entry. -/
theorem mergeSetState_table (current incoming : SetState) (id : NodeId) :
    (mergeSetState current incoming).table id =
      mergedEntry (max current.baseline incoming.baseline)
        (maxMarker current.members[id]? incoming.members[id]?)
        (maxMarker current.removed[id]? incoming.removed[id]?) := by
  have h := mergeSetState_entries current incoming id
  unfold SetState.table
  split at h <;> simp_all [Prod.ext_iff]

/-- A merged set keeps each id in one half. -/
theorem mergeSetState_disjoint (current incoming : SetState) :
    (mergeSetState current incoming).Disjoint := by
  intro id
  have h := mergeSetState_entries current incoming id
  split at h <;> simp_all [Prod.ext_iff]

theorem mergeSetState_baseline (current incoming : SetState) :
    (mergeSetState current incoming).baseline = max current.baseline incoming.baseline := by
  unfold mergeSetState
  have hfold : ∀ (l : List NodeId) (f : SetState → NodeId → SetState) (s : SetState),
      (∀ s a, (f s a).baseline = s.baseline) → (l.foldl f s).baseline = s.baseline := by
    intro l f s hf
    induction l generalizing s with
    | nil => rfl
    | cons a l ih => rw [List.foldl_cons, ih, hf]
  rw [hfold]
  intro set a
  simp only
  split <;> rfl

namespace Slot

/-- Merge an incoming tombstone. -/
def mergeTombstone (slot : Slot) (marker : VersionMarker) : Slot :=
  if slot.blocksReset marker then slot else ⟨none, some marker⟩

/-- Merge an incoming field. -/
def mergeField (slot : Slot) (incoming : FieldState) : Slot :=
  if blocks slot.tombstone incoming.version then slot
  else
    match slot.field with
    | some existing => ⟨some (mergeFieldState existing incoming), none⟩
    | none => ⟨some incoming, none⟩

/-- Merge an optional tombstone. -/
def absorbTombstone (slot : Slot) : Option VersionMarker → Slot
  | some marker => slot.mergeTombstone marker
  | none => slot

/-- Merge an optional field. -/
def absorbField (slot : Slot) : Option FieldState → Slot
  | some state => slot.mergeField state
  | none => slot

/-- Merge an incoming slot: its tombstone first, then its field. -/
def merge (slot incoming : Slot) : Slot :=
  (slot.absorbTombstone incoming.tombstone).absorbField incoming.field

end Slot

namespace NodeState

private theorem mergeTombstone_slot (state : NodeState) (field : String) (marker : VersionMarker)
    (f : String) :
    (state.mergeTombstone (field, marker)).slot f =
      if field = f then (state.slot f).mergeTombstone marker else state.slot f := by
  unfold mergeTombstone Slot.mergeTombstone Slot.blocksReset
  by_cases hf : field = f
  · subst hf
    simp only [slot, if_true]
    split <;> simp_all
  · simp only [slot, hf, if_false]
    split <;> simp_all

private theorem mergeField_slot (state : NodeState) (field : String) (incoming : FieldState)
    (f : String) :
    (state.mergeField (field, incoming)).slot f =
      if field = f then (state.slot f).mergeField incoming else state.slot f := by
  unfold mergeField Slot.mergeField
  by_cases hf : field = f
  · subst hf
    simp only [slot, if_true]
    by_cases hb : blocks state.tombstones[field]? incoming.version
    · simp [hb]
    · simp only [hb, Bool.false_eq_true, if_false]
      cases hs : state.fields[field]? <;> simp
  · simp only [slot, hf, if_false]
    split
    · rfl
    · simp [hf]

theorem mergeWith_id (current incoming : NodeState) :
    (current.mergeWith incoming).id = current.id := by
  have htombstones : ∀ (entries : List (String × VersionMarker)) (state : NodeState),
      (entries.foldl mergeTombstone state).id = state.id := by
    intro entries state
    induction entries generalizing state with
    | nil => rfl
    | cons entry entries ih =>
      rw [List.foldl_cons, ih]
      simp only [mergeTombstone]
      split <;> rfl
  have hfields : ∀ (entries : List (String × FieldState)) (state : NodeState),
      (entries.foldl mergeField state).id = state.id := by
    intro entries state
    induction entries generalizing state with
    | nil => rfl
    | cons entry entries ih =>
      rw [List.foldl_cons, ih]
      simp only [mergeField]
      split <;> rfl
  rw [mergeWith, hfields, htombstones]

/-- Nodes merge slot by slot. -/
theorem mergeWith_slot (current incoming : NodeState) (f : String) :
    (current.mergeWith incoming).slot f = (current.slot f).merge (incoming.slot f) := by
  rw [mergeWith, BTreeMap.foldl_toList_at (π := (NodeState.slot · f)) (k := f)
      (g := Slot.mergeField) incoming.fields fun s a v _ => s.mergeField_slot a v f,
    BTreeMap.foldl_toList_at (π := (NodeState.slot · f)) (k := f) (g := Slot.mergeTombstone)
      incoming.tombstones fun s a v _ => s.mergeTombstone_slot a v f]
  unfold Slot.merge NodeState.slot
  cases incoming.fields[f]? <;> cases incoming.tombstones[f]? <;> rfl

end NodeState

theorem slotAt_mergeNodeState (nodes : BTreeMap NodeId NodeState) (incoming : NodeState)
    (n : NodeId) (f : String) :
    slotAt (mergeNodeState nodes incoming) n f =
      if incoming.id = n then (slotAt nodes n f).merge (incoming.slot f) else slotAt nodes n f := by
  rw [mergeNodeState, slotAt_insert, NodeState.mergeWith_slot, nodeEntry_slot]
  by_cases hn : incoming.id = n
  · subst hn
    rfl
  · rw [if_neg hn, if_neg hn]

/-- Every node is stored under its own id. -/
def KeyedById (nodes : BTreeMap NodeId NodeState) : Prop :=
  ∀ (n : NodeId) (state : NodeState), nodes[n]? = some state → state.id = n

/-- The nodes after merging a snapshot, one by one. -/
theorem mergeNodes_get (nodes : BTreeMap NodeId NodeState) {incoming : BTreeMap NodeId NodeState}
    (hid : KeyedById incoming) (n : NodeId) :
    (mergeNodes nodes incoming)[n]? =
      match incoming[n]? with
      | some state => some ((nodeEntry nodes n).mergeWith state)
      | none => nodes[n]? := by
  have hstep : ∀ (s : BTreeMap NodeId NodeState) (a : NodeId) (v : NodeState),
      incoming[a]? = some v → (mergeNodeState s v)[n]? =
        if a = n then some ((s[n]?.getD (NodeState.new n)).mergeWith v) else s[n]? := by
    intro s a v hv
    rw [mergeNodeState, BTreeMap.get_insert, hid a v hv]
    split
    · rename_i ha
      subst ha
      rfl
    · rfl
  rw [mergeNodes, BTreeMap.foldl_toList_at (π := fun s : BTreeMap NodeId NodeState => s[n]?)
    (g := fun current state => some ((current.getD (NodeState.new n)).mergeWith state)) incoming
    hstep nodes]
  cases incoming[n]? <;> rfl

/-- A merged snapshot holds the nodes of both sides. -/
theorem mergeNodes_contains (nodes : BTreeMap NodeId NodeState)
    {incoming : BTreeMap NodeId NodeState} (hid : KeyedById incoming) (n : NodeId) :
    (mergeNodes nodes incoming).contains n = (nodes.contains n || incoming.contains n) := by
  simp only [Std.ExtTreeMap.contains_eq_isSome_getElem?, mergeNodes_get nodes hid]
  cases incoming[n]? <;> simp

/-- Graphs merge slot by slot. -/
theorem slotAt_mergeNodes (nodes : BTreeMap NodeId NodeState)
    {incoming : BTreeMap NodeId NodeState} (hid : KeyedById incoming) (n : NodeId) (f : String) :
    slotAt (mergeNodes nodes incoming) n f = (slotAt nodes n f).merge (slotAt incoming n f) := by
  have hget := mergeNodes_get nodes hid n
  cases hn : incoming[n]? with
  | none =>
    rw [hn] at hget
    simp only [slotAt, hget, hn]
    rfl
  | some state =>
    rw [hn] at hget
    rw [← nodeEntry_slot nodes]
    simp only [slotAt, hget, hn, Option.map_some, Option.getD_some]
    exact NodeState.mergeWith_slot _ state f

end Primadb

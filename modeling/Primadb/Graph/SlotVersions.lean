import Primadb.Core.Run
import Primadb.Graph.Change

/-!
# Versions of slots under operations and merges

The stamp of a slot is the greater of its field version and its tombstone marker. Neither
an operation nor a merged state, whatever it holds, lowers it. A tombstone is kept beside a
field only by the member operations, which refuse markers at or below it, so it is always
the older one.
-/

namespace Primadb

namespace Slot

variable {slot : Slot}

/-- A tombstone beside a field is older than the field. -/
def TombstoneOlder (slot : Slot) : Prop :=
  ∀ state tombstone, slot.field = some state → slot.tombstone = some tombstone →
    tombstone < state.version

theorem TombstoneOlder.of_field (field : Option FieldState) : TombstoneOlder ⟨field, none⟩ :=
  fun _ _ _ h => by cases h

private theorem TombstoneOlder.of_tombstone (tombstone : Option VersionMarker) :
    TombstoneOlder ⟨none, tombstone⟩ :=
  fun _ _ h _ => by cases h

private theorem stamp_le_apply (slot : Slot) (op : SlotOp) :
    slot.stamp ≤ (slot.apply op).stamp := by
  rcases Prod.Lex.toLex_le_toLex.mp (rank_le_apply slot op) with hlt | ⟨heq, -⟩
  · exact hlt.le
  · exact heq.le

/-- Operations keep tombstones older. -/
theorem TombstoneOlder.apply (h : slot.TombstoneOlder) (op : SlotOp) :
    (slot.apply op).TombstoneOlder := by
  obtain ⟨marker, action⟩ := op
  cases action with
  | assign value =>
    simp only [Slot.apply]
    split
    · exact h
    · exact .of_field _
  | delete =>
    simp only [Slot.apply]
    split
    · exact h
    · exact .of_tombstone _
  | member present id =>
    simp only [Slot.apply]
    split
    · exact h
    · rename_i hblocks
      have hnewer : ∀ tombstone, slot.tombstone = some tombstone → tombstone < marker := by
        intro tombstone htombstone
        rw [htombstone] at hblocks
        simpa [blocks] using hblocks
      have hstart : ∀ baseline, (slot.startSet baseline present id marker).TombstoneOlder := by
        rintro baseline state tombstone ⟨⟩ htombstone
        exact hnewer tombstone htombstone
      split
      · exact hstart _
      · rename_i set version hfield
        split
        · exact h
        · rintro state tombstone ⟨⟩ htombstone
          exact (h _ tombstone hfield htombstone).trans_le (le_max_left _ _)
      · split
        · exact h
        · exact hstart _

private theorem stamp_lt_of_not_blocksReset {marker : VersionMarker}
    (h : ¬slot.blocksReset marker = true) : slot.stamp < (marker : WithBot VersionMarker) := by
  rw [blocksReset, Bool.or_eq_true, not_or, Bool.not_eq_true, Bool.not_eq_true] at h
  exact max_lt (markerRank_lt h.1) (markerRank_lt h.2)

private theorem stamp_le_mergeTombstone (slot : Slot) (marker : VersionMarker) :
    slot.stamp ≤ (slot.mergeTombstone marker).stamp := by
  unfold mergeTombstone
  split
  · exact le_refl _
  · rename_i hblocks
    exact (stamp_lt_of_not_blocksReset hblocks).le.trans (le_max_left _ _)

private theorem mergeFieldState_version_eq_max (existing incoming : FieldState) :
    (mergeFieldState existing incoming).version = max existing.version incoming.version := by
  rw [mergeFieldState_version]
  split
  · rename_i h
    exact (max_eq_right h.le).symm
  · rename_i h
    exact (max_eq_left (not_lt.mp h)).symm

private theorem stamp_le_mergeField (slot : Slot) (incoming : FieldState) :
    slot.stamp ≤ (slot.mergeField incoming).stamp := by
  unfold mergeField
  split
  · exact le_refl _
  · rename_i hblocks
    -- the tombstone goes, but the incoming version is above it
    have htombstone := markerRank_lt (Bool.not_eq_true _ ▸ hblocks :
      blocks slot.tombstone incoming.version = false)
    split
    · rename_i existing hfield
      have hversion : stamp ⟨some (mergeFieldState existing incoming), none⟩ =
          ((max existing.version incoming.version : VersionMarker) : WithBot VersionMarker) := by
        rw [stamp, Option.map_some, mergeFieldState_version_eq_max]
        exact max_eq_right bot_le
      rw [hversion, stamp, hfield]
      refine max_le (htombstone.le.trans ?_) ?_
      · exact WithBot.coe_le_coe.mpr (le_max_right _ _)
      · exact WithBot.coe_le_coe.mpr (le_max_left _ _)
    · rename_i hfield
      rw [stamp, hfield]
      exact max_le (htombstone.le.trans (le_max_right _ _)) bot_le

private theorem stamp_le_merge (slot incoming : Slot) :
    slot.stamp ≤ (slot.merge incoming).stamp := by
  have htombstone : slot.stamp ≤ (slot.absorbTombstone incoming.tombstone).stamp := by
    cases incoming.tombstone with
    | none => exact le_refl _
    | some marker => exact stamp_le_mergeTombstone slot marker
  refine htombstone.trans ?_
  unfold merge
  cases incoming.field with
  | none => exact le_refl _
  | some state => exact stamp_le_mergeField _ state

private theorem TombstoneOlder.merge (h : slot.TombstoneOlder) (incoming : Slot) :
    (slot.merge incoming).TombstoneOlder := by
  have htombstone : (slot.absorbTombstone incoming.tombstone).TombstoneOlder := by
    cases incoming.tombstone with
    | none => exact h
    | some marker =>
      simp only [absorbTombstone, mergeTombstone]
      split
      · exact h
      · exact .of_tombstone _
  unfold Slot.merge
  cases incoming.field with
  | none => exact htombstone
  | some state =>
    simp only [absorbField, mergeField]
    split
    · exact htombstone
    · split <;> exact .of_field _

end Slot

/-- What changes the nodes of a database. -/
inductive NodesEvent where
  /-- An operation that passes the checks of its origin. -/
  | apply (op : Operation)
  /-- A node state that is merged. -/
  | merge (incoming : NodeState)

/-- One change; an operation may be refused by its slot. -/
def NodesEvent.step (nodes : BTreeMap NodeId NodeState) : NodesEvent → BTreeMap NodeId NodeState
  | .apply op => (applyToNodes nodes op).1
  | .merge incoming => mergeNodeState nodes incoming

/-- The change of the graph that an event is. -/
def NodesEvent.change : NodesEvent → GraphChange
  | .apply op => .operation op
  | .merge incoming => .merge incoming

/-- An event acts on the slots as the change it is. -/
theorem NodesEvent.slotAt_step_eq (nodes : BTreeMap NodeId NodeState) (event : NodesEvent) :
    slotAt (event.step nodes) = GraphChange.act (slotAt nodes) event.change := by
  funext n f
  cases event with
  | apply op => exact slotAt_applyToNodes nodes op n f
  | merge incoming => exact slotAt_mergeNodeState nodes incoming n f

/-- A change applies one operation or merges one slot. -/
theorem NodesEvent.slotAt_step (nodes : BTreeMap NodeId NodeState) (event : NodesEvent)
    (n : NodeId) (f : String) :
    slotAt (event.step nodes) n f = slotAt nodes n f ∨
      (∃ op, slotAt (event.step nodes) n f = (slotAt nodes n f).apply op) ∨
      ∃ incoming, slotAt (event.step nodes) n f = (slotAt nodes n f).merge incoming := by
  rw [event.slotAt_step_eq nodes]
  cases event with
  | apply op =>
    simp only [change, GraphChange.act]
    split
    · exact .inr (.inl ⟨_, rfl⟩)
    · exact .inl rfl
  | merge incoming =>
    simp only [change, GraphChange.act]
    split
    · exact .inr (.inr ⟨_, rfl⟩)
    · exact .inl rfl

/-- In every graph reached by operations and merges, a further operation or merged state lowers
the stamp of no slot, and a tombstone beside a field is older than the field. -/
theorem slot_versions_never_back (events : List NodesEvent) (event : NodesEvent) (n : NodeId)
    (f : String) :
    let nodes := events.foldl NodesEvent.step ∅
    (slotAt nodes n f).stamp ≤ (slotAt (event.step nodes) n f).stamp ∧
      (slotAt nodes n f).TombstoneOlder := by
  intro nodes
  constructor
  · rcases event.slotAt_step nodes n f with heq | ⟨op, heq⟩ | ⟨incoming, heq⟩
    · rw [heq]
    · rw [heq]
      exact Slot.stamp_le_apply _ op
    · rw [heq]
      exact Slot.stamp_le_merge _ incoming
  · refine Run.invariant (I := fun nodes => (slotAt nodes n f).TombstoneOlder) ?_ ?_ events
    · intro nodes event h
      rcases event.slotAt_step nodes n f with heq | ⟨op, heq⟩ | ⟨incoming, heq⟩
      · rw [heq]
        exact h
      · rw [heq]
        exact h.apply op
      · rw [heq]
        exact h.merge incoming
    · have hempty : slotAt (∅ : BTreeMap NodeId NodeState) n f = Slot.empty := by
        simp [slotAt]
      rw [hempty]
      exact .of_field none

end Primadb

import Primadb.Graph.Merge
import Primadb.Graph.SlotQueue

/-!
# Slots only advance

The rank of a slot is its newest reset or version marker and, behind it, the newest
marker of each member of its set. Applying an operation never lowers the rank and an
accepted one raises it, so a node map that was changed is never the old one again.
-/

namespace Primadb

namespace Slot

variable {slot : Slot} {op : SlotOp}

/-- An optional marker in the order of markers, an absent one below all. -/
def markerRank (marker : Option VersionMarker) : WithBot VersionMarker := marker

/-- The newest marker of a field as a whole. -/
def stamp (slot : Slot) : WithBot VersionMarker :=
  max (markerRank slot.tombstone) (markerRank (slot.field.map FieldState.version))

/-- The newest marker of a member. -/
def memberStamp (slot : Slot) (id : NodeId) : WithBot VersionMarker :=
  match slot.field with
  | some ⟨.set set, _⟩ => max (markerRank set.members[id]?) (markerRank set.removed[id]?)
  | _ => ⊥

/-- The rank of a slot. -/
def rank (slot : Slot) : WithBot VersionMarker ×ₗ (NodeId → WithBot VersionMarker) :=
  toLex (slot.stamp, slot.memberStamp)

/-- A marker that is not blocked is above. -/
theorem markerRank_lt {current : Option VersionMarker} {marker : VersionMarker}
    (h : blocks current marker = false) :
    markerRank current < (marker : WithBot VersionMarker) := by
  cases current with
  | none => exact WithBot.bot_lt_coe marker
  | some current =>
    simp only [blocks, decide_eq_false_iff_not, not_le] at h
    exact WithBot.coe_lt_coe.mpr h

private theorem rank_lt_of_stamp_lt {other : Slot} (h : slot.stamp < other.stamp) :
    slot.rank < other.rank :=
  Prod.Lex.toLex_lt_toLex.mpr (Or.inl h)

/-- Recording a member raises its marker and leaves the others alone. -/
theorem memberStamp_record {set : SetState} {version v : VersionMarker} {m : VersionMarker}
    {id : NodeId} (hf : slot.field = some ⟨.set set, version⟩)
    (hadd : blocks set.members[id]? m = false) (hdrop : blocks set.removed[id]? m = false)
    (present : Bool) :
    slot.memberStamp < memberStamp
      { slot with field := some ⟨.set (set.record present id m), v⟩ } := by
  have hself : slot.memberStamp id < memberStamp
      { slot with field := some ⟨.set (set.record present id m), v⟩ } id := by
    have hlt : slot.memberStamp id < (m : WithBot VersionMarker) := by
      simp only [memberStamp, hf]
      exact max_lt (markerRank_lt hadd) (markerRank_lt hdrop)
    refine hlt.trans_le ?_
    cases present with
    | true =>
      simp only [memberStamp, SetState.record, if_true, BTreeMap.get_insert]
      exact le_max_left _ _
    | false =>
      simp only [memberStamp, SetState.record, Bool.false_eq_true, if_false, BTreeMap.get_insert,
        if_true]
      exact le_max_right _ _
  refine Pi.lt_def.mpr ⟨fun x => ?_, id, hself⟩
  by_cases hx : id = x
  · exact hx ▸ hself.le
  · cases present <;> simp [memberStamp, hf, SetState.record, hx]

/-- An accepted operation raises the rank. -/
theorem rank_lt_apply (h : slot.accepts op = true) : slot.rank < (slot.apply op).rank := by
  rcases op.member_or_isReset with ⟨m, present, id, rfl⟩ | hr
  · obtain ⟨htomb, ⟨hf, heq⟩ | ⟨value, version, hf, -, hv, heq⟩ | ⟨set, version, hf, -, heq⟩⟩ :=
      accepts_member_cases h
    · refine rank_lt_of_stamp_lt ?_
      rw [heq]
      simp only [stamp, startSet, hf, Option.map_none, Option.map_some]
      refine (max_lt (markerRank_lt htomb) (WithBot.bot_lt_coe m)).trans_le (le_max_right _ _)
    · refine rank_lt_of_stamp_lt ?_
      rw [heq]
      simp only [stamp, startSet, hf, Option.map_some]
      exact (max_lt (markerRank_lt htomb) (WithBot.coe_lt_coe.mpr hv)).trans_le (le_max_right _ _)
    · -- the version may stay, then the member's own marker grows
      have hstamp : slot.stamp ≤ (slot.apply ⟨m, .member present id⟩).stamp := by
        rw [heq]
        simp only [stamp, hf, Option.map_some]
        exact max_le_max_left _ (WithBot.coe_le_coe.mpr (le_max_left _ _))
      rcases hstamp.lt_or_eq with hlt | hsame
      · exact rank_lt_of_stamp_lt hlt
      · simp only [accepts, hf, Bool.and_eq_true, Bool.not_eq_true', Bool.or_eq_false_iff] at h
        refine Prod.Lex.toLex_lt_toLex.mpr (Or.inr ⟨hsame, ?_⟩)
        rw [heq]
        exact memberStamp_record (v := max version m) hf h.2.2.1 h.2.2.2 present
  · obtain ⟨hblocks, heq⟩ := apply_reset_of_accepts hr h
    simp only [blocksReset, Bool.or_eq_false_iff] at hblocks
    have hlt : slot.stamp < (op.marker : WithBot VersionMarker) :=
      max_lt (markerRank_lt hblocks.1) (markerRank_lt hblocks.2)
    refine rank_lt_of_stamp_lt (hlt.trans_le ?_)
    rw [heq]
    obtain ⟨marker, action⟩ := op
    cases action with
    | member present id => exact absurd rfl (hr present id)
    | assign value => exact le_max_right _ _
    | delete => exact le_max_left _ _

/-- The rank of a slot does not fall. -/
theorem rank_le_apply (slot : Slot) (op : SlotOp) : slot.rank ≤ (slot.apply op).rank := by
  cases h : slot.accepts op with
  | true => exact (rank_lt_apply h).le
  | false => rw [apply_of_not_accepts h]

theorem empty_merge_ne_empty (h : slot ≠ empty) : empty.merge slot ≠ empty := by
  obtain ⟨field, tombstone⟩ := slot
  cases tombstone with
  | none =>
    cases field with
    | none => exact absurd rfl h
    | some state => simp [merge, absorbTombstone, absorbField, mergeField, empty, blocks]
  | some marker =>
    cases field with
    | none =>
      simp [merge, absorbTombstone, absorbField, mergeTombstone, blocksReset, empty, blocks]
    | some state =>
      simp only [merge, absorbTombstone, absorbField, mergeTombstone, mergeField, blocksReset,
        empty, blocks, Option.map_none, Bool.or_self, Bool.false_eq_true, if_false]
      split <;> simp

end Slot

end Primadb

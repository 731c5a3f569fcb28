import Primadb.Graph.SlotRank

/-!
# Changes of the graph

The graph is read as a function from node and field to slot. It changes by
operations and by merged or loaded node states, each at one node. A change whose marker lies
above every marker of its node is seen in the revision of the field and of the node;
an older one may be taken in without a trace there.
-/

namespace Primadb

/-- The slots of all fields of all nodes. -/
abbrev SlotGraph := NodeId → String → Slot

/-- A change of the graph: an operation, a node state from elsewhere, or a stored one. -/
inductive GraphChange where
  | operation (op : Operation)
  | merge (state : NodeState)
  | load (state : NodeState)
  deriving DecidableEq

namespace Slot

variable {slot incoming : Slot} {op : SlotOp} {m : VersionMarker}

/-- The revision reported for a field: its version, or the marker of its delete. -/
def revision (slot : Slot) : Option VersionMarker :=
  (slot.field.map FieldState.version).or slot.tombstone

/-- Whether a marker is the version or the tombstone of the slot. -/
def Carries (slot : Slot) (marker : VersionMarker) : Prop :=
  slot.field.map FieldState.version = some marker ∨ slot.tombstone = some marker

theorem Carries.of_revision (h : slot.revision = some m) : slot.Carries m := by
  rw [revision, Option.or_eq_some_iff] at h
  exact h.imp id And.right

private theorem Carries.le_stamp (h : slot.Carries m) :
    (m : WithBot VersionMarker) ≤ slot.stamp := by
  rcases h with h | h
  · exact (le_of_eq (by rw [h]; rfl)).trans (le_max_right _ _)
  · exact (le_of_eq (by rw [h]; rfl)).trans (le_max_left _ _)

theorem carries_of_stamp (h : slot.stamp = (m : WithBot VersionMarker)) : slot.Carries m := by
  rcases max_choice (markerRank slot.tombstone)
    (markerRank (slot.field.map FieldState.version)) with hmax | hmax
  · exact Or.inr (hmax.symm.trans h)
  · exact Or.inl (hmax.symm.trans h)

/-- The reported revision is not above the stamp. -/
theorem markerRank_revision_le (slot : Slot) : markerRank slot.revision ≤ slot.stamp := by
  cases h : slot.revision with
  | none => exact bot_le
  | some m => exact (Carries.of_revision h).le_stamp

private theorem blocks_of_lt {current : Option VersionMarker}
    (h : markerRank current < (m : WithBot VersionMarker)) : blocks current m = false := by
  cases current with
  | none => rfl
  | some marker => simpa [blocks] using WithBot.coe_lt_coe.mp h

/-- An accepted operation above the stamp of the slot becomes its revision. -/
theorem revision_apply (hacc : slot.accepts op = true)
    (hlt : slot.stamp < (op.marker : WithBot VersionMarker)) :
    (slot.apply op).revision = some op.marker := by
  rcases op.member_or_isReset with ⟨m, present, id, rfl⟩ | hr
  · obtain ⟨-, ⟨hf, heq⟩ | ⟨value, version, hf, -, -, heq⟩ | ⟨set, version, hf, -, heq⟩⟩ :=
      accepts_member_cases hacc
    · rw [heq]
      rfl
    · rw [heq]
      rfl
    · have hv : (version : WithBot VersionMarker) < m :=
        lt_of_le_of_lt (Carries.le_stamp (Or.inl (by rw [hf]; rfl))) hlt
      rw [heq]
      simp only [revision, Option.map_some, Option.some_or,
        max_eq_right (WithBot.coe_lt_coe.mp hv).le]
  · rw [(apply_reset_of_accepts hr hacc).2]
    obtain ⟨marker, action⟩ := op
    cases action with
    | member present id => exact absurd rfl (hr present id)
    | _ => rfl

/-- The markers of a slot after an operation. -/
theorem carries_apply (h : (slot.apply op).Carries m) : slot.Carries m ∨ m = op.marker := by
  cases hacc : slot.accepts op with
  | false =>
    rw [apply_of_not_accepts hacc] at h
    exact Or.inl h
  | true =>
    rcases op.member_or_isReset with ⟨k, present, id, rfl⟩ | hr
    · obtain ⟨-, ⟨hf, heq⟩ | ⟨value, version, hf, -, -, heq⟩ | ⟨set, version, hf, -, heq⟩⟩ :=
        accepts_member_cases hacc <;> rw [heq] at h
      · rcases h with h | h
        · exact Or.inr (Option.some.inj h).symm
        · exact Or.inl (Or.inr h)
      · rcases h with h | h
        · exact Or.inr (Option.some.inj h).symm
        · exact Or.inl (Or.inr h)
      · rcases h with h | h
        · rcases max_choice version k with hmax | hmax
          · refine Or.inl (Or.inl ?_)
            rw [hf, ← h]
            exact congrArg some hmax.symm
          · exact Or.inr ((Option.some.inj h).symm.trans hmax)
        · exact Or.inl (Or.inr h)
    · rw [(apply_reset_of_accepts hr hacc).2] at h
      obtain ⟨marker, action⟩ := op
      cases action with
      | member present id => exact absurd rfl (hr present id)
      | assign value => exact Or.inr (by simpa [SlotOp.result, Carries, apply, blocksReset,
          Slot.empty, eq_comm] using h)
      | delete => exact Or.inr (by simpa [SlotOp.result, Carries, apply, blocksReset,
          Slot.empty, eq_comm] using h)

/-- A merged field has the newer version. -/
theorem mergeFieldState_version (existing incoming : FieldState) :
    (mergeFieldState existing incoming).version =
      if incoming.version > existing.version then incoming.version else existing.version := by
  unfold mergeFieldState
  split
  · rfl
  · split <;> rfl

/-- The slot after an incoming tombstone: unchanged, or deleted. -/
theorem mergeTombstone_cases (slot : Slot) (marker : VersionMarker) :
    slot.mergeTombstone marker = slot ∨ slot.mergeTombstone marker = ⟨none, some marker⟩ := by
  rw [mergeTombstone]
  split
  · exact Or.inl rfl
  · exact Or.inr rfl

/-- The markers of a slot after an incoming field. -/
theorem carries_mergeField {state : FieldState} (h : (slot.mergeField state).Carries m) :
    slot.Carries m ∨ m = state.version := by
  rw [mergeField] at h
  split at h
  · exact Or.inl h
  · split at h
    · rename_i existing hf
      rcases h with h | h
      · rw [Option.map_some, mergeFieldState_version] at h
        split at h
        · exact Or.inr (Option.some.inj h).symm
        · exact Or.inl (Or.inl (by rw [hf]; exact h))
      · cases h
    · rcases h with h | h
      · exact Or.inr (Option.some.inj h).symm
      · cases h

/-- The markers of a merged slot come from the two sides. -/
theorem carries_merge (h : (slot.merge incoming).Carries m) :
    slot.Carries m ∨ incoming.Carries m := by
  have htomb : ∀ {s : Slot}, (s.absorbTombstone incoming.tombstone).Carries m →
      s.Carries m ∨ incoming.Carries m := by
    intro s hs
    cases ht : incoming.tombstone with
    | none =>
      rw [ht] at hs
      exact Or.inl hs
    | some marker =>
      rw [ht] at hs
      rcases s.mergeTombstone_cases marker with heq | heq <;> simp only [absorbTombstone, heq] at hs
      · exact Or.inl hs
      · rcases hs with hs | hs
        · cases hs
        · exact Or.inr (Or.inr (ht.trans hs))
  rw [merge] at h
  cases hf : incoming.field with
  | none =>
    rw [hf] at h
    exact htomb h
  | some state =>
    rw [hf] at h
    rcases carries_mergeField h with h | rfl
    · exact htomb h
    · exact Or.inr (Or.inl (by rw [hf]; rfl))

/-- A slot whose stamp is below an incoming field takes its version. -/
theorem revision_mergeField {state : FieldState}
    (hlt : slot.stamp < (state.version : WithBot VersionMarker)) :
    (slot.mergeField state).revision = some state.version := by
  have htomb : blocks slot.tombstone state.version = false :=
    blocks_of_lt (lt_of_le_of_lt (le_max_left _ _) hlt)
  rw [mergeField, htomb]
  cases hf : slot.field with
  | none => rfl
  | some existing =>
    have hv : existing.version < state.version :=
      WithBot.coe_lt_coe.mp (lt_of_le_of_lt (Carries.le_stamp (Or.inl (by rw [hf]; rfl))) hlt)
    simp [revision, mergeFieldState_version, hv]

/-- A slot whose stamp is below an incoming tombstone is deleted. -/
theorem mergeTombstone_of_lt (hlt : slot.stamp < (m : WithBot VersionMarker)) :
    slot.mergeTombstone m = ⟨none, some m⟩ := by
  have htomb : blocks slot.tombstone m = false :=
    blocks_of_lt (lt_of_le_of_lt (le_max_left _ _) hlt)
  have hfield : blocks (slot.field.map FieldState.version) m = false :=
    blocks_of_lt (lt_of_le_of_lt (le_max_right _ _) hlt)
  rw [mergeTombstone, blocksReset, htomb, hfield]
  rfl

private theorem revision_merge (hlt : slot.stamp < incoming.stamp) :
    markerRank (slot.merge incoming).revision = incoming.stamp := by
  obtain ⟨field, tombstone⟩ := incoming
  cases tombstone with
  | none =>
    cases field with
    | none => exact absurd hlt not_lt_bot
    | some state =>
      have hstamp : stamp ⟨some state, none⟩ = (state.version : WithBot VersionMarker) :=
        max_eq_right bot_le
      rw [hstamp] at hlt ⊢
      exact congrArg markerRank (revision_mergeField hlt)
  | some t =>
    cases field with
    | none =>
      have hstamp : stamp ⟨none, some t⟩ = (t : WithBot VersionMarker) := max_eq_left bot_le
      rw [hstamp] at hlt ⊢
      simp only [merge, absorbTombstone, absorbField, mergeTombstone_of_lt hlt]
      rfl
    | some state =>
      have hstamp : stamp ⟨some state, some t⟩ = max (t : WithBot VersionMarker) state.version :=
        rfl
      rw [hstamp] at hlt ⊢
      simp only [merge, absorbTombstone, absorbField]
      rcases lt_or_ge t state.version with hv | hv
      · -- the field is newer than the tombstone that came with it
        have hlt' : (slot.mergeTombstone t).stamp < (state.version : WithBot VersionMarker) := by
          rw [max_eq_right (WithBot.coe_le_coe.mpr hv.le)] at hlt
          rcases slot.mergeTombstone_cases t with heq | heq <;> rw [heq]
          · exact hlt
          · exact max_lt (WithBot.coe_lt_coe.mpr hv) (WithBot.bot_lt_coe _)
        rw [revision_mergeField hlt', max_eq_right (WithBot.coe_le_coe.mpr hv.le)]
        rfl
      · rw [max_eq_left (WithBot.coe_le_coe.mpr hv)] at hlt ⊢
        rw [mergeTombstone_of_lt hlt, mergeField]
        have hblocks : blocks (some t) state.version = true := by simpa [blocks] using hv
        simp only [hblocks, if_true]
        rfl

end Slot

namespace GraphChange

/-- The graph after a change. -/
def act (graph : SlotGraph) : GraphChange → SlotGraph
  | .operation op => fun n f => if op.at n f then (graph n f).apply op.slotOp else graph n f
  | .merge state | .load state => fun n f =>
    if state.id = n then (graph n f).merge (state.slot f) else graph n f

/-- The change finds only older markers in its node, or changes nothing. -/
def Newest (graph : SlotGraph) : GraphChange → Prop
  | .operation op =>
    (graph op.action.node op.action.field).accepts op.slotOp = false ∨
      ∀ g, (graph op.action.node g).stamp < (op.marker : WithBot VersionMarker)
  | .merge state | .load state => ∀ f,
    (graph state.id f).merge (state.slot f) = graph state.id f ∨
      ∀ g, (graph state.id g).stamp < (state.slot f).stamp

/-- Every marker the change brings belongs to its node. -/
def OwnedBy (owner : VersionMarker → NodeId) : GraphChange → Prop
  | .operation op => owner op.marker = op.action.node
  | .merge state | .load state => ∀ f m, (state.slot f).Carries m → owner m = state.id

end GraphChange

namespace SlotGraph

/-- Every marker of the graph belongs to the node it stands in. -/
def OwnedBy (owner : VersionMarker → NodeId) (graph : SlotGraph) : Prop :=
  ∀ n f m, (graph n f).Carries m → owner m = n

/-- Every slot of the node is unchanged or reports a revision above all old markers of the node. -/
def Raised (n : NodeId) (old new : SlotGraph) : Prop :=
  ∀ f, new n f = old n f ∨ ∀ g, (old n g).stamp < Slot.markerRank (new n f).revision

variable {n : NodeId} {a b c : SlotGraph} {owner : VersionMarker → NodeId}

private theorem Raised.refl (n : NodeId) (graph : SlotGraph) : Raised n graph graph :=
  fun _ => Or.inl rfl

private theorem Raised.trans (hab : Raised n a b) (hbc : Raised n b c) : Raised n a c := by
  intro f
  rcases hbc f with hsame | hnew
  · rw [hsame]
    exact hab f
  · refine Or.inr fun g => ?_
    rcases hab g with hold | hraised
    · rw [← hold]
      exact hnew g
    · exact ((hraised g).trans_le (b n g).markerRank_revision_le).trans (hnew g)

/-- A change that finds only older markers raises the revision of what it changes. -/
theorem Raised.act {graph : SlotGraph} {change : GraphChange} (h : change.Newest graph)
    (n : NodeId) : Raised n graph (change.act graph) := by
  intro f
  cases change with
  | operation op =>
    simp only [GraphChange.act]
    split
    · rename_i hat
      obtain ⟨rfl, rfl⟩ : op.action.node = n ∧ op.action.field = f := by
        simpa [Operation.at] using hat
      cases hacc : (graph op.action.node op.action.field).accepts op.slotOp with
      | false => exact Or.inl (Slot.apply_of_not_accepts hacc)
      | true =>
        have hlt := h.resolve_left (by simp [hacc])
        right
        rw [Slot.revision_apply hacc (hlt _)]
        exact hlt
    · exact Or.inl rfl
  | merge state | load state =>
    simp only [GraphChange.act]
    split
    · rename_i hn
      subst hn
      refine (h f).imp id fun hlt g => ?_
      rw [Slot.revision_merge (hlt f)]
      exact hlt g
    · exact Or.inl rfl

/-- A change keeps the owners of the markers. -/
theorem OwnedBy.act {graph : SlotGraph} {change : GraphChange} (h : graph.OwnedBy owner)
    (hchange : change.OwnedBy owner) : (change.act graph).OwnedBy owner := by
  intro n f m hm
  cases change with
  | operation op =>
    simp only [GraphChange.act] at hm
    split at hm
    · rename_i hat
      obtain ⟨rfl, rfl⟩ : op.action.node = n ∧ op.action.field = f := by
        simpa [Operation.at] using hat
      rcases Slot.carries_apply hm with hm | rfl
      · exact h _ _ _ hm
      · exact hchange
    · exact h _ _ _ hm
  | merge state | load state =>
    simp only [GraphChange.act] at hm
    split at hm
    · rename_i hn
      subst hn
      rcases Slot.carries_merge hm with hm | hm
      · exact h _ _ _ hm
      · exact hchange f m hm
    · exact h _ _ _ hm

/-- Every change of a sequence finds only older markers in its node and brings markers of its
node. -/
def Orderly (owner : VersionMarker → NodeId) : SlotGraph → List GraphChange → Prop
  | _, [] => True
  | graph, change :: changes =>
    change.Newest graph ∧ change.OwnedBy owner ∧ Orderly owner (change.act graph) changes

/-- An orderly sequence of changes raises every node and keeps the owners of the markers. -/
theorem Orderly.run {graph : SlotGraph} {changes : List GraphChange}
    (h : Orderly owner graph changes) (howned : graph.OwnedBy owner) :
    (∀ n, Raised n graph (changes.foldl GraphChange.act graph)) ∧
      OwnedBy owner (changes.foldl GraphChange.act graph) := by
  induction changes generalizing graph with
  | nil => exact ⟨fun n => .refl n graph, howned⟩
  | cons change changes ih =>
    obtain ⟨hnewest, hchange, hrest⟩ := h
    obtain ⟨hraised, hkept⟩ := ih hrest (howned.act hchange)
    exact ⟨fun n => (Raised.act hnewest n).trans (hraised n), hkept⟩

end SlotGraph

end Primadb

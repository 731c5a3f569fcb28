import Primadb.Graph.Merge

/-!
# Laws of the merge

The merge of two set states records the entries of both above the greater
baseline. From this follow when a state is unchanged by merging it with itself,
and the shape of every slot that operations can leave.
-/

namespace Primadb

open LastWriter

/-- The marker of an entry that is an add. -/
def addMarker : Option (VersionMarker × Bool) → Option VersionMarker
  | some (marker, true) => some marker
  | _ => none

/-- The marker of an entry that is a removal. -/
def dropMarker : Option (VersionMarker × Bool) → Option VersionMarker
  | some (marker, false) => some marker
  | _ => none

@[simp] theorem mergedEntry_some_none (b a : VersionMarker) :
    mergedEntry b (some a) none = if b < a then some (a, true) else none := by
  by_cases h : b < a <;> simp [mergedEntry, validMarker, h]

@[simp] theorem mergedEntry_none_some (b d : VersionMarker) :
    mergedEntry b none (some d) = if b < d then some (d, false) else none := by
  by_cases h : b < d <;> simp [mergedEntry, validMarker, h]

@[simp] theorem mergedEntry_none_none (b : VersionMarker) : mergedEntry b none none = none := rfl

@[simp] theorem mergedEntry_some_some (b a d : VersionMarker) :
    mergedEntry b (some a) (some d) =
      if b < max a d then if d < a then some (a, true) else some (d, false) else none := by
  by_cases ha : b < a <;> by_cases hd : b < d <;> by_cases h : d < a <;>
    simp [mergedEntry, validMarker, ha, hd, h] <;> order

/-- The merged entry is a greatest entry above the baseline. -/
theorem mergedEntry_spec (b : VersionMarker) (p q : Option (VersionMarker × Bool)) :
    (mergedEntry b (maxMarker (addMarker p) (addMarker q))
        (maxMarker (dropMarker p) (dropMarker q)) = none →
      ∀ e, p = some e ∨ q = some e → e.1 ≤ b) ∧
    ∀ e, mergedEntry b (maxMarker (addMarker p) (addMarker q))
        (maxMarker (dropMarker p) (dropMarker q)) = some e →
      (p = some e ∨ q = some e) ∧ b < e.1 ∧
        ∀ e', p = some e' ∨ q = some e' → b < e'.1 → e'.1 ≤ e.1 := by
  rcases p with _ | ⟨m, _ | _⟩ <;> rcases q with _ | ⟨n, _ | _⟩ <;>
    simp only [addMarker, dropMarker, maxMarker, mergedEntry_some_some, mergedEntry_some_none,
      mergedEntry_none_some, mergedEntry_none_none] <;>
    grind

namespace SetState

/-- The entries of a set state as writes. -/
def writes (set : SetState) : Set MemberWrite :=
  {w | set.table w.key = some (w.stamp, w.value)}

private theorem Disjoint.lookups {set : SetState} (h : set.Disjoint) (id : NodeId) :
    set.members[id]? = addMarker (set.table id) ∧ set.removed[id]? = dropMarker (set.table id) := by
  have hid := h id
  unfold table
  cases hm : set.members[id]? with
  | some m =>
    have hr : set.removed[id]? = none := hid.resolve_left (by simp [hm])
    simp [hr, addMarker, dropMarker]
  | none => cases set.removed[id]? <;> simp [addMarker, dropMarker]

private theorem writes_consistent (set : SetState) : Consistent set.writes := by
  intro v hv w hw hk hs
  rw [writes, Set.mem_ofPred_eq] at hv hw
  rw [hk, hw] at hv
  exact (congrArg Prod.snd (Option.some.inj hv)).symm

private theorem records_writes (set : SetState) : Records set.table set.writes := by
  refine ⟨fun id hid w hw hk => ?_, fun id m b hid => ⟨hid, fun w hw hk => ?_⟩⟩
  · rw [writes, Set.mem_ofPred_eq, hk, hid] at hw
    exact absurd hw (by simp)
  · rw [writes, Set.mem_ofPred_eq, hk, hid] at hw
    exact (congrArg Prod.fst (Option.some.inj hw)).ge

end SetState

/-- A merged set records the entries of both sides above the greater baseline. -/
theorem mergeSetState_records {a b : SetState} (ha : a.Disjoint) (hb : b.Disjoint) :
    Records (mergeSetState a b).table
      {w | (w ∈ a.writes ∨ w ∈ b.writes) ∧ max a.baseline b.baseline < w.stamp} := by
  have hentry : ∀ id, (mergeSetState a b).table id =
      mergedEntry (max a.baseline b.baseline) (maxMarker (addMarker (a.table id))
        (addMarker (b.table id))) (maxMarker (dropMarker (a.table id))
          (dropMarker (b.table id))) := by
    intro id
    rw [mergeSetState_table, (ha.lookups id).1, (ha.lookups id).2, (hb.lookups id).1,
      (hb.lookups id).2]
  have hspec := fun id => mergedEntry_spec (max a.baseline b.baseline) (a.table id) (b.table id)
  simp only [← hentry] at hspec
  refine ⟨fun id hid w hw hk => ?_, fun id m p hid => ?_⟩
  · subst hk
    exact absurd hw.2 (not_lt.mpr ((hspec w.key).1 hid (w.stamp, w.value) hw.1))
  · obtain ⟨hin, hlt, hmax⟩ := (hspec id).2 _ hid
    refine ⟨⟨hin, hlt⟩, fun w hw hk => ?_⟩
    subst hk
    exact hmax (w.stamp, w.value) hw.1 hw.2

/-- Merging a set with itself changes nothing exactly when all its entries are above its
baseline. -/
theorem mergeSetState_self_eq_iff {set : SetState} (h : set.Disjoint) :
    mergeSetState set set = set ↔ ∀ w ∈ set.writes, set.baseline < w.stamp := by
  have hrec := mergeSetState_records h h
  simp only [or_self, max_self] at hrec
  constructor
  · intro heq w hw
    rw [heq] at hrec
    exact (hrec.2 w.key w.stamp w.value hw).1.2
  · intro habove
    have hset : {w | w ∈ set.writes ∧ set.baseline < w.stamp} = set.writes := by
      ext w
      exact ⟨And.left, fun hw => ⟨hw, habove w hw⟩⟩
    rw [hset] at hrec
    refine (mergeSetState_disjoint set set).ext_table h ?_
      (hrec.unique set.records_writes set.writes_consistent)
    rw [mergeSetState_baseline, max_self]

/-- The shape of a slot that operations can leave: a tombstone beside a field is older than it,
only a set stands beside a tombstone, and every set state is disjoint. -/
structure Slot.Wf (slot : Slot) : Prop where
  tombstone_lt : ∀ state t, slot.field = some state → slot.tombstone = some t → t < state.version
  set_of_tombstone : ∀ state t, slot.field = some state → slot.tombstone = some t →
    ∃ set, state.value = .set set
  disjoint : ∀ set version, slot.field = some ⟨.set set, version⟩ → set.Disjoint

namespace Slot

theorem Wf.empty : Slot.empty.Wf :=
  ⟨by simp [Slot.empty], by simp [Slot.empty], by simp [Slot.empty]⟩

/-- A slot with a single set and a possible older tombstone is well formed. -/
theorem Wf.of_set {set : SetState} {version : VersionMarker} {tombstone : Option VersionMarker}
    (ht : ∀ t, tombstone = some t → t < version) (hd : set.Disjoint) :
    Slot.Wf ⟨some ⟨.set set, version⟩, tombstone⟩ := by
  refine ⟨?_, ?_, ?_⟩
  · rintro _ t ⟨⟩ h
    exact ht t h
  · rintro _ t ⟨⟩ h
    exact ⟨set, rfl⟩
  · rintro _ _ ⟨⟩
    exact hd

private theorem Wf.of_assign (value : OperationValue) (marker : VersionMarker) :
    Slot.Wf ⟨some ⟨value.toFieldValue marker, marker⟩, none⟩ := by
  cases value with
  | set ids => exact Wf.of_set (by simp) fun id => by simp
  | _ => exact ⟨by simp, by simp, by simp [OperationValue.toFieldValue]⟩

/-- Operations keep a slot well formed. -/
theorem Wf.apply {slot : Slot} (h : slot.Wf) (op : SlotOp) : (slot.apply op).Wf := by
  obtain ⟨marker, action⟩ := op
  obtain ⟨field, tombstone⟩ := slot
  cases action with
  | assign value =>
    simp only [Slot.apply]
    split
    · exact h
    · exact Wf.of_assign value marker
  | delete =>
    simp only [Slot.apply]
    split
    · exact h
    · exact ⟨by simp, by simp, by simp⟩
  | member present id =>
    simp only [Slot.apply]
    split
    · exact h
    · rename_i htomb
      have hlt : ∀ t, tombstone = some t → t < marker := by
        rintro t rfl
        simpa using htomb
      have hstart : ∀ baseline, (startSet ⟨field, tombstone⟩ baseline present id marker).Wf :=
        fun baseline => Wf.of_set hlt ((SetState.empty_disjoint baseline).record present id marker)
      rcases field with _ | ⟨value, version⟩
      · exact hstart zeroMarker
      · cases value with
        | set set =>
          simp only
          split
          · exact h
          · refine Wf.of_set (fun t ht => ?_)
              ((h.disjoint set version rfl).record present id marker)
            exact (h.tombstone_lt _ t rfl ht).trans_le (le_max_left _ _)
        | _ =>
          simp only
          split
          · exact h
          · exact hstart _

/-- Merging a well formed slot with itself changes nothing exactly when no tombstone stands beside
its field and the entries of a set are above its baseline. -/
theorem Wf.merge_self_eq_iff {slot : Slot} (h : slot.Wf) :
    slot.merge slot = slot ↔
      (slot.field = none ∨ slot.tombstone = none) ∧
        ∀ set version, slot.field = some ⟨.set set, version⟩ →
          ∀ w ∈ set.writes, set.baseline < w.stamp := by
  obtain ⟨field, tombstone⟩ := slot
  have hfirst : absorbTombstone ⟨field, tombstone⟩ tombstone = ⟨field, tombstone⟩ := by
    cases tombstone with
    | none => rfl
    | some t => simp [absorbTombstone, mergeTombstone, blocksReset]
  simp only [merge, hfirst]
  rcases field with _ | state
  · simp [absorbField]
  · have hopen : blocks tombstone state.version = false := by
      cases tombstone with
      | none => rfl
      | some t => simpa using h.tombstone_lt state t rfl rfl
    simp only [absorbField, mergeField, hopen, Bool.false_eq_true, if_false, Slot.mk.injEq,
      Option.some.injEq, reduceCtorEq, false_or]
    rw [and_comm, eq_comm (a := none)]
    refine and_congr_right fun _ => ?_
    obtain ⟨value, version⟩ := state
    cases value with
    | set set =>
      simp only [mergeFieldState, gt_iff_lt, lt_self_iff_false, if_false, FieldState.mk.injEq,
        FieldValue.set.injEq, and_true]
      rw [mergeSetState_self_eq_iff (h.disjoint set version rfl)]
      constructor
      · rintro hw _ _ ⟨rfl, -⟩
        exact hw
      · exact fun hw => hw set version ⟨rfl, rfl⟩
    | _ => simp [mergeFieldState]

end Slot

end Primadb

import Primadb.Graph.Slot

/-!
# Set states as last-writer tables

The two halves of a set state hold one table: the newest accepted marker of
every member id with the information whether it was an add. While no reset is
accepted, a slot that holds a set takes in exactly the member operations above
its baseline and its tombstone, each as one write of that table.
-/

namespace Primadb

open LastWriter

/-- A write of one member id: an add carries `true`, a removal `false`. -/
abbrev MemberWrite := Write VersionMarker NodeId Bool

@[simp] theorem blocks_none (marker : VersionMarker) : blocks none marker = false := rfl

@[simp] theorem blocks_some (current marker : VersionMarker) :
    blocks (some current) marker = decide (marker ≤ current) := rfl

namespace SetState

/-- The newest entry of every member id. -/
def table (set : SetState) : Table VersionMarker NodeId Bool := fun id =>
  match set.members[id]? with
  | some marker => some (marker, true)
  | none => set.removed[id]?.map (·, false)

/-- No id is both a member and a removed member. -/
def Disjoint (set : SetState) : Prop :=
  ∀ id : NodeId, set.members[id]? = none ∨ set.removed[id]? = none

/-- The members are the ids whose newest entry is an add. -/
theorem members_eq_some_iff (set : SetState) (id : NodeId) (marker : VersionMarker) :
    set.members[id]? = some marker ↔ set.table id = some (marker, true) := by
  unfold table
  cases set.members[id]? <;> simp

/-- The removed ids are those whose newest entry is a removal. -/
theorem Disjoint.removed_eq_some_iff {set : SetState} (h : set.Disjoint) (id : NodeId)
    (marker : VersionMarker) :
    set.removed[id]? = some marker ↔ set.table id = some (marker, false) := by
  unfold table
  cases hm : set.members[id]? with
  | none => simp
  | some m =>
    have hr : set.removed[id]? = none := (h id).resolve_left (by simp [hm])
    simp [hr]

/-- A set is determined by baseline and table. -/
theorem Disjoint.ext_table {a b : SetState} (ha : a.Disjoint) (hb : b.Disjoint)
    (hbase : a.baseline = b.baseline) (ht : a.table = b.table) : a = b := by
  have hm : a.members = b.members := by
    refine Std.ExtTreeMap.ext_getElem? fun id => Option.ext fun m => ?_
    rw [members_eq_some_iff, members_eq_some_iff, ht]
  have hr : a.removed = b.removed := by
    refine Std.ExtTreeMap.ext_getElem? fun id => Option.ext fun m => ?_
    rw [ha.removed_eq_some_iff, hb.removed_eq_some_iff, ht]
  cases a
  cases b
  simp_all

/-- A set state without entries has a blank table. -/
theorem empty_table (baseline : VersionMarker) :
    table ⟨baseline, ∅, ∅⟩ = fun _ => none := by
  funext id
  simp [table]

/-- A set state without entries is disjoint. -/
theorem empty_disjoint (baseline : VersionMarker) : Disjoint ⟨baseline, ∅, ∅⟩ := by
  intro id
  simp

private theorem record_table (set : SetState) (present : Bool) (id : NodeId)
    (marker : VersionMarker) :
    (set.record present id marker).table =
      Function.update set.table id (some (marker, present)) := by
  funext x
  by_cases hx : x = id
  · subst hx
    cases present <;> simp [record, table]
  · have hx' : id ≠ x := fun h => hx h.symm
    cases present <;> simp [record, table, Function.update_of_ne hx, hx']

@[simp] theorem record_baseline (set : SetState) (present : Bool) (id : NodeId)
    (marker : VersionMarker) : (set.record present id marker).baseline = set.baseline := by
  cases present <;> rfl

theorem Disjoint.record {set : SetState} (h : set.Disjoint) (present : Bool) (id : NodeId)
    (marker : VersionMarker) : (set.record present id marker).Disjoint := by
  intro x
  have hx := h x
  cases present <;> by_cases he : id = x <;> simp_all [SetState.record]

/-- The two entry tests of a member operation refuse exactly the outdated markers. -/
theorem Disjoint.entry_blocks_iff {set : SetState} (h : set.Disjoint) (id : NodeId)
    (marker : VersionMarker) :
    (blocks set.members[id]? marker || blocks set.removed[id]? marker) = true ↔
      ¬ Newer set.table id marker := by
  have hid := h id
  unfold Newer table
  cases hm : set.members[id]? with
  | some m =>
    have hr : set.removed[id]? = none := hid.resolve_left (by simp [hm])
    simp [hr]
  | none => cases set.removed[id]? <;> simp

end SetState

/-- Markers above a baseline and a tombstone. -/
def Above (baseline : VersionMarker) (tombstone : Option VersionMarker) (marker : VersionMarker) :
    Prop :=
  baseline < marker ∧ blocks tombstone marker = false

/-- The member operations of a set of operations, as writes. -/
def memberWrites (ops : Set SlotOp) : Set MemberWrite :=
  {w | (⟨w.stamp, .member w.value w.key⟩ : SlotOp) ∈ ops}

/-- A slot holding a set whose table records the writes `E`, none above its version. -/
def Slot.HoldsSet (slot : Slot) (baseline : VersionMarker) (tombstone : Option VersionMarker)
    (version : VersionMarker) (E : Set MemberWrite) : Prop :=
  ∃ set : SetState, slot = ⟨some ⟨.set set, version⟩, tombstone⟩ ∧ set.baseline = baseline ∧
    set.Disjoint ∧ Records set.table E ∧ ∀ w ∈ E, w.stamp ≤ version

namespace Slot

variable {slot : Slot} {baseline version : VersionMarker} {tombstone : Option VersionMarker}
  {E : Set MemberWrite}

/-- A started set holds its first write. -/
theorem startSet_holdsSet (slot : Slot) (baseline : VersionMarker) (present : Bool) (id : NodeId)
    (marker : VersionMarker) :
    (slot.startSet baseline present id marker).HoldsSet baseline slot.tombstone marker
      {⟨marker, id, present⟩} := by
  refine ⟨_, rfl, SetState.record_baseline _ _ _ _,
    (SetState.empty_disjoint baseline).record present id marker, ?_, ?_⟩
  · rw [SetState.record_table, SetState.empty_table]
    have h := records_empty.update (w := (⟨marker, id, present⟩ : MemberWrite))
      fun e he => by simp at he
    rwa [insert_empty_eq] at h
  · rintro w rfl
    exact le_rfl

/-- A member operation at or below the floor changes nothing. -/
theorem HoldsSet.apply_below (h : slot.HoldsSet baseline tombstone version E) (present : Bool)
    (id : NodeId) {m : VersionMarker} (hm : ¬ Above baseline tombstone m) :
    slot.apply ⟨m, .member present id⟩ = slot := by
  obtain ⟨set, rfl, rfl, -, -, -⟩ := h
  simp only [Above, not_and, Bool.not_eq_false] at hm
  simp only [apply]
  split
  · rfl
  · rename_i ht
    have hb : m ≤ set.baseline := by
      by_contra hlt
      exact ht (hm (not_le.mp hlt))
    simp [hb]

/-- A member operation above the floor is taken in as one write. -/
theorem HoldsSet.apply_above (h : slot.HoldsSet baseline tombstone version E) (present : Bool)
    (id : NodeId) {marker : VersionMarker} (hm : Above baseline tombstone marker) :
    (slot.apply ⟨marker, .member present id⟩).HoldsSet baseline tombstone (max version marker)
      (insert ⟨marker, id, present⟩ E) := by
  obtain ⟨set, rfl, rfl, hd, hr, hv⟩ := h
  obtain ⟨hb, ht⟩ := hm
  have hbound : ∀ w ∈ insert (⟨marker, id, present⟩ : MemberWrite) E,
      w.stamp ≤ max version marker := by
    rintro w (rfl | hw)
    · exact le_max_right _ _
    · exact (hv w hw).trans (le_max_left _ _)
  simp only [apply, ht, Bool.false_eq_true, if_false, not_le.mpr hb, decide_false, Bool.false_or]
  by_cases hn : Newer set.table id marker
  · have hblock := mt (hd.entry_blocks_iff id marker).mp (not_not.mpr hn)
    rw [if_neg hblock]
    refine ⟨_, rfl, SetState.record_baseline _ _ _ _, hd.record _ _ _, ?_, hbound⟩
    rw [SetState.record_table]
    exact hr.update (w := (⟨marker, id, present⟩ : MemberWrite)) hn
  · rw [if_pos ((hd.entry_blocks_iff id marker).mpr hn)]
    have hle : marker ≤ version := by
      simp only [Newer, not_forall, not_lt] at hn
      obtain ⟨e, he, hle⟩ := hn
      exact hle.trans (hv _ (hr.2 id e.1 e.2 he).1)
    refine ⟨set, by rw [max_eq_left hle], rfl, hd, ?_, hbound⟩
    exact hr.ignore (w := (⟨marker, id, present⟩ : MemberWrite)) hn

/-- A set at least as new as a reset refuses it. -/
theorem HoldsSet.apply_reset (h : slot.HoldsSet baseline tombstone version E) {op : SlotOp}
    (hop : ∀ present id, op.action ≠ .member present id) (hle : op.marker ≤ version) :
    slot.apply op = slot := by
  obtain ⟨set, rfl, -, -, -, -⟩ := h
  obtain ⟨marker, action⟩ := op
  cases action with
  | member present id => exact absurd rfl (hop present id)
  | _ => simp_all [apply, blocksReset]

/-- Delivering operations no newer than the set takes in their writes above the floor. -/
theorem HoldsSet.run (h : slot.HoldsSet baseline tombstone version E) {ops : List SlotOp}
    (hle : ∀ op ∈ ops, op.marker ≤ version) :
    (slot.run ops).HoldsSet baseline tombstone version
      (E ∪ {w ∈ memberWrites {op | op ∈ ops} | Above baseline tombstone w.stamp}) := by
  induction ops generalizing slot E with
  | nil =>
    have he : {w ∈ memberWrites {op | op ∈ ([] : List SlotOp)} |
        Above baseline tombstone w.stamp} = ∅ := by simp [memberWrites]
    rwa [he, Set.union_empty]
  | cons op ops ih =>
    have hop : op.marker ≤ version := hle op List.mem_cons_self
    have hops : ∀ o ∈ ops, o.marker ≤ version := fun o ho => hle o (List.mem_cons_of_mem _ ho)
    obtain ⟨marker, action⟩ := op
    by_cases hmem : ∃ present id, action = .member present id ∧ Above baseline tombstone marker
    · obtain ⟨present, id, rfl, habove⟩ := hmem
      have hstep := h.apply_above present id habove
      rw [max_eq_left hop] at hstep
      refine cast (congrArg _ (Set.ext ?_)) (ih hstep hops)
      rintro ⟨stamp, key, value⟩
      simp only [memberWrites, Set.mem_union, Set.mem_ofPred_eq, Set.mem_insert_iff, List.mem_cons,
        SlotOp.mk.injEq, SlotAction.member.injEq, Write.mk.injEq]
      constructor
      · rintro ((⟨rfl, rfl, rfl⟩ | he) | ⟨hin, ha⟩)
        · exact Or.inr ⟨Or.inl ⟨rfl, rfl, rfl⟩, habove⟩
        · exact Or.inl he
        · exact Or.inr ⟨Or.inr hin, ha⟩
      · rintro (he | ⟨⟨rfl, rfl, rfl⟩ | hin, ha⟩)
        · exact Or.inl (Or.inr he)
        · exact Or.inl (Or.inl ⟨rfl, rfl, rfl⟩)
        · exact Or.inr ⟨hin, ha⟩
    · have hstep : slot.apply ⟨marker, action⟩ = slot := by
        cases action with
        | member present id => exact h.apply_below present id fun ha => hmem ⟨present, id, rfl, ha⟩
        | _ => exact h.apply_reset (by simp) hop
      have hrun := ih h hops
      have heq : slot.run (⟨marker, action⟩ :: ops) = slot.run ops := by
        simp only [Slot.run, List.foldl_cons, hstep]
      rw [heq]
      convert hrun using 2
      ext ⟨stamp, key, value⟩
      simp only [memberWrites, Set.mem_ofPred_eq, List.mem_cons, SlotOp.mk.injEq]
      constructor
      · rintro ⟨⟨rfl, rfl⟩ | hin, ha⟩
        · exact absurd ⟨value, key, rfl, ha⟩ hmem
        · exact ⟨hin, ha⟩
      · rintro ⟨hin, ha⟩
        exact ⟨Or.inr hin, ha⟩

end Slot

end Primadb

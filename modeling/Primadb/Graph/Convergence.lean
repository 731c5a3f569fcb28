import Primadb.Graph.Origin

/-!
# When delivery order does not matter

Two complete deliveries of one history leave the same visible slot exactly when
no reset of the history can swallow or keep a member against the newest
operation on that member. The sufficient direction reads the final slot off its
origin; the necessary direction delivers the reset first, so that the slot
starts from it.
-/

namespace Primadb

open LastWriter

/-- What a reader sees of a field: its value without markers. -/
inductive VisibleValue where
  | scalar (value : JsonValue)
  | bytes (value : BinaryBytes)
  | blob (reference : BlobRef)
  | link (target : NodeId)
  | set (members : List NodeId)
  deriving DecidableEq

/-- The visible part of a field value. -/
def FieldValue.visible : FieldValue → VisibleValue
  | .scalar value => .scalar value
  | .bytes value => .bytes value
  | .blob reference => .blob reference
  | .link target => .link target
  | .set state => .set state.members.keys

/-- The visible part of a slot. -/
def Slot.visible (slot : Slot) : Option VisibleValue :=
  slot.field.map fun state => state.value.visible

/-- The members are those written last. -/
theorem SetState.mem_members_iff {set : SetState} {E : Set MemberWrite}
    (hr : Records set.table E) (hc : Consistent E) (id : NodeId) :
    id ∈ set.members ↔ Latest E id true := by
  rw [← hr.exists_iff_latest hc, Std.ExtTreeMap.mem_iff_isSome_getElem?,
    Option.isSome_iff_exists]
  exact exists_congr fun m => set.members_eq_some_iff id m

/-- Two set slots look alike exactly when the same ids have an add as latest write. -/
theorem Slot.HoldsSet.visible_eq_iff {s s' : Slot} {b b' v v' : VersionMarker}
    {t t' : Option VersionMarker} {E E' : Set MemberWrite} (h : s.HoldsSet b t v E)
    (h' : s'.HoldsSet b' t' v' E') (hc : Consistent E) (hc' : Consistent E') :
    s.visible = s'.visible ↔ ∀ id, Latest E id true ↔ Latest E' id true := by
  obtain ⟨set, rfl, -, -, hr, -⟩ := h
  obtain ⟨set', rfl, -, -, hr', -⟩ := h'
  simp only [Slot.visible, Option.map_some, FieldValue.visible, Option.some.injEq,
    VisibleValue.set.injEq]
  constructor
  · intro hk id
    rw [← set.mem_members_iff hr hc, ← set'.mem_members_iff hr' hc', ← Std.ExtTreeMap.mem_keys,
      ← Std.ExtTreeMap.mem_keys, hk]
  · intro h
    refine BTreeMap.keys_eq_of_mem_iff fun id => ?_
    rw [set.mem_members_iff hr hc, set'.mem_members_iff hr' hc']
    exact h id

namespace SlotHistory

variable (H : SlotHistory)

/-- The member operations of the history. -/
def writes : Set MemberWrite := memberWrites H.ops

/-- A reset that cannot change which members the newest member operations leave. A delete is
below every add that is the latest word on its member. An assigned set lists exactly the members
that are present by the member operations alone, among those never named after it. A plain value
has no add above it that exceeds the latest add of a present member; and if a removal is above it,
every member ever added is named again above it. -/
def Harmless (r : SlotOp) : Prop :=
  match r.action with
  | .delete => ∀ w, IsLatest H.writes w → w.value = true → r.marker < w.stamp
  | .assign (.set ids) =>
    ∀ id, (∀ w ∈ H.writes, w.key = id → w.stamp < r.marker) → (id ∈ ids ↔ Latest H.writes id true)
  | .assign _ =>
    (∀ a ∈ H.writes, a.value = true → r.marker < a.stamp →
      ∀ w, IsLatest H.writes w → w.value = true → a.stamp ≤ w.stamp) ∧
    (∀ d ∈ H.writes, d.value = false → r.marker < d.stamp →
      ∀ a ∈ H.writes, a.value = true → ∃ w ∈ H.writes, w.key = a.key ∧ r.marker < w.stamp)
  | .member _ _ => True

/-- The newest operation is a reset, or every reset is harmless. -/
def Settled : Prop :=
  ∀ top ∈ H.ops, (∀ op ∈ H.ops, op.marker ≤ top.marker) → ¬ top.IsReset →
    ∀ r ∈ H.ops, r.IsReset → H.Harmless r

/-- A sequence that delivers every operation of the history, and nothing else. -/
def Delivers (ops : List SlotOp) : Prop := ∀ op, op ∈ ops ↔ op ∈ H.ops

variable {H}

/-- The condition on plain assignments, unfolded. -/
theorem harmless_of_isPlain {r : SlotOp} (hr : r.IsPlain) :
    H.Harmless r ↔
      (∀ a ∈ H.writes, a.value = true → r.marker < a.stamp →
        ∀ w, IsLatest H.writes w → w.value = true → a.stamp ≤ w.stamp) ∧
      (∀ d ∈ H.writes, d.value = false → r.marker < d.stamp →
        ∀ a ∈ H.writes, a.value = true → ∃ w ∈ H.writes, w.key = a.key ∧ r.marker < w.stamp) := by
  obtain ⟨marker, action⟩ := r
  obtain ⟨value, rfl, hv⟩ := hr
  cases value with
  | set ids => exact absurd rfl (hv ids)
  | _ => rfl

variable {t : Option VersionMarker} {E : Set MemberWrite} {b : VersionMarker}

/-- The writes a set of this origin accounts for are consistent. -/
theorem origin_consistent (h : Origin H.ops b t E) : Consistent E := by
  have hW : Consistent (memberWrites H.ops) := H.consistent
  cases h with
  | fresh => exact hW
  | deleted => exact hW.mono fun w hw => hw.1
  | grown => exact hW.mono fun w hw => hw.1
  | shrunk _ _ _ _ _ _ hhi => exact hW.mono hhi
  | assigned =>
    rintro v (hv | hv) w (hw | hw) hk hs
    · rw [hv.2.1, hw.2.1]
    · exact absurd (hv.1 ▸ hs ▸ hw.2) (lt_irrefl _)
    · exact absurd (hw.1 ▸ hs ▸ hv.2) (lt_irrefl _)
    · exact hW v hv.1 w hw.1 hk hs

/-- Members never named after an assigned list are those of the list. -/
theorem latest_assigned_iff {ids : List NodeId} {id : NodeId}
    (hlow : ∀ w ∈ H.writes, w.key = id → w.stamp < b) :
    Latest (listedWrites b ids ∪ {w ∈ memberWrites H.ops | b < w.stamp}) id true ↔ id ∈ ids := by
  constructor
  · rintro ⟨m, hm | hm, -⟩
    · exact hm.2.2
    · exact absurd (hlow _ hm.1 rfl) (not_lt.mpr hm.2.le)
  · intro hid
    refine ⟨b, Or.inl ⟨rfl, rfl, hid⟩, ?_⟩
    rintro w (hw | hw) hk
    · exact hw.1.le
    · exact absurd (hlow w hw.1 hk) (not_lt.mpr hw.2.le)

private theorem stamp_ne {r : SlotOp} (hr : r ∈ H.ops) (hreset : r.IsReset) {w : MemberWrite}
    (hw : w ∈ H.writes) : w.stamp ≠ r.marker := by
  intro he
  have heq : (⟨w.stamp, .member w.value w.key⟩ : SlotOp) = r := H.distinct _ hw _ hr he
  exact hreset w.value w.key (heq ▸ rfl)

/-- A set of harmless origin has the members of the newest member operations. -/
theorem latest_origin_iff (h : Origin H.ops b t E) (hh : ∀ r ∈ H.ops, r.IsReset → H.Harmless r)
    (id : NodeId) :
    Latest E id true ↔ Latest H.writes id true := by
  cases h with
  | fresh => rfl
  | @deleted t ht =>
    have hdel : H.Harmless ⟨t, .delete⟩ := hh _ ht (by simp [SlotOp.IsReset])
    refine exists_congr fun m => ?_
    rw [isLatest_sep_iff (P := (t < ·)) fun _ _ => lt_of_lt_of_le]
    exact ⟨And.left, fun hm => ⟨hm, hdel _ hm rfl⟩⟩
  | @assigned b ids hb =>
    have hset : H.Harmless ⟨b, .assign (.set ids)⟩ := hh _ hb (by simp [SlotOp.IsReset])
    by_cases hex : ∃ w ∈ H.writes, w.key = id ∧ b < w.stamp
    · refine (latest_congr_above (m := b) (fun w hk hs => ?_) hex true).symm
      constructor
      · exact fun hw => Or.inr ⟨hw, hs⟩
      · rintro (hw | hw)
        · exact absurd hw.1 hs.ne'
        · exact hw.1
    · have hlow : ∀ w ∈ H.writes, w.key = id → w.stamp < b := by
        intro w hw hk
        refine lt_of_le_of_ne (not_lt.mp fun hs => hex ⟨w, hw, hk, hs⟩) ?_
        exact stamp_ne hb (by simp [SlotOp.IsReset]) hw
      rw [latest_assigned_iff hlow]
      exact hset id hlow
  | @grown r hr hp a ha hv hlt =>
    have hplain := (harmless_of_isPlain hp).mp (hh r hr hp.isReset)
    refine exists_congr fun m => ?_
    rw [isLatest_sep_iff (P := (a.stamp ≤ ·)) fun _ _ => le_trans]
    exact ⟨And.left, fun hm => ⟨hm, hplain.1 a ha hv hlt _ hm rfl⟩⟩
  | @shrunk r hr hp d hd hv hlt E hlo hhi =>
    have hplain := (harmless_of_isPlain hp).mp (hh r hr hp.isReset)
    by_cases hex : ∃ w ∈ H.writes, w.key = id ∧ r.marker < w.stamp
    · refine (latest_congr_above (m := r.marker) (fun w hk hs => ?_) hex true).symm
      exact ⟨fun hw => hlo w hw hs, fun hw => hhi hw⟩
    · have hnone : ∀ m, (⟨m, id, true⟩ : MemberWrite) ∉ H.writes :=
        fun m hm => hex (hplain.2 d hd hv hlt _ hm rfl)
      constructor
      · rintro ⟨m, hm, -⟩
        exact absurd (hhi hm) (hnone m)
      · rintro ⟨m, hm, -⟩
        exact absurd hm (hnone m)

/-- A delivered slot is explained by its history. -/
theorem Delivers.explained {ops : List SlotOp} (h : H.Delivers ops) :
    Explained H.ops (Slot.empty.run ops) := by
  have hrun := Explained.of_run (H := H) fun op hop => (h op).mp hop
  have hset : {op | op ∈ ops} = H.ops := Set.ext h
  rwa [hset] at hrun

/-- A settled history looks alike after every delivery. -/
theorem Settled.visible_eq (hs : H.Settled) {s t : Slot} (h : Explained H.ops s)
    (h' : Explained H.ops t) : s.visible = t.visible := by
  cases h with
  | blank hD hs =>
    cases h' with
    | blank _ ht => rw [hs, ht]
    | reset hr => exact absurd hr (by simp [hD])
    | set _ _ htop =>
      obtain ⟨p, i, hmem⟩ := htop
      exact absurd hmem (by simp [hD])
  | @reset r hr hreset hmax hsr =>
    cases h' with
    | blank hD => exact absurd hr (by simp [hD])
    | @reset r' hr' hreset' hmax' hsr' =>
      have heq : r = r' := H.distinct _ hr _ hr' (le_antisymm (hmax' r hr) (hmax r' hr'))
      rw [hsr, hsr', heq]
    | set _ _ htop hmax' =>
      obtain ⟨p, i, hmem⟩ := htop
      have heq := H.distinct _ hmem _ hr (le_antisymm (hmax _ hmem) (hmax' r hr))
      exact absurd (heq ▸ rfl) (hreset p i)
  | set hset ho htop hmax =>
    obtain ⟨p, i, hmem⟩ := htop
    cases h' with
    | blank hD => exact absurd hmem (by simp [hD])
    | @reset r hr hreset hmax' hsr =>
      have heq := H.distinct _ hmem _ hr (le_antisymm (hmax' _ hmem) (hmax r hr))
      exact absurd (heq ▸ rfl) (hreset p i)
    | set hset' ho' _ _ =>
      have hh := hs _ hmem hmax fun hreset => hreset p i rfl
      rw [hset.visible_eq_iff hset' (origin_consistent ho) (origin_consistent ho')]
      intro id
      rw [latest_origin_iff ho hh, latest_origin_iff ho' hh]

/-- The operations of the history in some order. -/
noncomputable def all (H : SlotHistory) : List SlotOp := H.finite.toFinset.toList

@[simp] theorem mem_all {op : SlotOp} : op ∈ H.all ↔ op ∈ H.ops := by simp [all]

/-- Delivering a prefix first and everything afterwards is a delivery. -/
theorem delivers_append_all {pre : List SlotOp} (h : ∀ op ∈ pre, op ∈ H.ops) :
    H.Delivers (pre ++ H.all) := by
  intro op
  rw [List.mem_append, mem_all]
  exact ⟨fun hop => hop.elim (h op) id, Or.inr⟩

/-- A set as new as the history takes in all its writes above the floor. -/
theorem holdsSet_run_all {slot : Slot} {b v : VersionMarker} (h : slot.HoldsSet b t v E)
    (hmax : ∀ op ∈ H.ops, op.marker ≤ v) {F : Set MemberWrite}
    (hF : ∀ w, w ∈ F ↔ w ∈ E ∨ w ∈ H.writes ∧ Above b t w.stamp) :
    (slot.run H.all).HoldsSet b t v F := by
  have hset : F = E ∪ {w ∈ memberWrites {op | op ∈ H.all} | Above b t w.stamp} := by
    ext w
    rw [hF, writes]
    simp [memberWrites]
  rw [hset]
  exact h.run fun op hop => hmax op (mem_all.mp hop)

section Necessity

variable {m : VersionMarker} {p : Bool} {x : NodeId}

/-- Delivering the newest member operation first makes the set record every write. -/
theorem holdsSet_top_first (htop : ⟨m, .member p x⟩ ∈ H.ops)
    (hmax : ∀ op ∈ H.ops, op.marker ≤ m) :
    (Slot.empty.run ([⟨m, .member p x⟩] ++ H.all)).HoldsSet zeroMarker none m H.writes := by
  have hstart := Slot.empty.startSet_holdsSet zeroMarker p x m
  refine holdsSet_run_all hstart hmax fun w => ?_
  constructor
  · exact fun hw => Or.inr ⟨hw, H.positive hw, rfl⟩
  · rintro (rfl | ⟨hw, -⟩)
    · exact htop
    · exact hw

/-- Delivering a delete first loses the writes below it. -/
theorem holdsSet_delete_first {t : VersionMarker} (htop : ⟨m, .member p x⟩ ∈ H.ops)
    (hmax : ∀ op ∈ H.ops, op.marker ≤ m) (hlt : t < m) :
    (Slot.empty.run ([⟨t, .delete⟩, ⟨m, .member p x⟩] ++ H.all)).HoldsSet zeroMarker (some t) m
      {w ∈ H.writes | t < w.stamp} := by
  have hstart := Slot.startSet_holdsSet ⟨none, some t⟩ zeroMarker p x m
  have hrun : Slot.empty.run ([⟨t, .delete⟩, ⟨m, .member p x⟩] ++ H.all) =
      (Slot.startSet ⟨none, some t⟩ zeroMarker p x m).run H.all := by
    rw [← result_delete_apply_member hlt]
    rfl
  rw [hrun]
  refine holdsSet_run_all hstart hmax fun w => ?_
  constructor
  · rintro ⟨hw, hs⟩
    exact Or.inr ⟨hw, H.positive hw, by simpa using hs⟩
  · rintro (rfl | ⟨hw, -, hs⟩)
    · exact ⟨htop, hlt⟩
    · exact ⟨hw, by simpa using hs⟩

/-- Delivering an assigned set first keeps its list and loses the writes below it. -/
theorem holdsSet_assign_first {b : VersionMarker} {ids : List NodeId}
    (htop : ⟨m, .member p x⟩ ∈ H.ops) (hmax : ∀ op ∈ H.ops, op.marker ≤ m) (hlt : b < m) :
    (Slot.empty.run ([⟨b, .assign (.set ids)⟩, ⟨m, .member p x⟩] ++ H.all)).HoldsSet b none m
      (listedWrites b ids ∪ {w ∈ memberWrites H.ops | b < w.stamp}) := by
  have hstep := (result_assign_holdsSet b ids).apply_above p x ⟨hlt, rfl⟩
  rw [max_eq_right hlt.le] at hstep
  refine holdsSet_run_all hstep hmax fun w => ?_
  constructor
  · rintro (hw | ⟨hw, hs⟩)
    · exact Or.inl (Or.inr hw)
    · exact Or.inr ⟨hw, hs, rfl⟩
  · rintro ((rfl | hw) | ⟨hw, hs, -⟩)
    · exact Or.inr ⟨htop, hlt⟩
    · exact Or.inl hw
    · exact Or.inr ⟨hw, hs⟩

variable {r : SlotOp}

/-- Delivering a plain value and then an add loses the writes below the add. -/
theorem holdsSet_grow_first (hp : r.IsPlain) {a : MemberWrite} (ha : a ∈ H.writes)
    (hv : a.value = true) (hra : r.marker < a.stamp) (htop : ⟨m, .member p x⟩ ∈ H.ops)
    (hmax : ∀ op ∈ H.ops, op.marker ≤ m) :
    (Slot.empty.run ([r, ⟨a.stamp, .member a.value a.key⟩, ⟨m, .member p x⟩] ++ H.all)).HoldsSet
      a.stamp none m {w ∈ H.writes | a.stamp ≤ w.stamp} := by
  have hstart := hp.result_apply_member a.value a.key hra
  have ham : a.stamp ≤ m := hmax _ ha
  have hbase : conversionBaseline a.value a.stamp = a.stamp := by simp [conversionBaseline, hv]
  rw [hbase] at hstart
  have hrun : ∀ {E}, ((r.result.apply ⟨a.stamp, .member a.value a.key⟩).apply
      ⟨m, .member p x⟩).HoldsSet a.stamp none m E →
      (∀ w, w ∈ E ↔ w = a ∨ w = ⟨m, x, p⟩) →
      (Slot.empty.run ([r, ⟨a.stamp, .member a.value a.key⟩, ⟨m, .member p x⟩] ++ H.all)).HoldsSet
        a.stamp none m {w ∈ H.writes | a.stamp ≤ w.stamp} := by
    intro E hE hmem
    refine holdsSet_run_all hE hmax fun w => ?_
    rw [hmem]
    constructor
    · rintro ⟨hw, hs⟩
      rcases hs.lt_or_eq with hs | hs
      · exact Or.inr ⟨hw, hs, rfl⟩
      · refine Or.inl (Or.inl ?_)
        have heq := H.distinct _ hw _ ha hs.symm
        simp only [SlotOp.mk.injEq, SlotAction.member.injEq] at heq
        exact Write.ext heq.1 heq.2.2 heq.2.1
    · rintro ((rfl | rfl) | ⟨hw, hs, -⟩)
      · exact ⟨ha, le_rfl⟩
      · exact ⟨htop, ham⟩
      · exact ⟨hw, hs.le⟩
  rcases ham.lt_or_eq with hlt | heq
  · have hstep := hstart.apply_above p x ⟨hlt, rfl⟩
    rw [max_eq_right hlt.le] at hstep
    refine hrun hstep fun w => ?_
    simp only [Set.mem_insert_iff, Set.mem_singleton_iff]
    exact or_comm
  · have hsame := H.distinct _ ha _ htop heq
    have hbelow := hstart.apply_below p x (m := m) fun h => absurd h.1 (by simp [heq])
    subst heq
    simp only [SlotOp.mk.injEq, SlotAction.member.injEq, true_and] at hsame
    obtain ⟨rfl, rfl⟩ := hsame
    refine hrun (by rw [hbelow]; exact hstart) fun w => ?_
    simp

/-- Delivering some operations, then a newer plain value and then a removal loses what was
delivered before. -/
theorem holdsSet_shrink_first (hp : r.IsPlain) {pre : List SlotOp}
    (hpre : ∀ op ∈ pre, op ∈ H.ops ∧ op.marker < r.marker) {d : MemberWrite} (hd : d ∈ H.writes)
    (hv : d.value = false) (hrd : r.marker < d.stamp) (htop : ⟨m, .member p x⟩ ∈ H.ops)
    (hmax : ∀ op ∈ H.ops, op.marker ≤ m) {post : List SlotOp} (hpost : ∀ op ∈ post, op ∈ H.ops) :
    (Slot.empty.run (pre ++ [r, ⟨d.stamp, .member d.value d.key⟩, ⟨m, .member p x⟩] ++
      post)).HoldsSet zeroMarker none m
        ({⟨m, x, p⟩, d} ∪ {w ∈ memberWrites {op | op ∈ post} | Above zeroMarker none w.stamp}) := by
  have hstart := hp.result_apply_member d.value d.key hrd
  have hbase : conversionBaseline d.value d.stamp = zeroMarker := by simp [conversionBaseline, hv]
  rw [hbase] at hstart
  have hstep := hstart.apply_above p x ⟨H.positive htop, rfl⟩
  rw [max_eq_right (hmax _ hd)] at hstep
  have hreset : (Slot.empty.run pre).apply r = r.result :=
    (Explained.of_run (H := H) fun op hop => (hpre op hop).1).apply_newest_reset hp.isReset
      fun op hop => (hpre op hop).2
  have hrun : Slot.empty.run (pre ++ [r, ⟨d.stamp, .member d.value d.key⟩, ⟨m, .member p x⟩] ++
      post) = ((r.result.apply ⟨d.stamp, .member d.value d.key⟩).apply ⟨m, .member p x⟩).run
        post := by
    rw [← hreset]
    simp [Slot.run, List.foldl_append]
  rw [hrun]
  exact hstep.run fun op hop => hmax op (hpost op hop)

/-- With a removal above it, a plain value lets the delivery choose which of the older operations
on a member are kept. -/
private theorem exists_delivery_keeping (hr : r ∈ H.ops) (hp : r.IsPlain) {d : MemberWrite}
    (hd : d ∈ H.writes) (hv : d.value = false) (hrd : r.marker < d.stamp)
    (htop : ⟨m, .member p x⟩ ∈ H.ops) (hmax : ∀ op ∈ H.ops, op.marker ≤ m) {k : NodeId}
    (hold : ∀ w ∈ H.writes, w.key = k → w.stamp ≤ r.marker) (kept : List SlotOp)
    (hkept : ∀ op ∈ kept, op ∈ H.ops) :
    ∃ s E, H.Delivers s ∧ (Slot.empty.run s).HoldsSet zeroMarker none m E ∧ Consistent E ∧
      ∀ w : MemberWrite, w.key = k → (w ∈ E ↔ w ∈ memberWrites {op | op ∈ kept}) := by
  classical
  let named : SlotOp → Prop := fun op => ∃ present, op.action = .member present k
  let pre := H.all.filter fun op => named op
  let post := H.all.filter (fun op => ¬ named op) ++ kept
  have hpre : ∀ op ∈ pre, op ∈ H.ops ∧ op.marker < r.marker := by
    intro op hop
    obtain ⟨hall, hnamed⟩ := List.mem_filter.mp hop
    obtain ⟨present, hact⟩ := of_decide_eq_true hnamed
    have hw : (⟨op.marker, k, present⟩ : MemberWrite) ∈ H.writes := by
      show (⟨op.marker, .member present k⟩ : SlotOp) ∈ H.ops
      rw [← hact]
      exact mem_all.mp hall
    exact ⟨mem_all.mp hall, lt_of_le_of_ne (hold _ hw rfl) (stamp_ne hr hp.isReset hw)⟩
  have hpost : ∀ op ∈ post, op ∈ H.ops := by
    intro op hop
    rcases List.mem_append.mp hop with hop | hop
    · exact mem_all.mp (List.mem_filter.mp hop).1
    · exact hkept op hop
  refine ⟨_, _, fun op => ⟨fun hop => ?_, fun hop => ?_⟩,
    holdsSet_shrink_first hp hpre hd hv hrd htop hmax hpost, ?_, fun w hk => ?_⟩
  · simp only [List.mem_append, List.mem_cons, List.not_mem_nil, or_false] at hop
    rcases hop with (hop | rfl | rfl | rfl) | hop
    · exact (hpre op hop).1
    · exact hr
    · exact hd
    · exact htop
    · exact hpost op hop
  · by_cases hnamed : named op
    · exact List.mem_append_left _ (List.mem_append_left _
        (List.mem_filter.mpr ⟨mem_all.mpr hop, decide_eq_true hnamed⟩))
    · exact List.mem_append_right _ (List.mem_append_left _
        (List.mem_filter.mpr ⟨mem_all.mpr hop, decide_eq_true hnamed⟩))
  · refine Consistent.mono (F := H.writes) H.consistent ?_
    rintro w ((rfl | rfl) | ⟨hw, -⟩)
    · exact htop
    · exact hd
    · exact hpost _ hw
  · have hnew : ∀ v ∈ H.writes, r.marker < v.stamp → w ≠ v := by
      rintro v hvm hs rfl
      exact absurd (hold w hvm hk) (not_le.mpr hs)
    constructor
    · rintro ((rfl | rfl) | ⟨hw, -⟩)
      · exact absurd rfl (hnew ⟨m, x, p⟩ htop (hrd.trans_le (hmax _ hd)))
      · exact absurd rfl (hnew w hd hrd)
      · refine (List.mem_append.mp hw).resolve_left fun hw => ?_
        exact absurd ⟨w.value, by rw [hk]⟩ (of_decide_eq_true (List.mem_filter.mp hw).2)
    · intro hw
      exact Or.inr ⟨List.mem_append_right _ hw, H.positive (hkept _ hw), rfl⟩

/-- Deliveries that keep only the writes of an upper set tell when a reset is harmless. -/
private theorem stamp_of_latest_sep {P : VersionMarker → Prop} (hP : ∀ m n, P m → m ≤ n → P n)
    (h : ∀ id, Latest {w ∈ H.writes | P w.stamp} id true ↔ Latest H.writes id true)
    {w : MemberWrite} (hw : IsLatest H.writes w) (hv : w.value = true) : P w.stamp := by
  have hlatest : Latest H.writes w.key true := ⟨w.stamp, hv ▸ hw⟩
  obtain ⟨n, hn⟩ := (h w.key).mpr hlatest
  rw [isLatest_sep_iff hP] at hn
  exact hw.stamp_eq hn.1 rfl ▸ hn.2

/-- A history all of whose deliveries look alike is settled. -/
theorem settled_of_visible_eq
    (h : ∀ s t, H.Delivers s → H.Delivers t →
      (Slot.empty.run s).visible = (Slot.empty.run t).visible) : H.Settled := by
  intro top htop hmax hmember r hr hreset
  obtain ⟨m, p, x, rfl⟩ := top.member_or_isReset.resolve_right hmember
  have hrm : r.marker < m :=
    lt_of_le_of_ne (hmax r hr) (stamp_ne hr hreset (w := ⟨m, x, p⟩) htop).symm
  have hcons : Consistent H.writes := H.consistent
  have hsame : ∀ {pre b t E}, (∀ op ∈ pre, op ∈ H.ops) → Consistent E →
      (Slot.empty.run (pre ++ H.all)).HoldsSet b t m E →
      ∀ id, Latest E id true ↔ Latest H.writes id true := by
    intro pre b t E hpre hE hrun
    refine (hrun.visible_eq_iff (holdsSet_top_first htop hmax) hE hcons).mp ?_
    exact h _ _ (delivers_append_all hpre) (delivers_append_all (by simpa using htop))
  have htwo : ∀ {q : SlotOp}, q ∈ H.ops → ∀ op ∈ [q, ⟨m, .member p x⟩], op ∈ H.ops := by
    intro q hq
    simpa using ⟨hq, htop⟩
  rcases hreset.cases with hdel | ⟨ids, hset⟩ | hplain
  · rw [hdel] at hr ⊢
    intro w hw hv
    refine stamp_of_latest_sep (P := (r.marker < ·)) (fun _ _ => lt_of_lt_of_le) ?_ hw hv
    exact hsame (htwo hr) (hcons.mono fun w hw => hw.1) (holdsSet_delete_first htop hmax hrm)
  · rw [hset] at hr ⊢
    intro id hlow
    rw [← latest_assigned_iff hlow]
    exact hsame (htwo hr) (origin_consistent (.assigned hr)) (holdsSet_assign_first htop hmax hrm)
      id
  · refine (harmless_of_isPlain hplain).mpr ⟨fun a ha hv hra w hw hwv => ?_,
      fun d hd hv hrd a ha hav => ?_⟩
    · refine stamp_of_latest_sep (P := (a.stamp ≤ ·)) (fun _ _ => le_trans) ?_ hw hwv
      refine hsame ?_ (hcons.mono fun w hw => hw.1) (holdsSet_grow_first hplain ha hv hra htop hmax)
      simpa using ⟨hr, ha, htop⟩
    · by_contra hnone
      push Not at hnone
      obtain ⟨s, E, hs, hrun, hE, hkey⟩ := exists_delivery_keeping hr hplain hd hv hrd htop hmax
        (k := a.key) hnone [] (by simp)
      obtain ⟨t, F, ht, hrun', hF, hkey'⟩ := exists_delivery_keeping hr hplain hd hv hrd htop hmax
        hnone [⟨a.stamp, .member true a.key⟩] (by simpa using hav ▸ ha)
      have hlatest : Latest F a.key true := by
        refine ⟨a.stamp, (hkey' ⟨a.stamp, a.key, true⟩ rfl).mpr (by simp [memberWrites]),
          fun w hw hk => ?_⟩
        have hmem := (hkey' w hk).mp hw
        simp only [memberWrites, List.mem_singleton, Set.mem_ofPred_eq, SlotOp.mk.injEq] at hmem
        exact hmem.1.le
      obtain ⟨n, hn, -⟩ := ((hrun.visible_eq_iff hrun' hE hF).mp (h s t hs ht) a.key).mpr hlatest
      exact absurd ((hkey ⟨n, a.key, true⟩ rfl).mp hn) (by simp [memberWrites])

end Necessity

end SlotHistory

end Primadb

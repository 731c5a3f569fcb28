import Primadb.Graph.SetState

/-!
# What a delivered history leaves in a slot

A reset is an assignment or a delete. A slot remembers the last reset it
accepted: if that is the newest operation delivered so far, the slot is exactly
the result of the reset; otherwise the slot holds a set that started from the
reset. The way it started decides which of the delivered member operations the
set still accounts for, and this is all that delivery order can influence.
-/

namespace Primadb

open LastWriter

namespace SlotOp

/-- An assignment or a delete. -/
def IsReset (op : SlotOp) : Prop := ∀ present id, op.action ≠ .member present id

/-- An assignment of a value that is not a set. -/
def IsPlain (op : SlotOp) : Prop := ∃ value, op.action = .assign value ∧ ∀ ids, value ≠ .set ids

theorem IsPlain.isReset {op : SlotOp} (h : op.IsPlain) : op.IsReset := by
  obtain ⟨value, h, -⟩ := h
  intro present id
  simp [h]

/-- The slot left by an accepted reset. -/
def result (op : SlotOp) : Slot := Slot.empty.apply op

/-- Every operation is a member operation or a reset. -/
theorem member_or_isReset (op : SlotOp) :
    (∃ marker present id, op = ⟨marker, .member present id⟩) ∨ op.IsReset := by
  obtain ⟨marker, action⟩ := op
  cases action with
  | member present id => exact Or.inl ⟨marker, present, id, rfl⟩
  | _ => exact Or.inr fun _ _ => by simp

/-- A reset deletes, assigns a set or assigns a plain value. -/
theorem IsReset.cases {op : SlotOp} (h : op.IsReset) :
    op = ⟨op.marker, .delete⟩ ∨ (∃ ids, op = ⟨op.marker, .assign (.set ids)⟩) ∨ op.IsPlain := by
  obtain ⟨marker, action⟩ := op
  cases action with
  | member present id => exact absurd rfl (h present id)
  | delete => exact Or.inl rfl
  | assign value =>
    cases value with
    | set ids => exact Or.inr (Or.inl ⟨ids, rfl⟩)
    | _ => exact Or.inr (Or.inr ⟨_, rfl, by simp⟩)

end SlotOp

private theorem Slot.apply_reset_refused {slot : Slot} {op : SlotOp} (hop : op.IsReset)
    (h : slot.blocksReset op.marker = true) : slot.apply op = slot := by
  obtain ⟨marker, action⟩ := op
  cases action with
  | member present id => exact absurd rfl (hop present id)
  | _ => simp_all [apply]

/-- An accepted reset leaves its own result. -/
theorem Slot.apply_reset_accepted {slot : Slot} {op : SlotOp} (hop : op.IsReset)
    (h : slot.blocksReset op.marker = false) : slot.apply op = op.result := by
  obtain ⟨marker, action⟩ := op
  cases action with
  | member present id => exact absurd rfl (hop present id)
  | _ => simp_all [apply, SlotOp.result, blocksReset, Slot.empty]

private theorem SlotOp.IsReset.result_blocksReset {op : SlotOp} (hop : op.IsReset)
    (marker : VersionMarker) : op.result.blocksReset marker = decide (marker ≤ op.marker) := by
  obtain ⟨m, action⟩ := op
  cases action with
  | member present id => exact absurd rfl (hop present id)
  | _ => simp [result, Slot.apply, Slot.blocksReset, Slot.empty]

/-- The result of a reset refuses older member operations. -/
theorem SlotOp.result_apply_older (r : SlotOp) (hr : r.IsReset) {marker : VersionMarker}
    {present : Bool} {id : NodeId} (hlt : marker < r.marker) :
    r.result.apply ⟨marker, .member present id⟩ = r.result := by
  obtain ⟨m, action⟩ := r
  cases action with
  | member present id => exact absurd rfl (hr present id)
  | delete => simp_all [result, Slot.apply, Slot.blocksReset, Slot.empty, hlt.le]
  | assign value =>
    cases value <;>
      simp_all [result, Slot.apply, Slot.blocksReset, Slot.empty, OperationValue.toFieldValue,
        hlt.le]

theorem result_delete_apply_member {t marker : VersionMarker} {present : Bool} {id : NodeId}
    (hlt : t < marker) :
    (SlotOp.result ⟨t, .delete⟩).apply ⟨marker, .member present id⟩ =
      Slot.startSet ⟨none, some t⟩ zeroMarker present id marker := by
  simp [SlotOp.result, Slot.apply, Slot.blocksReset, Slot.empty, not_le.mpr hlt]

/-- A plain value is converted into a set of one entry. -/
theorem SlotOp.IsPlain.result_apply_member {r : SlotOp} (hr : r.IsPlain) {marker : VersionMarker}
    (present : Bool) (id : NodeId) (hlt : r.marker < marker) :
    (r.result.apply ⟨marker, .member present id⟩).HoldsSet (conversionBaseline present marker)
      none marker {⟨marker, id, present⟩} := by
  have htomb : r.result.tombstone = none := by
    obtain ⟨rm, action⟩ := r
    obtain ⟨value, rfl, -⟩ := hr
    simp [SlotOp.result, Slot.apply, Slot.blocksReset, Slot.empty]
  have happly : r.result.apply ⟨marker, .member present id⟩ =
      r.result.startSet (conversionBaseline present marker) present id marker := by
    obtain ⟨rm, action⟩ := r
    obtain ⟨value, rfl, hv⟩ := hr
    cases value with
    | set ids => exact absurd rfl (hv ids)
    | _ => simp [SlotOp.result, Slot.apply, Slot.blocksReset, Slot.empty,
        OperationValue.toFieldValue, not_le.mpr hlt]
  rw [happly, ← htomb]
  exact r.result.startSet_holdsSet _ _ _ _

/-- The writes of an assigned list of members. -/
def listedWrites (marker : VersionMarker) (ids : List NodeId) : Set MemberWrite :=
  {w | w.stamp = marker ∧ w.value = true ∧ w.key ∈ ids}

private theorem foldl_insert_get (ids : List NodeId) (marker : VersionMarker)
    (map : BTreeMap NodeId VersionMarker) (id : NodeId) :
    (ids.foldl (fun map member => map.insert member marker) map)[id]? =
      if id ∈ ids then some marker else map[id]? := by
  induction ids generalizing map with
  | nil => simp
  | cons x xs ih =>
    rw [List.foldl_cons, ih]
    by_cases hx : id ∈ xs
    · simp [hx]
    · simp [hx, eq_comm (a := x)]

theorem result_assign_holdsSet (marker : VersionMarker) (ids : List NodeId) :
    (SlotOp.result ⟨marker, .assign (.set ids)⟩).HoldsSet marker none marker
      (listedWrites marker ids) := by
  refine ⟨_, rfl, rfl, fun id => by simp, ⟨fun id hid w hw => ?_, fun id m b hid => ?_⟩, ?_⟩
  · rintro rfl
    simp [SetState.table, foldl_insert_get, hw.2.2] at hid
  · have hmem : id ∈ ids ∧ marker = m ∧ true = b := by
      by_cases hin : id ∈ ids <;> simp_all [SetState.table, foldl_insert_get]
    obtain ⟨hin, rfl, rfl⟩ := hmem
    exact ⟨⟨rfl, rfl, hin⟩, fun w hw _ => hw.1.le⟩
  · exact fun w hw => hw.1.le

/-- The set state of a slot began in one of five ways; each accounts for some of the
delivered member operations. -/
inductive Origin (D : Set SlotOp) :
    VersionMarker → Option VersionMarker → Set MemberWrite → Prop
  | fresh : Origin D zeroMarker none (memberWrites D)
  | deleted {t : VersionMarker} (ht : ⟨t, .delete⟩ ∈ D) :
      Origin D zeroMarker (some t) {w ∈ memberWrites D | t < w.stamp}
  | assigned {b : VersionMarker} {ids : List NodeId} (hb : ⟨b, .assign (.set ids)⟩ ∈ D) :
      Origin D b none (listedWrites b ids ∪ {w ∈ memberWrites D | b < w.stamp})
  | grown {r : SlotOp} (hr : r ∈ D) (hp : r.IsPlain) {a : MemberWrite} (ha : a ∈ memberWrites D)
      (hv : a.value = true) (hlt : r.marker < a.stamp) :
      Origin D a.stamp none {w ∈ memberWrites D | a.stamp ≤ w.stamp}
  | shrunk {r : SlotOp} (hr : r ∈ D) (hp : r.IsPlain) {d : MemberWrite} (hd : d ∈ memberWrites D)
      (hv : d.value = false) (hlt : r.marker < d.stamp) {E : Set MemberWrite}
      (hlo : ∀ w ∈ memberWrites D, r.marker < w.stamp → w ∈ E) (hhi : E ⊆ memberWrites D) :
      Origin D zeroMarker none E

/-- A finite set of operations with distinct markers above the zero marker. -/
structure SlotHistory where
  /-- The operations. -/
  ops : Set SlotOp
  /-- There are finitely many. -/
  finite : ops.Finite
  /-- A marker belongs to one operation. -/
  distinct : ∀ a ∈ ops, ∀ b ∈ ops, a.marker = b.marker → a = b
  /-- No member operation carries the zero marker. -/
  positive : ∀ {marker present id}, (⟨marker, .member present id⟩ : SlotOp) ∈ ops →
    zeroMarker < marker

private theorem memberWrites_insert_member (D : Set SlotOp) (marker : VersionMarker)
    (present : Bool) (id : NodeId) :
    memberWrites (insert ⟨marker, .member present id⟩ D) =
      insert ⟨marker, id, present⟩ (memberWrites D) := by
  ext ⟨stamp, key, value⟩
  simp only [memberWrites, Set.mem_ofPred_eq, Set.mem_insert_iff, SlotOp.mk.injEq,
    SlotAction.member.injEq, Write.mk.injEq]
  tauto

private theorem memberWrites_insert_reset (D : Set SlotOp) {op : SlotOp} (hop : op.IsReset) :
    memberWrites (insert op D) = memberWrites D := by
  ext ⟨stamp, key, value⟩
  simp only [memberWrites, Set.mem_ofPred_eq, Set.mem_insert_iff, or_iff_right_iff_imp]
  rintro rfl
  exact absurd rfl (hop value key)

/-- The writes of fewer operations are fewer. -/
theorem memberWrites_mono {D F : Set SlotOp} (h : D ⊆ F) : memberWrites D ⊆ memberWrites F :=
  fun _ hw => h hw

/-- Operations with distinct markers write consistently. -/
theorem SlotHistory.consistent (H : SlotHistory) : Consistent (memberWrites H.ops) := by
  rintro ⟨m, k, v⟩ hv ⟨m', k', v'⟩ hw - rfl
  have h := H.distinct _ hv _ hw rfl
  simp only [SlotOp.mk.injEq, SlotAction.member.injEq] at h
  exact h.2.1

namespace Origin

variable {H : SlotHistory} {D : Set SlotOp} {baseline : VersionMarker}
  {tombstone : Option VersionMarker} {E : Set MemberWrite}

/-- A refused reset leaves the origin as it was. -/
theorem insert_reset (h : Origin D baseline tombstone E) {op : SlotOp} (hop : op.IsReset) :
    Origin (insert op D) baseline tombstone E := by
  have hw := memberWrites_insert_reset D hop
  cases h with
  | fresh => exact hw ▸ .fresh
  | deleted ht => exact hw ▸ .deleted (Or.inr ht)
  | assigned hb => exact hw ▸ .assigned (Or.inr hb)
  | grown hr hp ha hv hlt => exact hw ▸ .grown (Or.inr hr) hp (hw ▸ ha) hv hlt
  | shrunk hr hp hd hv hlt hlo hhi =>
    exact .shrunk (Or.inr hr) hp (hw ▸ hd) hv hlt (hw ▸ hlo) (hw ▸ hhi)

/-- A member operation above the floor joins the accounted writes. -/
theorem insert_above (h : Origin D baseline tombstone E) {marker : VersionMarker} {present : Bool}
    {id : NodeId} (hm : Above baseline tombstone marker) :
    Origin (insert ⟨marker, .member present id⟩ D) baseline tombstone
      (insert ⟨marker, id, present⟩ E) := by
  have hw := memberWrites_insert_member D marker present id
  have hsub := memberWrites_mono (Set.subset_insert (⟨marker, .member present id⟩ : SlotOp) D)
  have hsep : ∀ P : VersionMarker → Prop, P marker →
      insert (⟨marker, id, present⟩ : MemberWrite) {w ∈ memberWrites D | P w.stamp} =
        {w ∈ memberWrites (insert ⟨marker, .member present id⟩ D) | P w.stamp} := by
    intro P hP
    ext w
    simp only [hw, Set.mem_insert_iff, Set.mem_ofPred_eq]
    constructor
    · rintro (rfl | ⟨hw, hs⟩)
      · exact ⟨Or.inl rfl, hP⟩
      · exact ⟨Or.inr hw, hs⟩
    · rintro ⟨rfl | hw, hs⟩
      · exact Or.inl rfl
      · exact Or.inr ⟨hw, hs⟩
  cases h with
  | fresh => exact hw ▸ .fresh
  | deleted ht =>
    rw [hsep _ (by simpa using hm.2)]
    exact .deleted (Or.inr ht)
  | assigned hb =>
    rw [← Set.union_insert, hsep _ hm.1]
    exact .assigned (Or.inr hb)
  | grown hr hp ha hv hlt =>
    rw [hsep _ hm.1.le]
    exact .grown (Or.inr hr) hp (hsub ha) hv hlt
  | shrunk hr hp hd hv hlt hlo hhi =>
    refine .shrunk (Or.inr hr) hp (hsub hd) hv hlt (fun w hmem hs => ?_) ?_
    · rw [hw] at hmem
      exact hmem.imp (fun he => he) fun hmem => hlo w hmem hs
    · rw [hw]
      exact Set.insert_subset_insert hhi

/-- A member operation at or below the floor is not accounted for. -/
theorem insert_below (h : Origin D baseline tombstone E) (hD : D ⊆ H.ops)
    {marker : VersionMarker} {present : Bool} {id : NodeId}
    (hop : (⟨marker, .member present id⟩ : SlotOp) ∈ H.ops)
    (hm : ¬ Above baseline tombstone marker) :
    Origin (insert ⟨marker, .member present id⟩ D) baseline tombstone E := by
  have hw := memberWrites_insert_member D marker present id
  have hpos := H.positive hop
  have hsep : ∀ P : VersionMarker → Prop, ¬ P marker → {w ∈ memberWrites D | P w.stamp} =
      {w ∈ memberWrites (insert ⟨marker, .member present id⟩ D) | P w.stamp} := by
    intro P hP
    ext w
    simp only [hw, Set.mem_insert_iff, Set.mem_ofPred_eq]
    constructor
    · rintro ⟨hw, hs⟩
      exact ⟨Or.inr hw, hs⟩
    · rintro ⟨rfl | hw, hs⟩
      · exact absurd hs hP
      · exact ⟨hw, hs⟩
  cases h with
  | fresh => exact absurd ⟨hpos, rfl⟩ hm
  | deleted ht =>
    rw [hsep _ fun hs => hm ⟨hpos, by simpa using hs⟩]
    exact .deleted (Or.inr ht)
  | assigned hb =>
    rw [hsep _ fun hs => hm ⟨hs, rfl⟩]
    exact .assigned (Or.inr hb)
  | @grown r hr hp a ha hv hlt =>
    have hle : marker ≤ a.stamp := not_lt.mp fun hs => hm ⟨hs, rfl⟩
    rcases hle.lt_or_eq with hs | rfl
    · rw [hsep _ (not_le.mpr hs)]
      exact .grown (Or.inr hr) hp (memberWrites_mono (Set.subset_insert _ _) ha) hv hlt
    · have heq := H.distinct _ hop _ (hD ha) rfl
      rw [heq, Set.insert_eq_of_mem (show _ ∈ D from ha)]
      exact .grown hr hp ha hv hlt
  | shrunk => exact absurd ⟨hpos, rfl⟩ hm

/-- The floor of a set never exceeds the newest delivered marker. -/
theorem le_of_not_above (h : Origin D baseline tombstone E) {version marker : VersionMarker}
    (hpos : zeroMarker < marker) (hmax : ∀ op ∈ D, op.marker ≤ version)
    (hm : ¬ Above baseline tombstone marker) : marker ≤ version := by
  simp only [Above, not_and, Bool.not_eq_false] at hm
  cases h with
  | fresh => exact absurd (hm hpos) (by simp)
  | deleted ht => exact (of_decide_eq_true (hm hpos)).trans (hmax _ ht)
  | assigned hb =>
    exact (not_lt.mp fun hs => absurd (hm hs) (by simp)).trans (hmax _ hb)
  | grown hr hp ha hv hlt =>
    exact (not_lt.mp fun hs => absurd (hm hs) (by simp)).trans (hmax _ ha)
  | shrunk => exact absurd (hm hpos) (by simp)

end Origin

/-- The slot is what the delivered operations `D` leave in some order. -/
inductive Explained (D : Set SlotOp) (slot : Slot) : Prop
  | blank (hD : D = ∅) (hs : slot = Slot.empty)
  | reset {r : SlotOp} (hr : r ∈ D) (hreset : r.IsReset) (hmax : ∀ op ∈ D, op.marker ≤ r.marker)
      (hs : slot = r.result)
  | set {baseline version : VersionMarker} {tombstone : Option VersionMarker}
      {E : Set MemberWrite} (hs : slot.HoldsSet baseline tombstone version E)
      (ho : Origin D baseline tombstone E)
      (htop : ∃ present id, (⟨version, .member present id⟩ : SlotOp) ∈ D)
      (hmax : ∀ op ∈ D, op.marker ≤ version)

namespace Explained

variable {H : SlotHistory} {D : Set SlotOp} {slot : Slot}

/-- A newest member operation starts a set on the result of a reset. -/
private theorem apply_member_result {r : SlotOp} (hr : r ∈ D) (hreset : r.IsReset)
    (hmax : ∀ op ∈ D, op.marker ≤ r.marker) {marker : VersionMarker} (present : Bool)
    (id : NodeId) (hlt : r.marker < marker) :
    ∃ baseline tombstone E, (r.result.apply ⟨marker, .member present id⟩).HoldsSet baseline
        tombstone marker E ∧
      Origin (insert ⟨marker, .member present id⟩ D) baseline tombstone E := by
  have hw := memberWrites_insert_member D marker present id
  have hold : ∀ w ∈ memberWrites D, w.stamp ≤ r.marker := fun w hmem => hmax _ hmem
  have hsep : ∀ P : VersionMarker → Prop, P marker → (∀ m ≤ r.marker, ¬ P m) →
      {w ∈ memberWrites (insert ⟨marker, .member present id⟩ D) | P w.stamp} =
        {(⟨marker, id, present⟩ : MemberWrite)} := by
    intro P hP hlow
    ext w
    simp only [hw, Set.mem_insert_iff, Set.mem_ofPred_eq, Set.mem_singleton_iff]
    constructor
    · rintro ⟨rfl | hmem, hs⟩
      · rfl
      · exact absurd hs (hlow _ (hold w hmem))
    · rintro rfl
      exact ⟨Or.inl rfl, hP⟩
  have hmem : (⟨marker, id, present⟩ : MemberWrite) ∈
      memberWrites (insert ⟨marker, .member present id⟩ D) := by
    rw [hw]
    exact Or.inl rfl
  rcases hreset.cases with hdel | ⟨ids, hset⟩ | hplain
  · rw [hdel, result_delete_apply_member hlt]
    refine ⟨_, _, _, Slot.startSet_holdsSet _ _ _ _ _, ?_⟩
    rw [← hsep (r.marker < ·) hlt fun m hle => not_lt.mpr hle]
    exact .deleted (Or.inr (hdel ▸ hr))
  · rw [hset] at hr
    have habove : Above r.marker none marker := ⟨hlt, rfl⟩
    have hstep := (result_assign_holdsSet r.marker ids).apply_above present
      id habove
    rw [← hset, max_eq_right hlt.le, ← Set.union_singleton,
      ← hsep (r.marker < ·) hlt fun m hle => not_lt.mpr hle] at hstep
    exact ⟨_, _, _, hstep, .assigned (Or.inr hr)⟩
  · refine ⟨_, _, _, hplain.result_apply_member present id hlt, ?_⟩
    cases present with
    | true =>
      rw [← hsep (marker ≤ ·) le_rfl fun m hle => not_le.mpr (hle.trans_lt hlt)]
      exact .grown (Or.inr hr) hplain hmem rfl hlt
    | false =>
      refine .shrunk (Or.inr hr) hplain hmem rfl hlt (fun w hwm hs => ?_) ?_
      · rw [hw] at hwm
        rcases hwm with rfl | hwm
        · rfl
        · exact absurd hs (not_lt.mpr (hold w hwm))
      · rintro w rfl
        exact hmem

/-- A reset newer than everything delivered is accepted. -/
theorem apply_newest_reset (h : Explained D slot) {op : SlotOp} (hop : op.IsReset)
    (hlt : ∀ o ∈ D, o.marker < op.marker) : slot.apply op = op.result := by
  refine Slot.apply_reset_accepted hop ?_
  cases h with
  | blank hD hs => simp [hs, Slot.blocksReset, Slot.empty]
  | reset hr hreset hmax hs =>
    rw [hs, hreset.result_blocksReset]
    simpa using hlt _ hr
  | set hs ho htop hmax =>
    obtain ⟨set, rfl, -, -, -, -⟩ := hs
    obtain ⟨present, id, hmem⟩ := htop
    have hversion := hlt _ hmem
    cases ho with
    | deleted ht => simpa [Slot.blocksReset] using ⟨hlt _ ht, hversion⟩
    | _ => simpa [Slot.blocksReset] using hversion

private theorem step (h : Explained D slot) (hD : D ⊆ H.ops) {op : SlotOp} (hop : op ∈ H.ops) :
    Explained (insert op D) (slot.apply op) := by
  by_cases hnew : ∀ o ∈ D, o.marker < op.marker
  · have hmax : ∀ o ∈ insert op D, o.marker ≤ op.marker := by
      rintro o (rfl | ho)
      · exact le_rfl
      · exact (hnew o ho).le
    rcases op.member_or_isReset with ⟨marker, present, id, rfl⟩ | hreset
    · have htop : ∃ present' id', (⟨marker, .member present' id'⟩ : SlotOp) ∈
          insert ⟨marker, .member present id⟩ D := ⟨present, id, Or.inl rfl⟩
      cases h with
      | blank hD hs =>
        subst hD hs
        have hstart := Slot.empty.startSet_holdsSet zeroMarker present id marker
        have hw : memberWrites {(⟨marker, .member present id⟩ : SlotOp)} =
            {(⟨marker, id, present⟩ : MemberWrite)} := by
          rw [← insert_empty_eq, memberWrites_insert_member]
          simp [memberWrites]
        rw [insert_empty_eq] at hmax htop ⊢
        refine .set hstart ?_ htop hmax
        rw [← hw]
        exact .fresh
      | reset hr hreset hrmax hs =>
        subst hs
        obtain ⟨b, t, E, hs, ho⟩ := apply_member_result hr hreset hrmax present id
          (hnew _ hr)
        exact .set hs ho htop hmax
      | @set b v t E hs ho hvtop hvmax =>
        obtain ⟨p, i, hv⟩ := hvtop
        have hlt := hnew _ hv
        have habove : Above b t marker := by
          by_contra hbelow
          exact absurd (ho.le_of_not_above (H.positive hop) hvmax hbelow) (not_le.mpr hlt)
        have hs' := hs.apply_above present id habove
        rw [max_eq_right hlt.le] at hs'
        exact .set hs' (ho.insert_above habove) htop hmax
    · exact .reset (Or.inl rfl) hreset hmax (h.apply_newest_reset hreset hnew)
  · push Not at hnew
    obtain ⟨o, ho, hle⟩ := hnew
    cases h with
    | blank hD hs => exact absurd ho (by simp [hD])
    | @reset r hr hreset hmax hs =>
      subst hs
      have hop_le : op.marker ≤ r.marker := hle.trans (hmax o ho)
      refine .reset (Or.inr hr) hreset ?_ ?_
      · rintro o' (rfl | ho')
        · exact hop_le
        · exact hmax o' ho'
      · rcases op.member_or_isReset with ⟨marker, present, id, rfl⟩ | hopr
        · rcases hop_le.lt_or_eq with hlt | heq
          · exact r.result_apply_older hreset hlt
          · have := H.distinct _ hop _ (hD hr) heq
            subst this
            exact absurd rfl (hreset present id)
        · exact Slot.apply_reset_refused hopr
            (by rw [hreset.result_blocksReset]; exact decide_eq_true hop_le)
    | @set b v t E hs hor htop hmax =>
      have hop_le : op.marker ≤ v := hle.trans (hmax o ho)
      have hmax' : ∀ o' ∈ insert op D, o'.marker ≤ v := by
        rintro o' (rfl | ho')
        · exact hop_le
        · exact hmax o' ho'
      have htop' : ∃ present id, (⟨v, .member present id⟩ : SlotOp) ∈ insert op D := by
        obtain ⟨p, i, hv⟩ := htop
        exact ⟨p, i, Or.inr hv⟩
      rcases op.member_or_isReset with ⟨marker, present, id, rfl⟩ | hopr
      · by_cases habove : Above b t marker
        · have hs' := hs.apply_above present id habove
          rw [max_eq_left hop_le] at hs'
          exact .set hs' (hor.insert_above habove) htop' hmax'
        · rw [hs.apply_below present id habove]
          exact .set hs (hor.insert_below hD hop habove) htop' hmax'
      · rw [hs.apply_reset hopr hop_le]
        exact .set hs (hor.insert_reset hopr) htop' hmax'

/-- Every delivery sequence leaves an explained slot. -/
theorem run (h : Explained D slot) (hD : D ⊆ H.ops) {ops : List SlotOp}
    (hops : ∀ op ∈ ops, op ∈ H.ops) : Explained (D ∪ {op | op ∈ ops}) (slot.run ops) := by
  induction ops generalizing D slot with
  | nil => simpa [Slot.run] using h
  | cons op ops ih =>
    have hop : op ∈ H.ops := hops op List.mem_cons_self
    have hstep := ih (h.step hD hop) (Set.insert_subset hop hD)
      fun o ho => hops o (List.mem_cons_of_mem _ ho)
    refine cast (congrArg₂ _ (Set.ext fun o => ?_) rfl) hstep
    simp only [Set.mem_union, Set.mem_insert_iff, Set.mem_ofPred_eq, List.mem_cons]
    tauto

/-- What any delivery to an empty slot leaves. -/
theorem of_run {ops : List SlotOp} (hops : ∀ op ∈ ops, op ∈ H.ops) :
    Explained {op | op ∈ ops} (Slot.empty.run ops) := by
  have h := (Explained.blank rfl rfl).run (H := H) (Set.empty_subset _) hops
  rwa [Set.empty_union] at h

/-- When only resets were delivered, the slot is the result of the newest. -/
theorem eq_result (h : Explained D slot) (hD : D ⊆ H.ops) (hreset : ∀ op ∈ D, op.IsReset)
    {top : SlotOp} (htop : top ∈ D) (hmax : ∀ op ∈ D, op.marker ≤ top.marker) :
    slot = top.result := by
  cases h with
  | blank hempty => exact absurd htop (by simp [hempty])
  | @reset r hr _ hrmax hs =>
    rw [hs, H.distinct r (hD hr) top (hD htop) (le_antisymm (hmax r hr) (hrmax top htop))]
  | set _ _ hvtop =>
    obtain ⟨p, i, hmem⟩ := hvtop
    exact absurd rfl (hreset _ hmem p i)

/-- When only member operations were delivered, the set records all of them. -/
theorem holdsSet_memberWrites (h : Explained D slot) (hmember : ∀ op ∈ D, ¬ op.IsReset)
    {top : SlotOp} (htop : top ∈ D) (hmax : ∀ op ∈ D, op.marker ≤ top.marker) :
    slot.HoldsSet zeroMarker none top.marker (memberWrites D) := by
  cases h with
  | blank hempty => exact absurd htop (by simp [hempty])
  | reset hr hreset => exact absurd hreset (hmember _ hr)
  | set hs ho hvtop hvmax =>
    obtain ⟨p, i, hmem⟩ := hvtop
    have hv := le_antisymm (hmax _ hmem) (hvmax top htop)
    simp only at hv
    subst hv
    cases ho with
    | fresh => exact hs
    | deleted ht => exact absurd (by simp [SlotOp.IsReset]) (hmember _ ht)
    | assigned hb => exact absurd (by simp [SlotOp.IsReset]) (hmember _ hb)
    | grown hr hp => exact absurd hp.isReset (hmember _ hr)
    | shrunk hr hp => exact absurd hp.isReset (hmember _ hr)

end Explained

end Primadb

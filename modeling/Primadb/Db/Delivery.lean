import Primadb.Db.Inner
import Primadb.Graph.Convergence

/-!
# Delivering operations to fresh databases

A history is delivered by a sequence that holds each of its operations at least
once. The graph a reader sees afterwards is independent of the sequence exactly
for settled histories; where only one family of operations meets in a slot, the
slot is given by the greatest markers.
-/

namespace Primadb

open LastWriter

/-- The operation adds or removes a member. -/
def Operation.onMember (op : Operation) : Bool :=
  match op.action with
  | .addSetMember .. | .removeSetMember .. => true
  | .setField .. | .deleteField .. => false

/-- A finite set of operations with distinct markers above the zero marker. -/
structure History where
  ops : Finset Operation
  /-- A marker belongs to one operation. -/
  distinct : ∀ a ∈ ops, ∀ b ∈ ops, a.marker = b.marker → a = b
  /-- No member operation carries the zero marker. -/
  positive : ∀ a ∈ ops, a.onMember = true → zeroMarker < a.marker

namespace Inner

variable {σ : Type}

/-- Apply operations one after another with remote origin. -/
def applyRemote (inner : Inner σ) (ops : List Operation) : Inner σ :=
  ops.foldl (fun inner op => (inner.applyOperationInternal op .remote).2) inner

/-- The value a reader sees in every slot of the memory graph. -/
def visibleGraph (inner : Inner σ) (node : NodeId) (field : String) : Option VisibleValue :=
  (slotAt inner.nodes node field).visible

private theorem admits_remote {inner : Inner σ} (h : inner.scopePolicies = ∅) (op : Operation) :
    inner.admits op .remote = true := by
  have hnone : policyForPath inner.scopePolicies (operationTouchedPath op) = none := by
    rw [h]
    rfl
  simp only [admits, remoteOperationAllowed, hnone]

/-- Without policies remote operations act on the nodes as the graph model says. -/
theorem applyRemote_nodes {inner : Inner σ} (h : inner.scopePolicies = ∅) (ops : List Operation) :
    (inner.applyRemote ops).nodes =
      ops.foldl (fun nodes op => (applyToNodes nodes op).1) inner.nodes := by
  induction ops generalizing inner with
  | nil => rfl
  | cons op ops ih =>
    have hstep : (inner.applyOperationInternal op .remote).2.nodes =
        (applyToNodes inner.nodes op).1 := by
      rw [applyOperationInternal, if_pos (admits_remote h op), applyAdmitted_nodes]
    have hpol : (inner.applyOperationInternal op .remote).2.scopePolicies = ∅ := by
      rw [(inner.applyOperationInternal_frame op .remote).2.1, h]
    have hrun := ih hpol
    rw [hstep] at hrun
    exact hrun

/-- A delivered slot evolves by the operations that name it. -/
theorem slotAt_applyRemote (replicaId : String) (wall : WallClock) (ops : List Operation)
    (n : NodeId) (f : String) :
    slotAt ((withReplicaId replicaId wall : Inner σ).applyRemote ops).nodes n f =
      Slot.empty.run (slotOps ops n f) := by
  rw [applyRemote_nodes rfl, slotAt_foldl]
  rfl

end Inner

namespace History

variable {H : History}

/-- The operations of the history on one slot. -/
def slot (H : History) (n : NodeId) (f : String) : SlotHistory where
  ops := {o | ∃ op ∈ H.ops, op.at n f = true ∧ op.slotOp = o}
  finite := by
    refine (H.ops.finite_toSet.image Operation.slotOp).subset ?_
    rintro o ⟨op, hop, -, rfl⟩
    exact ⟨op, hop, rfl⟩
  distinct := by
    rintro a ⟨op, hop, -, rfl⟩ b ⟨op', hop', -, rfl⟩ h
    rw [H.distinct op hop op' hop' h]
  positive := by
    rintro marker present id ⟨op, hop, -, heq⟩
    obtain ⟨rfl, haction⟩ := SlotOp.mk.inj heq
    refine H.positive op hop ?_
    rw [Operation.onMember]
    cases hop : op.action <;> rw [hop] at haction <;> first | rfl | cases haction

/-- A sequence that holds every operation of the history, and nothing else. -/
def Delivers (H : History) (ops : List Operation) : Prop := ∀ op, op ∈ ops ↔ op ∈ H.ops

/-- Every two deliveries, to any two fresh databases, show the same graph. -/
def Converges (H : History) (σ : Type) : Prop :=
  ∀ (r r' : String) (w w' : WallClock) (s t : List Operation), H.Delivers s → H.Delivers t →
    ((Inner.withReplicaId r w : Inner σ).applyRemote s).visibleGraph =
      ((Inner.withReplicaId r' w' : Inner σ).applyRemote t).visibleGraph

/-- In every slot the newest operation is a reset, or every reset is harmless. -/
def Settled (H : History) : Prop := ∀ n f, (H.slot n f).Settled

variable {ops : List Operation} {n : NodeId} {f : String}

/-- A sequence holds an operation of a slot exactly when the slot's sequence does. -/
theorem mem_slotOps {o : SlotOp} :
    o ∈ slotOps ops n f ↔ ∃ op ∈ ops, op.at n f = true ∧ op.slotOp = o := by
  simp [slotOps, and_assoc]

private theorem Delivers.slot (h : H.Delivers ops) (n : NodeId) (f : String) :
    (H.slot n f).Delivers (slotOps ops n f) := by
  intro o
  rw [mem_slotOps]
  simp only [Delivers] at h
  simp only [h]
  rfl

private theorem exists_delivers {s : List SlotOp} (h : (H.slot n f).Delivers s) :
    ∃ ops, H.Delivers ops ∧ slotOps ops n f = s := by
  have hlift : ∀ s : List SlotOp, (∀ o ∈ s, o ∈ (H.slot n f).ops) →
      ∃ ops : List Operation, (∀ op ∈ ops, op ∈ H.ops) ∧ slotOps ops n f = s := by
    intro s hs
    induction s with
    | nil => exact ⟨[], by simp, rfl⟩
    | cons o s ih =>
      obtain ⟨op, hop, hat, rfl⟩ := hs o List.mem_cons_self
      obtain ⟨ops, hops, rfl⟩ := ih fun o ho => hs o (List.mem_cons_of_mem _ ho)
      exact ⟨op :: ops, by simpa using ⟨hop, hops⟩, by simp [slotOps, hat]⟩
  obtain ⟨ops, hops, hs⟩ := hlift s fun o ho => (h o).mp ho
  let rest := H.ops.toList.filter fun op => !op.at n f
  have hrest : slotOps rest n f = [] := by
    simp [slotOps, rest]
  refine ⟨ops ++ rest, fun op => ?_, ?_⟩
  · rw [List.mem_append]
    constructor
    · rintro (hop | hop)
      · exact hops op hop
      · exact Finset.mem_toList.mp (List.mem_filter.mp hop).1
    · intro hop
      cases hat : op.at n f with
      | false => exact Or.inr (List.mem_filter.mpr ⟨Finset.mem_toList.mpr hop, by simp [hat]⟩)
      | true =>
        have hmem : op.slotOp ∈ slotOps ops n f := hs ▸ (h _).mpr ⟨op, hop, hat, rfl⟩
        obtain ⟨op', hop', -, heq⟩ := mem_slotOps.mp hmem
        have hmarker : op'.marker = op.marker := congrArg SlotOp.marker heq
        exact Or.inl (H.distinct op' (hops op' hop') op hop hmarker ▸ hop')
  · have happend : slotOps (ops ++ rest) n f = slotOps ops n f ++ slotOps rest n f := by
      simp [slotOps]
    rw [happend, hrest, hs, List.append_nil]

/-- Deliveries show the same graph exactly when the history is settled. -/
theorem converges_iff_settled (H : History) (σ : Type) : H.Converges σ ↔ H.Settled := by
  constructor
  · intro h n f
    refine SlotHistory.settled_of_visible_eq fun s t hs ht => ?_
    obtain ⟨ops, hops, rfl⟩ := exists_delivers hs
    obtain ⟨ops', hops', rfl⟩ := exists_delivers ht
    have heq := congrFun (congrFun
      (h "" "" ⟨fun _ => 0, 0⟩ ⟨fun _ => 0, 0⟩ ops ops' hops hops') n) f
    simpa only [Inner.visibleGraph, Inner.slotAt_applyRemote] using heq
  · intro h r r' w w' s t hs ht
    funext n f
    simp only [Inner.visibleGraph, Inner.slotAt_applyRemote]
    exact (h n f).visible_eq (hs.slot n f).explained (ht.slot n f).explained

/-- An operation with the given milliseconds and blank actor and id. -/
def opAt (millis : UInt64) (action : OperationAction) : Operation :=
  ⟨"", "", ⟨millis, 0, ""⟩, action⟩

/-- A scalar assignment followed by two adds. -/
def scalarThenAdds : History where
  ops := {opAt 1 (.setField "n" "f" (.scalar .null)), opAt 2 (.addSetMember "n" "f" "x"),
    opAt 3 (.addSetMember "n" "f" "y")}
  distinct := by decide
  positive := by decide

/-- Delivering the newer add before the older one loses the older member. -/
theorem not_converges_scalarThenAdds : ¬ scalarThenAdds.Converges Unit := by
  intro h
  have heq := congrFun (congrFun (h "" "" ⟨fun _ => 0, 0⟩ ⟨fun _ => 0, 0⟩
    [opAt 1 (.setField "n" "f" (.scalar .null)), opAt 2 (.addSetMember "n" "f" "x"),
      opAt 3 (.addSetMember "n" "f" "y")]
    [opAt 1 (.setField "n" "f" (.scalar .null)), opAt 3 (.addSetMember "n" "f" "y"),
      opAt 2 (.addSetMember "n" "f" "x")]
    (by intro op; simp [scalarThenAdds]) (by intro op; simp [scalarThenAdds, or_comm])) "n") "f"
  revert heq
  decide

/-- The slot of a delivered batch is explained by it. -/
theorem explained_slotOps (hops : ∀ op ∈ ops, op ∈ H.ops) (n : NodeId) (f : String) :
    {o | o ∈ slotOps ops n f} ⊆ (H.slot n f).ops ∧
      Explained {o | o ∈ slotOps ops n f} (Slot.empty.run (slotOps ops n f)) := by
  have hsub : ∀ o ∈ slotOps ops n f, o ∈ (H.slot n f).ops := by
    intro o ho
    obtain ⟨op, hop, hat, rfl⟩ := mem_slotOps.mp ho
    exact ⟨op, hops op hop, hat, rfl⟩
  exact ⟨hsub, Explained.of_run hsub⟩

/-- The action that adds or removes a member. -/
def memberAction (present : Bool) (n : NodeId) (f : String) (id : NodeId) : OperationAction :=
  if present then .addSetMember n f id else .removeSetMember n f id

private theorem mem_memberWrites_slotOps {w : MemberWrite} :
    w ∈ memberWrites {o | o ∈ slotOps ops n f} ↔
      ∃ op ∈ ops, op.marker = w.stamp ∧ op.action = memberAction w.value n f w.key := by
  simp only [memberWrites, Set.mem_ofPred_eq, mem_slotOps]
  refine exists_congr fun op => and_congr_right fun _ => ?_
  obtain ⟨stamp, key, value⟩ := w
  obtain ⟨opId, author, revision, action⟩ := op
  cases action <;> cases value <;>
    simp [Operation.at, Operation.slotOp, OperationAction.slotAction, OperationAction.node,
      OperationAction.field, memberAction, and_assoc, and_comm]

private theorem latest_slotOps_iff {id : NodeId} :
    Latest (memberWrites {o | o ∈ slotOps ops n f}) id true ↔
      ∃ add ∈ ops, add.action = .addSetMember n f id ∧
        ∀ op ∈ ops, op.action = .addSetMember n f id ∨ op.action = .removeSetMember n f id →
          op.marker ≤ add.marker := by
  constructor
  · rintro ⟨m, hm, hmax⟩
    obtain ⟨add, hadd, rfl, hact⟩ := mem_memberWrites_slotOps.mp hm
    refine ⟨add, hadd, hact, fun op hop hnames => ?_⟩
    rcases hnames with hnames | hnames
    · exact hmax ⟨op.marker, id, true⟩ (mem_memberWrites_slotOps.mpr ⟨op, hop, rfl, hnames⟩) rfl
    · exact hmax ⟨op.marker, id, false⟩ (mem_memberWrites_slotOps.mpr ⟨op, hop, rfl, hnames⟩) rfl
  · rintro ⟨add, hadd, hact, hmax⟩
    refine ⟨add.marker, mem_memberWrites_slotOps.mpr ⟨add, hadd, rfl, hact⟩, ?_⟩
    rintro ⟨stamp, key, value⟩ hw rfl
    obtain ⟨op, hop, rfl, hopact⟩ := mem_memberWrites_slotOps.mp hw
    refine hmax op hop ?_
    cases value
    · exact Or.inr hopact
    · exact Or.inl hopact

/-- An operation that sets or deletes its field. -/
def IsReset (n : NodeId) (f : String) (op : Operation) : Prop :=
  (∃ value, op.action = .setField n f value) ∨ op.action = .deleteField n f

/-- An operation that adds or removes a member. -/
def IsMember (n : NodeId) (f : String) (op : Operation) : Prop :=
  ∃ id, op.action = .addSetMember n f id ∨ op.action = .removeSetMember n f id

/-- The slot a reset leaves: its value with its marker, or its tombstone. -/
def resetOutcome (op : Operation) : Slot :=
  match op.action with
  | .setField _ _ value => ⟨some ⟨value.toFieldValue op.marker, op.marker⟩, none⟩
  | _ => ⟨none, some op.marker⟩

private theorem IsReset.slotOp {op : Operation} (h : IsReset n f op) :
    op.slotOp.IsReset ∧ op.slotOp.result = resetOutcome op := by
  rcases h with ⟨value, hact⟩ | hact <;>
    simp [SlotOp.IsReset, resetOutcome, SlotOp.result, Operation.slotOp, hact,
      OperationAction.slotAction, Slot.apply, Slot.blocksReset, Slot.empty]

theorem IsMember.slotOp {op : Operation} (h : IsMember n f op) :
    ¬ op.slotOp.IsReset := by
  obtain ⟨id, hact | hact⟩ := h <;>
    simp [SlotOp.IsReset, Operation.slotOp, hact, OperationAction.slotAction]

/-- A slot that meets one family of operations only is decided by the greatest markers. For
assignments and deletes it is the outcome of the greatest operation. For adds and removals it is a
set at the greatest marker whose members are the ids whose greatest operation is an add. -/
theorem slot_of_greatest_markers (H : History) (σ : Type) (r : String) (w : WallClock)
    (ops : List Operation) (hops : ∀ op ∈ ops, op ∈ H.ops) (n : NodeId) (f : String)
    (top : Operation) (htop : top ∈ ops) (hat : top.at n f = true)
    (hmax : ∀ op ∈ ops, op.at n f = true → op.marker ≤ top.marker) :
    ((∀ op ∈ ops, op.at n f = true → IsReset n f op) →
      slotAt ((Inner.withReplicaId r w : Inner σ).applyRemote ops).nodes n f =
        resetOutcome top) ∧
    ((∀ op ∈ ops, op.at n f = true → IsMember n f op) →
      ∃ set, slotAt ((Inner.withReplicaId r w : Inner σ).applyRemote ops).nodes n f =
          ⟨some ⟨.set set, top.marker⟩, none⟩ ∧
        ∀ id, id ∈ set.members ↔
          ∃ add ∈ ops, add.action = .addSetMember n f id ∧
            ∀ op ∈ ops, op.action = .addSetMember n f id ∨ op.action = .removeSetMember n f id →
              op.marker ≤ add.marker) := by
  obtain ⟨hsub, hexpl⟩ := explained_slotOps hops n f
  have htop' : top.slotOp ∈ {o | o ∈ slotOps ops n f} := mem_slotOps.mpr ⟨top, htop, hat, rfl⟩
  have hmax' : ∀ o ∈ {o | o ∈ slotOps ops n f}, o.marker ≤ top.slotOp.marker := by
    intro o ho
    obtain ⟨op, hop, hopat, rfl⟩ := mem_slotOps.mp ho
    exact hmax op hop hopat
  rw [Inner.slotAt_applyRemote]
  constructor
  · intro hreset
    rw [← (hreset top htop hat).slotOp.2]
    refine hexpl.eq_result hsub (fun o ho => ?_) htop' hmax'
    obtain ⟨op, hop, hopat, rfl⟩ := mem_slotOps.mp ho
    exact (hreset op hop hopat).slotOp.1
  · intro hmember
    have hnone : ∀ o ∈ {o | o ∈ slotOps ops n f}, ¬ o.IsReset := by
      intro o ho
      obtain ⟨op, hop, hopat, rfl⟩ := mem_slotOps.mp ho
      exact (hmember op hop hopat).slotOp
    obtain ⟨set, hslot, -, -, hrec, -⟩ := hexpl.holdsSet_memberWrites hnone htop' hmax'
    have hcons := (H.slot n f).consistent.mono (memberWrites_mono hsub)
    exact ⟨set, hslot, fun id => (SetState.mem_members_iff hrec hcons id).trans latest_slotOps_iff⟩

/-- A deleted scalar in one slot, two adds and a removal in another. -/
def deleteAndRemove : History where
  ops := {opAt 1 (.setField "n" "f" (.scalar .null)), opAt 2 (.deleteField "n" "f"),
    opAt 3 (.addSetMember "n" "g" "x"), opAt 4 (.addSetMember "n" "g" "y"),
    opAt 5 (.removeSetMember "n" "g" "x")}
  distinct := by decide
  positive := by decide

/-- A delivery of it, newest first and with a repeat. -/
def newestFirst : List Operation :=
  [opAt 5 (.removeSetMember "n" "g" "x"), opAt 4 (.addSetMember "n" "g" "y"),
    opAt 3 (.addSetMember "n" "g" "x"), opAt 2 (.deleteField "n" "f"),
    opAt 1 (.setField "n" "f" (.scalar .null)), opAt 4 (.addSetMember "n" "g" "y")]

/-- The delete leaves its tombstone, and the greatest operations leave a set at marker five. -/
theorem slot_of_greatest_markers_newestFirst :
    slotAt ((Inner.withReplicaId "a" ⟨fun _ => 0, 0⟩ : Inner Unit).applyRemote newestFirst).nodes
        "n" "f" = resetOutcome (opAt 2 (.deleteField "n" "f")) ∧
      ∃ set, slotAt ((Inner.withReplicaId "a" ⟨fun _ => 0, 0⟩ : Inner Unit).applyRemote
          newestFirst).nodes "n" "g" =
        ⟨some ⟨.set set, (opAt 5 (.removeSetMember "n" "g" "x")).marker⟩, none⟩ := by
  constructor
  · refine (slot_of_greatest_markers deleteAndRemove Unit "a" ⟨fun _ => 0, 0⟩ newestFirst
      (by decide) "n" "f" (opAt 2 (.deleteField "n" "f")) (by decide) (by decide) (by decide)).1 ?_
    intro op hop hat
    simp only [newestFirst, List.mem_cons, List.not_mem_nil, or_false] at hop
    rcases hop with rfl | rfl | rfl | rfl | rfl | rfl
    · exact absurd hat (by decide)
    · exact absurd hat (by decide)
    · exact absurd hat (by decide)
    · exact Or.inr rfl
    · exact Or.inl ⟨_, rfl⟩
    · exact absurd hat (by decide)
  · obtain ⟨set, hset, -⟩ := (slot_of_greatest_markers deleteAndRemove Unit "a" ⟨fun _ => 0, 0⟩
      newestFirst (by decide) "n" "g" (opAt 5 (.removeSetMember "n" "g" "x")) (by decide)
      (by decide) (by decide)).2 (by
        intro op hop hat
        simp only [newestFirst, List.mem_cons, List.not_mem_nil, or_false] at hop
        rcases hop with rfl | rfl | rfl | rfl | rfl | rfl
        · exact ⟨"x", Or.inr rfl⟩
        · exact ⟨"y", Or.inl rfl⟩
        · exact ⟨"x", Or.inl rfl⟩
        · exact absurd hat (by decide)
        · exact absurd hat (by decide)
        · exact ⟨"y", Or.inl rfl⟩)
    exact ⟨set, hset⟩

end History

end Primadb

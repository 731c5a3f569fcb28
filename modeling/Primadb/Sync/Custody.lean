import Primadb.Sync.Flush

/-!
# Custody of local operations

Every local operation that is the newest of its slot and not acknowledged is in the
pending queue, in the inflight table, or in the hands of a running task, as long as
no step fails that drops what a task holds. Older operations that are put back cannot
displace it, because its revision is greater than theirs.
-/

namespace Primadb

open OperationCompactionKey

namespace SyncState

variable {s t : SyncState}

/-- A message of the inflight table or a running task holds the operation. -/
def Outside (s : SyncState) (op : Operation) : Prop :=
  (∃ (id : ℕ) (ops : List Operation), s.inflight[id]? = some ops ∧ op ∈ ops) ∨
    op ∈ s.tasks.flatMap SyncTask.ops

/-- The operation is in the pending queue or outside it. -/
def Holds (s : SyncState) (op : Operation) : Prop :=
  op ∈ s.ledger.pendingOps.operations ∨ s.Outside op

/-- No local update is lost: the newest local operation of a slot, unless acknowledged, or a newer
one of the slot is in the pending queue or in the inflight table. -/
def Keeps (s : SyncState) : Prop :=
  ∀ (key : OperationCompactionKey) op, s.latest[key]? = some op → op ∉ s.acknowledged →
    ∃ o, fromOperation o = key ∧ (o = op ∨ op.revision < o.revision) ∧
      (o ∈ s.ledger.pendingOps.operations ∨
        ∃ (id : ℕ) (ops : List Operation), s.inflight[id]? = some ops ∧ o ∈ ops)

/-- A client without messages on a database whose clock is not behind its pending queue. -/
structure Fresh (s : SyncState) : Prop where
  wf : s.ledger.pendingOps.Wf
  clock : ∀ op ∈ s.ledger.pendingOps.operations, op.revision ≤ s.ledger.clock.revision
  latest : ∀ key : OperationCompactionKey, s.latest[key]? = s.ledger.pendingOps.entry key
  tasks : s.tasks = []
  inflight : s.inflight = ∅
  messages : s.messages = ∅
  acknowledged : s.acknowledged = []

/-- The events after which nothing is lost: a write advances the clock, a message number is new,
and neither storage nor encoding fails inside a flush attempt or a requeue. -/
def Benign (s : SyncState) : SyncEvent → Prop
  | .write log => ∀ entry ∈ log, s.ledger.clock.revision < entry.op.revision
  | .sent id => s.messages[id]? = none
  | .storageFailed | .encodingFailed | .decodingFailed => False
  | _ => True

/-- What holds in every state of a benign run. -/
structure Custody (s : SyncState) : Prop where
  wf : s.ledger.pendingOps.Wf
  /-- The newest operations are those of their keys, and the clock is not behind them. -/
  latest : ∀ (key : OperationCompactionKey) op, s.latest[key]? = some op →
    fromOperation op = key ∧ op.revision ≤ s.ledger.clock.revision
  /-- What is held is the newest of its slot or older. -/
  newest : ∀ op, s.Holds op → ∃ last, s.latest[fromOperation op]? = some last ∧
    (op = last ∨ op.revision < last.revision)
  /-- The newest operation of a slot is acknowledged or held. -/
  kept : ∀ (key : OperationCompactionKey) op, s.latest[key]? = some op →
    op ∈ s.acknowledged ∨ s.Holds op
  /-- Inflight messages were sent. -/
  inflight : ∀ (id : ℕ) ops, s.inflight[id]? = some ops → s.messages[id]? = some ops
  /-- Messages about to be entered were sent. -/
  sent : ∀ id ops, SyncTask.sent id ops ∈ s.tasks → s.messages[id]? = some ops

/-- The newest operations after a write: the last ones of the write, else the old ones. -/
theorem recordLatest_get (latest : BTreeMap OperationCompactionKey Operation)
    (ops : List Operation) (key : OperationCompactionKey) :
    (recordLatest latest ops)[key]? =
      match (ops.filter (fromOperation · == key)).getLast? with
      | some op => some op
      | none => latest[key]? := by
  induction ops using List.reverseRecOn with
  | nil => rfl
  | append_singleton ops op ih =>
    rw [recordLatest, List.foldl_append, List.foldl_cons, List.foldl_nil, BTreeMap.get_insert,
      List.filter_append]
    by_cases hkey : fromOperation op = key
    · simp [hkey]
    · rw [if_neg hkey, List.filter_cons_of_neg (by simpa using hkey), List.filter_nil,
        List.append_nil]
      exact ih

namespace Custody

private theorem start (h : s.Fresh) : s.Custody where
  wf := h.wf
  latest key op hop := by
    rw [h.latest] at hop
    have hmem := List.mem_of_find?_eq_some hop
    exact ⟨CompactedOperations.fromOperation_of_entry hop, h.clock op hmem⟩
  newest op hop := by
    rcases hop with hop | ⟨id, ops, hops, -⟩ | hop
    · exact ⟨op, by rw [h.latest, (h.wf.mem_iff_entry op).mp hop], Or.inl rfl⟩
    · simp [h.inflight] at hops
    · simp [h.tasks] at hop
  kept key op hop := by
    rw [h.latest] at hop
    exact Or.inr (Or.inl (List.mem_of_find?_eq_some hop))
  inflight id ops hops := by simp [h.inflight] at hops
  sent id ops hops := by simp [h.tasks] at hops

/-- Operations are put back into the pending queue or move around outside it. -/
theorem move (h : s.Custody) (back : List Operation)
    (hpending : t.ledger.pendingOps = back.foldl CompactedOperations.push s.ledger.pendingOps)
    (hclock : s.ledger.clock.revision ≤ t.ledger.clock.revision) (hlatest : t.latest = s.latest)
    (hacknowledged : t.acknowledged = s.acknowledged)
    (hfrom : ∀ op, op ∈ back ∨ t.Outside op → s.Outside op)
    (hto : ∀ op, s.Outside op → op ∈ back ∨ t.Outside op)
    (hinflight : ∀ (id : ℕ) ops, t.inflight[id]? = some ops → t.messages[id]? = some ops)
    (hsent : ∀ id ops, SyncTask.sent id ops ∈ t.tasks → t.messages[id]? = some ops) :
    t.Custody where
  wf := hpending ▸ h.wf.foldl_push back
  latest key op hop := by
    rw [hlatest] at hop
    exact ⟨(h.latest key op hop).1, (h.latest key op hop).2.trans hclock⟩
  newest op hop := by
    rw [hlatest]
    refine h.newest op ?_
    rcases hop with hop | hop
    · rw [hpending] at hop
      exact (h.wf.mem_of_mem_foldl_push hop).imp_right fun hop => hfrom op (Or.inl hop)
    · exact Or.inr (hfrom op (Or.inr hop))
  kept key op hop := by
    rw [hlatest] at hop
    rw [hacknowledged]
    refine (h.kept key op hop).imp_right fun hheld => ?_
    have hin : op ∈ s.ledger.pendingOps.operations ∨ op ∈ back →
        op ∈ t.ledger.pendingOps.operations := by
      rw [hpending]
      refine h.wf.mem_foldl_push_newest fun a ha hkey => ?_
      obtain ⟨last, hlast, hle⟩ := h.newest a (ha.imp_right fun ha => hfrom a (Or.inl ha))
      rw [hkey, (h.latest key op hop).1, hop, Option.some.injEq] at hlast
      exact hlast ▸ hle
    rcases hheld with hheld | hheld
    · exact Or.inl (hin (Or.inl hheld))
    · exact (hto op hheld).imp (fun hback => hin (Or.inr hback)) id
  inflight := hinflight
  sent := hsent

private theorem drain (h : s.Custody) :
    Custody { s with
      ledger := { s.ledger with pendingOps := .empty }
      tasks := .drained s.ledger.pendingOps.operations :: s.tasks } := by
  have hholds : ∀ op, Holds { s with
      ledger := { s.ledger with pendingOps := .empty }
      tasks := .drained s.ledger.pendingOps.operations :: s.tasks } op ↔ s.Holds op := by
    intro op
    simp only [Holds, Outside, CompactedOperations.empty, List.not_mem_nil, false_or,
      List.flatMap_cons, List.mem_append, SyncTask.ops]
    exact or_left_comm
  exact
    { wf := .empty
      latest := h.latest
      newest := fun op hop => h.newest op ((hholds op).mp hop)
      kept := fun key op hop => (h.kept key op hop).imp_right (hholds op).mpr
      inflight := h.inflight
      sent := fun id ops hmem => h.sent id ops (by simpa using hmem) }

private theorem acknowledge (h : s.Custody) (id : ℕ) :
    Custody { s with
      inflight := s.inflight.erase id
      acknowledged := s.acknowledged ++ s.messages[id]?.getD [] } where
  wf := h.wf
  latest := h.latest
  newest op hop := by
    refine h.newest op (hop.imp_right fun hop => hop.imp_left ?_)
    rintro ⟨i, ops, hops, hmem⟩
    rw [BTreeMap.get_erase] at hops
    split at hops
    · cases hops
    · exact ⟨i, ops, hops, hmem⟩
  kept key op hop := by
    rcases h.kept key op hop with hacked | hpending | ⟨i, ops, hops, hmem⟩ | htask
    · exact Or.inl (List.mem_append_left _ hacked)
    · exact Or.inr (Or.inl hpending)
    · by_cases hid : id = i
      · subst hid
        refine Or.inl (List.mem_append_right _ ?_)
        rw [h.inflight id ops hops]
        exact hmem
      · refine Or.inr (Or.inr (Or.inl ⟨i, ops, ?_, hmem⟩))
        rw [BTreeMap.get_erase, if_neg hid, hops]
    · exact Or.inr (Or.inr (Or.inr htask))
  inflight i ops hops := by
    rw [BTreeMap.get_erase] at hops
    split at hops
    · cases hops
    · exact h.inflight i ops hops
  sent := h.sent

private theorem takeInflight (h : s.Custody) :
    Custody { s with
      inflight := ∅
      tasks := .requeueing (s.inflight.toList.map Prod.snd) :: s.tasks } := by
  have houtside : ∀ op, Outside { s with
      inflight := ∅
      tasks := .requeueing (s.inflight.toList.map Prod.snd) :: s.tasks } op ↔ s.Outside op := by
    intro op
    have hmem : op ∈ (s.inflight.toList.map Prod.snd).flatten ↔
        ∃ (id : ℕ) (ops : List Operation), s.inflight[id]? = some ops ∧ op ∈ ops := by
      simp only [List.mem_flatten, List.mem_map, Prod.exists,
        Std.ExtTreeMap.mem_toList_iff_getElem?_eq_some]
      constructor
      · rintro ⟨ops, ⟨id, _, hops, rfl⟩, ho⟩
        exact ⟨id, _, hops, ho⟩
      · rintro ⟨id, ops, hops, ho⟩
        exact ⟨ops, ⟨id, ops, hops, rfl⟩, ho⟩
    simp only [Outside, List.flatMap_cons, List.mem_append, SyncTask.ops, hmem]
    simp
  refine h.move [] rfl (le_refl _) rfl rfl (fun op hop => ?_) (fun op hop => ?_) ?_ ?_
  · exact (houtside op).mp (hop.resolve_left List.not_mem_nil)
  · exact Or.inr ((houtside op).mpr hop)
  · exact fun id ops hops => by simp at hops
  · exact fun id ops hmem => h.sent id ops (by simpa using hmem)

/-- A write whose operations are newer than the clock. -/
theorem write (h : s.Custody) {log : List Issued} {ledger : Ledger}
    (hsteps : Ledger.Steps s.ledger log ledger)
    (hnew : ∀ entry ∈ log, s.ledger.clock.revision < entry.op.revision) :
    Custody { s with ledger := ledger, latest := recordLatest s.latest (acceptedOps log) } := by
  have hpushed := hsteps.pushed h.wf
  have hlatest := recordLatest_get s.latest (acceptedOps log)
  have hnewer : ∀ op ∈ acceptedOps log, s.ledger.clock.revision < op.revision := by
    intro op hop
    obtain ⟨entry, hentry, -, rfl⟩ := exists_of_mem_acceptedOps hop
    exact hnew entry hentry
  -- what was held is older than every operation of the write
  have hold : ∀ op, s.Holds op → op.revision ≤ s.ledger.clock.revision := by
    intro op hop
    obtain ⟨last, hlast, hle⟩ := h.newest op hop
    have hclock := (h.latest _ last hlast).2
    rcases hle with rfl | hlt
    · exact hclock
    · exact hlt.le.trans hclock
  have hlast : ∀ {key : OperationCompactionKey} {op : Operation},
      ((acceptedOps log).filter (fromOperation · == key)).getLast? = some op →
      op ∈ acceptedOps log ∧ fromOperation op = key := by
    intro key op hop
    obtain ⟨hmem, hkey⟩ := List.mem_filter.mp (List.mem_of_getLast? hop)
    exact ⟨hmem, by simpa using hkey⟩
  refine
    { wf := hpushed.wf
      latest := fun key op hop => ?_
      newest := fun op hop => ?_
      kept := fun key op hop => ?_
      inflight := h.inflight
      sent := h.sent }
  · rw [hlatest] at hop
    split at hop
    · rename_i last hfilter
      cases hop
      obtain ⟨hmem, hkey⟩ := hlast hfilter
      obtain ⟨entry, hentry, -, rfl⟩ := exists_of_mem_acceptedOps hmem
      exact ⟨hkey, hsteps.revision_le entry hentry⟩
    · exact ⟨(h.latest key op hop).1, (h.latest key op hop).2.trans hsteps.clock_le⟩
  · simp only [hlatest]
    cases hfilter : ((acceptedOps log).filter (fromOperation · == fromOperation op)).getLast? with
    | none =>
      refine h.newest op (hop.imp_left fun hmem => ?_)
      rw [hpushed.wf.mem_iff_entry, hpushed.entries, hfilter] at hmem
      exact List.mem_of_find?_eq_some hmem
    | some last =>
      refine ⟨last, rfl, ?_⟩
      have hclock := hnewer last (hlast hfilter).1
      rcases hop with hmem | hop
      · left
        rw [hpushed.wf.mem_iff_entry, hpushed.entries, hfilter, Option.some.injEq] at hmem
        rw [← hmem]
        cases hentry : s.ledger.pendingOps.entry (fromOperation op) with
        | none => rfl
        | some old =>
          have hle := hold old (Or.inl (List.mem_of_find?_eq_some hentry))
          rw [Option.elim_some, Operation.newer, if_pos (hle.trans hclock.le)]
      · exact Or.inr ((hold op (Or.inr hop)).trans_lt hclock)
  · rw [hlatest] at hop
    split at hop
    · rename_i last hfilter
      cases hop
      obtain ⟨hmem, hkey⟩ := hlast hfilter
      refine Or.inr (Or.inl ((hpushed.mem_iff h.wf ?_).mpr fun old hin hsame => ?_))
      · rw [hkey, hfilter]
      · exact (hold old (Or.inl hin)).trans (hnewer op hmem).le
    · rename_i hfilter
      refine (h.kept key op hop).imp_right fun hheld => hheld.imp_left fun hmem => ?_
      have hkey := (h.latest key op hop).1
      rw [hpushed.wf.mem_iff_entry, hpushed.entries, hkey, hfilter]
      rwa [h.wf.mem_iff_entry, hkey] at hmem

/-- A task passes its operations on to the tasks that follow or puts them back. -/
theorem passOn (h : s.Custody) (back : List Operation) {before after next : List SyncTask}
    {task : SyncTask} (htasks : s.tasks = before ++ task :: after)
    (hledger : t.ledger = s.ledger.requeue back) (hinflight : t.inflight = s.inflight)
    (hlatest : t.latest = s.latest) (hacknowledged : t.acknowledged = s.acknowledged)
    (hops : ∀ op, op ∈ task.ops ↔ op ∈ back ∨ op ∈ next.flatMap SyncTask.ops)
    (hmessages : ∀ (id : ℕ) ops, s.messages[id]? = some ops → t.messages[id]? = some ops)
    (hsent : ∀ id ops, SyncTask.sent id ops ∈ next → t.messages[id]? = some ops) :
    Custody { t with tasks := before ++ next ++ after } := by
  have hmoved : ∀ op, s.Outside op ↔
      op ∈ back ∨ Outside { t with tasks := before ++ next ++ after } op := by
    intro op
    simp only [Outside, htasks, hinflight, List.flatMap_append, List.flatMap_cons, List.mem_append,
      hops op]
    generalize (∃ (id : ℕ) (ops : List Operation), s.inflight[id]? = some ops ∧ op ∈ ops) = found
    tauto
  refine h.move back (by rw [hledger]; rfl) (by rw [hledger]; exact le_refl _) hlatest
    hacknowledged (fun op hop => (hmoved op).mpr hop) (fun op hop => (hmoved op).mp hop)
    (fun id ops hin => ?_) (fun id ops hin => ?_)
  · rw [hinflight] at hin
    exact hmessages id ops (h.inflight id ops hin)
  · rcases List.mem_append.mp hin with hin | hin
    · rcases List.mem_append.mp hin with hin | hin
      · exact hmessages id ops (h.sent id ops (by simp [htasks, hin]))
      · exact hsent id ops hin
    · exact hmessages id ops (h.sent id ops (by simp [htasks, hin]))

/-- A sent message is entered into the inflight table. -/
theorem enter (h : s.Custody) {before after : List SyncTask} {id : ℕ} {ops : List Operation}
    (htasks : s.tasks = before ++ .sent id ops :: after) :
    Custody { s with
      inflight := s.inflight.insert id ops
      tasks := before ++ after } := by
  have hmessage : s.messages[id]? = some ops := h.sent id ops (by simp [htasks])
  -- an entry of this number holds the same message
  have hsame : ∀ other, s.inflight[id]? = some other → other = ops := by
    intro other hother
    rw [h.inflight id other hother, Option.some.injEq] at hmessage
    exact hmessage
  have hmoved : ∀ op, Outside { s with
      inflight := s.inflight.insert id ops, tasks := before ++ after } op ↔ s.Outside op := by
    intro op
    simp only [Outside, htasks, List.flatMap_append, List.flatMap_cons, List.mem_append,
      SyncTask.ops, BTreeMap.get_insert]
    constructor
    · rintro (⟨i, other, hother, hop⟩ | hop | hop)
      · split at hother
        · cases hother
          exact Or.inr (Or.inr (Or.inl hop))
        · exact Or.inl ⟨i, other, hother, hop⟩
      · exact Or.inr (Or.inl hop)
      · exact Or.inr (Or.inr (Or.inr hop))
    · rintro (⟨i, other, hother, hop⟩ | hop | hop | hop)
      · by_cases hi : id = i
        · subst hi
          exact Or.inl ⟨id, ops, if_pos rfl, hsame other hother ▸ hop⟩
        · exact Or.inl ⟨i, other, by rw [if_neg hi, hother], hop⟩
      · exact Or.inr (Or.inl hop)
      · exact Or.inl ⟨id, ops, if_pos rfl, hop⟩
      · exact Or.inr (Or.inr hop)
  refine h.move [] rfl (le_refl _) rfl rfl (fun op hop => ?_) (fun op hop => ?_)
    (fun i other hin => ?_) (fun i other hin => h.sent i other ?_)
  · exact (hmoved op).mp (hop.resolve_left List.not_mem_nil)
  · exact Or.inr ((hmoved op).mpr hop)
  · rw [BTreeMap.get_insert] at hin
    split at hin
    · rename_i heq
      cases hin
      exact heq ▸ hmessage
    · exact h.inflight i other hin
  · rw [htasks]
    rcases List.mem_append.mp hin with hin | hin
    · exact List.mem_append_left _ hin
    · exact List.mem_append_right _ (List.mem_cons_of_mem _ hin)

private theorem taskStep (h : s.Custody) {before after next : List SyncTask} {task : SyncTask}
    {event : SyncEvent} (htasks : s.tasks = before ++ task :: after)
    (hstep : task.Step s event next t) (hbenign : s.Benign event) :
    Custody { t with tasks := before ++ next ++ after } := by
  cases hstep with
  | failDrain | failCut | failEncode | failDecode => exact hbenign.elim
  | finalizeDrain ops | fits ops | finalizeCut ops | failSend id ops =>
    exact h.passOn [] htasks rfl rfl rfl rfl (by simp [SyncTask.ops])
      (fun _ _ hm => hm) (by simp)
  | encode ops =>
    exact h.passOn [] htasks rfl rfl rfl rfl (by simp [SyncTask.ops])
      (fun _ _ hm => hm) (by simp)
  | cut ops =>
    refine h.passOn _ htasks rfl rfl rfl rfl (fun op => ?_) (fun _ _ hm => hm) (by simp)
    rw [List.flatMap_singleton]
    conv_lhs => rw [SyncTask.ops, ← List.take_append_drop (max s.maxOpsPerMessage 1) ops]
    rw [List.mem_append, or_comm]
    rfl
  | putBack ops =>
    exact h.passOn _ htasks rfl rfl rfl rfl (by simp [SyncTask.ops]) (fun _ _ hm => hm) (by simp)
  | requeue ops messages =>
    exact h.passOn _ htasks rfl rfl rfl rfl (by simp [SyncTask.ops]) (fun _ _ hm => hm) (by simp)
  | requeueDone =>
    exact h.passOn [] htasks rfl rfl rfl rfl (by simp [SyncTask.ops])
      (fun _ _ hm => hm) (by simp)
  | send id ops hconnected =>
    have hnew : s.messages[id]? = none := hbenign
    refine h.passOn [] htasks rfl rfl rfl rfl (by simp [SyncTask.ops])
      (fun i other hm => ?_) (fun i other hin => ?_)
    · have hne : id ≠ i := by
        rintro rfl
        rw [hnew] at hm
        cases hm
      rw [BTreeMap.get_insert, if_neg hne, hm]
    · cases List.mem_singleton.mp hin
      rw [BTreeMap.get_insert, if_pos rfl]
  | enter id ops =>
    rw [List.append_nil]
    exact h.enter htasks

private theorem step (h : s.Custody) {event : SyncEvent} (hstep : s.Step event t)
    (hbenign : s.Benign event) : t.Custody := by
  cases hstep with
  | write hsteps => exact h.write hsteps hbenign
  | other hqueue hclock =>
    exact h.move [] hqueue hclock rfl rfl
      (fun op hop => hop.resolve_left List.not_mem_nil) (fun op hop => Or.inr hop) h.inflight h.sent
  | connect => exact { h with }
  | disconnect => exact { h with }
  | drain => exact h.drain
  | task before after htasks htask => exact h.taskStep htasks htask hbenign
  | acknowledge id => exact h.acknowledge id
  | takeInflight => exact h.takeInflight

private theorem run {start : SyncState} (hstart : start.Fresh) (h : Run Benign start s) :
    s.Custody := by
  induction h with
  | refl => exact .start hstart
  | tail hrun hstep hbenign ih => exact ih.step hstep hbenign

end Custody

/-- In every run from a fresh client in which writes advance the clock, message numbers are not
used twice and no storage, encoding or decoding fails inside a flush attempt or a requeue, no
local update is lost: the newest local operation of each slot is acknowledged or in the pending
queue or the inflight table, in every state in which no task is left with operations in hand. -/
theorem run_keeps {start : SyncState} (hstart : start.Fresh) (h : Run Benign start s)
    (hhands : ∀ task ∈ s.tasks, task.ops = []) : s.Keeps := by
  have hcustody := Custody.run hstart h
  intro key op hop hunacknowledged
  refine ⟨op, (hcustody.latest key op hop).1, Or.inl rfl, ?_⟩
  rcases (hcustody.kept key op hop).resolve_left hunacknowledged with hpending | hinflight | htask
  · exact Or.inl hpending
  · exact Or.inr hinflight
  · obtain ⟨task, hmem, hin⟩ := List.mem_flatMap.mp htask
    rw [hhands task hmem] at hin
    cases hin

/-- A connected client on an empty database. -/
def emptyClient : SyncState where
  ledger := freshDatabase.inner.ledger
  maxOpsPerMessage := 256
  connected := true
  nextMessageSeq := 0
  inflight := ∅
  tasks := []
  latest := ∅
  messages := ∅
  acknowledged := []

private theorem emptyClient_fresh : emptyClient.Fresh where
  wf := .empty
  clock op hop := absurd hop List.not_mem_nil
  latest key := by simp [emptyClient, CompactedOperations.entry]; rfl
  tasks := rfl
  inflight := rfl
  messages := rfl
  acknowledged := rfl

/-- The client after one local write. -/
def writtenClient : SyncState :=
  { emptyClient with
    ledger := ((Program.putJson "n" ["f"] (.bool true)).exec freshDatabase.inner).2.ledger
    latest := recordLatest ∅
      (acceptedOps ((Program.putJson "n" ["f"] (.bool true)).issued freshDatabase.inner)) }

private theorem emptyClient_step :
    emptyClient.Step (.write ((Program.putJson "n" ["f"] (.bool true)).issued freshDatabase.inner))
      writtenClient :=
  .write emptyClient ((Program.putJson "n" ["f"] (.bool true)).exec_steps fun engine => engine.elim)

private theorem emptyClient_benign :
    emptyClient.Benign
      (.write ((Program.putJson "n" ["f"] (.bool true)).issued freshDatabase.inner)) := by
  change ∀ entry ∈ (Program.putJson "n" ["f"] (.bool true)).issued freshDatabase.inner,
    emptyClient.ledger.clock.revision < entry.op.revision
  decide

/-- A flush attempt without failures moves the operation from the pending queue to the inflight
table. -/
theorem run_keeps_flushed :
    ∃ s, Run Benign emptyClient s ∧ s.ledger.pendingOps.operations = [] ∧ s.Keeps := by
  have hdrained := (Run.refl.tail emptyClient_step emptyClient_benign).tail
    (.drain writtenClient rfl (by decide)) trivial
  have hready := (hdrained.tail (.task _ [] [] rfl (.finalizeDrain _ _)) trivial).tail
    (.task _ [] [] rfl (.fits _ _ (by decide))) trivial
  have hsent := (hready.tail (.task _ [] [] rfl (.encode _ _)) trivial).tail
    (.task _ [] [] rfl (.send _ _ _ rfl)) rfl
  have hentered := hsent.tail (.task _ [] [] rfl (.enter _ _ _)) trivial
  exact ⟨_, hentered, rfl, run_keeps emptyClient_fresh hentered
    fun task hmem => absurd hmem List.not_mem_nil⟩

/-- When the persist of a drain fails, the drained operation is in no queue and in no hands. -/
theorem run_loses_drained :
    ∃ s, Run (fun _ _ => True) emptyClient s ∧ s.tasks = [] ∧ ¬ s.Keeps := by
  refine ⟨_, ((Run.refl.tail emptyClient_step trivial).tail
    (.drain writtenClient rfl (by decide)) trivial).tail
    (.task _ [] [] rfl (.failDrain _ _)) trivial, rfl, fun h => ?_⟩
  obtain ⟨o, -, -, hpending | ⟨id, ops, hops, -⟩⟩ := h (.field "n" "f")
    (writtenClient.ledger.pendingOps.operations.head (by decide)) rfl List.not_mem_nil
  · exact absurd hpending List.not_mem_nil
  · exact absurd hops (by simp [writtenClient, emptyClient])

end SyncState

end Primadb

import Primadb.Data.Operation

/-!
# The compacted queue

The positions kept beside the queued operations are those of their compaction
keys, and every operation of the queue keeps it so. A push replaces the queued
operation of its key in place unless that one is newer, or appends.
-/

namespace Primadb

open OperationCompactionKey

/-- The one of two operations of a key that a queue keeps. -/
def Operation.newer (old op : Operation) : Operation :=
  if op.revision ≥ old.revision then op else old

/-- Choosing between operations of one key keeps the key. -/
theorem Operation.fromOperation_newer {old op : Operation}
    (h : fromOperation old = fromOperation op) :
    fromOperation (old.newer op) = fromOperation op := by
  rw [Operation.newer]
  split
  · rfl
  · exact h

/-- Of an old entry and newer and newer operations the last one counts. -/
theorem Operation.newer_newer {old a b : Operation} (h : a.revision ≤ b.revision) :
    (old.newer a).newer b = old.newer b := by
  simp only [Operation.newer]
  grind

namespace CompactedOperations

/-- The positions are those of the compaction keys of the queued operations. -/
def Wf (queue : CompactedOperations) : Prop :=
  ∀ key index, queue.indices[key]? = some index ↔
    ∃ op, queue.operations[index]? = some op ∧ fromOperation op = key

variable {queue : CompactedOperations} {op : Operation}

theorem Wf.empty : Wf empty := by
  intro key index
  simp [CompactedOperations.empty]

private theorem Wf.index_unique (h : queue.Wf) {i j : ℕ} {a b : Operation}
    (ha : queue.operations[i]? = some a) (hb : queue.operations[j]? = some b)
    (hk : fromOperation a = fromOperation b) : i = j := by
  have hi := (h (fromOperation a) i).mpr ⟨a, ha, rfl⟩
  have hj := (h (fromOperation a) j).mpr ⟨b, hb, hk.symm⟩
  exact Option.some.inj (hi.symm.trans hj)

/-- Distinct positions hold distinct keys. -/
theorem Wf.nodup (h : queue.Wf) : (queue.operations.map fromOperation).Nodup := by
  rw [List.nodup_iff_getElem?_ne_getElem?]
  intro i j hij hj heq
  rw [List.length_map] at hj
  rw [List.getElem?_map, List.getElem?_map, List.getElem?_eq_getElem (hij.trans hj),
    List.getElem?_eq_getElem hj, Option.map_some, Option.map_some, Option.some.injEq] at heq
  exact hij.ne (h.index_unique (List.getElem?_eq_getElem (hij.trans hj))
    (List.getElem?_eq_getElem hj) heq)

private theorem Wf.push_cases (h : queue.Wf) (op : Operation) :
    (∃ index old, queue.operations[index]? = some old ∧ fromOperation old = fromOperation op ∧
      queue.push op = { queue with operations := queue.operations.set index (old.newer op) }) ∨
    (∀ o ∈ queue.operations, fromOperation o ≠ fromOperation op) ∧
      queue.push op = ⟨queue.operations ++ [op],
        queue.indices.insert (fromOperation op) queue.operations.length⟩ := by
  cases hi : queue.indices[fromOperation op]? with
  | some index =>
    obtain ⟨old, hold, hkey⟩ := (h _ _).mp hi
    refine Or.inl ⟨index, old, hold, hkey, ?_⟩
    simp only [push, hi, hold, Operation.newer]
    split
    · rfl
    · obtain ⟨hlt, hget⟩ := List.getElem?_eq_some_iff.mp hold
      rw [← hget, List.set_getElem_self]
  | none =>
    refine Or.inr ⟨fun o ho hkey => ?_, by simp only [push, hi]⟩
    obtain ⟨index, hindex⟩ := List.mem_iff_getElem?.mp ho
    rw [(h _ index).mpr ⟨o, hindex, hkey⟩] at hi
    cases hi

/-- Pushing keeps the queue well formed. -/
theorem Wf.push (h : queue.Wf) (op : Operation) : (queue.push op).Wf := by
  rcases h.push_cases op with ⟨index, old, hold, hkey, heq⟩ | ⟨hnone, heq⟩
  · rw [heq]
    intro key j
    rw [h key j]
    have hlt := (List.getElem?_eq_some_iff.mp hold).1
    by_cases hj : index = j
    · subst hj
      rw [hold, List.getElem?_set_self hlt]
      simp [hkey, Operation.fromOperation_newer hkey]
    · simp [hj]
  · rw [heq]
    intro key j
    simp only [BTreeMap.get_insert]
    split
    · rename_i hk
      subst hk
      constructor
      · rintro hj
        cases hj
        exact ⟨op, by simp, rfl⟩
      · rintro ⟨o, ho, hkey⟩
        rw [List.getElem?_append] at ho
        split at ho
        · exact absurd hkey (hnone o (List.mem_of_getElem? ho))
        · rw [List.getElem?_singleton] at ho
          split at ho
          · exact congrArg some (by omega)
          · cases ho
    · rename_i hk
      rw [h key j]
      refine exists_congr fun o => and_congr_left fun hkey => ?_
      rw [List.getElem?_append]
      split
      · rfl
      · rename_i hlt
        rw [List.getElem?_eq_none (not_lt.mp hlt), List.getElem?_singleton]
        refine iff_of_false (by simp) ?_
        split
        · intro ho
          cases ho
          exact hk hkey
        · simp

/-- A push replaces the operation of its key in place or appends. -/
theorem Wf.push_operations (h : queue.Wf) (op : Operation) :
    (queue.push op).operations =
      if queue.operations.any (fromOperation · == fromOperation op) then
        queue.operations.map fun o => if fromOperation o == fromOperation op then o.newer op else o
      else queue.operations ++ [op] := by
  rcases h.push_cases op with ⟨index, old, hold, hkey, heq⟩ | ⟨hnone, heq⟩
  · have hany : queue.operations.any (fromOperation · == fromOperation op) = true :=
      List.any_eq_true.mpr ⟨old, List.mem_of_getElem? hold, by simp [hkey]⟩
    rw [heq, if_pos hany]
    refine List.ext_getElem? fun j => ?_
    rw [List.getElem?_map]
    by_cases hj : index = j
    · subst hj
      rw [hold, List.getElem?_set_self (List.getElem?_eq_some_iff.mp hold).1]
      simp [hkey]
    · rw [List.getElem?_set_ne hj]
      cases ho : queue.operations[j]? with
      | none => rfl
      | some o =>
        have hne : fromOperation o ≠ fromOperation op := fun hk =>
          hj (h.index_unique hold ho (hkey.trans hk.symm))
        simp [hne]
  · have hany : ¬ queue.operations.any (fromOperation · == fromOperation op) = true := by
      rw [List.any_eq_true]
      rintro ⟨o, ho, hkey⟩
      exact hnone o ho (by simpa using hkey)
    rw [heq, if_neg hany]

private theorem Wf.mem_push (h : queue.Wf) {o : Operation} (ho : o ∈ (queue.push op).operations) :
    o = op ∨ o ∈ queue.operations := by
  rw [h.push_operations] at ho
  split at ho
  · obtain ⟨q, hq, rfl⟩ := List.mem_map.mp ho
    split
    · rw [Operation.newer]
      split
      · exact Or.inl rfl
      · exact Or.inr hq
    · exact Or.inr hq
  · rcases List.mem_append.mp ho with ho | ho
    · exact Or.inr ho
    · exact Or.inl (List.mem_singleton.mp ho)

/-- Pushing a list keeps the queue well formed. -/
theorem Wf.foldl_push (h : queue.Wf) (ops : List Operation) :
    (ops.foldl CompactedOperations.push queue).Wf := by
  induction ops generalizing queue with
  | nil => exact h
  | cons op ops ih => exact ih (h.push op)

theorem Wf.fromOperations (ops : List Operation) : (fromOperations ops).Wf :=
  Wf.empty.foldl_push ops

/-- Draining the head keeps the queue well formed. -/
theorem Wf.drainPrefix (h : queue.Wf) (count : ℕ) : (queue.drainPrefix count).Wf := by
  intro key index
  have hkey := h key (index + count)
  simp only [CompactedOperations.drainPrefix, Std.ExtTreeMap.getElem?_map,
    Std.ExtTreeMap.getElem?_filter, List.getElem?_drop]
  rw [Nat.add_comm count index, ← hkey]
  cases queue.indices[key]? with
  | none => simp
  | some i =>
    by_cases hle : count ≤ i
    · simp only [Option.pfilter_some, hle, decide_true, if_true, Option.map_some,
        Option.some.injEq]
      omega
    · simp only [Option.pfilter_some, hle, decide_false, Bool.false_eq_true, if_false,
        Option.map_none, reduceCtorEq, false_iff, Option.some.injEq]
      omega

/-- The queued operation of a key. -/
def entry (queue : CompactedOperations) (key : OperationCompactionKey) : Option Operation :=
  queue.operations.find? (fromOperation · == key)

/-- An entry has the key it is found under. -/
theorem fromOperation_of_entry {key : OperationCompactionKey} {o : Operation}
    (h : queue.entry key = some o) : fromOperation o = key := by
  simpa using List.find?_some h

/-- The queued operations are the entries of their keys. -/
theorem Wf.mem_iff_entry (h : queue.Wf) (o : Operation) :
    o ∈ queue.operations ↔ queue.entry (fromOperation o) = some o := by
  refine ⟨fun ho => ?_, List.mem_of_find?_eq_some⟩
  obtain ⟨found, hfound⟩ : ∃ found, queue.entry (fromOperation o) = some found :=
    Option.isSome_iff_exists.mp (List.find?_isSome.mpr ⟨o, ho, by simp⟩)
  obtain ⟨i, hi⟩ := List.mem_iff_getElem?.mp ho
  obtain ⟨j, hj⟩ := List.mem_iff_getElem?.mp (List.mem_of_find?_eq_some hfound)
  have hij := h.index_unique hi hj (fromOperation_of_entry hfound).symm
  subst hij
  rw [hfound, ← hj, hi]

/-- A push changes the entry of its key alone. -/
theorem Wf.entry_push (h : queue.Wf) (op : Operation) (key : OperationCompactionKey) :
    (queue.push op).entry key =
      if fromOperation op = key then some ((queue.entry key).elim op (·.newer op))
      else queue.entry key := by
  rw [entry, h.push_operations]
  split
  · rename_i hany
    have hkeys : (fun o : Operation => fromOperation o == key) ∘
        (fun o => if fromOperation o == fromOperation op then o.newer op else o) =
          fun o => fromOperation o == key := by
      funext o
      by_cases ho : fromOperation o = fromOperation op
      · simp [ho, Operation.fromOperation_newer ho]
      · simp [ho]
    rw [List.find?_map, hkeys]
    split
    · rename_i hk
      subst hk
      obtain ⟨found, hfound⟩ := Option.isSome_iff_exists.mp
        (List.find?_isSome.mpr (List.any_eq_true.mp hany))
      have hkey : fromOperation found = fromOperation op := by simpa using List.find?_some hfound
      rw [hfound, entry, hfound]
      simp [hkey]
    · rename_i hk
      rw [entry]
      cases hfound : queue.operations.find? (fromOperation · == key) with
      | none => rfl
      | some found =>
        have hkey : fromOperation found = key := by simpa using List.find?_some hfound
        simp [hkey, Ne.symm hk]
  · rename_i hany
    rw [List.find?_append, entry]
    split
    · rename_i hk
      subst hk
      have hnone : queue.operations.find? (fromOperation · == fromOperation op) = none :=
        List.find?_eq_none.mpr fun o ho hk => hany (List.any_eq_true.mpr ⟨o, ho, hk⟩)
      simp [hnone]
    · rename_i hk
      simp [hk]

/-- What is queued was queued or pushed. -/
theorem Wf.mem_of_mem_foldl_push (h : queue.Wf) {ops : List Operation} {o : Operation}
    (ho : o ∈ (ops.foldl CompactedOperations.push queue).operations) :
    o ∈ queue.operations ∨ o ∈ ops := by
  induction ops generalizing queue with
  | nil => exact Or.inl ho
  | cons op ops ih =>
    rcases ih (h.push op) ho with ho | ho
    · exact (h.mem_push ho).elim (fun heq => Or.inr (by simp [heq])) Or.inl
    · exact Or.inr (List.mem_cons_of_mem _ ho)

/-- An operation newer than all others of its key stays in the queue. -/
theorem Wf.mem_push_newest (h : queue.Wf) {op o : Operation}
    (hnewest : ∀ a, a ∈ queue.operations ∨ a = op → fromOperation a = fromOperation o →
      a = o ∨ a.revision < o.revision)
    (ho : o ∈ queue.operations ∨ o = op) : o ∈ (queue.push op).operations := by
  rw [(h.push op).mem_iff_entry, h.entry_push]
  by_cases hkey : fromOperation op = fromOperation o
  · rw [if_pos hkey]
    cases hentry : queue.entry (fromOperation o) with
    | none =>
      refine congrArg some (ho.resolve_left fun hmem => ?_).symm
      rw [h.mem_iff_entry, hentry] at hmem
      cases hmem
    | some old =>
      have hold := List.mem_of_find?_eq_some hentry
      rw [Option.elim_some, Operation.newer]
      rcases hnewest old (Or.inl hold) (fromOperation_of_entry hentry) with rfl | hlt
      · rcases hnewest op (Or.inr rfl) hkey with rfl | hop
        · simp
        · rw [if_neg (not_le.mpr hop)]
      · -- another entry of the key is there, so the operation is the one pushed
        have heq : o = op := ho.resolve_left fun hmem => by
          rw [h.mem_iff_entry, hentry, Option.some.injEq] at hmem
          exact absurd hlt (hmem ▸ lt_irrefl _)
        rw [← heq, if_pos hlt.le]
  · rw [if_neg hkey]
    refine (h.mem_iff_entry o).mp (ho.resolve_right fun heq => hkey ?_)
    rw [heq]

/-- An operation newer than all others of its key stays in the queue through pushes. -/
theorem Wf.mem_foldl_push_newest (h : queue.Wf) {ops : List Operation} {o : Operation}
    (hnewest : ∀ a, a ∈ queue.operations ∨ a ∈ ops → fromOperation a = fromOperation o →
      a = o ∨ a.revision < o.revision)
    (ho : o ∈ queue.operations ∨ o ∈ ops) :
    o ∈ (ops.foldl CompactedOperations.push queue).operations := by
  induction ops generalizing queue with
  | nil => exact ho.resolve_right List.not_mem_nil
  | cons op ops ih =>
    refine ih (h.push op) (fun a ha => hnewest a ?_) ?_
    · rcases ha with ha | ha
      · exact (h.mem_push ha).elim (fun heq => Or.inr (by simp [heq])) Or.inl
      · exact Or.inr (List.mem_cons_of_mem _ ha)
    · rcases ho with ho | ho
      · exact Or.inl (h.mem_push_newest (fun a ha => hnewest a
          (ha.imp_right fun heq => by simp [heq])) (Or.inl ho))
      · rcases List.mem_cons.mp ho with ho | ho
        · exact Or.inl (h.mem_push_newest (fun a ha => hnewest a
            (ha.imp_right fun heq => by simp [heq])) (Or.inr ho))
        · exact Or.inr ho

/-- What pushes in the order of revisions keep. -/
private theorem foldl_push_induct {P : CompactedOperations → List Operation → Prop}
    {start : CompactedOperations} (hstart : P start [])
    (hpush : ∀ {queue ops}, P queue ops → ∀ {op : Operation},
      (∀ o ∈ ops, o.revision ≤ op.revision) → P (queue.push op) (ops ++ [op]))
    {ops : List Operation} (hsorted : ops.Pairwise (·.revision ≤ ·.revision)) :
    P (ops.foldl CompactedOperations.push start) ops := by
  induction ops using List.reverseRecOn with
  | nil => exact hstart
  | append_singleton ops op ih =>
    obtain ⟨hops, -, hlast⟩ := List.pairwise_append.mp hsorted
    rw [List.foldl_append]
    exact hpush (ih hops) fun o ho => hlast o ho op (List.mem_singleton.mpr rfl)

/-- Pushing operations, none older than an earlier one, leaves for each key the newer one of its
old entry and the last of them. -/
structure Pushed (start queue : CompactedOperations) (ops : List Operation) : Prop where
  wf : queue.Wf
  entries : ∀ key, queue.entry key =
    match (ops.filter (fromOperation · == key)).getLast? with
    | none => start.entry key
    | some op => some ((start.entry key).elim op (·.newer op))

namespace Pushed

variable {start queue : CompactedOperations} {ops : List Operation}

private theorem refl (h : start.Wf) : Pushed start start [] := ⟨h, fun _ => rfl⟩

/-- A push of an operation that is not older than those before it. -/
theorem push (h : Pushed start queue ops) {op : Operation}
    (hrev : ∀ o ∈ ops, o.revision ≤ op.revision) : Pushed start (queue.push op) (ops ++ [op]) := by
  refine ⟨h.wf.push op, fun key => ?_⟩
  rw [h.wf.entry_push, List.filter_append]
  by_cases hk : fromOperation op = key
  · rw [if_pos hk, h.entries key]
    simp only [hk, beq_self_eq_true, List.filter_cons_of_pos, List.filter_nil,
      List.getLast?_append, List.getLast?_singleton, Option.some_or]
    split
    · rfl
    · rename_i last hlast
      have hle := hrev last (List.mem_of_mem_filter (List.mem_of_getLast? hlast))
      cases start.entry key with
      | none => simp [Operation.newer, hle]
      | some old => simp [Operation.newer_newer hle]
  · rw [if_neg hk, h.entries key]
    simp [hk]

theorem foldl (h : start.Wf) (hsorted : ops.Pairwise (·.revision ≤ ·.revision)) :
    Pushed start (ops.foldl CompactedOperations.push start) ops :=
  foldl_push_induct (refl h) push hsorted

/-- The last operation of its key is queued exactly when no newer one of the key was. -/
theorem mem_iff (h : Pushed start queue ops) (hwf : start.Wf) {op : Operation}
    (hlast : (ops.filter (fromOperation · == fromOperation op)).getLast? = some op) :
    op ∈ queue.operations ↔ ∀ old ∈ start.operations, fromOperation old = fromOperation op →
      old.revision ≤ op.revision := by
  rw [h.wf.mem_iff_entry, h.entries, hlast]
  cases hentry : start.entry (fromOperation op) with
  | none =>
    refine iff_of_true rfl fun old hold hkey => ?_
    rw [hwf.mem_iff_entry, hkey, hentry] at hold
    cases hold
  | some old =>
    have hmem : ∀ o ∈ start.operations, fromOperation o = fromOperation op → o = old := by
      intro o ho hkey
      rw [hwf.mem_iff_entry, hkey, hentry] at ho
      exact (Option.some.inj ho).symm
    have hold : old ∈ start.operations := List.mem_of_find?_eq_some hentry
    simp only [Option.elim_some, Option.some.injEq]
    constructor
    · intro heq o ho hkey
      rw [hmem o ho hkey]
      by_contra hlt
      rw [Operation.newer, if_neg hlt] at heq
      exact hlt (heq ▸ le_refl _)
    · intro hle
      rw [Operation.newer, if_pos (hle old hold (fromOperation_of_entry hentry))]

end Pushed

/-- Replacing an entry by the newer one of its key leaves the keys alone. -/
theorem map_set_newer {ops : List Operation} {index : ℕ} {old op : Operation}
    (hold : ops[index]? = some old) (hkey : fromOperation old = fromOperation op) :
    (ops.set index (old.newer op)).map fromOperation = ops.map fromOperation := by
  obtain ⟨hlt, hget⟩ := List.getElem?_eq_some_iff.mp hold
  rw [List.map_set, Operation.fromOperation_newer hkey, ← hkey, ← hget,
    ← List.getElem_map fromOperation (h := by simpa using hlt), List.set_getElem_self]

/-- The queue after pushing operations onto `start`, none older than an earlier one: the old
entries keep their keys and places, and each entry behind them is the last one pushed for its
key. -/
structure Grown (start queue : CompactedOperations) (ops : List Operation) : Prop where
  wf : queue.Wf
  front : (queue.operations.take start.len).map fromOperation =
    start.operations.map fromOperation
  newest : ∀ o ∈ queue.operations.drop start.len,
    (ops.filter (fromOperation · == fromOperation o)).getLast? = some o
  covers : ∀ o ∈ ops, fromOperation o ∈ queue.operations.map fromOperation

namespace Grown

variable {start queue : CompactedOperations} {ops : List Operation}

private theorem refl (h : start.Wf) : Grown start start [] where
  wf := h
  front := by simp [len]
  newest o ho := by simp [len] at ho
  covers o ho := by simp at ho

private theorem len_le (h : Grown start queue ops) : start.len ≤ queue.operations.length := by
  have hlen := congrArg List.length h.front
  simp only [List.length_map, List.length_take, len] at hlen ⊢
  omega

/-- A push of an operation that is not older than those before it. -/
theorem push (h : Grown start queue ops) {op : Operation}
    (hrev : ∀ o ∈ ops, o.revision ≤ op.revision) : Grown start (queue.push op) (ops ++ [op]) := by
  have hother : ∀ o : Operation, fromOperation o ≠ fromOperation op →
      (ops ++ [op]).filter (fromOperation · == fromOperation o) =
        ops.filter (fromOperation · == fromOperation o) := by
    intro o hne
    simp [List.filter_append, Ne.symm hne]
  have hself : ((ops ++ [op]).filter (fromOperation · == fromOperation op)).getLast? = some op := by
    simp [List.filter_append]
  refine ⟨h.wf.push op, ?_, ?_, ?_⟩
  all_goals rcases h.wf.push_cases op with ⟨index, old, hold, hkey, heq⟩ | ⟨hnone, heq⟩
  all_goals rw [heq]
  · rw [List.map_take, map_set_newer hold hkey, ← List.map_take, h.front]
  · rw [List.take_append_of_le_length h.len_le, h.front]
  · intro o ho
    obtain ⟨j, hj⟩ := List.mem_iff_getElem?.mp ho
    rw [List.getElem?_drop] at hj
    by_cases hindex : index = start.len + j
    · -- the replaced entry is behind the old ones, hence one of the pushed operations
      rw [← hindex] at hj
      rw [List.getElem?_set_self (List.getElem?_eq_some_iff.mp hold).1, Option.some.injEq] at hj
      have hback : old ∈ queue.operations.drop start.len :=
        List.mem_iff_getElem?.mpr ⟨j, by rw [List.getElem?_drop, ← hindex, hold]⟩
      have hmem := List.mem_of_mem_filter (List.mem_of_getLast? (h.newest old hback))
      rw [Operation.newer, if_pos (hrev old hmem)] at hj
      rw [← hj]
      exact hself
    · rw [List.getElem?_set_ne hindex] at hj
      have hne : fromOperation o ≠ fromOperation op := fun hk =>
        hindex (h.wf.index_unique hold hj (hkey.trans hk.symm))
      rw [hother o hne]
      exact h.newest o (List.mem_iff_getElem?.mpr ⟨j, by rw [List.getElem?_drop, hj]⟩)
  · intro o ho
    rw [List.drop_append_of_le_length h.len_le] at ho
    rcases List.mem_append.mp ho with ho | ho
    · rw [hother o (hnone o (List.mem_of_mem_drop ho))]
      exact h.newest o ho
    · rw [List.mem_singleton.mp ho]
      exact hself
  · intro o ho
    rw [map_set_newer hold hkey]
    rcases List.mem_append.mp ho with ho | ho
    · exact h.covers o ho
    · rw [List.mem_singleton.mp ho, ← hkey]
      exact List.mem_map_of_mem (List.mem_of_getElem? hold)
  · intro o ho
    rw [List.map_append, List.mem_append]
    rcases List.mem_append.mp ho with ho | ho
    · exact Or.inl (h.covers o ho)
    · exact Or.inr (by simp [List.mem_singleton.mp ho])

theorem foldl (h : start.Wf) (hsorted : ops.Pairwise (·.revision ≤ ·.revision)) :
    Grown start (ops.foldl CompactedOperations.push start) ops :=
  foldl_push_induct (refl h) push hsorted

/-- Behind the old entries are the pushed keys that were not queued. -/
theorem mem_back (h : Grown start queue ops) (key : OperationCompactionKey) :
    key ∈ (queue.operations.drop start.len).map fromOperation ↔
      key ∈ ops.map fromOperation ∧ key ∉ start.operations.map fromOperation := by
  have hnodup := h.wf.nodup
  rw [← List.take_append_drop start.len queue.operations, List.map_append, h.front] at hnodup
  constructor
  · intro hkey
    obtain ⟨o, ho, rfl⟩ := List.mem_map.mp hkey
    have hmem := List.mem_of_mem_filter (List.mem_of_getLast? (h.newest o ho))
    refine ⟨List.mem_map_of_mem hmem, fun hstart => ?_⟩
    exact (List.nodup_append.mp hnodup).2.2 _ hstart _ hkey rfl
  · rintro ⟨hkey, hstart⟩
    obtain ⟨o, ho, rfl⟩ := List.mem_map.mp hkey
    have hq := h.covers o ho
    rw [← List.take_append_drop start.len queue.operations, List.map_append, h.front,
      List.mem_append] at hq
    exact hq.resolve_left hstart

/-- No key is twice behind the old entries. -/
theorem back_nodup (h : Grown start queue ops) :
    ((queue.operations.drop start.len).map fromOperation).Nodup :=
  h.wf.nodup.sublist ((List.drop_sublist _ _).map _)

end Grown

end CompactedOperations

end Primadb

import Primadb.Core.Chunks
import Primadb.Db.RecordWatch
import Primadb.Net.Route
import Primadb.Net.WatchOverlap

/-!
# Remote results in parts

A result that is served to another peer is split into responses, and the asking peer gathers their
bodies in an accumulator of the kind of its request. The parts are numbered in 32 bits. Gathered
in order the bodies give the result again when the accumulator takes results of that kind.
-/

namespace Primadb

/-- A field of a node with its value. -/
structure MapEntry where
  /-- The field. -/
  key : String
  value : JsonValue
  deriving DecidableEq

/-- A path with its last key and its value. -/
structure LexEntry where
  path : String
  /-- Its last key. -/
  key : String
  value : JsonValue
  deriving DecidableEq

/-- `RemoteResult`, with vector search results `ν`, text search results `τ` and transaction
reports `κ`; the snapshots hold no provisional data. -/
inductive RemoteResult (ν τ κ : Type) where
  | get (value : Option JsonValue)
  | map (entries : List MapEntry)
  | query (entries : List MapEntry)
  | lex (entries : List LexEntry)
  | records (result : RecordScanResult)
  | vectorSearch (result : ν)
  | textSearch (result : τ)
  | node (node : Option NodeState)
  | snapshot (snapshot : DatabaseSnapshot)
  | transaction (report : κ)

/-- `PullResponseBody`. -/
inductive PullResponseBody (ν τ κ : Type) where
  | get (value : Option JsonValue)
  | map (entries : List MapEntry)
  | query (entries : List MapEntry)
  | lex (entries : List LexEntry)
  | records (entries : List RecordEntry) (nextCursor : Option String)
  | vectorSearch (result : ν)
  | textSearch (result : τ)
  | node (node : Option NodeState)
  | snapshot (clock : Option HybridClock) (nodes : BTreeMap NodeId NodeState)
      (pendingOps : List Operation) (scopePolicies : BTreeMap String ScopePolicy)
  | transaction (report : κ)
  | error (message : String)

/-- `PullAccumulator`. -/
inductive PullAccumulator (ν τ κ : Type) where
  | get (value : Option JsonValue)
  | map (entries : List MapEntry)
  | query (entries : List MapEntry)
  | lex (entries : List LexEntry)
  | records (entries : List RecordEntry) (nextCursor : Option String)
  | vectorSearch (result : Option ν)
  | textSearch (result : Option τ)
  | node (node : Option NodeState)
  | snapshot (clock : Option HybridClock) (nodes : BTreeMap NodeId NodeState)
      (pendingOps : List Operation) (scopePolicies : BTreeMap String ScopePolicy)
  | transaction (report : Option κ)

/-- The limits on the parts of a result. -/
structure ChunkLimits where
  maxQueryEntriesPerChunk : ℕ
  maxSnapshotNodesPerChunk : ℕ
  maxSnapshotOpsPerChunk : ℕ

/-! ## Splitting -/

/-- A conversion to 32 bits. -/
def asU32 (n : ℕ) : ℕ := n % 2 ^ 32

/-- `chunk_vec`; long lists are split in parallel, with the same parts. -/
def chunkVec {α : Type} (items : List α) (chunkSize : ℕ) : List (List α) :=
  if items.isEmpty then [] else items.toChunks (max chunkSize 1)

section Maps

variable {κ ν : Type} [Ord κ] [Std.TransOrd κ]

/-- `extend` of a map by entries. -/
def BTreeMap.extend (m : BTreeMap κ ν) (entries : List (κ × ν)) : BTreeMap κ ν :=
  entries.foldl (fun m entry => m.insert entry.1 entry.2) m

/-- One round of the loop of `chunk_btree_map_serial`, on the full maps, the map that is filled
and the number of the entry. -/
def chunkSerialStep (chunkSize : ℕ) (st : List (BTreeMap κ ν) × BTreeMap κ ν × ℕ) (entry : κ × ν) :
    List (BTreeMap κ ν) × BTreeMap κ ν × ℕ :=
  let current := st.2.1.insert entry.1 entry.2
  if (st.2.2 + 1) % chunkSize = 0 then (st.1 ++ [current], ∅, st.2.2 + 1)
  else (st.1, current, st.2.2 + 1)

/-- `chunk_btree_map_serial`. -/
def chunkBtreeMapSerial (items : BTreeMap κ ν) (chunkSize : ℕ) : List (BTreeMap κ ν) :=
  let filled := items.toList.foldl (chunkSerialStep chunkSize) ([], ∅, 0)
  if filled.2.1.isEmpty then filled.1 else filled.1 ++ [filled.2.1]

/-- `PARALLEL_CHUNK_MIN_LEN`. -/
def parallelChunkMinLen : ℕ := 512

/-- `chunk_btree_map`. -/
def chunkBtreeMap (items : BTreeMap κ ν) (chunkSize : ℕ) : List (BTreeMap κ ν) :=
  if items.isEmpty then []
  else if items.size ≥ parallelChunkMinLen then
    (items.toList.toChunks (max chunkSize 1)).map (BTreeMap.extend ∅)
  else chunkBtreeMapSerial items (max chunkSize 1)

end Maps

section Build

variable {ν τ κ α : Type}

/-- A response of its own. -/
def wholeResponse (requestId : String) (result : PullResponseBody ν τ κ) :
    PullResponse (PullResponseBody ν τ κ) :=
  ⟨requestId, ⟨0, 1⟩, true, result⟩

/-- A numbered response. -/
def chunkResponse (requestId : String) (index total : ℕ) (result : PullResponseBody ν τ κ) :
    PullResponse (PullResponseBody ν τ κ) :=
  ⟨requestId, ⟨asU32 index, asU32 total⟩, index + 1 == total, result⟩

/-- The responses of a list in parts; a body is told whether it is the last. -/
def buildChunkResponses (requestId : String) (chunks : List (List α))
    (body : List α → Bool → PullResponseBody ν τ κ) :
    List (PullResponse (PullResponseBody ν τ κ)) :=
  if chunks.isEmpty then [wholeResponse requestId (body [] true)]
  else chunks.mapIdx fun index entries =>
    chunkResponse requestId index chunks.length (body entries (index + 1 == chunks.length))

/-- `build_map_chunk_responses`. -/
def buildMapChunkResponses (requestId : String) (entries : List MapEntry) (chunkSize : ℕ) :
    List (PullResponse (PullResponseBody ν τ κ)) :=
  buildChunkResponses requestId (chunkVec entries chunkSize) fun entries _ => .map entries

/-- `build_query_chunk_responses`. -/
def buildQueryChunkResponses (requestId : String) (entries : List MapEntry) (chunkSize : ℕ) :
    List (PullResponse (PullResponseBody ν τ κ)) :=
  buildChunkResponses requestId (chunkVec entries chunkSize) fun entries _ => .query entries

/-- `build_lex_chunk_responses`. -/
def buildLexChunkResponses (requestId : String) (entries : List LexEntry) (chunkSize : ℕ) :
    List (PullResponse (PullResponseBody ν τ κ)) :=
  buildChunkResponses requestId (chunkVec entries chunkSize) fun entries _ => .lex entries

/-- `build_record_chunk_responses`: the cursor goes with the last part. -/
def buildRecordChunkResponses (requestId : String) (result : RecordScanResult) (chunkSize : ℕ) :
    List (PullResponse (PullResponseBody ν τ κ)) :=
  buildChunkResponses requestId (chunkVec result.entries chunkSize) fun entries last =>
    .records entries (if last then result.nextCursor else none)

/-- The body of a part of a snapshot: clock and policies go with the first. -/
def snapshotBody (snapshot : DatabaseSnapshot) (nodeChunks : List (BTreeMap NodeId NodeState))
    (opChunks : List (List Operation)) (index : ℕ) : PullResponseBody ν τ κ :=
  .snapshot (if index = 0 then some snapshot.clock else none) (nodeChunks[index]?.getD ∅)
    (opChunks[index]?.getD []) (if index = 0 then snapshot.scopePolicies else ∅)

/-- `build_pull_responses`. -/
def buildPullResponses (requestId : String) (result : RemoteResult ν τ κ) (limits : ChunkLimits) :
    List (PullResponse (PullResponseBody ν τ κ)) :=
  let entriesPerChunk := max limits.maxQueryEntriesPerChunk 1
  match result with
  | .get value => [wholeResponse requestId (.get value)]
  | .map entries => buildMapChunkResponses requestId entries entriesPerChunk
  | .query entries => buildQueryChunkResponses requestId entries entriesPerChunk
  | .lex entries => buildLexChunkResponses requestId entries entriesPerChunk
  | .records result => buildRecordChunkResponses requestId result entriesPerChunk
  | .vectorSearch result => [wholeResponse requestId (.vectorSearch result)]
  | .textSearch result => [wholeResponse requestId (.textSearch result)]
  | .node node => [wholeResponse requestId (.node node)]
  | .snapshot snapshot =>
    let nodeChunks := chunkBtreeMap snapshot.nodes (max limits.maxSnapshotNodesPerChunk 1)
    let opChunks := chunkVec snapshot.pendingOps (max limits.maxSnapshotOpsPerChunk 1)
    let total := max (max nodeChunks.length opChunks.length) 1
    (List.range total).map fun index =>
      chunkResponse requestId index total (snapshotBody snapshot nodeChunks opChunks index)
  | .transaction report => [wholeResponse requestId (.transaction report)]

/-- `chunk_watch_result`: the responses as events of the watch. -/
def buildWatchEvents (watchId : String) (sequence : ℕ) (initial : Bool)
    (result : RemoteResult ν τ κ) (limits : ChunkLimits) :
    List (WatchEvent (PullResponseBody ν τ κ)) :=
  (buildPullResponses watchId result limits).map fun response =>
    ⟨watchId, sequence, initial, response.chunk, response.done, response.result⟩

end Build

/-! ## Gathering -/

namespace PullAccumulator

variable {ν τ κ : Type}

/-- `PullAccumulator::new`. -/
def new : PullRequestKind → PullAccumulator ν τ κ
  | .get _ => .get none
  | .map _ => .map []
  | .query _ => .query []
  | .lex _ => .lex []
  | .records _ => .records [] none
  | .vectorSearch _ => .vectorSearch none
  | .textSearch _ => .textSearch none
  | .node _ => .node none
  | .snapshot _ => .snapshot none ∅ [] ∅
  | .transaction _ => .transaction none

/-- `apply_response_body`: the new accumulator and the message of a failure. -/
def applyResponseBody (accumulator : PullAccumulator ν τ κ) (result : PullResponseBody ν τ κ) :
    PullAccumulator ν τ κ × Option String :=
  match result with
  | .get value => (.get value, none)
  | .map entries =>
    match accumulator with
    | .map current => (.map (current ++ entries), none)
    | _ => (accumulator, none)
  | .query entries =>
    match accumulator with
    | .query current => (.query (current ++ entries), none)
    | _ => (accumulator, none)
  | .lex entries =>
    match accumulator with
    | .lex current => (.lex (current ++ entries), none)
    | _ => (accumulator, none)
  | .records entries nextCursor =>
    match accumulator with
    | .records current currentCursor =>
      (.records (current ++ entries)
        (if nextCursor.isSome then nextCursor else currentCursor), none)
    | _ => (accumulator, none)
  | .vectorSearch result => (.vectorSearch (some result), none)
  | .textSearch result => (.textSearch (some result), none)
  | .node state => (.node state, none)
  | .snapshot clock nodes pendingOps scopePolicies =>
    match accumulator with
    | .snapshot currentClock currentNodes currentOps currentScopePolicies =>
      (.snapshot (if currentClock.isNone then clock else currentClock)
        (currentNodes.extend nodes.toList) (currentOps ++ pendingOps)
        (currentScopePolicies.extend scopePolicies.toList), none)
    | _ => (accumulator, none)
  | .transaction report => (.transaction (some report), none)
  | .error message => (accumulator, some message)

/-- `into_result`. -/
def intoResult : PullAccumulator ν τ κ → Except PrimadbError (RemoteResult ν τ κ)
  | .get value => .ok (.get value)
  | .map entries => .ok (.map entries)
  | .query entries => .ok (.query entries)
  | .lex entries => .ok (.lex entries)
  | .records entries nextCursor => .ok (.records ⟨entries, nextCursor⟩)
  | .vectorSearch (some result) => .ok (.vectorSearch result)
  | .vectorSearch none => .error (.message "vector search response completed without a result")
  | .textSearch (some result) => .ok (.textSearch result)
  | .textSearch none => .error (.message "text search response completed without a result")
  | .node state => .ok (.node state)
  | .snapshot (some clock) nodes pendingOps scopePolicies =>
    .ok (.snapshot ⟨clock, nodes, pendingOps, scopePolicies⟩)
  | .snapshot none _ _ _ => .error (.message "snapshot response completed without a clock")
  | .transaction (some report) => .ok (.transaction report)
  | .transaction none => .error (.message "transaction response completed without a report")

end PullAccumulator

/-! ## Maps in parts -/

section Maps

variable {κ ν : Type} [Ord κ] [Std.TransOrd κ] [Std.LawfulEqOrd κ] [DecidableEq κ]

/-- The entries of a map take the place of older ones. -/
theorem BTreeMap.get_extend (m : BTreeMap κ ν) (entries : List (κ × ν)) (k : κ) :
    (m.extend entries)[k]? = ((∅ : BTreeMap κ ν).extend entries)[k]?.or m[k]? := by
  induction entries generalizing m with
  | nil => simp [BTreeMap.extend]
  | cons entry entries ih =>
    have hstep : ∀ m : BTreeMap κ ν,
        m.extend (entry :: entries) = BTreeMap.extend (m.insert entry.1 entry.2) entries :=
      fun _ => rfl
    rw [hstep, hstep, ih, ih ((∅ : BTreeMap κ ν).insert _ _), BTreeMap.get_insert,
      BTreeMap.get_insert]
    split
    · cases ((∅ : BTreeMap κ ν).extend entries)[k]? <;> rfl
    · simp

private theorem BTreeMap.get_extend_toList (m n : BTreeMap κ ν) (k : κ) :
    (m.extend n.toList)[k]? = n[k]?.or m[k]? := by
  rw [BTreeMap.extend]
  refine Eq.trans (BTreeMap.foldl_toList_at n (π := fun m : BTreeMap κ ν => m[k]?)
    (g := fun _ v => some v) (fun m a v _ => BTreeMap.get_insert m a k v) m) ?_
  cases n[k]? <;> rfl

private theorem BTreeMap.extend_toList_empty (m : BTreeMap κ ν) :
    m.extend (∅ : BTreeMap κ ν).toList = m := by
  refine Std.ExtTreeMap.ext_getElem? fun k => ?_
  rw [get_extend_toList]
  simp

private theorem BTreeMap.extend_toList_extend (m : BTreeMap κ ν) (entries : List (κ × ν)) :
    m.extend ((∅ : BTreeMap κ ν).extend entries).toList = m.extend entries := by
  refine Std.ExtTreeMap.ext_getElem? fun k => ?_
  rw [get_extend_toList, get_extend m entries]

private theorem BTreeMap.extend_empty_toList (m : BTreeMap κ ν) :
    (∅ : BTreeMap κ ν).extend m.toList = m := by
  refine Std.ExtTreeMap.ext_getElem? fun k => ?_
  rw [get_extend_toList]
  simp

/-- Collected parts extend a map by their entries. -/
theorem BTreeMap.foldl_extend_toList (chunks : List (List (κ × ν))) (m : BTreeMap κ ν) :
    (chunks.map (BTreeMap.extend ∅)).foldl (fun m chunk => m.extend chunk.toList) m =
      m.extend chunks.flatten := by
  induction chunks generalizing m with
  | nil => rfl
  | cons chunk chunks ih =>
    rw [List.map_cons, List.foldl_cons, ih, extend_toList_extend, List.flatten_cons]
    exact (List.foldl_append ..).symm

omit [Std.LawfulEqOrd κ] [DecidableEq κ] in
private theorem BTreeMap.extend_concat (m : BTreeMap κ ν) (entries : List (κ × ν)) (entry : κ × ν) :
    m.extend (entries ++ [entry]) = (m.extend entries).insert entry.1 entry.2 :=
  List.foldl_concat _ _ _ _

omit [Std.LawfulEqOrd κ] [DecidableEq κ] in
private theorem BTreeMap.isEmpty_extend {entries : List (κ × ν)} (h : entries ≠ []) :
    ((∅ : BTreeMap κ ν).extend entries).isEmpty = false := by
  obtain ⟨front, entry, rfl⟩ := (List.eq_nil_or_concat entries).resolve_left h
  rw [List.concat_eq_append, extend_concat]
  exact Std.ExtTreeMap.isEmpty_eq_false_iff.mpr Std.ExtTreeMap.insert_ne_empty

omit [Std.LawfulEqOrd κ] [DecidableEq κ] in
/-- The loop splits the entries that are left, behind those of the map that is filled. -/
theorem foldl_chunkSerialStep {n : ℕ} (hn : n ≠ 0) (entries : List (κ × ν))
    (chunks : List (BTreeMap κ ν)) {part : List (κ × ν)} {index : ℕ}
    (hpart : part.length = index % n) :
    (let filled := entries.foldl (chunkSerialStep n) (chunks, (∅ : BTreeMap κ ν).extend part, index)
      if filled.2.1.isEmpty then filled.1 else filled.1 ++ [filled.2.1]) =
      chunks ++ ((part ++ entries).toChunks n).map (BTreeMap.extend ∅) := by
  have hlt : part.length < n := hpart ▸ Nat.mod_lt index (Nat.pos_of_ne_zero hn)
  induction entries generalizing chunks part index with
  | nil =>
    dsimp only [List.foldl_nil]
    rw [List.append_nil]
    by_cases hempty : part = []
    · subst hempty
      rw [if_pos (by exact Std.ExtTreeMap.isEmpty_empty), List.toChunks, List.map_nil,
        List.append_nil]
    · rw [if_neg (by rw [BTreeMap.isEmpty_extend hempty]; exact Bool.false_ne_true),
        toChunks_of_length_le hempty hlt.le]
      rfl
  | cons entry entries ih =>
    have hnext : (index + 1) % n = (part.length + 1) % n := by rw [hpart, Nat.mod_add_mod]
    have hsplit : part ++ entry :: entries = (part ++ [entry]) ++ entries := by simp
    have hlength : (part ++ [entry]).length = part.length + 1 := by simp
    rw [List.foldl_cons, chunkSerialStep, hsplit]
    dsimp only
    rw [← BTreeMap.extend_concat]
    split
    · -- the map is full and the next one is begun
      rename_i hfull
      have hn' : part.length + 1 = n := by
        by_contra hne
        rw [hnext, Nat.mod_eq_of_lt (by omega)] at hfull
        omega
      have hbegun : ([] : List (κ × ν)).length = (index + 1) % n := hfull.symm
      refine (ih _ hbegun (Nat.pos_of_ne_zero hn)).trans ?_
      rw [toChunks_append hn (hlength.trans hn'), List.map_cons, List.append_assoc]
      rfl
    · rename_i hroom
      have hlt' : part.length + 1 < n := by
        by_contra hge
        have hn' : part.length + 1 = n := by omega
        exact hroom (by rw [hnext, hn', Nat.mod_self])
      exact ih _ (by rw [hlength, hnext, Nat.mod_eq_of_lt hlt']) (hlength.trans_lt hlt')

omit [Std.LawfulEqOrd κ] [DecidableEq κ] in
/-- A map is split like the list of its entries. -/
theorem chunkBtreeMap_eq (items : BTreeMap κ ν) (chunkSize : ℕ) :
    chunkBtreeMap items chunkSize =
      (items.toList.toChunks (max chunkSize 1)).map (BTreeMap.extend ∅) := by
  have hn : max chunkSize 1 ≠ 0 := by omega
  rw [chunkBtreeMap]
  split
  · rename_i hempty
    have hlist : items.toList = [] := by
      rw [Std.ExtTreeMap.isEmpty_iff.mp hempty]
      simp
    rw [hlist, List.toChunks]
    rfl
  · split
    · rfl
    · have hbegun : ([] : List (κ × ν)).length = 0 % max chunkSize 1 := (Nat.zero_mod _).symm
      exact foldl_chunkSerialStep hn items.toList [] hbegun

end Maps

/-- A list is split as it is, also when it is empty. -/
theorem chunkVec_eq {α : Type} (items : List α) (chunkSize : ℕ) :
    chunkVec items chunkSize = items.toChunks (max chunkSize 1) := by
  rw [chunkVec]
  split
  · rename_i hempty
    rw [List.isEmpty_iff.mp hempty, List.toChunks]
  · rfl

/-! ## The bodies of the responses -/

section Bodies

variable {ν τ κ α : Type}

/-- The bodies of a list in parts. -/
def listBodies (body : List α → Bool → PullResponseBody ν τ κ) :
    List (List α) → List (PullResponseBody ν τ κ)
  | [] => [body [] true]
  | [entries] => [body entries true]
  | entries :: next :: chunks => body entries false :: listBodies body (next :: chunks)

/-- Bodies with their numbers. -/
def numbered (requestId : String) (bodies : List (PullResponseBody ν τ κ)) :
    List (PullResponse (PullResponseBody ν τ κ)) :=
  bodies.mapIdx fun index body => chunkResponse requestId index bodies.length body

/-- The bodies of the responses to a request. -/
def RemoteResult.bodies (limits : ChunkLimits) :
    RemoteResult ν τ κ → List (PullResponseBody ν τ κ)
  | .get value => [.get value]
  | .map entries => listBodies (fun entries _ => .map entries)
      (entries.toChunks (max limits.maxQueryEntriesPerChunk 1))
  | .query entries => listBodies (fun entries _ => .query entries)
      (entries.toChunks (max limits.maxQueryEntriesPerChunk 1))
  | .lex entries => listBodies (fun entries _ => .lex entries)
      (entries.toChunks (max limits.maxQueryEntriesPerChunk 1))
  | .records result => listBodies
      (fun entries last => .records entries (if last then result.nextCursor else none))
      (result.entries.toChunks (max limits.maxQueryEntriesPerChunk 1))
  | .vectorSearch result => [.vectorSearch result]
  | .textSearch result => [.textSearch result]
  | .node state => [.node state]
  | .snapshot whole =>
    let nodeChunks := (whole.nodes.toList.toChunks (max limits.maxSnapshotNodesPerChunk 1)).map
      (BTreeMap.extend ∅)
    let opChunks := whole.pendingOps.toChunks (max limits.maxSnapshotOpsPerChunk 1)
    (List.range (max (max nodeChunks.length opChunks.length) 1)).map
      (snapshotBody whole nodeChunks opChunks)
  | .transaction report => [.transaction report]

/-- A body for every part, and one for none. -/
theorem length_listBodies (body : List α → Bool → PullResponseBody ν τ κ)
    (chunks : List (List α)) : (listBodies body chunks).length = max chunks.length 1 := by
  induction chunks with
  | nil => rfl
  | cons entries chunks ih =>
    cases chunks with
    | nil => rfl
    | cons next chunks =>
      rw [listBodies, List.length_cons, ih]
      simp

private theorem mem_listBodies {body : List α → Bool → PullResponseBody ν τ κ}
    {chunks : List (List α)} {b : PullResponseBody ν τ κ} (h : b ∈ listBodies body chunks) :
    ∃ entries last, b = body entries last := by
  induction chunks with
  | nil => exact ⟨_, _, List.mem_singleton.mp h⟩
  | cons entries chunks ih =>
    cases chunks with
    | nil => exact ⟨_, _, List.mem_singleton.mp h⟩
    | cons next chunks =>
      rw [listBodies] at h
      rcases List.mem_cons.mp h with rfl | h
      · exact ⟨_, _, rfl⟩
      · exact ih h

/-- Each part but the last is told that it is not the last. -/
theorem getElem?_listBodies (body : List α → Bool → PullResponseBody ν τ κ)
    {chunks : List (List α)} (hne : chunks ≠ []) (index : ℕ) :
    (listBodies body chunks)[index]? =
      chunks[index]?.map fun entries => body entries (index + 1 == chunks.length) := by
  induction chunks generalizing index with
  | nil => exact absurd rfl hne
  | cons entries chunks ih =>
    cases chunks with
    | nil => cases index <;> simp [listBodies]
    | cons next chunks =>
      cases index with
      | zero => simp [listBodies]
      | succ index =>
        rw [listBodies, List.getElem?_cons_succ, ih (List.cons_ne_nil _ _)]
        simp

private theorem buildChunkResponses_eq (requestId : String) (chunks : List (List α))
    (body : List α → Bool → PullResponseBody ν τ κ) :
    buildChunkResponses requestId chunks body = numbered requestId (listBodies body chunks) := by
  rw [buildChunkResponses]
  split
  · rename_i hempty
    rw [List.isEmpty_iff.mp hempty]
    rfl
  · rename_i hne
    have hne : chunks ≠ [] := fun h => hne (List.isEmpty_iff.mpr h)
    have hlength : (listBodies body chunks).length = chunks.length := by
      rw [length_listBodies]
      have := List.length_pos_of_ne_nil hne
      omega
    refine List.ext_getElem? fun index => ?_
    rw [numbered, List.getElem?_mapIdx, List.getElem?_mapIdx, getElem?_listBodies body hne,
      hlength, Option.map_map]
    rfl

/-- Bodies that are given by their numbers. -/
theorem numbered_range (requestId : String) (total : ℕ) (body : ℕ → PullResponseBody ν τ κ) :
    numbered requestId ((List.range total).map body) =
      (List.range total).map fun index => chunkResponse requestId index total (body index) := by
  refine List.ext_getElem (by simp [numbered]) fun index hleft hright => ?_
  simp [numbered]

/-- The responses are the numbered bodies. -/
theorem buildPullResponses_eq (requestId : String) (result : RemoteResult ν τ κ)
    (limits : ChunkLimits) :
    buildPullResponses requestId result limits = numbered requestId (result.bodies limits) := by
  have hmax : ∀ n : ℕ, max (max n 1) 1 = max n 1 := fun n => by omega
  cases result with
  | map entries =>
    rw [buildPullResponses, buildMapChunkResponses, chunkVec_eq, buildChunkResponses_eq, hmax]
    rfl
  | query entries =>
    rw [buildPullResponses, buildQueryChunkResponses, chunkVec_eq, buildChunkResponses_eq, hmax]
    rfl
  | lex entries =>
    rw [buildPullResponses, buildLexChunkResponses, chunkVec_eq, buildChunkResponses_eq, hmax]
    rfl
  | records result =>
    rw [buildPullResponses, buildRecordChunkResponses, chunkVec_eq, buildChunkResponses_eq, hmax]
    rfl
  | snapshot snapshot =>
    simp only [buildPullResponses, chunkVec_eq, chunkBtreeMap_eq, hmax, RemoteResult.bodies]
    rw [numbered_range]
  | _ => rfl

end Bodies

section Count

variable {ν τ κ : Type}

/-- How many responses a result takes. -/
def RemoteResult.chunkCount (limits : ChunkLimits) : RemoteResult ν τ κ → ℕ
  | .map entries | .query entries =>
    max (entries.length ⌈/⌉ max limits.maxQueryEntriesPerChunk 1) 1
  | .lex entries => max (entries.length ⌈/⌉ max limits.maxQueryEntriesPerChunk 1) 1
  | .records result => max (result.entries.length ⌈/⌉ max limits.maxQueryEntriesPerChunk 1) 1
  | .snapshot whole =>
    max (max (whole.nodes.size ⌈/⌉ max limits.maxSnapshotNodesPerChunk 1)
      (whole.pendingOps.length ⌈/⌉ max limits.maxSnapshotOpsPerChunk 1)) 1
  | .get _ | .vectorSearch _ | .textSearch _ | .node _ | .transaction _ => 1

theorem RemoteResult.length_bodies (limits : ChunkLimits) (result : RemoteResult ν τ κ) :
    (result.bodies limits).length = result.chunkCount limits := by
  have hchunks : ∀ {α : Type} (l : List α) (n : ℕ),
      (l.toChunks (max n 1)).length = l.length ⌈/⌉ max n 1 := by
    intro α l n
    rw [length_toChunks (by omega), Nat.ceilDiv_eq_add_pred_div]
  cases result with
  | map | query | lex | records => exact (length_listBodies _ _).trans (by rw [hchunks]; rfl)
  | snapshot snapshot =>
    simp only [bodies, chunkCount, List.length_map, List.length_range, hchunks,
      Std.ExtTreeMap.length_toList]
  | _ => rfl

/-- The number of responses. -/
theorem length_buildPullResponses (requestId : String) (result : RemoteResult ν τ κ)
    (limits : ChunkLimits) :
    (buildPullResponses requestId result limits).length = result.chunkCount limits := by
  rw [buildPullResponses_eq, numbered, List.length_mapIdx, RemoteResult.length_bodies]

theorem RemoteResult.applyResponseBody_snd {limits : ChunkLimits} {result : RemoteResult ν τ κ}
    {body : PullResponseBody ν τ κ} (h : body ∈ result.bodies limits)
    (accumulator : PullAccumulator ν τ κ) : (accumulator.applyResponseBody body).2 = none := by
  cases result with
  | map | query | lex | records =>
    obtain ⟨entries, last, rfl⟩ := mem_listBodies h
    cases accumulator <;> rfl
  | snapshot snapshot =>
    obtain ⟨index, -, rfl⟩ := List.mem_map.mp h
    cases accumulator <;> rfl
  | _ =>
    obtain rfl := List.mem_singleton.mp h
    rfl

end Count

/-! ## What is gathered -/

namespace PullAccumulator

variable {ν τ κ α : Type}

/-- Gather bodies. -/
def gather (accumulator : PullAccumulator ν τ κ) (bodies : List (PullResponseBody ν τ κ)) :
    PullAccumulator ν τ κ :=
  bodies.foldl (fun accumulator body => (accumulator.applyResponseBody body).1) accumulator

theorem gather_concat (accumulator : PullAccumulator ν τ κ)
    (bodies : List (PullResponseBody ν τ κ)) (body : PullResponseBody ν τ κ) :
    accumulator.gather (bodies ++ [body]) =
      ((accumulator.gather bodies).applyResponseBody body).1 :=
  List.foldl_concat _ _ _ _

/-- The accumulator of the request takes results of that kind: those that were asked for, and
those that come in one response. -/
def takes : PullRequestKind → RemoteResult ν τ κ → Bool
  | _, .get _ | _, .vectorSearch _ | _, .textSearch _ | _, .node _ | _, .transaction _ => true
  | .map _, .map _ | .query _, .query _ | .lex _, .lex _ | .records _, .records _ => true
  | .snapshot _, .snapshot _ => true
  | _, _ => false

private theorem gather_listBodies (body : List α → Bool → PullResponseBody ν τ κ)
    (part whole : List α → PullAccumulator ν τ κ)
    (hpart : ∀ current entries, ((part current).applyResponseBody (body entries false)).1 =
      part (current ++ entries))
    (hwhole : ∀ current entries, ((part current).applyResponseBody (body entries true)).1 =
      whole (current ++ entries))
    (chunks : List (List α)) (current : List α) :
    (part current).gather (listBodies body chunks) = whole (current ++ chunks.flatten) := by
  induction chunks generalizing current with
  | nil => exact hwhole current []
  | cons entries chunks ih =>
    cases chunks with
    | nil =>
      rw [List.flatten_cons, List.flatten_nil, List.append_nil]
      exact hwhole current entries
    | cons next chunks =>
      rw [listBodies, gather, List.foldl_cons, hpart, List.flatten_cons, ← List.append_assoc]
      exact ih (current ++ entries)

/-- Bodies that are not taken change nothing. -/
theorem gather_of_forall {accumulator : PullAccumulator ν τ κ}
    {bodies : List (PullResponseBody ν τ κ)}
    (h : ∀ body ∈ bodies, (accumulator.applyResponseBody body).1 = accumulator) :
    accumulator.gather bodies = accumulator := by
  induction bodies with
  | nil => rfl
  | cons body bodies ih =>
    rw [gather, List.foldl_cons, h body List.mem_cons_self]
    exact ih fun body hbody => h body (List.mem_cons_of_mem _ hbody)

/-- Parts of a snapshot are gathered one by one. -/
theorem gather_snapshotBody (snapshot : DatabaseSnapshot)
    (nodeChunks : List (BTreeMap NodeId NodeState)) (opChunks : List (List Operation)) (n : ℕ) :
    (PullAccumulator.snapshot none ∅ [] ∅ : PullAccumulator ν τ κ).gather
        ((List.range (n + 1)).map (snapshotBody snapshot nodeChunks opChunks)) =
      .snapshot (some snapshot.clock)
        ((nodeChunks.take (n + 1)).foldl (fun nodes chunk => nodes.extend chunk.toList) ∅)
        (opChunks.take (n + 1)).flatten snapshot.scopePolicies := by
  have hnodes : ∀ (m : BTreeMap NodeId NodeState) (chunk : Option (BTreeMap NodeId NodeState)),
      m.extend (chunk.getD ∅).toList =
        chunk.toList.foldl (fun nodes chunk => nodes.extend chunk.toList) m := by
    rintro m (_ | chunk)
    · exact BTreeMap.extend_toList_empty m
    · rfl
  have hops : ∀ chunk : Option (List Operation), chunk.getD [] = chunk.toList.flatten := by
    rintro (_ | chunk)
    · rfl
    · exact (List.append_nil chunk).symm
  induction n with
  | zero =>
    rw [List.take_add_one, List.take_add_one, List.take_zero, List.take_zero, List.nil_append,
      List.nil_append, ← hnodes, ← hops]
    simp only [gather, Nat.zero_add, List.range_one, List.map_cons, List.map_nil,
      List.foldl_cons, List.foldl_nil, snapshotBody, applyResponseBody, List.nil_append,
      BTreeMap.extend_empty_toList]
    rfl
  | succ n ih =>
    rw [List.range_succ, List.map_append, List.map_singleton, gather_concat, ih,
      List.take_add_one (i := n + 1), List.take_add_one (i := n + 1), List.foldl_append,
      List.flatten_append, ← hnodes, ← hops]
    simp only [snapshotBody, applyResponseBody, if_neg (Nat.succ_ne_zero n),
      BTreeMap.extend_toList_empty]
    rfl

/-- The bodies give the result when the accumulator takes its kind. -/
theorem gather_bodies (limits : ChunkLimits) {kind : PullRequestKind} {result : RemoteResult ν τ κ}
    (htakes : takes kind result = true) :
    ((new kind).gather (result.bodies limits)).intoResult = .ok result := by
  cases result with
  | map entries =>
    cases kind <;> try cases htakes
    rw [new, RemoteResult.bodies, gather_listBodies _ .map .map (fun _ _ => rfl) (fun _ _ => rfl),
      flatten_toChunks]
    rfl
  | query entries =>
    cases kind <;> try cases htakes
    rw [new, RemoteResult.bodies, gather_listBodies _ .query .query (fun _ _ => rfl)
      (fun _ _ => rfl), flatten_toChunks]
    rfl
  | lex entries =>
    cases kind <;> try cases htakes
    rw [new, RemoteResult.bodies, gather_listBodies _ .lex .lex (fun _ _ => rfl) (fun _ _ => rfl),
      flatten_toChunks]
    rfl
  | records result =>
    cases kind <;> try cases htakes
    obtain ⟨entries, nextCursor⟩ := result
    have hgather := gather_listBodies (ν := ν) (τ := τ) (κ := κ)
      (fun entries last => .records entries (if last then nextCursor else none))
      (.records · none) (.records · nextCursor) (fun _ _ => rfl)
      (fun current entries => by cases nextCursor <;> rfl)
    rw [new, RemoteResult.bodies, hgather, flatten_toChunks]
    rfl
  | snapshot snapshot =>
    cases kind <;> try cases htakes
    simp only [new, RemoteResult.bodies]
    obtain ⟨n, hn⟩ : ∃ n, max (max
        ((snapshot.nodes.toList.toChunks (max limits.maxSnapshotNodesPerChunk 1)).map
          (BTreeMap.extend ∅)).length
        (snapshot.pendingOps.toChunks (max limits.maxSnapshotOpsPerChunk 1)).length) 1 = n + 1 :=
      ⟨_, (Nat.sub_add_cancel (le_max_right _ 1)).symm⟩
    rw [hn, gather_snapshotBody, List.take_of_length_le (by omega),
      List.take_of_length_le (by omega), BTreeMap.foldl_extend_toList, flatten_toChunks,
      flatten_toChunks, BTreeMap.extend_empty_toList]
    rfl
  | _ => rfl

/-- A result that is gathered fits its request. -/
theorem takes_of_gather_bodies (limits : ChunkLimits) {kind : PullRequestKind}
    {result : RemoteResult ν τ κ}
    (h : ((new kind).gather (result.bodies limits)).intoResult = .ok result) :
    takes kind result = true := by
  by_contra htakes
  have hkept : (new kind : PullAccumulator ν τ κ).gather (result.bodies limits) = new kind := by
    refine gather_of_forall fun body hbody => ?_
    cases result with
    | map | query | lex | records =>
      obtain ⟨entries, last, rfl⟩ := mem_listBodies hbody
      cases kind <;> first | rfl | exact absurd rfl htakes
    | snapshot snapshot =>
      obtain ⟨index, -, rfl⟩ := List.mem_map.mp hbody
      cases kind <;> first | rfl | exact absurd rfl htakes
    | _ => exact absurd (by cases kind <;> rfl) htakes
  rw [hkept] at h
  cases kind <;> cases h <;> exact htakes rfl

end PullAccumulator

end Primadb

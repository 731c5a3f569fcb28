import Primadb.Core.Run
import Primadb.Data.Record
import Primadb.Graph.Apply

/-!
# Blob writes and garbage collection

`put_record_blob` stores a blob and then writes the record that refers to it; `vacuum_storage`
takes the blobs that are referred to and later deletes all others. The steps of several calls
interleave; a step is one call of the blob store or one critical section of the database.
-/

namespace Primadb

/-- A blob in the store. -/
structure StoredBlob where
  reference : BlobRef
  data : List UInt8

/-- The blob that a field refers to. -/
def FieldState.blobId? (field : FieldState) : Option String :=
  match field.value with
  | .blob reference => some reference.id
  | _ => none

/-- `referenced_blob_ids`. -/
def referencedBlobIds (nodes : BTreeMap NodeId NodeState) : BTreeSet String :=
  (nodes.toList.flatMap fun node =>
    node.2.fields.toList.filterMap fun field => field.2.blobId?).foldl
      (fun ids id => ids.insert id) ∅

/-- A blob that a field of some node refers to. -/
def Refers (nodes : BTreeMap NodeId NodeState) (id : String) : Prop :=
  ∃ (node : NodeId) (state : NodeState) (name : String) (field : FieldState),
    nodes[node]? = some state ∧ state.fields[name]? = some field ∧ field.blobId? = some id

private theorem mem_referencedBlobIds {nodes : BTreeMap NodeId NodeState} {id : String} :
    id ∈ referencedBlobIds nodes ↔ Refers nodes id := by
  rw [referencedBlobIds, BTreeSet.mem_foldl_insert (fun id => id)]
  simp only [Std.ExtTreeSet.not_mem_empty, false_or, exists_eq_right, List.mem_flatMap,
    List.mem_filterMap, Prod.exists, Std.ExtTreeMap.mem_toList_iff_getElem?_eq_some, Refers]
  constructor
  · rintro ⟨node, state, hnode, name, field, hfield, hid⟩
    exact ⟨node, state, name, field, hnode, hfield, hid⟩
  · rintro ⟨node, state, name, field, hnode, hfield, hid⟩
    exact ⟨node, state, hnode, name, field, hfield, hid⟩

/-- A database and its blob store with the calls under way: records to be written for blobs that
are stored, and live sets of vacuums that have not deleted yet. -/
structure BlobState where
  store : BTreeMap String StoredBlob
  nodes : BTreeMap NodeId NodeState
  inFlight : List (String × BlobRef)
  sweeps : List (BTreeSet String)

/-- The next step of some call. -/
inductive BlobEvent where
  /-- `put_record_blob` stores the blob. -/
  | store (key : String) (data : List UInt8) (mediaType : Option String)
  /-- `put_record_blob` writes the record; the clock gives the two operations their revisions. -/
  | record (index : ℕ) (author : String) (first second : Revision)
  /-- `vacuum_storage` copies the nodes. -/
  | collect
  /-- `vacuum_storage` deletes from the store. -/
  | sweep (index : ℕ)

namespace BlobState

variable [Blake3] (digest : List UInt8 → String)

/-- `blob_ref_for_data`, with the digest of the `blake3` crate. -/
def blobRefForData (data : List UInt8) (mediaType : Option String) : BlobRef :=
  ⟨"blake3:" ++ digest data, .ofNat data.length, mediaType⟩

/-- `put_record_inner` of a blob on the nodes. -/
def putRecordNodes (nodes : BTreeMap NodeId NodeState) (key : String) (reference : BlobRef)
    (author : String) (first second : Revision) : BTreeMap NodeId NodeState :=
  let keyed := (applyToNodes nodes
    ⟨"", author, first, .setField (recordNodeId key) "key" (.scalar (.string key))⟩).1
  (applyToNodes keyed ⟨"", author, second,
    .setField (recordNodeId key) "value" (.blob reference)⟩).1

/-- One step. -/
def step (state : BlobState) : BlobEvent → BlobState
  | .store key data mediaType =>
    let reference := blobRefForData digest data mediaType
    { state with
      store := state.store.insert reference.id ⟨reference, data⟩
      inFlight := state.inFlight ++ [(key, reference)] }
  | .record index author first second =>
    match state.inFlight[index]? with
    | none => state
    | some (key, reference) =>
      { state with
        nodes := putRecordNodes state.nodes key reference author first second
        inFlight := state.inFlight.eraseIdx index }
  | .collect => { state with sweeps := state.sweeps ++ [referencedBlobIds state.nodes] }
  | .sweep index =>
    match state.sweeps[index]? with
    | none => state
    | some live =>
      { state with
        store := state.store.filter fun id _ => live.contains id
        sweeps := state.sweeps.eraseIdx index }

/-- No blob write is under way when a vacuum copies the nodes, and none starts before it has
deleted. -/
def Apart (state : BlobState) : BlobEvent → Prop
  | .store .. => state.sweeps = []
  | .collect => state.inFlight = []
  | _ => True

/-- Every blob that is referred to can be fetched. -/
def Fetchable (state : BlobState) : Prop :=
  ∀ id, Refers state.nodes id → id ∈ state.store

/-- Blobs that are referred to or in flight are stored, and no vacuum that is under way misses
one. -/
structure Kept (state : BlobState) : Prop where
  fetchable : state.Fetchable
  inFlight : ∀ entry ∈ state.inFlight, entry.2.id ∈ state.store
  live : ∀ live ∈ state.sweeps, ∀ id, Refers state.nodes id → id ∈ live
  apart : state.inFlight = [] ∨ state.sweeps = []

omit [Blake3] in
/-- An assignment adds no reference but its own. -/
theorem refers_setField {nodes : BTreeMap NodeId NodeState} {id opId author field : String}
    {revision : Revision} {node : NodeId} {value : OperationValue}
    (h : Refers (applyToNodes nodes ⟨opId, author, revision, .setField node field value⟩).1 id) :
    Refers nodes id ∨ ∃ reference, value = .blob reference ∧ reference.id = id := by
  obtain ⟨other, state, name, changed, hnode, hfield, hid⟩ := h
  simp only [applyToNodes, BTreeMap.get_insert] at hnode
  split at hnode
  · cases hnode
    -- a node that is made for the assignment has no fields
    have hold : (nodeEntry nodes node).fields[name]? = some changed → Refers nodes id := by
      intro hsome
      cases hstate : nodes[node]? with
      | none =>
        rw [nodeEntry, hstate, Option.getD_none, NodeState.new,
          Std.ExtTreeMap.getElem?_empty] at hsome
        cases hsome
      | some state =>
        rw [nodeEntry, hstate, Option.getD_some] at hsome
        exact ⟨node, state, name, changed, hstate, hsome, hid⟩
    have hset : ∀ (state : NodeState) (marker : VersionMarker),
        (state.applySetField field value marker).1.fields = state.fields ∨
          (state.applySetField field value marker).1.fields =
            state.fields.insert field ⟨value.toFieldValue marker, marker⟩ := by
      intro state marker
      rw [NodeState.applySetField]
      split
      · exact .inl rfl
      · exact .inr rfl
    simp only [OperationAction.node, NodeState.applyAction] at hfield
    rcases hset (nodeEntry nodes node) _ with hsame | hinserted
    · rw [hsame] at hfield
      exact .inl (hold hfield)
    · rw [hinserted, BTreeMap.get_insert] at hfield
      split at hfield
      · cases hfield
        cases value with
        | blob reference => exact .inr ⟨reference, rfl, Option.some.inj hid⟩
        | _ => cases hid
      · exact .inl (hold hfield)
  · exact .inl ⟨other, state, name, changed, hnode, hfield, hid⟩

private theorem refers_putRecordNodes {nodes : BTreeMap NodeId NodeState} {key id author : String}
    {reference : BlobRef} {first second : Revision}
    (h : Refers (putRecordNodes nodes key reference author first second) id) :
    Refers nodes id ∨ reference.id = id := by
  rcases refers_setField h with h | ⟨other, hother, rfl⟩
  · rcases refers_setField h with h | ⟨other, hother, -⟩
    · exact .inl h
    · cases hother
  · cases hother
    exact .inr rfl

/-- Steps of calls that stay apart lose no blob. -/
theorem Kept.step {state : BlobState} (h : state.Kept) {event : BlobEvent}
    (hapart : state.Apart event) : (state.step digest event).Kept := by
  cases event with
  | store key data mediaType =>
    have hsweeps : state.sweeps = [] := hapart
    have hold : ∀ id ∈ state.store, id ∈ (state.step digest (.store key data mediaType)).store :=
      fun id hid => Std.ExtTreeMap.mem_insert.mpr (.inr hid)
    refine ⟨fun id hid => hold id (h.fetchable id hid), fun entry hentry => ?_, h.live,
      .inr hsweeps⟩
    rcases List.mem_append.mp hentry with hentry | hentry
    · exact hold _ (h.inFlight entry hentry)
    · rw [List.mem_singleton.mp hentry]
      exact Std.ExtTreeMap.mem_insert_self
  | record index author first second =>
    rw [BlobState.step]
    cases hentry : state.inFlight[index]? with
    | none => exact h
    | some entry =>
      have hmem := List.mem_of_getElem? hentry
      have hsweeps : state.sweeps = [] := h.apart.resolve_left (List.ne_nil_of_mem hmem)
      refine ⟨fun id hid => ?_, fun other hother =>
        h.inFlight other (List.mem_of_mem_eraseIdx hother), fun live hlive => ?_, .inr hsweeps⟩
      · rcases refers_putRecordNodes hid with hid | rfl
        · exact h.fetchable id hid
        · exact h.inFlight entry hmem
      · rw [hsweeps] at hlive
        cases hlive
  | collect =>
    refine ⟨h.fetchable, h.inFlight, fun live hlive id hid => ?_, .inl hapart⟩
    rcases List.mem_append.mp hlive with hlive | hlive
    · exact h.live live hlive id hid
    · rw [List.mem_singleton.mp hlive]
      exact mem_referencedBlobIds.mpr hid
  | sweep index =>
    rw [BlobState.step]
    cases hlive : state.sweeps[index]? with
    | none => exact h
    | some live =>
      have hmem := List.mem_of_getElem? hlive
      have hnone : state.inFlight = [] := h.apart.resolve_right (List.ne_nil_of_mem hmem)
      refine ⟨fun id hid => ?_, fun entry hentry => ?_, fun other hother =>
        h.live other (List.mem_of_mem_eraseIdx hother), .inl hnone⟩
      · obtain ⟨blob, hblob⟩ := Option.isSome_iff_exists.mp
          (Std.ExtTreeMap.mem_iff_isSome_getElem?.mp (h.fetchable id hid))
        have hkept : live.contains id = true :=
          Std.ExtTreeSet.mem_iff_contains.mp (h.live live hmem id hid)
        refine Std.ExtTreeMap.mem_iff_isSome_getElem?.mpr ?_
        rw [Std.ExtTreeMap.getElem?_filter', hblob, Option.filter_some, hkept]
        rfl
      · rw [hnone] at hentry
        cases hentry

/-- In every interleaving in which no vacuum overlaps a blob write, every blob that is referred to
can be fetched, in particular when all calls have returned. -/
theorem fetchable_of_apart {state : BlobState} {events : List BlobEvent}
    (hstart : state.Fetchable) (hidle : state.inFlight = [] ∧ state.sweeps = [])
    (hapart : Run.Along (step digest) Apart state events) :
    (events.foldl (step digest) state).Fetchable := by
  refine (hapart.invariant (I := Kept) (fun h hok => Kept.step digest h hok) ?_).fetchable
  refine ⟨hstart, fun entry hentry => ?_, fun live hlive => ?_, .inl hidle.1⟩
  · rw [hidle.1] at hentry
    cases hentry
  · rw [hidle.2] at hlive
    cases hlive

end BlobState

/-- Nothing stored and nothing under way. -/
def emptyBlobState : BlobState := ⟨∅, ∅, [], []⟩

/-- The steps of one call of each kind, the vacuum's where they are given. -/
def putAndVacuum (before between : List BlobEvent) : List BlobEvent :=
  before ++ [.store "k" [1] none] ++ between ++ [.record 0 "r" ⟨1, 0, "r"⟩ ⟨1, 1, "r"⟩]

/-- A vacuum before the write loses nothing. -/
theorem fetchable_of_vacuum_before :
    letI := plainHash
    ((putAndVacuum [.collect, .sweep 0] []).foldl (BlobState.step fun _ => "h")
      emptyBlobState).Fetchable := by
  let _ := plainHash
  refine BlobState.fetchable_of_apart _ ?_ ⟨rfl, rfl⟩ ⟨rfl, trivial, rfl, trivial, trivial⟩
  rintro id ⟨node, state, name, field, hnode, -⟩
  rw [emptyBlobState, Std.ExtTreeMap.getElem?_empty] at hnode
  cases hnode

/-- A vacuum between the two steps of the write deletes the blob that is then referred to. -/
theorem blob_deleted_in_flight :
    letI := plainHash
    let final := (putAndVacuum [] [.collect, .sweep 0]).foldl (BlobState.step fun _ => "h")
      emptyBlobState
    final.inFlight = [] ∧ final.sweeps = [] ∧
      (referencedBlobIds final.nodes).toList = ["blake3:h"] ∧ final.store.isEmpty = true := by
  decide +kernel

end Primadb

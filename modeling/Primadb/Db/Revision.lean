import Primadb.Db.Delivery
import Primadb.Db.Mutation

/-!
# Revision checks

The revision of a field is its version or the marker of its delete, the revision of a
node the greatest of these. A transaction may assert that a revision is still the one
its caller read. The check sees every change whose marker is above the markers of its
node; an older operation that a set or another field still takes in leaves the
revision as it was.
-/

namespace Primadb

open Effect

/-- `node_revision_marker`. -/
def nodeRevisionMarker (state : NodeState) : Option VersionMarker :=
  state.tombstones.valueList.foldl (fun marker tombstone => maxMarker marker (some tombstone))
    (state.fields.valueList.foldl (fun marker field => maxMarker marker (some field.version)) none)

namespace Cursor

/-- The node of a place. -/
def nodeId : Cursor → NodeId
  | .node id => id
  | .field id _ => id

/-- The revision of a place. -/
def revision (state : NodeState) : Cursor → Option VersionMarker
  | .node _ => nodeRevisionMarker state
  | .field _ name => (state.slot name).revision

/-- The values at a place: of its field, or of all fields of its node. -/
def values (state : NodeState) : Cursor → String → Option FieldValue
  | .node _, f => state.fields[f]?.map FieldState.value
  | .field _ name, f => if f = name then state.fields[f]?.map FieldState.value else none

end Cursor

namespace Program

open Script (issue)

/-- Follow the segments of a path without creating anything. -/
def resolvePath : NodeId → List String → Program (Option NodeId)
  | current, [] => pure (some current)
  | current, segment :: rest => do
    let found ← load current
    if !found then pure none
    else
      match ← field current segment with
      | none => pure none
      | some (.link target) => resolvePath target rest
      | some (.scalar _) | some (.bytes _) | some (.blob _) =>
        .fail (.traversalIntoScalar current segment)
      | some (.set _) => .fail (.traversalIntoSet current segment)

/-- The place a path names, when it exists. -/
def resolveCursor (anchor : NodeId) (segments : List String) : Program (Option Cursor) := do
  let found ← load anchor
  if !found then pure none
  else if segments.isEmpty then pure (some (.node anchor))
  else
    match ← resolvePath anchor segments.dropLast with
    | none => pure none
    | some current =>
      let found ← load current
      if !found then pure none
      else pure (some (.field current (segments.getLast?.getD "")))

/-- The place a path names with the state of its node. -/
def place (anchor : NodeId) (segments : List String) : Program (Option (Cursor × NodeState)) := do
  match ← resolveCursor anchor segments with
  | none => pure none
  | some cursor =>
    let found ← state cursor.nodeId
    pure (found.map fun state => (cursor, state))

/-- `revision_at_inner`. -/
def revisionAt (anchor : NodeId) (segments : List String) : Program (Option VersionMarker) := do
  let found ← place anchor segments
  pure (found.bind fun found => found.1.revision found.2)

/-- The values a reader of the path finds. -/
def valuesAt (anchor : NodeId) (segments : List String) :
    Program (Option (String → Option FieldValue)) := do
  let found ← place anchor segments
  pure (found.map fun found => found.1.values found.2)

/-- `assert_revision`. -/
def assertRevision (anchor : NodeId) (segments : List String) (expected : Option VersionMarker) :
    Program Unit := do
  let current ← revisionAt anchor segments
  if current = expected then pure ()
  else .fail (.transactionConflict ("revision conflict at `" ++ displayPath anchor segments ++ "`"))

section Run

variable {σ : Type} [RecordStore σ]

@[simp] theorem exec_resolvePath (current : NodeId) (segments : List String) :
    (resolvePath current segments).exec (σ := σ) = Primadb.resolvePath current segments := by
  induction segments generalizing current with
  | nil => rfl
  | cons segment rest ih =>
    rw [resolvePath, Primadb.resolvePath, exec_bind, exec_load]
    congr 1
    funext found inner
    cases found with
    | false => rfl
    | true =>
      simp only [Bool.not_true, Bool.false_eq_true, if_false]
      rw [exec_bind, exec_field, Effect.gets_bind,
        Effect.bind_ok (m := Effect.get) (rfl : Effect.get inner = _)]
      rcases inner.fieldValue current segment with _ | v
      · rfl
      · cases v with
        | link target => exact congrFun (ih target) inner
        | _ => rfl

/-- Outside a transaction a path is resolved as a read does. -/
theorem exec_resolveCursor (anchor : NodeId) (segments : List String) :
    (resolveCursor anchor segments).exec (σ := σ) = Primadb.resolveCursor anchor segments := by
  rw [resolveCursor, Primadb.resolveCursor, exec_bind, exec_load]
  congr 1
  funext found
  cases found with
  | false => rfl
  | true =>
    simp only [Bool.not_true, Bool.false_eq_true, if_false]
    split
    · rfl
    · rw [exec_bind, exec_resolvePath]
      congr 1
      funext current
      cases current with
      | none => rfl
      | some current =>
        rw [exec_bind, exec_load]
        congr 1
        funext found
        cases found <;> rfl

end Run

end Program

/-! ## Revisions and slots -/

/-- The greatest of the markers, taken one after another. -/
theorem markerRank_foldl_max {α : Type} (version : α → VersionMarker) (l : List α)
    (start : Option VersionMarker) :
    Slot.markerRank (l.foldl (fun marker a => maxMarker marker (some (version a))) start) =
      l.foldl (fun marker a => max marker (version a : WithBot VersionMarker))
        (Slot.markerRank start) := by
  induction l generalizing start with
  | nil => rfl
  | cons a l ih =>
    rw [List.foldl_cons, List.foldl_cons, ih]
    congr 1
    cases start with
    | none => exact (max_eq_right bot_le).symm
    | some marker => exact WithBot.coe_max marker (version a)

private theorem foldl_max_lt_iff {α : Type} (version : α → WithBot VersionMarker) (l : List α)
    (start bound : WithBot VersionMarker) :
    l.foldl (fun marker a => max marker (version a)) start < bound ↔
      start < bound ∧ ∀ a ∈ l, version a < bound := by
  induction l generalizing start with
  | nil => simp
  | cons a l ih =>
    rw [List.foldl_cons, ih, max_lt_iff, List.forall_mem_cons, and_assoc]

namespace NodeState

private theorem revision_lt_iff (state : NodeState) {bound : WithBot VersionMarker}
    (hbound : ⊥ < bound) :
    Slot.markerRank (nodeRevisionMarker state) < bound ↔ ∀ f, (state.slot f).stamp < bound := by
  rw [nodeRevisionMarker, markerRank_foldl_max (fun tombstone => tombstone),
    markerRank_foldl_max FieldState.version, foldl_max_lt_iff, foldl_max_lt_iff]
  have hvalues : ∀ {α : Type} (m : BTreeMap String α) (version : α → VersionMarker),
      (∀ a ∈ m.valueList, (version a : WithBot VersionMarker) < bound) ↔
        ∀ f : String, Slot.markerRank (m[f]?.map version) < bound := by
    intro α m version
    constructor
    · intro h f
      cases hf : m[f]? with
      | none => exact hbound
      | some a => exact h a (BTreeMap.mem_valueList.mpr ⟨f, hf⟩)
    · intro h a ha
      obtain ⟨f, hf⟩ := BTreeMap.mem_valueList.mp ha
      have hlt := h f
      rw [hf] at hlt
      exact hlt
  rw [hvalues state.fields, hvalues state.tombstones]
  simp only [Slot.stamp, slot, max_lt_iff, forall_and, Option.map_id']
  exact ⟨fun h => ⟨h.2, h.1.2⟩, fun h => ⟨⟨hbound, h.2⟩, h.1⟩⟩

private theorem stamp_le_revision (state : NodeState) (f : String) :
    (state.slot f).stamp ≤ Slot.markerRank (nodeRevisionMarker state) := by
  by_contra h
  have hlt := not_le.mp h
  exact lt_irrefl _ ((state.revision_lt_iff (bot_le.trans_lt hlt)).mp hlt f)

private theorem exists_stamp_eq_revision {state : NodeState} {m : VersionMarker}
    (h : nodeRevisionMarker state = some m) :
    ∃ f, (state.slot f).stamp = (m : WithBot VersionMarker) := by
  by_contra hnone
  have hlt : ∀ f, (state.slot f).stamp < (m : WithBot VersionMarker) := by
    intro f
    have hle := state.stamp_le_revision f
    rw [h] at hle
    exact lt_of_le_of_ne hle fun heq => hnone ⟨f, heq⟩
  have hself := (state.revision_lt_iff (WithBot.bot_lt_coe m)).mpr hlt
  rw [h] at hself
  exact lt_irrefl _ hself

end NodeState

private theorem Cursor.carries_of_revision {cursor : Cursor} {state : NodeState} {m : VersionMarker}
    (h : cursor.revision state = some m) : ∃ f, (state.slot f).Carries m := by
  cases cursor with
  | node id =>
    obtain ⟨f, hf⟩ := NodeState.exists_stamp_eq_revision h
    exact ⟨f, Slot.carries_of_stamp hf⟩
  | field id name => exact ⟨name, Slot.Carries.of_revision h⟩

private theorem Cursor.values_eq_of_raised {cursor : Cursor} {old new : NodeState} {a b : SlotGraph}
    {m : VersionMarker} (hraised : SlotGraph.Raised cursor.nodeId a b)
    (hold : ∀ f, a cursor.nodeId f = old.slot f) (hnew : ∀ f, b cursor.nodeId f = new.slot f)
    (h : cursor.revision old = some m) (h' : cursor.revision new = some m) :
    cursor.values new = cursor.values old := by
  have hslots : ∀ f, new.slot f = old.slot f ∨
      ∀ g, (old.slot g).stamp < Slot.markerRank (new.slot f).revision := by
    intro f
    simpa only [hold, hnew] using hraised f
  have hfields : ∀ f, new.slot f = old.slot f → new.fields[f]? = old.fields[f]? :=
    fun f heq => congrArg Slot.field heq
  cases cursor with
  | node id =>
    obtain ⟨g, hg⟩ := NodeState.exists_stamp_eq_revision h
    funext f
    refine congrArg (Option.map FieldState.value)
      (hfields f ((hslots f).resolve_right fun hlt => ?_))
    -- a raised slot would be above the greatest stamp of the node
    have hle := (new.slot f).markerRank_revision_le.trans (new.stamp_le_revision f)
    rw [show nodeRevisionMarker new = some m from h'] at hle
    exact absurd (hlt g) (not_lt.mpr (hle.trans_eq hg.symm))
  | field id name =>
    have hsame : new.slot name = old.slot name := (hslots name).resolve_right fun hlt => by
      have hrev : (new.slot name).revision = (old.slot name).revision := h'.trans h.symm
      exact absurd (hrev ▸ hlt name) (not_lt.mpr (old.slot name).markerRank_revision_le)
    funext f
    simp only [values]
    split
    · rename_i heq
      rw [heq, hfields name hsame]
    · rfl

/-! ## Reading a place -/

/-- The places a path can name: its anchor, or a field named by its last segment. -/
def Cursor.Named (anchor : NodeId) (segments : List String) : Cursor → Prop
  | .node id => segments.isEmpty = true ∧ id = anchor
  | .field _ name => segments.isEmpty = false ∧ name = segments.getLast?.getD ""

/-- Two places of one path in one node are the same. -/
theorem Cursor.Named.eq {anchor : NodeId} {segments : List String} {a b : Cursor}
    (ha : a.Named anchor segments) (hb : b.Named anchor segments) (h : a.nodeId = b.nodeId) :
    a = b := by
  cases a <;> cases b <;> simp_all [Cursor.Named, Cursor.nodeId]

section Reads

variable {σ : Type} [RecordStore σ]

variable {segments : List String} {anchor : NodeId} {inner : Inner σ}

/-- A path resolves to a place it can name. -/
theorem resolveCursor_named {inner t : Inner σ} {cursor : Cursor}
    (h : resolveCursor anchor segments inner = (.ok (some cursor), t)) :
    cursor.Named anchor segments := by
  rw [resolveCursor, Effect.bind_apply] at h
  rcases hload : maybeLoadNode anchor inner with ⟨e | found, s⟩ <;> rw [hload] at h
  · cases h
  · cases found with
    | false => cases h
    | true =>
      cases hseg : segments.isEmpty with
      | true =>
        simp only [hseg, Bool.not_true, Bool.false_eq_true, if_false, if_true,
          Effect.pure_apply] at h
        cases h
        exact ⟨hseg, rfl⟩
      | false =>
        simp only [hseg, Bool.not_true, Bool.false_eq_true, if_false, Effect.bind_apply] at h
        rcases hpath : resolvePath anchor segments.dropLast s with ⟨e | current, u⟩ <;>
          rw [hpath] at h
        · cases h
        · cases current with
          | none => cases h
          | some current =>
            dsimp only at h
            rw [Effect.bind_apply] at h
            rcases hnext : maybeLoadNode current u with ⟨e | found, v⟩ <;> rw [hnext] at h
            · cases h
            · cases found with
              | false => cases h
              | true =>
                cases h
                exact ⟨hseg, rfl⟩

/-- What a place read returns: a place the path can name, with the node found in memory. -/
theorem Program.place_exec {inner t : Inner σ} {cursor : Cursor} {state : NodeState}
    (h : (Program.place anchor segments).exec inner = (.ok (some (cursor, state)), t)) :
    cursor.Named anchor segments ∧ t.nodes[cursor.nodeId]? = some state := by
  rw [Program.place, Program.exec_bind, Program.exec_resolveCursor, Effect.bind_apply] at h
  rcases hcursor : Primadb.resolveCursor anchor segments inner with ⟨e | found, s⟩ <;>
    rw [hcursor] at h
  · cases h
  · cases found with
    | none => cases h
    | some place =>
      have hstate : (Program.state place.nodeId).exec (σ := σ) =
          Effect.gets fun inner => inner.nodes[place.nodeId]? := Script.run_issue _ _
      simp only [Program.exec_bind, hstate, Effect.gets_bind] at h
      cases hnode : s.nodes[place.nodeId]? with
      | none =>
        rw [hnode] at h
        cases h
      | some found =>
        rw [hnode] at h
        cases h
        exact ⟨resolveCursor_named hcursor, hnode⟩

/-- Reading a revision is reading a place. -/
theorem Program.exec_revisionAt (anchor : NodeId) (segments : List String) (inner : Inner σ) :
    (Program.revisionAt anchor segments).exec inner =
      (((Program.place anchor segments).exec inner).1.map fun found =>
          found.bind fun found => found.1.revision found.2,
        ((Program.place anchor segments).exec inner).2) := by
  rw [Program.revisionAt, Program.exec_bind, Effect.bind_apply]
  rcases (Program.place anchor segments).exec inner with ⟨e | found, t⟩ <;> rfl

private theorem Program.exec_valuesAt (anchor : NodeId) (segments : List String) (inner : Inner σ) :
    (Program.valuesAt anchor segments).exec inner =
      (((Program.place anchor segments).exec inner).1.map fun found =>
          found.map fun found => found.1.values found.2,
        ((Program.place anchor segments).exec inner).2) := by
  rw [Program.valuesAt, Program.exec_bind, Effect.bind_apply]
  rcases (Program.place anchor segments).exec inner with ⟨e | found, t⟩ <;> rfl

/-- A revision that was read belongs to a place of the path. -/
theorem Program.place_of_revisionAt {m : VersionMarker}
    (h : ((Program.revisionAt anchor segments).exec inner).1 = .ok (some m)) :
    ∃ cursor state t, (Program.place anchor segments).exec inner =
      (.ok (some (cursor, state)), t) ∧ cursor.revision state = some m := by
  rw [Program.exec_revisionAt] at h
  rcases hplace : (Program.place anchor segments).exec inner with ⟨e | found, t⟩ <;>
    rw [hplace] at h
  · cases h
  · cases found with
    | none => cases h
    | some found =>
      refine ⟨found.1, found.2, t, rfl, ?_⟩
      simpa [Except.map] using h

/-- The commands that only load and look. -/
def Command.Reads : Command → Prop
  | .load _ | .field _ _ | .state _ => True
  | _ => False

/-- Resolving a path only loads and looks. -/
theorem Program.reads_resolvePath (current : NodeId) (segments : List String) :
    Script.Only Command.Reads (Program.resolvePath current segments) := by
  induction segments generalizing current with
  | nil => exact trivial
  | cons segment rest ih =>
    refine Script.Only.bind (Script.only_issue trivial) fun found => ?_
    split
    · exact trivial
    · refine Script.Only.bind (Script.only_issue trivial) fun value => ?_
      split
      · exact trivial
      · exact ih _
      all_goals exact trivial

private theorem Program.reads_place (anchor : NodeId) (segments : List String) :
    Script.Only Command.Reads (Program.place anchor segments) := by
  have hcursor : Script.Only Command.Reads (Program.resolveCursor anchor segments) := by
    refine Script.Only.bind (Script.only_issue trivial) fun found => ?_
    split
    · exact trivial
    split
    · exact trivial
    refine Script.Only.bind (Program.reads_resolvePath _ _) fun current => ?_
    split
    · exact trivial
    · refine Script.Only.bind (Script.only_issue trivial) fun found => ?_
      split <;> exact trivial
  refine Script.Only.bind hcursor fun cursor => ?_
  split
  · exact trivial
  · exact Script.Only.bind (Script.only_issue trivial) fun _ => trivial

/-- Session and plain state with the same nodes over the same store. -/
def Session.Alike (s : Session σ) (inner : Inner σ) : Prop :=
  s.inner.nodes = inner.nodes ∧ s.inner.missingNodes = inner.missingNodes ∧
    s.inner.storageEngine = inner.storageEngine

/-- Loading inside and outside a transaction. -/
theorem Session.lockstep_load (node : NodeId) :
    Effect.Lockstep Session.Alike (Session.load node) (maybeLoadNode node : Call σ Bool)
      fun _ => Session.Alike := by
  rintro s inner ⟨hnodes, hmissing, hengine⟩
  have hresident : s.inner.resident node = inner.resident node := by
    simp only [Inner.resident, hnodes, hengine]
  rw [Session.load, maybeLoadNode, hresident, hmissing, hengine]
  cases inner.resident node with
  | true => exact ⟨rfl, hnodes, hmissing, hengine⟩
  | false =>
    cases inner.missingNodes.contains node with
    | true => exact ⟨rfl, hnodes, hmissing, hengine⟩
    | false =>
      simp only [Bool.false_eq_true, if_false]
      cases hstore : inner.storageEngine with
      | none => exact ⟨rfl, hnodes, hmissing, hengine⟩
      | some engine =>
        dsimp only
        rcases IncrementalStore.getNode engine node with e | _ | state
        · exact ⟨rfl, hnodes, hmissing, hengine⟩
        · simp only [hnodes]
          split
          · exact ⟨rfl, hnodes, hmissing, hengine⟩
          · simp only [Session.Alike, Session.journalMissingNode_inner, hnodes, hmissing, hengine,
              hstore, and_self]
        · simp only [Session.Alike, Session.requestReindexNodeRelationships,
            Session.journalMissingNode_inner, Session.journalNode_inner,
            Inner.reindexNodeRelationships, hnodes, hmissing, hengine, hstore, and_self]

/-- Reads inside a transaction answer as outside. -/
theorem Session.lockstep_reads {α : Type} {program : Program α}
    (h : Script.Only Command.Reads program) :
    Effect.Lockstep Session.Alike (program.run Session.exec) (program.exec : Call σ α)
      fun _ => Session.Alike := by
  refine h.lockstep fun c hc => ?_
  cases c with
  | load node => exact Session.lockstep_load node
  | field node name =>
    intro s inner halike
    exact ⟨congrArg (fun nodes : BTreeMap NodeId NodeState => Except.ok
      ((nodes[node]?.bind fun state => state.fields[name]?).map FieldState.value)) halike.1, halike⟩
  | state node =>
    intro s inner halike
    exact ⟨congrArg (fun nodes : BTreeMap NodeId NodeState => Except.ok nodes[node]?) halike.1,
      halike⟩
  | _ => exact absurd hc id

/-- At the start of a transaction reads answer as outside. -/
theorem Session.reads_start {α : Type} {program : Program α}
    (h : Script.Only Command.Reads program) (inner : Inner σ) (fetches : BTreeSet NodeId) :
    (program.run Session.exec (Session.start inner fetches)).1 = (program.exec inner).1 :=
  (Session.lockstep_reads h (Session.start inner fetches) inner ⟨rfl, rfl, rfl⟩).1

/-- An asserted revision is the one a reader finds. -/
theorem Program.revisionAt_of_assertRevision {expected : Option VersionMarker}
    {fetches : BTreeSet NodeId}
    (h : ((Program.assertRevision anchor segments expected).run Session.exec
      (Session.start inner fetches)).1 = .ok ()) :
    ((Program.revisionAt anchor segments).exec inner).1 = .ok expected := by
  have hreads : Script.Only Command.Reads (Program.revisionAt anchor segments) :=
    Script.Only.bind (Program.reads_place anchor segments) fun _ => trivial
  rw [← Session.reads_start hreads inner fetches]
  rw [Program.assertRevision, Script.run_bind, Effect.bind_apply] at h
  rcases hrun : (Program.revisionAt anchor segments).run Session.exec
    (Session.start inner fetches) with ⟨e | current, t⟩ <;> rw [hrun] at h
  · cases h
  · dsimp only at h
    split at h
    · rename_i heq
      exact congrArg Except.ok heq
    · cases h

private theorem Program.reads_valuesAt (anchor : NodeId) (segments : List String) :
    Script.Only Command.Reads (Program.valuesAt anchor segments) :=
  Script.Only.bind (Program.reads_place anchor segments) fun _ => trivial

variable [Blake3]

/-- Two reads of one revision at a path, with orderly changes between them, find the same
values. -/
theorem valuesAt_eq_of_revisionAt {db : Database σ} {calls : List Mutation} {m : VersionMarker}
    {owner : VersionMarker → NodeId}
    (hseen : db.inner = ((Program.place anchor segments).exec inner).2)
    (hstore : db.KeyedAlong calls) (howned : SlotGraph.OwnedBy owner (slotAt db.inner.nodes))
    (horderly : SlotGraph.Orderly owner (slotAt db.inner.nodes) (db.changes calls ++
      (Program.place anchor segments).changes (db.runMutations calls).inner))
    (hfirst : ((Program.revisionAt anchor segments).exec inner).1 = .ok (some m))
    (hsecond : ((Program.revisionAt anchor segments).exec (db.runMutations calls).inner).1 =
      .ok (some m)) :
    ((Program.valuesAt anchor segments).exec (db.runMutations calls).inner).1 =
      ((Program.valuesAt anchor segments).exec inner).1 := by
  obtain ⟨cursor, old, t, hplace, hrev⟩ := Program.place_of_revisionAt hfirst
  obtain ⟨cursor', new, u, hplace', hrev'⟩ := Program.place_of_revisionAt hsecond
  obtain ⟨hnamed, hold⟩ := Program.place_exec hplace
  obtain ⟨hnamed', hnew⟩ := Program.place_exec hplace'
  rw [hplace] at hseen
  change db.inner = t at hseen
  have hslots : slotAt u.nodes = (db.changes calls ++ (Program.place anchor segments).changes
      (db.runMutations calls).inner).foldl GraphChange.act (slotAt db.inner.nodes) := by
    rw [List.foldl_append, ← Database.runMutations_slots hstore, ← Program.exec_slots, hplace']
  obtain ⟨hraised, howned'⟩ := horderly.run howned
  rw [← hslots] at hraised howned'
  have hgraph : ∀ {nodes : BTreeMap NodeId NodeState} {n : NodeId} {state : NodeState},
      nodes[n]? = some state → ∀ f, slotAt nodes n f = state.slot f := by
    intro nodes n state hn f
    simp [slotAt, hn]
  -- one marker names one node, so both reads ended in the same place
  have hsame : cursor' = cursor := by
    obtain ⟨f, hf⟩ := Cursor.carries_of_revision hrev
    obtain ⟨f', hf'⟩ := Cursor.carries_of_revision hrev'
    rw [← hgraph hold f] at hf
    rw [← hgraph hnew f'] at hf'
    have howner := howned _ f m (hseen ▸ hf)
    exact hnamed'.eq hnamed ((howned' _ f' m hf').symm.trans howner)
  subst hsame
  rw [Program.exec_valuesAt, Program.exec_valuesAt, hplace, hplace']
  have hvalues := Cursor.values_eq_of_raised (hraised cursor'.nodeId)
    (fun f => (congrArg (slotAt ·.nodes cursor'.nodeId f) hseen).trans (hgraph hold f))
    (hgraph hnew) hrev hrev'
  simp only [Except.map, Option.map_some, hvalues]

/-- A revision check detects every change, as long as each marker belongs to one node and every
operation and node state taken in between the two moments carries a marker above those its node
holds: a path whose revision is the same marker at both moments holds the same values, and a
transaction that asserts the revision starts from them. -/
theorem revision_detects_changes (db : Database σ) (calls : List Mutation) (anchor : NodeId)
    (segments : List String) (m : VersionMarker) (owner : VersionMarker → NodeId)
    (seen : Database σ)
    (hseen : seen = { db with inner := ((Program.revisionAt anchor segments).exec db.inner).2 })
    (hstore : seen.KeyedAlong calls) (howned : SlotGraph.OwnedBy owner (slotAt seen.inner.nodes))
    (horderly : SlotGraph.Orderly owner (slotAt seen.inner.nodes) (seen.changes calls ++
      (Program.place anchor segments).changes (seen.runMutations calls).inner))
    (hfirst : ((Program.revisionAt anchor segments).exec db.inner).1 = .ok (some m)) :
    (((Program.revisionAt anchor segments).exec (seen.runMutations calls).inner).1 =
        .ok (some m) →
      ((Program.valuesAt anchor segments).exec (seen.runMutations calls).inner).1 =
        ((Program.valuesAt anchor segments).exec db.inner).1) ∧
    ∀ fetches : BTreeSet NodeId,
      ((Program.assertRevision anchor segments (some m)).run Session.exec
        (Session.start (seen.runMutations calls).inner fetches)).1 = .ok () →
      ((Program.valuesAt anchor segments).run Session.exec
          (Session.start (seen.runMutations calls).inner fetches)).1 =
        ((Program.valuesAt anchor segments).exec db.inner).1 := by
  have hinner : seen.inner = ((Program.place anchor segments).exec db.inner).2 := by
    rw [hseen, Program.exec_revisionAt]
  have hread := valuesAt_eq_of_revisionAt hinner hstore howned horderly hfirst
  refine ⟨hread, fun fetches hassert => ?_⟩
  rw [Session.reads_start (Program.reads_valuesAt anchor segments)]
  exact hread (Program.revisionAt_of_assertRevision hassert)

end Reads

/-- A remote add of a member to a set. -/
def remoteAdd (millis : UInt64) (node : NodeId) (field member : String) : Mutation :=
  .applyOperations [History.opAt millis (.addSetMember node field member)]

/-- A database that took in one remote add. -/
def oneAdd : Database Empty :=
  @Database.runMutations Empty _ plainHash freshDatabase [remoteAdd 5 "n" "f" "x"]

/-- The database after a late add to the same set. -/
def lateAdd : Database Empty :=
  @Database.runMutations Empty _ plainHash oneAdd [remoteAdd 3 "n" "f" "y"]

/-- The database after a late add to another field. -/
def lateFieldAdd : Database Empty :=
  @Database.runMutations Empty _ plainHash oneAdd [remoteAdd 3 "n" "g" "y"]

/-- A late member and a late field leave the revisions of field and node as they were, and a
transaction that asserts them goes through over changed values. -/
theorem revision_misses_late_adds :
    ((Program.revisionAt "n" ["f"]).exec oneAdd.inner).1 =
        ((Program.revisionAt "n" ["f"]).exec lateAdd.inner).1 ∧
      ((Program.assertRevision "n" ["f"] (some (History.opAt 5 (.deleteField "n" "f")).marker)).run
        Session.exec (Session.start lateAdd.inner ∅)).1 = .ok () ∧
      ((Program.valuesAt "n" ["f"]).exec oneAdd.inner).1 ≠
        ((Program.valuesAt "n" ["f"]).exec lateAdd.inner).1 ∧
      ((Program.revisionAt "n" []).exec oneAdd.inner).1 =
        ((Program.revisionAt "n" []).exec lateFieldAdd.inner).1 ∧
      ((Program.assertRevision "n" [] (some (History.opAt 5 (.deleteField "n" "f")).marker)).run
        Session.exec (Session.start lateFieldAdd.inner ∅)).1 = .ok () ∧
      ((Program.valuesAt "n" []).exec oneAdd.inner).1 ≠
        ((Program.valuesAt "n" []).exec lateFieldAdd.inner).1 := by
  have hdiffer : ∀ {a b : Except PrimadbError (Option (String → Option FieldValue))} (f : String),
      a.toOption.bind (fun values => values.bind (· f)) ≠
        b.toOption.bind (fun values => values.bind (· f)) → a ≠ b := by
    rintro a b f h rfl
    exact h rfl
  refine ⟨?_, ?_, hdiffer "f" ?_, ?_, ?_, hdiffer "g" ?_⟩
  all_goals decide +kernel

/-- The node a marker belongs to when the adds of the seventh millisecond go to another node. -/
def addOwner (marker : VersionMarker) : NodeId := if marker.revision.millis = 7 then "p" else "n"

/-- The markers of the one add belong to its node. -/
theorem ownedBy_oneAdd : SlotGraph.OwnedBy addOwner (slotAt oneAdd.inner.nodes) := by
  intro n f m hm
  have hslots : slotAt oneAdd.inner.nodes = (GraphChange.operation
      (History.opAt 5 (.addSetMember "n" "f" "x"))).act (slotAt freshDatabase.inner.nodes) :=
    slotAt_operation _ _
  have hempty : SlotGraph.OwnedBy addOwner (slotAt freshDatabase.inner.nodes) := by
    intro n f m hm
    simp [slotAt, freshDatabase, Inner.withReplicaId, Slot.Carries, Slot.empty] at hm
  have hadd : GraphChange.OwnedBy addOwner
      (.operation (History.opAt 5 (.addSetMember "n" "f" "x"))) := by
    change addOwner _ = _
    decide
  exact hempty.act hadd n f m (hslots ▸ hm)

private theorem orderly_otherNode :
    SlotGraph.Orderly addOwner (slotAt oneAdd.inner.nodes)
      (@Database.changes Empty _ plainHash oneAdd [remoteAdd 7 "p" "f" "y"] ++
        (Program.place "n" ["f"]).changes
          (@Database.runMutations Empty _ plainHash oneAdd [remoteAdd 7 "p" "f" "y"]).inner) := by
  have hchanges : @Database.changes Empty _ plainHash oneAdd [remoteAdd 7 "p" "f" "y"] ++
      (Program.place "n" ["f"]).changes
        (@Database.runMutations Empty _ plainHash oneAdd [remoteAdd 7 "p" "f" "y"]).inner =
      [.operation (History.opAt 7 (.addSetMember "p" "f" "y"))] := by decide +kernel
  have habsent : oneAdd.inner.nodes["p"]? = none := by decide +kernel
  rw [hchanges]
  refine ⟨Or.inr fun g => ?_, rfl, trivial⟩
  change (slotAt oneAdd.inner.nodes "p" g).stamp < _
  rw [slotAt, habsent]
  exact WithBot.bot_lt_coe _

/-- An add to another node leaves revision and values of the field. -/
theorem revision_detects_changes_otherNode :
    ((Program.valuesAt "n" ["f"]).exec
        (@Database.runMutations Empty _ plainHash oneAdd [remoteAdd 7 "p" "f" "y"]).inner).1 =
      ((Program.valuesAt "n" ["f"]).exec oneAdd.inner).1 :=
  (@revision_detects_changes Empty _ plainHash oneAdd [remoteAdd 7 "p" "f" "y"] "n" ["f"]
    (History.opAt 5 (.deleteField "n" "f")).marker addOwner oneAdd rfl
    ⟨fun engine => engine.elim, fun engine => engine.elim⟩ ownedBy_oneAdd orderly_otherNode
    (by decide +kernel)).1 (by decide +kernel)

end Primadb

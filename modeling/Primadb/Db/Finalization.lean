import Primadb.Db.Announcement
import Primadb.Db.Overlap
import Primadb.Db.Traversal

/-!
# Finalizing a change with watchers

Before the event of a change is sent, the change is persisted, the search collections of the
touched record keys are marked and the queries of the watchers it overlaps are repeated. A store
that fails, a key that cannot be cut into bytes and a query that fails each stop it there, and the
change stays without an event.
-/

namespace Primadb

/-- How a call ends early. -/
inductive Fault where
  /-- It returns an error. -/
  | error (e : PrimadbError)
  /-- It panics. -/
  | panic
  deriving DecidableEq

/-- Whether the component of a record key that names its collection makes `decode_component`
panic. -/
def collectionKeyPanics (recordPrefix key : String) : Bool :=
  ((collectionComponent recordPrefix key).map decodeComponentPanics).getD false

/-- Whether `mark_vector_collections_dirty` or `mark_text_collections_dirty` panics. -/
def ChangeImpact.markPanics (impact : ChangeImpact) : Bool :=
  impact.dataChanged && !impact.fullRefresh && impact.recordsChanged &&
    impact.touchedRecordKeys.any fun key =>
      collectionKeyPanics "__primadb_vectors" key || collectionKeyPanics "__primadb_text" key

/-- A watcher of a query. -/
structure QueryWatcher (σ : Type) where
  /-- The key under which the answers of one round are kept. -/
  key : String
  /-- Whether an event overlaps what is watched. -/
  due : ChangeEvent → Bool
  /-- The query, which may load nodes; its answer goes to the receiver. -/
  query : Call σ Unit

/-- The watchers of a database whose queries can fail. -/
structure Watchers (σ : Type) where
  traversals : List (QueryWatcher σ)
  records : List (QueryWatcher σ)
  vectors : List (QueryWatcher σ)
  texts : List (QueryWatcher σ)

section Notify

variable {σ : Type}

/-- One round of `notify_traversal_subscribers`, `notify_record_subscribers`,
`notify_vector_subscribers` or `notify_text_subscribers`: each query that is due is repeated
once. -/
def notifyQueries (event : ChangeEvent) : List (QueryWatcher σ) → List String → Call σ Unit
  | [], _ => pure ()
  | watcher :: rest, answered =>
    if watcher.due event && !answered.contains watcher.key then do
      watcher.query
      notifyQueries event rest (watcher.key :: answered)
    else notifyQueries event rest answered

/-- The rounds between persisting a change and its event. A path whose value cannot be read counts
as without a value, so `notify_subscribers` does not fail. -/
def Watchers.notify (watchers : Watchers σ) (event : ChangeEvent) : Call σ Unit :=
  if event.impact.dataChanged then do
    notifyQueries event watchers.traversals []
    notifyQueries event watchers.records []
    notifyQueries event watchers.vectors []
    notifyQueries event watchers.texts []
  else pure ()

/-- A database without watchers. -/
def Watchers.none : Watchers σ := ⟨[], [], [], []⟩

/-- The event of a change. -/
def Database.event (db : Database σ) (impact : ChangeImpact) : ChangeEvent :=
  ⟨txSucc db.changeRevision, db.inner.pendingOps.len, impact⟩

variable [RecordStore σ]

/-- `finalize_change` of a database with watchers. -/
def finalizeWatched (watchers : Watchers σ) (impact : ChangeImpact) :
    Effect (Database σ) Fault Unit := fun db =>
  let event := db.event impact
  match persistIfNeeded db.inner with
  | (.error e, inner) =>
    (.error (.error e), { db with inner := inner, changeRevision := event.revision })
  | (.ok _, inner) =>
    if impact.markPanics then
      (.error .panic, { db with inner := inner, changeRevision := event.revision })
    else
      match watchers.notify event inner with
      | (.error e, inner) =>
        (.error (.error e), { db with inner := inner, changeRevision := event.revision })
      | (.ok _, inner) =>
        (.ok (), { db with
          inner := inner, changeRevision := event.revision, events := db.events ++ [event] })

/-- Nothing stops a change before its event: it is stored, no key makes the marking panic, and the
queries of its watchers are answered. -/
structure Database.Announceable (db : Database σ) (watchers : Watchers σ)
    (impact : ChangeImpact) : Prop where
  stored : (persistIfNeeded db.inner).1 = .ok ()
  marked : impact.markPanics = false
  answered : (watchers.notify (db.event impact) (persistIfNeeded db.inner).2).1 = .ok ()

/-- A change that nothing stops is finalized and its event is sent; another ends with a fault and
without an event. -/
theorem finalizeWatched_cases (watchers : Watchers σ) (impact : ChangeImpact) (db : Database σ) :
    db.Announceable watchers impact ∧ (finalizeWatched watchers impact db).1 = .ok () ∧
        (finalizeWatched watchers impact db).2.events = db.events ++ [db.event impact] ∨
      ¬ db.Announceable watchers impact ∧
        (∃ fault, (finalizeWatched watchers impact db).1 = .error fault) ∧
        (finalizeWatched watchers impact db).2.events = db.events := by
  rw [finalizeWatched]
  rcases hpersist : persistIfNeeded db.inner with ⟨e | _, inner⟩
  · exact Or.inr ⟨fun h => by simpa [hpersist] using h.stored, ⟨_, rfl⟩, rfl⟩
  · dsimp only
    split
    · rename_i hpanics
      exact Or.inr ⟨fun h => by simpa [hpanics] using h.marked, ⟨_, rfl⟩, rfl⟩
    · rename_i hmarked
      rcases hnotify : watchers.notify (db.event impact) inner with ⟨e | _, after⟩
      · exact Or.inr ⟨fun h => by simpa [hpersist, hnotify] using h.answered, ⟨_, rfl⟩, rfl⟩
      · exact Or.inl ⟨⟨by rw [hpersist], Bool.eq_false_iff.mpr hmarked, by rw [hpersist, hnotify]⟩,
          rfl, rfl⟩

/-- Without watchers, and without a key that cannot be cut, finalizing is `finalizeChange`. -/
theorem finalizeWatched_none {impact : ChangeImpact} (h : impact.markPanics = false)
    (db : Database σ) :
    finalizeWatched .none impact db =
      ((finalizeChange impact db).1.mapError .error, (finalizeChange impact db).2) := by
  have hnotify : ∀ inner : Inner σ,
      Watchers.none.notify (db.event impact) inner = (.ok (), inner) := by
    intro inner
    rw [Watchers.notify]
    split <;> rfl
  rw [finalizeWatched, finalizeChange]
  rcases persistIfNeeded db.inner with ⟨e | _, inner⟩
  · rfl
  · simp only [h, hnotify, Bool.false_eq_true, if_false]
    rfl

variable {α : Type}

/-- `run_local_transaction` of a database with watchers. -/
def runWatchedTransaction (watchers : Watchers σ) (program : Program α) :
    Effect (Database σ) Fault (α × ℕ) := fun db =>
  match program.run Session.exec (Session.start db.inner db.scheduledNodeFetches) with
  | (.ok value, s) =>
    let count := (s.announced db.inner.unflushedOps.len).length
    if (db.announcement s).isEmpty then (.ok (value, count), db.committed s)
    else
      match finalizeWatched watchers (db.announcement s) (db.committed s) with
      | (.ok _, db) => (.ok (value, count), db)
      | (.error fault, db) => (.error fault, db)
  | (.error e, s) =>
    (.error (.error e), { db with inner := s.restore.1, scheduledNodeFetches := s.restore.2 })

/-- Without watchers, and without a key that cannot be cut, a transaction is
`runLocalTransaction`. -/
theorem runWatchedTransaction_none {program : Program α} {db : Database σ}
    (h : (db.announcement (program.run Session.exec
      (Session.start db.inner db.scheduledNodeFetches)).2).markPanics = false) :
    runWatchedTransaction .none program db =
      ((runLocalTransaction program db).1.mapError .error, (runLocalTransaction program db).2) := by
  rw [runWatchedTransaction, runLocalTransaction]
  rcases hrun : program.run Session.exec (Session.start db.inner db.scheduledNodeFetches) with
    ⟨e | value, s⟩
  · rfl
  · rw [hrun] at h
    dsimp only
    rw [finalizeWatched_none h, Database.announcement]
    split
    · rfl
    · rcases finalizeChange (ChangeImpact.fromOps (s.announced db.inner.unflushedOps.len)
        (db.committed s).inner.nodes) (db.committed s) with ⟨e | _, done⟩ <;> rfl

/-- A transaction is announced in full: it succeeds, and an event is sent that lists what the
transaction changed. -/
def Database.AnnouncedInFull (db : Database σ) (watchers : Watchers σ) (program : Program α) :
    Prop :=
  ∃ value count event, (runWatchedTransaction watchers program db).1 = .ok (value, count) ∧
    (runWatchedTransaction watchers program db).2.events = db.events ++ [event] ∧
    event.impact.Announces count (db.issued program) (db.committed (program.run Session.exec
      (Session.start db.inner db.scheduledNodeFetches)).2).inner.nodes

/-- A transaction whose body succeeds with some operation let in is announced in full exactly when
none of its slots was in the unflushed queue, no changed record gave up its key, and nothing stops
the change before its event. -/
theorem runWatchedTransaction_announces_iff (db : Database σ) (watchers : Watchers σ)
    (program : Program α) {value : α} {s : Session σ} (hqueues : db.inner.QueuesWf)
    (hstore : db.inner.KeyedStore)
    (hrun : program.run Session.exec (Session.start db.inner db.scheduledNodeFetches) =
      (.ok value, s))
    (hops : acceptedOps (db.issued program) ≠ []) :
    db.AnnouncedInFull watchers program ↔
      (Unqueued db.inner.unflushedOps (db.issued program) ∧ KeysKept (db.issued program)) ∧
        (db.committed s).Announceable watchers (db.announcement s) := by
  have hannounced := db.announcement_iff hqueues hstore hrun hops
  have hevents : (db.committed s).events = db.events := rfl
  rw [Database.AnnouncedInFull, runWatchedTransaction, hrun, ← hannounced]
  dsimp only
  split
  · -- nothing is announced
    rename_i hempty
    refine ⟨?_, fun h => absurd h.1.attempted (by simp [hempty])⟩
    rintro ⟨_, _, event, -, hsent, -⟩
    rw [hevents] at hsent
    exact absurd hsent (by simp)
  · rcases finalizeWatched_cases watchers (db.announcement s) (db.committed s) with
      ⟨hable, hok, hsent⟩ | ⟨hunable, ⟨fault, hfault⟩, hunsent⟩
    · rcases hfinal : finalizeWatched watchers (db.announcement s) (db.committed s) with ⟨r, done⟩
      rw [hfinal] at hok hsent
      dsimp only at hok hsent
      subst hok
      constructor
      · rintro ⟨_, count, event, hanswer, hevent, hall⟩
        obtain ⟨-, rfl⟩ := Prod.mk.inj (Except.ok.inj hanswer)
        obtain rfl : event = (db.committed s).event (db.announcement s) := by
          rw [hsent, hevents] at hevent
          exact (List.cons.inj (List.append_cancel_left hevent)).1.symm
        exact ⟨hall, hable⟩
      · rintro ⟨hall, -⟩
        exact ⟨value, _, _, rfl, hsent, hall⟩
    · rcases hfinal : finalizeWatched watchers (db.announcement s) (db.committed s) with ⟨r, done⟩
      rw [hfinal] at hfault
      dsimp only at hfault
      subst hfault
      refine ⟨?_, fun h => absurd h.2 hunable⟩
      rintro ⟨_, _, _, hanswer, -⟩
      cases hanswer

end Notify

/-- The state of a database after a put that is not stored yet. -/
def unflushedPut : Database Empty :=
  { freshDatabase with inner := (putJsonInner "n" ["f"] (.bool true) freshDatabase.inner).2 }

/-- A watcher of the traversal that starts at a path nothing is found at yet. -/
def traversalWatcher (anchor : NodeId) (segments : List String) : QueryWatcher Empty :=
  ⟨watchPathKey anchor segments, watchChangeOverlaps (watchPathKey anchor segments), do
    let _ ← traverseAt 9 anchor segments
      ⟨.outbound, .bfs, 9, none, none, true, true, true, false, []⟩⟩

/-- A put beside a watched traversal is announced in full. -/
theorem runWatchedTransaction_announces_put :
    freshDatabase.AnnouncedInFull ⟨[traversalWatcher "a" ["b", "c"]], [], [], []⟩
      (Program.putJson "n" ["f"] (.bool true)) :=
  (@runWatchedTransaction_announces_iff Empty _ Unit freshDatabase _
    (Program.putJson "n" ["f"] (.bool true)) () _
    ⟨CompactedOperations.Wf.empty, CompactedOperations.Wf.empty⟩
    (fun engine => engine.elim) rfl (by decide)).mpr
    ⟨⟨by decide, by decide⟩, by decide +kernel, by decide +kernel, by decide +kernel⟩

-- A traversal watched at `a/b/c` cannot be repeated once `a.b` is a scalar: the put is committed
-- and sends no event.
example :
    let done := runWatchedTransaction ⟨[traversalWatcher "a" ["b", "c"]], [], [], []⟩
      (Program.putJson "a" ["b"] (.bool true)) freshDatabase
    done.1 = .error (.error (.traversalIntoScalar "a" "b")) ∧ done.2.events = [] ∧
      done.2.inner.nodes.contains "a" = true := by
  decide +kernel

/-- A transaction that writes a slot still in the unflushed queue has its operation let in, but
counts none and sends no event. -/
theorem runWatchedTransaction_unannounced_put :
    (acceptedOps (unflushedPut.issued (Program.putJson "n" ["f"] (.bool false)))).length = 1 ∧
      (runWatchedTransaction .none (Program.putJson "n" ["f"] (.bool false)) unflushedPut).1 =
        .ok ((), 0) ∧
      (runWatchedTransaction .none (Program.putJson "n" ["f"] (.bool false))
        unflushedPut).2.events = [] := by
  refine ⟨?_, ?_, ?_⟩ <;> decide

end Primadb

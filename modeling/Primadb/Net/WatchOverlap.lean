import Primadb.Db.Overlap

/-!
# Which changes concern a remote watch

A serving peer tests every change against the requests that other peers watch. Records and
vector searches have tests of their own; every other request is tested by one path of interest.
A text search over records has such a path too, and it is not a path that records change at.
-/

namespace Primadb

/-- `PullRequestKind`, without the specifications, queries and steps that play no part in the
interest of a watch. -/
inductive PullRequestKind where
  | get (path : RemotePath)
  | map (path : RemotePath)
  | query (path : RemotePath)
  | lex (path : RemotePath)
  | records (scan : RecordScan)
  | vectorSearch (collection : String)
  | textSearch (source : TextSearchSource)
  | node (id : NodeId)
  | snapshot (root : Option String)
  | transaction (scope : String)

namespace PullRequestKind

/-- `PullRequestKind::interest_path`. -/
def interestPath : PullRequestKind → Option String
  | get path | map path | query path | lex path => some path.path
  | records _ => none
  | vectorSearch collection => some ("__primadb_vectors/" ++ collection)
  | textSearch source =>
    some (match source with
      | .collection collection => "__primadb_text/" ++ collection
      | .graphQuery anchor segments => watchPathKey anchor segments
      | .records scan => scan.keyPrefix.getD "__primadb_records")
  | node id => some id
  | snapshot root => root
  | transaction scope => some scope

/-- `incoming_watch_overlaps_event` on the request of a watch and its path of interest. -/
def incomingWatchOverlapsEvent (requestKind : PullRequestKind) (interestPath : Option String)
    (event : ChangeEvent) : Bool :=
  if event.impact.fullRefresh then true
  else
    match requestKind with
    | records scan =>
      event.impact.recordsChanged && (event.impact.touchedRecordKeys.isEmpty ||
        event.impact.touchedRecordKeys.any scan.matchesKey)
    | vectorSearch collection =>
      event.impact.recordsChanged && (event.impact.touchedRecordKeys.isEmpty ||
        event.impact.touchedRecordKeys.any fun key =>
          vectorCollectionFromRecordKey key == some collection)
    | _ =>
      event.impact.fullRefresh ||
        match interestPath with
        | none => true
        | some path => event.impact.touchedPaths.any (pathOverlaps path)

/-- The remote test of a subscribed request: its watch keeps the path of interest. -/
def remoteOverlaps (request : PullRequestKind) (event : ChangeEvent) : Bool :=
  request.incomingWatchOverlapsEvent request.interestPath event

/-- What a local watch of the same request watches, where there is one. -/
def watched : PullRequestKind → Option Watched
  | get path => some (.path (watchPathKey path.anchor path.segments))
  | records scan => some (.records scan)
  | vectorSearch collection => some (.vectors collection)
  | textSearch source => some (.text source)
  | map _ | query _ | lex _ | node _ | snapshot _ | transaction _ => none

/-- Whether the request searches texts that are kept in records. -/
def searchesRecordTexts : PullRequestKind → Bool
  | textSearch (.collection _) | textSearch (.records _) => true
  | _ => false

private theorem recordKeysOverlap_eq (selects : String → Bool) (event : ChangeEvent) :
    recordKeysOverlap selects event =
      if event.impact.fullRefresh then true
      else event.impact.recordsChanged && (event.impact.touchedRecordKeys.isEmpty ||
        event.impact.touchedRecordKeys.any selects) := by
  rw [recordKeysOverlap]
  cases event.impact.fullRefresh with
  | true => rfl
  | false => cases event.impact.recordsChanged <;> rfl

private theorem watchChangeOverlaps_eq (path : String) (event : ChangeEvent) :
    watchChangeOverlaps path event =
      if event.impact.fullRefresh then true
      else event.impact.fullRefresh || event.impact.touchedPaths.any (pathOverlaps path) := by
  rw [watchChangeOverlaps]
  cases event.impact.fullRefresh <;> rfl

/-- Local and remote tests are the same for every watched request that searches no texts of
records. -/
theorem remoteOverlaps_eq_of_watched {request : PullRequestKind} {watched : Watched}
    (hwatched : request.watched = some watched) (hrecords : request.searchesRecordTexts = false)
    (event : ChangeEvent) : request.remoteOverlaps event = watched.overlaps event := by
  cases request with
  | get path =>
    cases hwatched
    exact (watchChangeOverlaps_eq _ event).symm
  | records scan =>
    cases hwatched
    exact (recordKeysOverlap_eq _ event).symm
  | vectorSearch collection =>
    cases hwatched
    exact (recordKeysOverlap_eq _ event).symm
  | textSearch source =>
    cases hwatched
    cases source with
    | graphQuery anchor segments => exact (watchChangeOverlaps_eq _ event).symm
    | collection _ | records _ => cases hrecords
  | map _ | query _ | lex _ | node _ | snapshot _ | transaction _ => cases hwatched

/-- The remote test of a watched request holds for every event for which the local one does
exactly when the request searches no texts of records. -/
theorem remote_watch_covers_local_iff (request : PullRequestKind) :
    (∀ watched, request.watched = some watched → ∀ event, watched.overlaps event = true →
      request.remoteOverlaps event = true) ↔ request.searchesRecordTexts = false := by
  constructor
  · intro hcovers
    -- an event of records with unknown keys concerns every search of records and touches no path
    by_contra htexts
    rw [Bool.not_eq_false] at htexts
    cases request with
    | textSearch source =>
      have hremote := hcovers (.text source) rfl (ChangeEvent.recordsEvent [])
      cases source with
      | graphQuery anchor segments => cases htexts
      | collection _ | records _ => cases hremote rfl
    | _ => cases htexts
  · intro hrecords watched hwatched event hlocal
    rwa [remoteOverlaps_eq_of_watched hwatched hrecords]

/-- A put document of a text collection: the local watch of a search is told, the remote one is
not. -/
theorem remote_text_watch_misses_document :
    let ops : List Operation :=
      [⟨"b/set/1-0-1", "b", ⟨1, 0, "b"⟩, .setField "__primadb_records/5a" "key"
        (.scalar (.string "__primadb_text/63/docs/31"))⟩]
    let event : ChangeEvent := ⟨1, 0, .fromOps ops ∅⟩
    let request : PullRequestKind := .textSearch (.collection "c")
    request.watched.map (·.overlaps event) = some true ∧
      request.remoteOverlaps event = false := by
  decide +kernel

end PullRequestKind

end Primadb

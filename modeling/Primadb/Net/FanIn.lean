import Mathlib.Data.Prod.Lex
import Primadb.Db.Pagination
import Primadb.Net.RelayClient

/-!
# Reading records from several peers

The answers of several peers to one scan are grouped by key; for each key the source that sorts
first wins, and sources that differ are reported. The cursors of the peers whose pages were cut
are written into one text, which is sent to every peer as the cursor of the next page.
-/

namespace Primadb

/-- `RouteTransportKind::as_str`. -/
def RouteTransportKind.asStr : RouteTransportKind → String
  | .webSocket => "websocket"
  | .moq => "moq"
  | .webRtc => "webrtc"
  | .broadcastChannel => "broadcast_channel"
  | .inMemory => "in_memory"

/-- The records one peer returned. -/
structure RemotePeerRecords where
  peerId : String
  transport : RouteTransportKind
  result : RecordScanResult

/-- A peer that did not answer. -/
structure RemotePeerFailure where
  peerId : String
  transport : RouteTransportKind
  message : String

/-- A record as one peer returned it. -/
structure SourceRecord where
  peerId : String
  transport : RouteTransportKind
  entry : RecordEntry
  contentHash : String
  deriving DecidableEq

/-- A source of a conflict. -/
structure RemoteRecordConflictSource where
  peerId : String
  transport : RouteTransportKind
  contentHash : String

/-- A key for which peers returned different records. -/
structure RemoteRecordConflict where
  key : String
  winnerPeerId : String
  winnerHash : String
  sources : List RemoteRecordConflictSource

/-- The answers of all peers with what they come to. -/
structure RemoteRecordsFanIn where
  requestId : String
  records : List RemotePeerRecords
  failures : List RemotePeerFailure
  merged : RecordScanResult
  conflicts : List RemoteRecordConflict

namespace FanIn

section Merging

/-! `contentHash` is `stable_content_hash` with `"unknown"` for entries that cannot be written, and
`toJson` writes a map of cursors. -/

variable (contentHash : RecordEntry → String) (toJson : BTreeMap String String → Option String)

/-- What the peers returned, record by record. -/
def sources (records : List RemotePeerRecords) : List SourceRecord :=
  records.flatMap fun peer =>
    peer.result.entries.map fun entry => ⟨peer.peerId, peer.transport, entry, contentHash entry⟩

/-- `by_key`. -/
def byKey (sources : List SourceRecord) : BTreeMap String (List SourceRecord) :=
  sources.foldl (fun groups source =>
    groups.insert source.entry.key ((groups[source.entry.key]?.getD []) ++ [source])) ∅

/-- `cursors`. -/
def cursors (records : List RemotePeerRecords) : BTreeMap String String :=
  records.foldl (fun cursors peer =>
    match peer.result.nextCursor with
    | some cursor => cursors.insert peer.peerId cursor
    | none => cursors) ∅

/-- The order of the sources of a key. -/
def sourceKey (source : SourceRecord) : String ×ₗ String ×ₗ String :=
  toLex (source.peerId, toLex (source.contentHash, source.transport.asStr))

/-- The sources of a key, sorted. -/
def sorted (sources : List SourceRecord) : List SourceRecord :=
  sources.mergeSort fun left right => sourceKey left ≤ sourceKey right

/-- The conflict of a key, if its sources differ. -/
def conflictOf (key : String) : List SourceRecord → Option RemoteRecordConflict
  | [] => none
  | winner :: rest =>
    if (winner :: rest).all (·.contentHash = winner.contentHash) then none
    else some ⟨key, winner.peerId, winner.contentHash,
      (winner :: rest).map fun source => ⟨source.peerId, source.transport, source.contentHash⟩⟩

/-- `merge_remote_records_fan_in`. -/
def mergeRemoteRecordsFanIn (requestId : String) (records : List RemotePeerRecords)
    (failures : List RemotePeerFailure) : RemoteRecordsFanIn :=
  let groups := (byKey (sources contentHash records)).map fun _ => sorted
  { requestId := requestId
    records := records
    failures := failures
    merged :=
      ⟨groups.toList.filterMap fun group => group.2.head?.map (·.entry),
        if (cursors records).isEmpty then none else toJson (cursors records)⟩
    conflicts := groups.toList.filterMap fun group => conflictOf group.1 group.2 }

private theorem byKey_get (all : List SourceRecord) (key : String) :
    (byKey all)[key]? =
      if all.filter (·.entry.key = key) = [] then none
      else some (all.filter (·.entry.key = key)) := by
  have hfold : ∀ (all : List SourceRecord) (groups : BTreeMap String (List SourceRecord)),
      (all.foldl (fun groups source => groups.insert source.entry.key
        ((groups[source.entry.key]?.getD []) ++ [source])) groups)[key]? =
        if all.filter (·.entry.key = key) = [] then groups[key]?
        else some (groups[key]?.getD [] ++ all.filter (·.entry.key = key)) := by
    intro all
    induction all with
    | nil => exact fun _ => rfl
    | cons source all ih =>
      intro groups
      rw [List.foldl_cons, ih, BTreeMap.get_insert]
      by_cases hkey : source.entry.key = key
      · rw [List.filter_cons_of_pos (by simpa using hkey), if_pos hkey, hkey]
        split
        · rename_i hnone
          rw [hnone]
          simp
        · simp
      · rw [List.filter_cons_of_neg (by simpa using hkey), if_neg hkey]
  rw [byKey, hfold]
  split
  · simp
  · simp

/-- The sources of a key in the answers of the peers, sorted. -/
def group (records : List RemotePeerRecords) (key : String) : List SourceRecord :=
  sorted ((sources contentHash records).filter (·.entry.key = key))

variable {contentHash}

variable {records : List RemotePeerRecords} {failures : List RemotePeerFailure} {requestId : String}
  {key : String}

private theorem mem_group {source : SourceRecord} :
    source ∈ group contentHash records key ↔
      ∃ peer ∈ records, ∃ entry ∈ peer.result.entries, entry.key = key ∧
        source = ⟨peer.peerId, peer.transport, entry, contentHash entry⟩ := by
  rw [group, sorted, (List.mergeSort_perm _ _).mem_iff, List.mem_filter, sources, List.mem_flatMap]
  constructor
  · rintro ⟨⟨peer, hpeer, hsource⟩, hkey⟩
    obtain ⟨entry, hentry, rfl⟩ := List.mem_map.mp hsource
    exact ⟨peer, hpeer, entry, hentry, of_decide_eq_true hkey, rfl⟩
  · rintro ⟨peer, hpeer, entry, hentry, hkey, rfl⟩
    exact ⟨⟨peer, hpeer, List.mem_map_of_mem hentry⟩, decide_eq_true hkey⟩

private theorem groups_get (records : List RemotePeerRecords) (key : String) :
    ((byKey (sources contentHash records)).map fun _ => sorted)[key]? =
      if group contentHash records key = [] then none
      else some (group contentHash records key) := by
  have hnil : group contentHash records key = [] ↔
      (sources contentHash records).filter (·.entry.key = key) = [] := by
    rw [group, sorted, ← List.length_eq_zero_iff, List.length_mergeSort, List.length_eq_zero_iff]
  rw [Std.ExtTreeMap.getElem?_map, byKey_get, if_congr hnil rfl rfl]
  split
  · rfl
  · rfl

private theorem mem_groups {l : List SourceRecord} :
    (key, l) ∈ ((byKey (sources contentHash records)).map fun _ => sorted).toList ↔
      l = group contentHash records key ∧ l ≠ [] := by
  rw [Std.ExtTreeMap.mem_toList_iff_getElem?_eq_some, groups_get]
  split
  · rename_i hnil
    exact ⟨fun h => (by cases h), fun ⟨heq, hne⟩ => absurd (heq.trans hnil) hne⟩
  · rename_i hne
    exact ⟨fun h => ⟨(Option.some.inj h).symm, Option.some.inj h ▸ hne⟩, fun h => by rw [h.1]⟩

/-- Peers are different, and no peer returns a key twice. -/
structure Separate (records : List RemotePeerRecords) : Prop where
  peers : (records.map (·.peerId)).Nodup
  keys : ∀ peer ∈ records, (peer.result.entries.map (·.key)).Nodup

private theorem Separate.nodup_peers (h : Separate records) (key : String) :
    (((sources contentHash records).filter (·.entry.key = key)).map (·.peerId)).Nodup := by
  rw [List.Nodup, List.pairwise_map, sources, List.filter_flatMap, List.pairwise_flatMap]
  constructor
  · intro peer hpeer
    rw [List.filter_map, List.pairwise_map]
    have hkeys := List.pairwise_map.mp (h.keys peer hpeer)
    refine List.Pairwise.imp_of_mem (fun ha hb hne => ?_) (hkeys.sublist List.filter_sublist)
    exact absurd ((of_decide_eq_true (List.mem_filter.mp ha).2).trans
      (of_decide_eq_true (List.mem_filter.mp hb).2).symm) hne
  · refine (List.pairwise_map.mp h.peers).imp fun hne source hsource other hother => ?_
    obtain ⟨_, -, rfl⟩ := List.mem_map.mp (List.mem_of_mem_filter hsource)
    obtain ⟨_, -, rfl⟩ := List.mem_map.mp (List.mem_of_mem_filter hother)
    exact hne

private theorem pairwise_sorted (l : List SourceRecord) :
    (sorted l).Pairwise fun left right => sourceKey left ≤ sourceKey right :=
  (List.pairwise_mergeSort
    (fun _ _ _ hab hbc => decide_eq_true ((of_decide_eq_true hab).trans (of_decide_eq_true hbc)))
    (fun a b => by simpa using le_total (sourceKey a) (sourceKey b)) l).imp of_decide_eq_true

/-- The order of the peers does not show in a group. -/
theorem Separate.group_perm {records others : List RemotePeerRecords} (h : Separate records)
    (hperm : others.Perm records) (key : String) :
    group contentHash others key = group contentHash records key := by
  have hsources := (hperm.flatMap_right fun peer : RemotePeerRecords =>
    peer.result.entries.map fun entry =>
      (⟨peer.peerId, peer.transport, entry, contentHash entry⟩ : SourceRecord)).filter
        (·.entry.key = key)
  have hsorted : (group contentHash others key).Perm (group contentHash records key) :=
    (List.mergeSort_perm _ _).trans (hsources.trans (List.mergeSort_perm _ _).symm)
  refine List.Perm.eq_of_pairwise (fun a b ha hb hab hba => ?_) (pairwise_sorted _)
    (pairwise_sorted _) hsorted
  exact List.inj_on_of_nodup_map (h.nodup_peers key)
    ((List.mergeSort_perm _ _).mem_iff.mp (hsorted.mem_iff.mp ha))
    ((List.mergeSort_perm _ _).mem_iff.mp hb)
    (congrArg (fun key => (ofLex key).1) (le_antisymm hab hba))

private theorem Separate.cursors_perm {records others : List RemotePeerRecords}
    (h : Separate records) (hperm : others.Perm records) : cursors others = cursors records := by
  refine hperm.foldl_eq' (fun left hleft right hright all => ?_) ∅
  by_cases heq : left.peerId = right.peerId
  · rw [List.inj_on_of_nodup_map h.peers (hperm.mem_iff.mp hleft) (hperm.mem_iff.mp hright) heq]
  · cases left.result.nextCursor <;> cases right.result.nextCursor <;> try rfl
    refine Std.ExtTreeMap.ext_getElem? fun peerId => ?_
    simp only [BTreeMap.get_insert]
    split_ifs with hr hl <;> first | rfl | exact absurd (hl.trans hr.symm) heq

private theorem mem_merged {entry : RecordEntry} :
    entry ∈ (mergeRemoteRecordsFanIn contentHash toJson requestId records
      failures).merged.entries ↔
      ∃ winner rest, group contentHash records entry.key = winner :: rest ∧
        winner.entry = entry := by
  rw [mergeRemoteRecordsFanIn, List.mem_filterMap]
  constructor
  · rintro ⟨⟨key, l⟩, hgroup, hhead⟩
    obtain ⟨rfl, hne⟩ := mem_groups.mp hgroup
    obtain ⟨winner, rest, hcons⟩ := List.exists_cons_of_ne_nil hne
    rw [hcons] at hhead
    cases hhead
    obtain ⟨peer, -, entry, -, rfl, rfl⟩ := mem_group.mp (hcons ▸ List.mem_cons_self)
    exact ⟨_, rest, hcons, rfl⟩
  · rintro ⟨winner, rest, hcons, rfl⟩
    exact ⟨(_, _), mem_groups.mpr ⟨hcons.symm, List.cons_ne_nil _ _⟩, rfl⟩

private theorem merged_key_iff :
    (∃ entry ∈ (mergeRemoteRecordsFanIn contentHash toJson requestId records
      failures).merged.entries, entry.key = key) ↔
      ∃ peer ∈ records, ∃ entry ∈ peer.result.entries, entry.key = key := by
  constructor
  · rintro ⟨entry, hentry, rfl⟩
    obtain ⟨winner, rest, hcons, rfl⟩ := (mem_merged toJson).mp hentry
    obtain ⟨peer, hpeer, entry, hmem, hkey, -⟩ := mem_group.mp (hcons ▸ List.mem_cons_self)
    exact ⟨peer, hpeer, entry, hmem, hkey⟩
  · rintro ⟨peer, hpeer, entry, hmem, rfl⟩
    have hsource : ⟨peer.peerId, peer.transport, entry, contentHash entry⟩ ∈
        group contentHash records entry.key := mem_group.mpr ⟨peer, hpeer, entry, hmem, rfl, rfl⟩
    obtain ⟨winner, rest, hcons⟩ := List.exists_cons_of_ne_nil (List.ne_nil_of_mem hsource)
    obtain ⟨_, -, _, -, hkey, hwinner⟩ := mem_group.mp (hcons ▸ List.mem_cons_self)
    have hsame : winner.entry.key = entry.key := by rw [hwinner, ← hkey]
    exact ⟨winner.entry, (mem_merged toJson).mpr ⟨winner, rest, hsame ▸ hcons, rfl⟩, hsame⟩

private theorem nodup_merged_keys :
    ((mergeRemoteRecordsFanIn contentHash toJson requestId records
      failures).merged.entries.map (·.key)).Nodup := by
  have hkey : ∀ group ∈ ((byKey (sources contentHash records)).map fun _ => sorted).toList,
      ∀ entry, group.2.head?.map (·.entry) = some entry → entry.key = group.1 := by
    rintro ⟨key, l⟩ hgroup entry hhead
    obtain ⟨rfl, hne⟩ := mem_groups.mp hgroup
    obtain ⟨winner, rest, hcons⟩ := List.exists_cons_of_ne_nil hne
    obtain ⟨_, -, _, -, hkey, hwinner⟩ := mem_group.mp (hcons ▸ List.mem_cons_self)
    rw [hcons] at hhead
    cases hhead
    rw [hwinner, hkey]
  rw [List.Nodup, List.pairwise_map, mergeRemoteRecordsFanIn, List.pairwise_filterMap]
  refine List.Pairwise.imp_of_mem (fun ha hb hne left hleft right hright heq => ?_)
    Std.ExtTreeMap.distinct_keys_toList
  exact hne (Std.compare_eq_iff_eq.mpr
    ((hkey _ ha left hleft).symm.trans (heq.trans (hkey _ hb right hright))))

/-- A conflict is reported for a key if and only if two of its sources differ. -/
theorem exists_conflict_iff :
    (∃ conflict ∈ (mergeRemoteRecordsFanIn contentHash toJson requestId records
      failures).conflicts, conflict.key = key) ↔
      ∃ a ∈ group contentHash records key, ∃ b ∈ group contentHash records key,
        a.contentHash ≠ b.contentHash := by
  have hconflict : ∀ l : List SourceRecord, (∃ conflict, conflictOf key l = some conflict) ↔
      ∃ a ∈ l, ∃ b ∈ l, a.contentHash ≠ b.contentHash := by
    rintro (_ | ⟨winner, rest⟩)
    · simp [conflictOf]
    · rw [conflictOf]
      split
      · rename_i hall
        simp only [List.all_eq_true, decide_eq_true_eq] at hall
        refine ⟨fun ⟨_, h⟩ => (by cases h), fun ⟨a, ha, b, hb, hne⟩ => ?_⟩
        exact absurd ((hall a ha).trans (hall b hb).symm) hne
      · rename_i hsome
        simp only [List.all_eq_true, decide_eq_true_eq, not_forall] at hsome
        obtain ⟨a, ha, hne⟩ := hsome
        exact ⟨fun _ => ⟨a, ha, winner, List.mem_cons_self, hne⟩, fun _ => ⟨_, rfl⟩⟩
  have hkey : ∀ {key} {l : List SourceRecord} {conflict}, conflictOf key l = some conflict →
      conflict.key = key := by
    rintro key (_ | ⟨winner, rest⟩) conflict h
    · cases h
    · rw [conflictOf] at h
      split at h <;> cases h
      rfl
  rw [← hconflict, mergeRemoteRecordsFanIn]
  constructor
  · rintro ⟨conflict, hmem, rfl⟩
    obtain ⟨⟨other, l⟩, hgroup, hsome⟩ := List.mem_filterMap.mp hmem
    obtain ⟨rfl, -⟩ := mem_groups.mp hgroup
    cases hkey hsome
    exact ⟨conflict, hsome⟩
  · rintro ⟨conflict, hsome⟩
    refine ⟨conflict, List.mem_filterMap.mpr
      ⟨(key, _), mem_groups.mpr ⟨rfl, fun hnil => ?_⟩, hsome⟩, hkey hsome⟩
    rw [hnil] at hsome
    cases hsome

/-- Merging ignores the order of the peers, keeps the union of their keys, reports the keys for
which two peers differ, and keeps the record of the least peer. -/
theorem mergeRemoteRecordsFanIn_spec {records : List RemotePeerRecords} (h : Separate records)
    (hhash : ∀ p ∈ records, ∀ q ∈ records, ∀ a ∈ p.result.entries, ∀ b ∈ q.result.entries,
      contentHash a = contentHash b → a = b) (requestId : String)
    (failures : List RemotePeerFailure) :
    let fanIn := mergeRemoteRecordsFanIn contentHash toJson requestId records failures
    (∀ others, others.Perm records →
      (mergeRemoteRecordsFanIn contentHash toJson requestId others failures).merged =
          fanIn.merged ∧
        (mergeRemoteRecordsFanIn contentHash toJson requestId others failures).conflicts =
          fanIn.conflicts) ∧
      (∀ key, (∃ entry ∈ fanIn.merged.entries, entry.key = key) ↔
        ∃ peer ∈ records, ∃ entry ∈ peer.result.entries, entry.key = key) ∧
      (∀ key, (∃ conflict ∈ fanIn.conflicts, conflict.key = key) ↔
        ∃ p ∈ records, ∃ q ∈ records, ∃ a ∈ p.result.entries, ∃ b ∈ q.result.entries,
          a.key = key ∧ b.key = key ∧ a.value ≠ b.value) ∧
      ∀ entry ∈ fanIn.merged.entries, ∃ peer ∈ records, entry ∈ peer.result.entries ∧
        ∀ other ∈ records, (∃ e ∈ other.result.entries, e.key = entry.key) →
          peer.peerId ≤ other.peerId := by
  refine ⟨fun others hperm => ?_, fun key => ?_, fun key => ?_, fun entry hentry => ?_⟩
  · have hgroups : ((byKey (sources contentHash others)).map fun _ => sorted) =
        (byKey (sources contentHash records)).map fun _ => sorted := by
      refine Std.ExtTreeMap.ext_getElem? fun key => ?_
      rw [groups_get, groups_get, h.group_perm hperm]
    dsimp only [mergeRemoteRecordsFanIn]
    rw [hgroups, h.cursors_perm hperm]
    exact ⟨rfl, rfl⟩
  · exact merged_key_iff toJson
  · rw [exists_conflict_iff]
    constructor
    · rintro ⟨a, ha, b, hb, hne⟩
      obtain ⟨p, hp, left, hleft, hkey, rfl⟩ := mem_group.mp ha
      obtain ⟨q, hq, right, hright, hkey', rfl⟩ := mem_group.mp hb
      refine ⟨p, hp, q, hq, left, hleft, right, hright, hkey, hkey', fun hvalue => hne ?_⟩
      rw [show left = right by cases left; cases right; simp_all]
    · rintro ⟨p, hp, q, hq, a, ha, b, hb, hkey, hkey', hne⟩
      exact ⟨_, mem_group.mpr ⟨p, hp, a, ha, hkey, rfl⟩, _,
        mem_group.mpr ⟨q, hq, b, hb, hkey', rfl⟩,
        fun heq => hne (congrArg RecordEntry.value (hhash p hp q hq a ha b hb heq))⟩
  · obtain ⟨winner, rest, hcons, rfl⟩ := (mem_merged toJson).mp hentry
    obtain ⟨peer, hpeer, entry, hmem, hkey, rfl⟩ := mem_group.mp (hcons ▸ List.mem_cons_self)
    refine ⟨peer, hpeer, hmem, fun other hother ⟨e, he, hsame⟩ => ?_⟩
    have hsource : ⟨other.peerId, other.transport, e, contentHash e⟩ ∈
        group contentHash records _ := mem_group.mpr ⟨other, hother, e, he, hsame.trans hkey, rfl⟩
    have hfirst : ((⟨peer.peerId, peer.transport, entry, contentHash entry⟩ : SourceRecord) ::
        rest).Pairwise fun left right => sourceKey left ≤ sourceKey right := by
      rw [← hcons]
      exact pairwise_sorted _
    rw [hcons] at hsource
    rcases List.mem_cons.mp hsource with heq | hrest
    · exact (congrArg SourceRecord.peerId heq).ge
    · exact (Prod.Lex.monotone_fst _ _ ((List.pairwise_cons.mp hfirst).1 _ hrest))

end Merging

/-- The answer of a peer with one record. -/
def answerWith (peerId : String) (value : JsonValue) : RemotePeerRecords :=
  ⟨peerId, .webSocket, ⟨[⟨"k", .json value⟩], none⟩⟩

/-- Two peers that differ. -/
theorem mergeRemoteRecordsFanIn_differing :
    let hash := fun entry : RecordEntry => if entry.value = .json .null then "null" else "other"
    let fanIn := mergeRemoteRecordsFanIn hash (fun _ => none) "r"
      [answerWith "q" (.bool true), answerWith "p" .null] []
    ∃ conflict ∈ fanIn.conflicts, conflict.key = "k" := by
  intro hash fanIn
  have hseparate : Separate [answerWith "q" (.bool true), answerWith "p" .null] :=
    ⟨by decide, by decide⟩
  have hdiffer : ∀ p ∈ [answerWith "q" (.bool true), answerWith "p" .null],
      ∀ q ∈ [answerWith "q" (.bool true), answerWith "p" .null], ∀ a ∈ p.result.entries,
        ∀ b ∈ q.result.entries, hash a = hash b → a = b := by decide
  obtain ⟨-, -, hconflicts, -⟩ :=
    mergeRemoteRecordsFanIn_spec (fun _ => none) hseparate hdiffer "r" []
  refine (hconflicts "k").mpr ?_
  exact ⟨_, List.mem_cons_self, _, List.mem_cons_of_mem _ List.mem_cons_self, _,
    List.mem_cons_self, _, List.mem_cons_self, rfl, rfl, by decide⟩

/-! ## Page after page -/

section Paging

/-- A peer whose records do not change. -/
structure FixedPeer where
  peerId : String
  transport : RouteTransportKind
  records : BTreeMap String RecordEntry
  /-- Every record lies under its key. -/
  keyed : RecordsKeyed records

/-- The answer of a peer to a scan. -/
def FixedPeer.answer (peer : FixedPeer) (scan : RecordScan) : RemotePeerRecords :=
  ⟨peer.peerId, peer.transport,
    recordScanResult (BTreeMap.valueList (peer.records.filter fun key _ => scan.matchesKey key))
      scan⟩

variable (contentHash : RecordEntry → String) (toJson : BTreeMap String String → Option String)

/-- `records_fan_in_state` where every peer answers. -/
def recordsFanIn (peers : List FixedPeer) (scan : RecordScan) : RecordScanResult :=
  (mergeRemoteRecordsFanIn contentHash toJson "" (peers.map (·.answer scan)) []).merged

/-- Ask for pages until one comes without a cursor; the fuel bounds their number. -/
def fanInPages (peers : List FixedPeer) : ℕ → RecordScan → Option (List (List RecordEntry))
  | 0, _ => none
  | fuel + 1, scan =>
    let page := recordsFanIn contentHash toJson peers scan
    match page.nextCursor with
    | none => some [page.entries]
    | some cursor =>
      (fanInPages peers fuel { scan with cursor := some cursor }).map (page.entries :: ·)

/-- Paging ends, and the pages have every key that the scan matches at some peer once. -/
def CoversUnion (peers : List FixedPeer) (scan : RecordScan) : Prop :=
  ∃ fuel pages, fanInPages contentHash toJson peers fuel scan = some pages ∧
    ∀ key, (∃ peer ∈ peers, key ∈ peer.records ∧ scan.matchesKey key = true) →
      (pages.flatten.map (·.key)).count key = 1

/-- Some peer has more matching records than fit into its page. -/
def CutShort (peers : List FixedPeer) (scan : RecordScan) (limit : ℕ) : Prop :=
  ∃ peer ∈ peers, limit < (scan.matching peer.records).length

/-- Every matching key is on the first page of some peer. -/
def OnFirstPages (peers : List FixedPeer) (scan : RecordScan) (limit : ℕ) : Prop :=
  ∀ key, (∃ peer ∈ peers, key ∈ peer.records ∧ scan.matchesKey key = true) →
    ∃ peer ∈ peers, ∃ entry ∈ (scan.matching peer.records).take limit, entry.key = key

variable {contentHash toJson} {peers : List FixedPeer} {scan : RecordScan} {limit : ℕ}

private theorem FixedPeer.entries_answer (peer : FixedPeer) (hlimit : scan.limit = some limit) :
    (peer.answer scan).result.entries = (scan.matching peer.records).take limit ∧
      (1 ≤ limit → ((peer.answer scan).result.nextCursor.isSome = true ↔
        limit < (scan.matching peer.records).length)) := by
  rw [answer, RecordScan.recordScanResult_valueList peer.keyed, hlimit, scanWindow]
  split
  · rename_i hmore
    refine ⟨rfl, fun hpos => ⟨fun _ => hmore, fun _ => ?_⟩⟩
    obtain ⟨last, hlast⟩ : ∃ last, ((scan.matching peer.records).take limit).getLast? = some last :=
      ⟨_, List.getLast?_eq_some_getLast (List.ne_nil_of_length_pos
        (by rw [List.length_take]; omega))⟩
    rw [hlast]
    rfl
  · rename_i hfits
    exact ⟨(List.take_of_length_le (Nat.le_of_not_lt hfits)).symm,
      fun _ => ⟨fun h => (by cases h), fun h => absurd h hfits⟩⟩

private theorem key_recordsFanIn (contentHash : RecordEntry → String)
    (toJson : BTreeMap String String → Option String) (scan : RecordScan)
    (hlimit : scan.limit = some limit) (key : String) :
    (∃ entry ∈ (recordsFanIn contentHash toJson peers scan).entries, entry.key = key) ↔
      ∃ peer ∈ peers, ∃ entry ∈ (scan.matching peer.records).take limit, entry.key = key := by
  rw [recordsFanIn, merged_key_iff]
  constructor
  · rintro ⟨_, hpeer, entry, hentry, hkey⟩
    obtain ⟨peer, hmem, rfl⟩ := List.mem_map.mp hpeer
    exact ⟨peer, hmem, entry, (peer.entries_answer hlimit).1 ▸ hentry, hkey⟩
  · rintro ⟨peer, hpeer, entry, hentry, hkey⟩
    exact ⟨_, List.mem_map_of_mem hpeer, entry, (peer.entries_answer hlimit).1 ▸ hentry, hkey⟩

/-- A page has a cursor if and only if some peer's page is cut. -/
theorem cursors_isEmpty_iff (hlimit : scan.limit = some limit) (hpos : 1 ≤ limit) :
    (cursors (peers.map (·.answer scan))).isEmpty = true ↔ ¬CutShort peers scan limit := by
  have hfold : ∀ (records : List RemotePeerRecords) (all : BTreeMap String String),
      (records.foldl (fun cursors peer =>
        match peer.result.nextCursor with
        | some cursor => cursors.insert peer.peerId cursor
        | none => cursors) all).isEmpty = true ↔
        all.isEmpty = true ∧ ∀ peer ∈ records, peer.result.nextCursor.isSome = false := by
    intro records
    induction records with
    | nil => simp
    | cons peer records ih =>
      intro all
      rw [List.foldl_cons, ih]
      cases hcursor : peer.result.nextCursor with
      | none => simp [hcursor]
      | some cursor =>
        rw [List.forall_mem_cons, hcursor]
        simp [Std.ExtTreeMap.isEmpty_iff, Std.ExtTreeMap.insert_ne_empty]
  rw [cursors, hfold, CutShort]
  simp only [List.forall_mem_map, not_exists, not_and, Std.ExtTreeMap.isEmpty_empty, true_and]
  refine forall₂_congr fun peer _ => ?_
  rw [← (peer.entries_answer hlimit).2 hpos, Bool.not_eq_true]

/-- Where nothing is cut, the first page is the last. -/
theorem fanInPages_of_fits (scan : RecordScan) (hlimit : scan.limit = some limit) (hpos : 1 ≤ limit)
    (hfits : ¬CutShort peers scan limit) (fuel : ℕ) :
    fanInPages contentHash toJson peers (fuel + 1) scan =
      some [(recordsFanIn contentHash toJson peers scan).entries] := by
  have hnone : (recordsFanIn contentHash toJson peers scan).nextCursor = none :=
    if_pos ((cursors_isEmpty_iff hlimit hpos).mpr hfits)
  rw [fanInPages, hnone]

/-- A page of its own has exactly the keys of the peers' first pages. -/
theorem count_page (contentHash : RecordEntry → String)
    (toJson : BTreeMap String String → Option String) (hlimit : scan.limit = some limit)
    (key : String) :
    ((recordsFanIn contentHash toJson peers scan).entries.map (·.key)).count key = 1 ↔
      ∃ peer ∈ peers, ∃ entry ∈ (scan.matching peer.records).take limit, entry.key = key := by
  rw [← key_recordsFanIn contentHash toJson scan hlimit, ← List.mem_map]
  constructor
  · intro h
    exact List.count_pos_iff.mp (h ▸ Nat.one_pos)
  · exact List.count_eq_one_of_mem (nodup_merged_keys toJson)

/-- The text of cursors is a JSON object, which starts with a brace. -/
def openingBrace : String := String.singleton '{'

/-- Behind the cursor text, a scan of plain keys in ascending order finds nothing, and one in
descending order starts again. -/
theorem matching_text {peer : FixedPeer} (hplain : ∀ key ∈ peer.records, key < openingBrace)
    (rest : String) :
    (scan.reverse = false →
      { scan with cursor := some (openingBrace ++ rest) }.matching peer.records = []) ∧
      (scan.reverse = true → (scan.matching peer.records).length ≤
        ({ scan with cursor := some (openingBrace ++ rest) }.matching peer.records).length) := by
  have htext : ∀ key ∈ peer.records, key < openingBrace ++ rest := by
    intro key hkey
    have hlt := hplain key hkey
    rw [String.lt_iff_toList_lt, openingBrace, String.toList_singleton] at hlt
    rw [String.lt_iff_toList_lt, String.toList_append, openingBrace, String.toList_singleton]
    generalize key.toList = letters at hlt
    rcases hlt with _ | ⟨hfirst⟩ | ⟨⟨⟩⟩
    · exact List.Lex.nil
    · exact List.Lex.rel hfirst
  have hmatches : ∀ key, { scan with cursor := some (openingBrace ++ rest) }.matchesKey key =
      ({ scan with cursor := none }.matchesKey key &&
        decide (scan.precedes (openingBrace ++ rest) key)) :=
    fun key => RecordScan.matchesKey_eq _ key
  have hlength : ∀ scan : RecordScan, (scan.matching peer.records).length =
      (peer.records.keys.filter scan.matchesKey).length := by
    intro scan
    rw [← List.length_map (f := RecordEntry.key), scan.map_key_matching peer.keyed,
      RecordScan.matchingKeys, RecordScan.ordered]
    split
    · exact List.length_reverse
    · rfl
  constructor
  · intro hforward
    rw [← List.length_eq_zero_iff, hlength, List.length_eq_zero_iff, List.filter_eq_nil_iff]
    intro key hkey hmatch
    rw [hmatches, Bool.and_eq_true, decide_eq_true_eq, RecordScan.precedes, hforward] at hmatch
    exact lt_asymm hmatch.2 (htext key (Std.ExtTreeMap.mem_keys.mp hkey))
  · intro hreverse
    rw [hlength, hlength, ← List.countP_eq_length_filter, ← List.countP_eq_length_filter]
    refine List.countP_mono_left fun key hkey hmatch => ?_
    rw [RecordScan.matchesKey_eq, Bool.and_eq_true] at hmatch
    rw [hmatches, hmatch.1, Bool.true_and, decide_eq_true_eq, RecordScan.precedes, if_pos hreverse]
    exact htext key (Std.ExtTreeMap.mem_keys.mp hkey)

/-- Where nothing is cut, every key is on a first page. -/
theorem onFirstPages_of_fits (hfits : ¬CutShort peers scan limit) :
    OnFirstPages peers scan limit := by
  rintro key ⟨peer, hpeer, hkey, hmatch⟩
  have hmem : key ∈ (scan.matching peer.records).map RecordEntry.key := by
    rw [scan.map_key_matching peer.keyed]
    exact ((scan.enumerates_matchingKeys peer.records).mem_iff key).mpr ⟨hkey, hmatch⟩
  obtain ⟨entry, hentry, rfl⟩ := List.mem_map.mp hmem
  refine ⟨peer, hpeer, entry, ?_, rfl⟩
  rwa [List.take_of_length_le (Nat.le_of_not_lt fun hmore => hfits ⟨peer, hpeer, hmore⟩)]

/-- Where some page is cut, the next is asked for with the text of the cursors. -/
theorem fanInPages_of_cutShort (contentHash : RecordEntry → String) (scan : RecordScan)
    (hlimit : scan.limit = some limit) (hpos : 1 ≤ limit)
    (hjson : ∀ cursors, ∃ rest, toJson cursors = some (openingBrace ++ rest))
    (hcut : CutShort peers scan limit) :
    ∃ rest : String, ∀ fuel, fanInPages contentHash toJson peers (fuel + 1) scan =
      (fanInPages contentHash toJson peers fuel
        { scan with cursor := some (openingBrace ++ rest) }).map
          ((recordsFanIn contentHash toJson peers scan).entries :: ·) := by
  obtain ⟨rest, hrest⟩ := hjson (cursors (peers.map (·.answer scan)))
  have hsome : (recordsFanIn contentHash toJson peers scan).nextCursor =
      some (openingBrace ++ rest) :=
    (if_neg fun h => (cursors_isEmpty_iff hlimit hpos).mp h hcut).trans hrest
  refine ⟨rest, fun fuel => ?_⟩
  rw [fanInPages, hsome]

/-- Where no page is cut, the first page has everything. -/
theorem coversUnion_of_fits (hlimit : scan.limit = some limit) (hpos : 1 ≤ limit)
    (hfits : ¬CutShort peers scan limit) : CoversUnion contentHash toJson peers scan := by
  refine ⟨1, _, fanInPages_of_fits scan hlimit hpos hfits 0, fun key hkey => ?_⟩
  rw [List.flatten_singleton]
  exact (count_page _ _ hlimit key).mpr (onFirstPages_of_fits hfits key hkey)

/-- Plain keys, which sort before an opening brace. -/
theorem coversUnion_iff_of_plain (hlimit : scan.limit = some limit) (hpos : 1 ≤ limit)
    (hjson : ∀ cursors, ∃ rest, toJson cursors = some (openingBrace ++ rest))
    (hplain : ∀ peer ∈ peers, ∀ key ∈ peer.records, key < openingBrace) :
    CoversUnion contentHash toJson peers scan ↔
      OnFirstPages peers scan limit ∧ (scan.reverse = true → ¬CutShort peers scan limit) := by
  by_cases hcut : CutShort peers scan limit
  · obtain ⟨rest, hnext⟩ := fanInPages_of_cutShort contentHash scan hlimit hpos hjson hcut
    cases hreverse : scan.reverse with
    | true =>
      -- every further page is cut again
      have hnever : ∀ fuel (rest : String), fanInPages contentHash toJson peers fuel
          { scan with cursor := some (openingBrace ++ rest) } = none := by
        intro fuel
        induction fuel with
        | zero => exact fun _ => rfl
        | succ fuel ih =>
          intro rest
          obtain ⟨peer, hpeer, hmore⟩ := hcut
          obtain ⟨later, hlater⟩ := fanInPages_of_cutShort contentHash
            { scan with cursor := some (openingBrace ++ rest) } hlimit hpos hjson
            ⟨peer, hpeer, hmore.trans_le ((matching_text (hplain peer hpeer) rest).2 hreverse)⟩
          rw [hlater, ih later]
          rfl
      refine ⟨fun ⟨fuel, pages, hpages, _⟩ => ?_, fun h => absurd hcut (h.2 rfl)⟩
      cases fuel with
      | zero => cases hpages
      | succ fuel =>
        rw [hnext, hnever] at hpages
        cases hpages
    | false =>
      have hnil : ∀ peer ∈ peers,
          { scan with cursor := some (openingBrace ++ rest) }.matching peer.records = [] :=
        fun peer hpeer => (matching_text (hplain peer hpeer) rest).1 hreverse
      have hempty : (recordsFanIn contentHash toJson peers
          { scan with cursor := some (openingBrace ++ rest) }).entries = [] := by
        refine List.eq_nil_iff_forall_not_mem.mpr fun entry hentry => ?_
        obtain ⟨peer, hpeer, other, hother, -⟩ := (key_recordsFanIn contentHash
          toJson { scan with cursor := some (openingBrace ++ rest) } hlimit entry.key).mp
            ⟨entry, hentry, rfl⟩
        rw [hnil peer hpeer, List.take_nil] at hother
        cases hother
      have hlast : ∀ fuel, fanInPages contentHash toJson peers (fuel + 1)
          { scan with cursor := some (openingBrace ++ rest) } = some [[]] := by
        intro fuel
        rw [fanInPages_of_fits { scan with cursor := some (openingBrace ++ rest) } hlimit hpos,
          hempty]
        rintro ⟨peer, hpeer, hmore⟩
        rw [hnil peer hpeer] at hmore
        exact Nat.not_lt_zero _ hmore
      constructor
      · rintro ⟨fuel, pages, hpages, hcount⟩
        refine ⟨fun key hkey => (count_page contentHash toJson
          hlimit key).mp ?_, fun h => (by cases h)⟩
        rcases fuel with _ | _ | fuel
        · cases hpages
        · rw [hnext] at hpages
          cases hpages
        · rw [hnext, hlast] at hpages
          cases hpages
          simpa using hcount key hkey
      · rintro ⟨hfirst, -⟩
        refine ⟨2, _, by rw [hnext, hlast]; rfl, fun key hkey => ?_⟩
        simpa using (count_page contentHash toJson hlimit key).mpr
          (hfirst key hkey)
  · exact ⟨fun _ => ⟨onFirstPages_of_fits hcut, fun _ => hcut⟩,
      fun _ => coversUnion_of_fits hlimit hpos hcut⟩

/-- Pages of several peers cover the union of their records where no page is cut; and where all
keys sort before an opening brace, if and only if every key is on the first page of some peer and
no page of a descending scan is cut. -/
theorem coversUnion_spec (hlimit : scan.limit = some limit) (hpos : 1 ≤ limit)
    (hjson : ∀ cursors, ∃ rest, toJson cursors = some (openingBrace ++ rest)) :
    (¬CutShort peers scan limit → CoversUnion contentHash toJson peers scan) ∧
      ((∀ peer ∈ peers, ∀ key ∈ peer.records, key < openingBrace) →
        (CoversUnion contentHash toJson peers scan ↔
          OnFirstPages peers scan limit ∧
            (scan.reverse = true → ¬CutShort peers scan limit))) :=
  ⟨coversUnion_of_fits hlimit hpos, coversUnion_iff_of_plain hlimit hpos hjson⟩

end Paging

/-- A peer with two records. -/
def twoKeysPeer : FixedPeer where
  peerId := "p"
  transport := .webSocket
  records := ((∅ : BTreeMap String RecordEntry).insert "a" ⟨"a", .json .null⟩).insert "b"
    ⟨"b", .json .null⟩
  keyed key entry hentry := by
    simp only [BTreeMap.get_insert, Std.ExtTreeMap.getElem?_empty] at hentry
    split at hentry
    · cases hentry
      assumption
    · split at hentry
      · cases hentry
        assumption
      · cases hentry

/-- The JSON text of cursors without letters to escape. -/
def cursorText (cursors : BTreeMap String String) : Option String :=
  some (openingBrace ++ (",".intercalate (cursors.toList.map fun cursor =>
    "\"" ++ cursor.1 ++ "\":\"" ++ cursor.2 ++ "\"") ++ String.singleton '}'))

/-- The scan of all keys in pages. -/
def pagesOf (limit : ℕ) : RecordScan := ⟨none, none, none, none, none, false, some limit, none⟩

/-- Two records fit into a page of two. -/
theorem coversUnion_twoKeysPeer :
    CoversUnion RecordEntry.key cursorText [twoKeysPeer] (pagesOf 2) := by
  have hlimit : (pagesOf 2).limit = some 2 := rfl
  refine (coversUnion_spec hlimit (by omega) fun _ => ⟨_, rfl⟩).1 ?_
  rintro ⟨peer, hpeer, hmore⟩
  rw [List.mem_singleton.mp hpeer] at hmore
  exact absurd hmore (by decide +kernel)

/-- Pages of one lose the second record. -/
theorem not_coversUnion_twoKeysPeer :
    ¬CoversUnion RecordEntry.key cursorText [twoKeysPeer] (pagesOf 1) := by
  have hlimit : (pagesOf 1).limit = some 1 := rfl
  have hjson : ∀ cursors, ∃ rest, cursorText cursors = some (openingBrace ++ rest) :=
    fun _ => ⟨_, rfl⟩
  rw [coversUnion_iff_of_plain hlimit le_rfl hjson]
  · rintro ⟨hfirst, -⟩
    obtain ⟨peer, hpeer, entry, hentry, hkey⟩ :=
      hfirst "b" ⟨twoKeysPeer, List.mem_singleton_self _, by decide +kernel, by decide +kernel⟩
    have hpage : ((pagesOf 1).matching twoKeysPeer.records).take 1 = [⟨"a", .json .null⟩] := by
      decide +kernel
    rw [List.mem_singleton.mp hpeer, hpage] at hentry
    rw [List.mem_singleton.mp hentry] at hkey
    exact absurd hkey (by decide)
  · intro peer hpeer key hkey
    rw [List.mem_singleton.mp hpeer, twoKeysPeer] at hkey
    simp only [Std.ExtTreeMap.mem_insert, Std.compare_eq_iff_eq, Std.ExtTreeMap.not_mem_empty,
      or_false] at hkey
    rcases hkey with rfl | rfl <;> decide

end FanIn

end Primadb

import Primadb.Db.RecordScan

/-!
# Reading records page by page

A caller asks for a page, takes the cursor it is given and asks again, until a page comes
without a cursor. The keys behind a cursor are those that come after it, so every page starts
where the last one ended, and the pages together are the scan without a limit.
-/

namespace Primadb

section Keyed

variable {σ : Type} {inner : Inner σ}

private theorem OverlayKeyed.refresh (h : OverlayKeyed inner.recordOverlay) (nodeId : NodeId) :
    OverlayKeyed (inner.refreshRecordOverlay nodeId).recordOverlay := by
  have herase : ∀ previous, OverlayKeyed (inner.recordOverlay.erase previous) := by
    intro previous key entry hentry
    rw [BTreeMap.get_erase] at hentry
    split at hentry
    · cases hentry
    · exact h key entry hentry
  have hinsert : ∀ (overlay : BTreeMap String (Option RecordEntry)) (state : NodeState)
      (key : String), OverlayKeyed overlay → recordKeyFromNodeState state = some key →
      OverlayKeyed (overlay.insert key (recordEntryFromNodeState state)) := by
    intro overlay state key hoverlay hkey other entry hentry
    rw [BTreeMap.get_insert] at hentry
    split at hentry
    · rename_i heq
      rw [Option.some.injEq, recordEntryFromNodeState, hkey] at hentry
      dsimp only at hentry
      split at hentry <;> cases hentry <;> exact heq
    · exact hoverlay other entry hentry
  rw [Inner.refreshRecordOverlay]
  split
  · exact h
  · cases inner.recordOverlayNodeKeys[nodeId]? with
    | none =>
      dsimp only
      split
      · exact h
      · split
        · exact h
        · rename_i key hkey
          exact hinsert _ _ key h hkey
    | some previous =>
      dsimp only
      split
      · exact herase previous
      · split
        · exact herase previous
        · rename_i key hkey
          exact hinsert _ _ key (herase previous) hkey

private theorem overlayKeyed_rebuildRecordOverlay (inner : Inner σ) :
    OverlayKeyed inner.rebuildRecordOverlay.recordOverlay := by
  have hfold : ∀ (nodeIds : List NodeId) (inner : Inner σ), OverlayKeyed inner.recordOverlay →
      OverlayKeyed (nodeIds.foldl Inner.refreshRecordOverlay inner).recordOverlay := by
    intro nodeIds
    induction nodeIds with
    | nil => exact fun _ h => h
    | cons nodeId nodeIds ih => exact fun _ h => ih _ (h.refresh nodeId)
  refine hfold _ _ fun key entry hentry => ?_
  simp at hentry

/-- Every change keeps every record under its key. -/
theorem RecordsEvent.overlayKeyed_step (inner : Inner σ) (event : RecordsEvent)
    (h : OverlayKeyed inner.recordOverlay) : OverlayKeyed (event.step inner).recordOverlay := by
  cases event with
  | apply op origin =>
    rcases inner.applyOperationInternal_records op origin with
      ⟨-, hoverlay, -⟩ | ⟨-, -, -, moved, -, hold, -, hnew, -⟩
    · rw [RecordsEvent.step, hoverlay]
      exact h
    · rw [RecordsEvent.step, hnew]
      exact OverlayKeyed.refresh (hold ▸ h) _
  | loadSnapshot snapshot =>
    obtain ⟨index, heq⟩ := Inner.rebuildRelationshipIndex_eq
      { { inner with
          clock := snapshot.clock, nodes := snapshot.nodes }.rebuildRecordOverlay with
        pendingOps := .fromOperations snapshot.pendingOps
        scopePolicies := snapshot.scopePolicies
        unflushedOps := .empty
        missingNodes := ∅ }
    rw [RecordsEvent.step, Inner.loadSnapshot, heq]
    exact overlayKeyed_rebuildRecordOverlay
      { inner with clock := snapshot.clock, nodes := snapshot.nodes }
  | mergeSnapshot snapshot => exact overlayKeyed_rebuildRecordOverlay _
  | nodeState state =>
    have hmerged : OverlayKeyed (inner.mergeState state).recordOverlay := h
    exact hmerged.refresh state.id

end Keyed

namespace RecordScan

variable {scan : RecordScan} {records : BTreeMap String RecordEntry}

/-- A cursor leaves the keys behind it. -/
theorem matchesKey_eq (scan : RecordScan) (key : String) :
    scan.matchesKey key = ({ scan with cursor := none }.matchesKey key &&
      scan.cursor.all fun cursor => decide (scan.precedes cursor key)) := by
  have hcursor : ∀ cursor, (if scan.reverse then decide (key < cursor) else decide (cursor < key)) =
      decide (scan.precedes cursor key) := by
    intro cursor
    cases hreverse : scan.reverse <;> simp [precedes, hreverse]
  simp only [matchesKey, hcursor]
  cases scan.cursor with
  | none => simp
  | some cursor => simp only [Option.all_some, Option.all_none, Bool.and_true]; ac_rfl

private theorem matchesKey_cursor {cursor : String} (hcursor : scan.matchesKey cursor = true)
    (key : String) :
    { scan with cursor := some cursor }.matchesKey key =
      (scan.matchesKey key && decide (scan.precedes cursor key)) := by
  rw [matchesKey_eq] at hcursor
  rw [matchesKey_eq scan key, matchesKey_eq { scan with cursor := some cursor } key]
  change ({ scan with cursor := none }.matchesKey key && decide (scan.precedes cursor key)) = _
  cases hold : scan.cursor with
  | none => simp
  | some old =>
    rw [hold, Bool.and_eq_true, Option.all_some, decide_eq_true_eq] at hcursor
    by_cases hafter : scan.precedes cursor key
    · have hold : scan.precedes old key := IsTrans.trans _ _ _ hcursor.2 hafter
      simp [hafter, hold]
    · simp [hafter]

/-- A page continues behind its last entry. -/
theorem matching_cursor {n : ℕ} {entry : RecordEntry} (h : RecordsKeyed records)
    (hentry : (scan.matching records)[n]? = some entry) :
    { scan with cursor := some entry.key }.matching records =
      (scan.matching records).drop (n + 1) := by
  have hkeys := scan.map_key_matching h
  have hkey : (scan.matchingKeys records)[n]? = some entry.key := by
    rw [← hkeys, List.getElem?_map, hentry]
    rfl
  have henumerates := scan.enumerates_matchingKeys records
  have hmatches := ((henumerates.mem_iff entry.key).mp (List.mem_of_getElem? hkey)).2
  -- both lists of keys enumerate the matching keys after the cursor
  have hbehind : { scan with cursor := some entry.key }.matchingKeys records =
      (scan.matchingKeys records).drop (n + 1) := by
    rw [henumerates.drop_eq_filter hkey]
    refine ({ scan with cursor := some entry.key }.enumerates_matchingKeys records).unique
      ((henumerates.filter _).congr fun key => ?_)
    rw [matchesKey_cursor hmatches, Bool.and_eq_true, and_assoc]
  rw [matching, matching, hbehind]
  exact (filterMap_take_drop (fun _ hkey => mem_of_mem_matchingKeys hkey) (n + 1)).2

end RecordScan

/-- Ask for pages until one comes without a cursor; the fuel bounds their number. -/
def Inner.scanPages {σ : Type} (inner : Inner σ) : ℕ → RecordScan → Option (List (List RecordEntry))
  | 0, _ => none
  | fuel + 1, scan =>
    let result := inner.scanRecords scan
    match result.nextCursor with
    | none => some [result.entries]
    | some cursor =>
      (inner.scanPages fuel { scan with cursor := some cursor }).map (result.entries :: ·)

private theorem Inner.scanPages_flatten {σ : Type} {inner : Inner σ}
    (h : OverlayKeyed inner.recordOverlay) {limit : ℕ} (hpositive : 1 ≤ limit) (scan : RecordScan)
    (hlimit : scan.limit = some limit) :
    ∃ pages, pages.flatten = scan.matching (combinedRecords inner.recordOverlay ∅) ∧
      ∀ fuel, (scan.matching (combinedRecords inner.recordOverlay ∅)).length < fuel →
        inner.scanPages fuel scan = some pages := by
  have hkeyed : RecordsKeyed (combinedRecords inner.recordOverlay ∅) :=
    recordsKeyed_combinedRecords h fun key entry hentry => by simp at hentry
  -- the number of records that are left decreases from page to page
  induction hlength : (scan.matching (combinedRecords inner.recordOverlay ∅)).length
    using Nat.strongRecOn generalizing scan with
  | _ length ih =>
    by_cases hmore : limit < (scan.matching (combinedRecords inner.recordOverlay ∅)).length
    · obtain ⟨last, hlast⟩ : ∃ last,
          (scan.matching (combinedRecords inner.recordOverlay ∅))[limit - 1]? = some last :=
        ⟨_, List.getElem?_eq_getElem (by omega)⟩
      have hbehind := RecordScan.matching_cursor hkeyed hlast
      rw [Nat.sub_add_cancel hpositive] at hbehind
      obtain ⟨pages, hpages, hfuel⟩ := ih
        ({ scan with cursor := some last.key }.matching
          (combinedRecords inner.recordOverlay ∅)).length
        (by rw [hbehind, List.length_drop]; omega) { scan with cursor := some last.key } hlimit rfl
      have hresult : inner.scanRecords scan =
          ⟨(scan.matching (combinedRecords inner.recordOverlay ∅)).take limit, some last.key⟩ := by
        rw [inner.scanRecords_eq h, hlimit, scanWindow]
        rw [if_pos hmore, List.getLast?_eq_getElem?, List.length_take, Nat.min_eq_left hmore.le,
          List.getElem?_take, if_pos (by omega), hlast]
        rfl
      refine ⟨(scan.matching (combinedRecords inner.recordOverlay ∅)).take limit :: pages, ?_,
        fun fuel hlt => ?_⟩
      · rw [List.flatten_cons, hpages, hbehind, List.take_append_drop]
      · obtain ⟨fuel, rfl⟩ : ∃ rest, fuel = rest + 1 := ⟨fuel - 1, by omega⟩
        rw [scanPages, hresult]
        dsimp only
        rw [hfuel fuel (by rw [hbehind, List.length_drop]; omega)]
        rfl
    · have hresult : inner.scanRecords scan =
          ⟨scan.matching (combinedRecords inner.recordOverlay ∅), none⟩ := by
        rw [inner.scanRecords_eq h, hlimit, scanWindow]
        rw [if_neg hmore]
      refine ⟨[scan.matching (combinedRecords inner.recordOverlay ∅)], List.flatten_singleton,
        fun fuel hlt => ?_⟩
      obtain ⟨fuel, rfl⟩ : ∃ rest, fuel = rest + 1 := ⟨fuel - 1, by omega⟩
      rw [scanPages, hresult]

/-- In every database without a store, asking with a limit for page after page ends, and the
pages together are the entries of the scan without the limit, each key once. -/
theorem pages_enumerate_once {σ : Type} (replicaId : String) (wall : WallClock)
    (policies : BTreeMap String ScopePolicy) (limits : PrimadbLimits) (events : List RecordsEvent)
    (scan : RecordScan) {limit : ℕ} (hlimit : scan.limit = some limit) (hpositive : 1 ≤ limit) :
    let inner := events.foldl RecordsEvent.step
      (Inner.configured (σ := σ) replicaId wall policies limits)
    ∃ pages enough, (∀ fuel, enough ≤ fuel → inner.scanPages fuel scan = some pages) ∧
      pages.flatten = (inner.scanRecords { scan with limit := none }).entries ∧
      (pages.flatten.map RecordEntry.key).Nodup := by
  intro inner
  have hkeyed : OverlayKeyed inner.recordOverlay :=
    Run.invariant (I := fun inner : Inner σ => OverlayKeyed inner.recordOverlay)
      RecordsEvent.overlayKeyed_step
      (fun key entry hentry => by simp [Inner.configured, Inner.withReplicaId] at hentry) events
  obtain ⟨pages, hpages, hfuel⟩ := Inner.scanPages_flatten hkeyed hpositive scan hlimit
  refine ⟨pages, (scan.matching (combinedRecords inner.recordOverlay ∅)).length + 1,
    fun fuel hle => hfuel fuel hle, ?_, ?_⟩
  · rw [hpages, inner.scanRecords_eq hkeyed]
    rfl
  · rw [hpages, scan.map_key_matching (recordsKeyed_combinedRecords hkeyed
      fun key entry hentry => by simp at hentry)]
    exact (scan.enumerates_matchingKeys _).sorted.nodup

/-- The operations of two put records. -/
def twoRecords : List RecordsEvent :=
  [.apply ⟨"b/1", "b", ⟨1, 0, "b"⟩, .setField "__primadb_records/k" "key" (.scalar (.string "k"))⟩
      .remote,
    .apply ⟨"b/2", "b", ⟨1, 1, "b"⟩, .setField "__primadb_records/k" "value" (.scalar .null)⟩
      .remote,
    .apply ⟨"b/3", "b", ⟨2, 0, "b"⟩, .setField "__primadb_records/l" "key" (.scalar (.string "l"))⟩
      .remote,
    .apply ⟨"b/4", "b", ⟨2, 1, "b"⟩, .setField "__primadb_records/l" "value" (.scalar .null)⟩
      .remote]

/-- Two records are read in descending order in pages of one. -/
theorem pages_enumerate_once_twoRecords :
    let inner := twoRecords.foldl RecordsEvent.step
      (Inner.configured (σ := Unit) "a" ⟨fun _ => 0, 0⟩ ∅ .default)
    let scan : RecordScan := ⟨none, none, none, none, none, true, some 1, none⟩
    inner.recordOverlay.keys = ["k", "l"] ∧
      ∃ pages enough, (∀ fuel, enough ≤ fuel → inner.scanPages fuel scan = some pages) ∧
        pages.flatten = (inner.scanRecords { scan with limit := none }).entries ∧
        (pages.flatten.map RecordEntry.key).Nodup :=
  ⟨by decide +kernel, pages_enumerate_once "a" ⟨fun _ => 0, 0⟩ ∅ .default twoRecords
    ⟨none, none, none, none, none, true, some 1, none⟩ rfl (Nat.le_refl 1)⟩

end Primadb

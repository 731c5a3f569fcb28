import Primadb.Db.Pagination

/-!
# Scans over a store

A scan with a limit fetches pages of one more than the limit from the store, merges all entries
of the overlay into what was fetched so far, and stops as soon as more entries than the limit are
there. Entries of the overlay behind the fetched keys count as well, so when the overlay deletes
fetched records the scan may stop before it reached the stored records it should list. A store
lists its records in an order of its own, and the next page goes on behind the key it listed last.
-/

namespace Primadb

private theorem one_le_txSucc (limit : ℕ) : 1 ≤ txSucc limit :=
  le_min (Nat.succ_pos limit) (by norm_num)

/-- The first elements, up to a limit. -/
def limited {α : Type} (limit : Option ℕ) (l : List α) : List α :=
  match limit with
  | none => l
  | some limit => l.take limit

section Collect

variable (listing : RecordScan → List RecordEntry)
  (overlay : BTreeMap String (Option RecordEntry))

/-- What a store answers a scan: what it lists for it, in an order of its own, up to the limit. -/
def storedPage (scan : RecordScan) : List RecordEntry := limited scan.limit (listing scan)

/-- The page loop over a store. -/
def collectPages (scan : RecordScan) (limit : ℕ) :
    ℕ → RecordScan → List RecordEntry → List RecordEntry
  | 0, _, fetched => Program.recordEntriesPage scan fetched overlay
  | fuel + 1, pageScan, fetched =>
    let page := storedPage listing pageScan
    let merged := Program.recordEntriesPage scan (fetched ++ page) overlay
    match page.getLast? with
    | none => merged
    | some last =>
      if limit < merged.length ∨ page.length < txSucc limit then merged
      else collectPages scan limit fuel { pageScan with cursor := some last.key } (fetched ++ page)

/-- `collect_record_entries_for_scan` over a store. -/
def collectEntries (fuel : ℕ) (scan : RecordScan) : List RecordEntry :=
  match scan.limit with
  | none => Program.recordEntriesPage scan (storedPage listing scan) overlay
  | some limit =>
    collectPages listing overlay scan limit fuel { scan with limit := some (txSucc limit) } []

end Collect

/-- A handler answers from stored records and an overlay, and leaves the state. -/
structure AnswersRecords {σ : Type} (handler : (c : Command) → Effect σ PrimadbError c.Answer)
    (s : σ) (listing : RecordScan → List RecordEntry)
    (overlay : BTreeMap String (Option RecordEntry)) : Prop where
  /-- The overlay is read. -/
  overlay : handler .overlay s = (.ok overlay, s)
  /-- The store answers with what it lists; there is nothing without a store. -/
  stored : ∀ scan, scan.limit ≠ some 0 →
    ∃ found, handler (.storedRecords scan) s = (.ok found, s) ∧
      Option.getD (α := List RecordEntry) found [] = storedPage listing scan

namespace AnswersRecords

variable {σ : Type} {handler : (c : Command) → Effect σ PrimadbError c.Answer} {s : σ}
  {listing : RecordScan → List RecordEntry} {overlay : BTreeMap String (Option RecordEntry)}

/-- The page loop computes what it computes over such a store. -/
theorem run_recordEntriesPages (h : AnswersRecords handler s listing overlay) (scan : RecordScan)
    (limit fuel : ℕ) {pageScan : RecordScan} (hlimit : pageScan.limit ≠ some 0)
    (fetched : List RecordEntry) :
    (Program.recordEntriesPages scan limit fuel pageScan fetched).run handler s =
      (.ok (collectPages listing overlay scan limit fuel pageScan fetched), s) := by
  induction fuel generalizing pageScan fetched with
  | zero =>
    rw [Program.recordEntriesPages, Script.run_bind, Script.run_issue, Effect.bind_ok h.overlay]
    rfl
  | succ fuel ih =>
    obtain ⟨found, hfound, hpage⟩ := h.stored pageScan hlimit
    rw [Program.recordEntriesPages, Script.run_bind, Script.run_issue, Effect.bind_ok hfound]
    dsimp only
    rw [hpage, Script.run_bind, Script.run_issue, Effect.bind_ok h.overlay, collectPages]
    cases (storedPage listing pageScan).getLast? with
    | none => rfl
    | some last =>
      dsimp only
      split
      · rfl
      · have hnext : { pageScan with cursor := some last.key }.limit ≠ some 0 := hlimit
        exact ih hnext _

/-- Collecting the entries of a scan computes what it computes over such a store. -/
theorem run_recordEntriesForScan (h : AnswersRecords handler s listing overlay) (fuel : ℕ)
    (scan : RecordScan) :
    (Program.recordEntriesForScan fuel scan).run handler s =
      (.ok (collectEntries listing overlay fuel scan), s) := by
  rw [Program.recordEntriesForScan, collectEntries]
  cases hlimit : scan.limit with
  | none =>
    dsimp only
    obtain ⟨found, hfound, hpage⟩ := h.stored scan (by simp [hlimit])
    rw [Script.run_bind, Script.run_issue, Effect.bind_ok hfound, hpage, Script.run_bind,
      Script.run_issue, Effect.bind_ok h.overlay]
    rfl
  | some limit =>
    refine h.run_recordEntriesPages scan limit fuel ?_ []
    simpa using Nat.pos_iff_ne_zero.mp (one_le_txSucc limit)

end AnswersRecords

/-- Every entry lies in the store under its key. -/
def EntriesOf (stored : BTreeMap String RecordEntry) (fetched : List RecordEntry) : Prop :=
  ∀ entry ∈ fetched, stored[entry.key]? = some entry

/-- Fetched entries are read under their keys. -/
theorem EntriesOf.recordsOfList_get {stored : BTreeMap String RecordEntry}
    {fetched : List RecordEntry} (h : EntriesOf stored fetched) (key : String) :
    (recordsOfList fetched)[key]? =
      if key ∈ fetched.map RecordEntry.key then stored[key]? else none := by
  have hfold : ∀ (entries : List RecordEntry) (before : BTreeMap String RecordEntry),
      EntriesOf stored entries →
      (entries.foldl (fun records entry => records.insert entry.key entry) before)[key]? =
        if key ∈ entries.map RecordEntry.key then stored[key]? else before[key]? := by
    intro entries
    induction entries with
    | nil => exact fun _ _ => rfl
    | cons entry entries ih =>
      intro before hentries
      rw [List.foldl_cons, ih _ fun other hother => hentries other (List.mem_cons_of_mem _ hother),
        BTreeMap.get_insert, List.map_cons]
      by_cases hin : key ∈ entries.map RecordEntry.key
      · rw [if_pos hin, if_pos (List.mem_cons_of_mem _ hin)]
      · by_cases heq : entry.key = key
        · subst heq
          rw [if_neg hin, if_pos rfl, if_pos List.mem_cons_self,
            hentries entry List.mem_cons_self]
        · rw [if_neg hin, if_neg heq, if_neg]
          rintro (_ | ⟨_, hmem⟩)
          · exact heq rfl
          · exact hin hmem
  rw [recordsOfList, hfold fetched ∅ h]
  simp

/-- What a store of records may list for a scan: all records it matches, in any order. -/
def Lists (stored : BTreeMap String RecordEntry) (listing : RecordScan → List RecordEntry) : Prop :=
  ∀ scan, (listing scan).Perm (scan.matching stored)

/-- The records known from fetched entries and an overlay. -/
def knownRecords (overlay : BTreeMap String (Option RecordEntry)) (fetched : List RecordEntry) :
    BTreeMap String RecordEntry :=
  combinedRecords overlay (recordsOfList fetched)

namespace RecordScan

variable {scan : RecordScan} {stored : BTreeMap String RecordEntry}
  {overlay : BTreeMap String (Option RecordEntry)} {fetched : List RecordEntry} {key : String}

/-- What is known under a key: the overlay first, and a fetched record where it is silent. -/
theorem knownRecords_get (h : EntriesOf stored fetched) (key : String) :
    (knownRecords overlay fetched)[key]? =
      match overlay[key]? with
      | some change => change
      | none => if key ∈ fetched.map RecordEntry.key then stored[key]? else none := by
  rw [knownRecords, combinedRecords_get, overlaid]
  cases overlay[key]? with
  | some change => rfl
  | none => exact h.recordsOfList_get key

/-- What is known under a key is what lies there. -/
theorem knownRecords_get_eq (h : EntriesOf stored fetched)
    (hkey : key ∈ knownRecords overlay fetched) :
    (knownRecords overlay fetched)[key]? = (combinedRecords overlay stored)[key]? := by
  rw [Std.ExtTreeMap.mem_iff_isSome_getElem?, knownRecords_get h] at hkey
  rw [knownRecords_get h, combinedRecords_get, overlaid]
  cases hchange : overlay[key]? with
  | some change => rfl
  | none =>
    rw [hchange] at hkey
    dsimp only at hkey ⊢
    split
    · rfl
    · rename_i hout
      rw [if_neg hout] at hkey
      cases hkey

/-- Nothing is known that does not lie there. -/
theorem mem_combinedRecords (h : EntriesOf stored fetched)
    (hkey : key ∈ knownRecords overlay fetched) : key ∈ combinedRecords overlay stored := by
  rw [Std.ExtTreeMap.mem_iff_isSome_getElem?, ← knownRecords_get_eq h hkey]
  exact Std.ExtTreeMap.mem_iff_isSome_getElem?.mp hkey

/-- Known records lie under their keys. -/
theorem recordsKeyed_knownRecords (hstored : RecordsKeyed stored) (hoverlay : OverlayKeyed overlay)
    (h : EntriesOf stored fetched) : RecordsKeyed (knownRecords overlay fetched) := by
  intro key entry hentry
  have hmem := Std.ExtTreeMap.mem_iff_isSome_getElem?.mpr (Option.isSome_iff_exists.mpr ⟨_, hentry⟩)
  exact recordsKeyed_combinedRecords hoverlay hstored key entry
    (knownRecords_get_eq h hmem ▸ hentry)

/-- The stored keys a scan matches that the overlay is silent about and that were not fetched. -/
def missing (scan : RecordScan) (stored : BTreeMap String RecordEntry)
    (overlay : BTreeMap String (Option RecordEntry)) (fetched : List RecordEntry) : List String :=
  (scan.matchingKeys stored).filter fun key =>
    overlay[key]?.isNone && decide (key ∉ fetched.map RecordEntry.key)

/-- The missing keys are those that lie there and are not known. -/
theorem mem_missing_iff (h : EntriesOf stored fetched) :
    key ∈ scan.missing stored overlay fetched ↔
      (key ∈ combinedRecords overlay stored ∧ scan.matchesKey key = true) ∧
        ¬ (key ∈ knownRecords overlay fetched ∧ scan.matchesKey key = true) := by
  rw [missing, List.mem_filter, (scan.enumerates_matchingKeys stored).mem_iff,
    Std.ExtTreeMap.mem_iff_isSome_getElem?, Std.ExtTreeMap.mem_iff_isSome_getElem?,
    Std.ExtTreeMap.mem_iff_isSome_getElem?, knownRecords_get h, combinedRecords_get, overlaid]
  cases hchange : overlay[key]? with
  | some change => simp
  | none =>
    by_cases hin : key ∈ fetched.map RecordEntry.key
    · simp [hin]
    · simp [hin]

/-- The entries of a page, whatever their order. -/
theorem length_matching (scan : RecordScan) (records : BTreeMap String RecordEntry) :
    (scan.matching records).length =
      (BTreeMap.valueList (records.filter fun key _ => scan.matchesKey key)).length := by
  rw [← filterMap_keys, matching, matchingKeys, ← ordered_filterMap, ordered]
  split
  · exact List.length_reverse
  · rfl

/-- No more records match than there are. -/
theorem length_matching_le_size (scan : RecordScan) (records : BTreeMap String RecordEntry) :
    (scan.matching records).length ≤ records.size := by
  rw [scan.length_matching, BTreeMap.valueList, List.length_map, Std.ExtTreeMap.length_toList]
  exact Std.ExtTreeMap.size_filter_le_size

/-- The merged entries are the matching records known. -/
theorem length_recordEntriesPage (hoverlay : OverlayKeyed overlay) (fetched : List RecordEntry) :
    (Program.recordEntriesPage scan fetched overlay).length =
      (scan.matching (knownRecords overlay fetched)).length := by
  rw [recordEntriesPage_eq hoverlay, length_matching]
  rfl

private theorem get_of_mem_matching {records : BTreeMap String RecordEntry}
    (h : RecordsKeyed records) {entry : RecordEntry} (hentry : entry ∈ scan.matching records) :
    records[entry.key]? = some entry := by
  obtain ⟨key, -, hget⟩ := List.mem_filterMap.mp hentry
  rw [h key entry hget, hget]

private theorem length_matchingKeys (scan : RecordScan) {records : BTreeMap String RecordEntry}
    (h : RecordsKeyed records) :
    (scan.matchingKeys records).length = (scan.matching records).length := by
  rw [← scan.map_key_matching h, List.length_map]

section Pages

variable (listing : RecordScan → List RecordEntry)

/-- The scan for the next page: it goes on behind the last entry of a page. -/
def behind (pageScan : RecordScan) (page : List RecordEntry) : RecordScan :=
  match page.getLast? with
  | none => pageScan
  | some last => { pageScan with cursor := some last.key }

/-- The scans a scan with a limit asks its store for, one page after the other. -/
def pageScan (scan : RecordScan) (limit : ℕ) : ℕ → RecordScan
  | 0 => { scan with limit := some (txSucc limit) }
  | n + 1 => (scan.pageScan limit n).behind (storedPage listing (scan.pageScan limit n))

/-- The entries of the first pages. -/
def pages (scan : RecordScan) (limit n : ℕ) : List RecordEntry :=
  (List.range n).flatMap fun k => storedPage listing (scan.pageScan listing limit k)

/-- The loop ends with a page: more records are known than the limit, or the page is not full. -/
def StopsAt (scan : RecordScan) (overlay : BTreeMap String (Option RecordEntry))
    (limit n : ℕ) : Prop :=
  limit < (scan.matching (knownRecords overlay (scan.pages listing limit (n + 1)))).length ∨
    (storedPage listing (scan.pageScan listing limit n)).length < txSucc limit

variable {listing}

private theorem pages_succ (scan : RecordScan) (limit n : ℕ) :
    scan.pages listing limit (n + 1) =
      scan.pages listing limit n ++ storedPage listing (scan.pageScan listing limit n) := by
  simp [pages, List.range_succ]

/-- An entry of a page matches its scan. -/
theorem mem_matching_of_mem_storedPage (hlists : Lists stored listing) {pageScan : RecordScan}
    {entry : RecordEntry} (h : entry ∈ storedPage listing pageScan) :
    entry ∈ pageScan.matching stored := by
  refine (hlists pageScan).mem_iff.mp ?_
  rw [storedPage] at h
  cases hlimit : pageScan.limit with
  | none => rwa [hlimit] at h
  | some limit =>
    rw [hlimit] at h
    exact List.mem_of_mem_take h

/-- The entries behind an entry of a page are some of those the page's scan matches, and fewer. -/
theorem matching_behind (hstored : RecordsKeyed stored) (hlists : Lists stored listing)
    {pageScan : RecordScan} {last : RecordEntry}
    (hlast : (storedPage listing pageScan).getLast? = some last) :
    ((pageScan.behind (storedPage listing pageScan)).matching stored).length <
      (pageScan.matching stored).length := by
  have hmem := mem_matching_of_mem_storedPage hlists (List.mem_of_getLast? hlast)
  obtain ⟨i, hi, hget⟩ := List.mem_iff_getElem.mp hmem
  rw [behind, hlast]
  dsimp only
  rw [matching_cursor hstored (List.getElem?_eq_some_iff.mpr ⟨hi, hget⟩), List.length_drop]
  omega

/-- The entries of the pages lie in the store. -/
theorem entriesOf_pages (hstored : RecordsKeyed stored) (hlists : Lists stored listing)
    (scan : RecordScan) (limit n : ℕ) : EntriesOf stored (scan.pages listing limit n) := by
  intro entry hentry
  obtain ⟨k, -, hk⟩ := List.mem_flatMap.mp hentry
  exact get_of_mem_matching hstored (mem_matching_of_mem_storedPage hlists hk)

/-- From any page on the loop goes on to the first page that ends it. -/
theorem collectPages_eq (hstored : RecordsKeyed stored) (hoverlay : OverlayKeyed overlay)
    (hlists : Lists stored listing) (scan : RecordScan) (limit : ℕ) {fuel n : ℕ}
    (hfuel : ((scan.pageScan listing limit n).matching stored).length < fuel) :
    ∃ k, n ≤ k ∧ scan.StopsAt listing overlay limit k ∧
      (∀ j, n ≤ j → j < k → ¬ scan.StopsAt listing overlay limit j) ∧
      collectPages listing overlay scan limit fuel (scan.pageScan listing limit n)
          (scan.pages listing limit n) =
        Program.recordEntriesPage scan (scan.pages listing limit (k + 1)) overlay := by
  induction fuel generalizing n with
  | zero => omega
  | succ fuel ih =>
    rw [collectPages, ← pages_succ]
    by_cases hstop : scan.StopsAt listing overlay limit n
    · refine ⟨n, le_rfl, hstop, fun j hj hlt => absurd hj (by omega), ?_⟩
      split
      · rfl
      · rw [if_pos]
        rw [length_recordEntriesPage hoverlay]
        exact hstop
    · -- the page is full, so there is a cursor to go on from
      have hgoes := hstop
      rw [StopsAt, not_or, not_lt, not_lt] at hgoes
      cases hlast : (storedPage listing (scan.pageScan listing limit n)).getLast? with
      | none =>
        rw [List.getLast?_eq_none_iff] at hlast
        rw [hlast, List.length_nil] at hgoes
        have hroom := one_le_txSucc limit
        omega
      | some last =>
        have hnext : scan.pageScan listing limit (n + 1) =
            { scan.pageScan listing limit n with cursor := some last.key } := by
          rw [pageScan, behind, hlast]
        have hfewer := matching_behind hstored hlists hlast
        obtain ⟨k, hk, hends, hbefore, heq⟩ := ih (n := n + 1) (by
          rw [pageScan]
          omega)
        refine ⟨k, by omega, hends, fun j hj hlt => ?_, ?_⟩
        · rcases hj.eq_or_lt with rfl | hj
          · exact hstop
          · exact hbefore j hj hlt
        · dsimp only
          rw [if_neg, ← hnext, heq]
          rw [length_recordEntriesPage hoverlay]
          exact hstop

end Pages

/-- Where the loop stops, every missing record comes after at least as many known ones as the
limit, and more than the limit are known. -/
def PagesSuffice (scan : RecordScan) (stored : BTreeMap String RecordEntry)
    (listing : RecordScan → List RecordEntry)
    (overlay : BTreeMap String (Option RecordEntry)) : Prop :=
  ∀ limit, scan.limit = some limit → ∀ n, scan.StopsAt listing overlay limit n →
    (∀ m < n, ¬ scan.StopsAt listing overlay limit m) →
    let fetched := scan.pages listing limit (n + 1)
    let known := scan.matchingKeys (knownRecords overlay fetched)
    ∀ key ∈ scan.missing stored overlay fetched,
      limit < known.length ∧
        limit ≤ (known.filter fun other => decide (scan.precedes other key)).length

/-- A scan lists the first records it matches and has a cursor exactly when there are more. -/
structure Exact (scan : RecordScan) (records : BTreeMap String RecordEntry)
    (result : RecordScanResult) : Prop where
  /-- The entries are the first records in the order of the scan. -/
  entries : result.entries = limited scan.limit (scan.matching records)
  /-- There is a cursor exactly when records are left. -/
  cursor : result.nextCursor.isSome = true ↔
    ∃ limit, scan.limit = some limit ∧ limit < (scan.matching records).length

private theorem exact_scanWindow (scan : RecordScan) (records : BTreeMap String RecordEntry) :
    scan.Exact records (scanWindow scan.limit (scan.matching records)) := by
  cases hlimit : scan.limit with
  | none => exact ⟨by rw [hlimit]; rfl, by simp [hlimit, scanWindow]⟩
  | some limit =>
    rw [scanWindow]
    split
    · rename_i hmore
      refine ⟨by rw [hlimit]; rfl, iff_of_true ?_ ⟨limit, hlimit, hmore⟩⟩
      have hleft : ((scan.matching records).drop limit).head?.isSome = true := by
        rw [List.head?_drop]
        simp [hmore]
      rw [Option.isSome_map, Option.isSome_or, hleft, Bool.or_true]
    · rename_i hall
      refine ⟨?_, iff_of_false (by simp) ?_⟩
      · rw [hlimit]
        exact (List.take_of_length_le (not_lt.mp hall)).symm
      · rintro ⟨other, hother, hmore⟩
        rw [hlimit] at hother
        cases hother
        exact hall hmore

private theorem matching_congr {before after : BTreeMap String RecordEntry}
    (h : ∀ key, scan.matchesKey key = true → before[key]? = after[key]?) :
    scan.matching before = scan.matching after := by
  have hkeys : scan.matchingKeys before = scan.matchingKeys after := by
    refine (scan.enumerates_matchingKeys before).unique
      ((scan.enumerates_matchingKeys after).congr fun key => ?_)
    refine and_congr_left fun hmatches => ?_
    rw [Std.ExtTreeMap.mem_iff_isSome_getElem?, Std.ExtTreeMap.mem_iff_isSome_getElem?,
      h key hmatches]
  rw [matching, matching, hkeys]
  refine List.filterMap_congr fun key hkey => h key ?_
  exact (((scan.enumerates_matchingKeys after).mem_iff key).mp hkey).2

/-- With nothing missing all is known. -/
theorem matching_knownRecords (h : EntriesOf stored fetched)
    (hall : scan.missing stored overlay fetched = []) :
    scan.matching (knownRecords overlay fetched) =
      scan.matching (combinedRecords overlay stored) := by
  refine matching_congr fun key hmatches => ?_
  by_cases hkey : key ∈ knownRecords overlay fetched
  · exact knownRecords_get_eq h hkey
  · rw [Std.ExtTreeMap.getElem?_eq_none hkey, eq_comm, Std.ExtTreeMap.getElem?_eq_none]
    intro hthere
    have hmissing := (mem_missing_iff h).mpr ⟨⟨hthere, hmatches⟩, fun hknown => hkey hknown.1⟩
    rw [hall] at hmissing
    cases hmissing

/-- With more records known than the limit, the first of them are the first of all exactly when
every missing record comes after as many as the limit. -/
theorem exact_iff_of_more (hstored : RecordsKeyed stored) (hoverlay : OverlayKeyed overlay)
    (h : EntriesOf stored fetched) {limit : ℕ} (hlimit : scan.limit = some limit)
    (hmore : limit < (scan.matchingKeys (knownRecords overlay fetched)).length) :
    scan.Exact (combinedRecords overlay stored)
        (scanWindow scan.limit (scan.matching (knownRecords overlay fetched))) ↔
      ∀ key ∈ scan.missing stored overlay fetched,
        limit ≤ ((scan.matchingKeys (knownRecords overlay fetched)).filter
          fun other => decide (scan.precedes other key)).length := by
  have hall := scan.enumerates_matchingKeys (combinedRecords overlay stored)
  have hknown := scan.enumerates_matchingKeys (knownRecords overlay fetched)
  have hallKeyed := recordsKeyed_combinedRecords hoverlay hstored
  have hknownKeyed := recordsKeyed_knownRecords hstored hoverlay h
  have hthere : ∀ key, key ∈ knownRecords overlay fetched ∧ scan.matchesKey key = true →
      key ∈ combinedRecords overlay stored ∧ scan.matchesKey key = true :=
    fun key => And.imp_left (mem_combinedRecords h)
  -- the first keys agree exactly when nothing unknown gets in between
  have hkeys := hknown.take_eq_take_iff hall hthere (n := limit) hmore.le
  have hmissing : (∀ key ∈ scan.missing stored overlay fetched,
      limit ≤ ((scan.matchingKeys (knownRecords overlay fetched)).filter
        fun other => decide (scan.precedes other key)).length) ↔
      (scan.matchingKeys (knownRecords overlay fetched)).take limit =
        (scan.matchingKeys (combinedRecords overlay stored)).take limit := by
    rw [hkeys]
    refine forall_congr' fun key => ?_
    rw [mem_missing_iff h, and_imp]
  rw [hmissing]
  have hwindow := scan.exact_scanWindow (knownRecords overlay fetched)
  have hentries := hwindow.entries
  rw [hlimit, limited] at hentries
  have hreads : ((scan.matchingKeys (knownRecords overlay fetched)).take limit).filterMap
      (fun key => (knownRecords overlay fetched)[key]?) =
      ((scan.matchingKeys (knownRecords overlay fetched)).take limit).filterMap
        fun key => (combinedRecords overlay stored)[key]? :=
    List.filterMap_congr fun key hkey => knownRecords_get_eq h
      (mem_of_mem_matchingKeys (List.mem_of_mem_take hkey))
  rw [(filterMap_take_drop (fun _ hkey => mem_of_mem_matchingKeys hkey) limit).1] at hreads
  constructor
  · intro hexact
    have heq := congrArg (List.map RecordEntry.key) hexact.entries
    rw [hlimit, hentries, limited, List.map_take, List.map_take, scan.map_key_matching hknownKeyed,
      scan.map_key_matching hallKeyed] at heq
    exact heq
  · intro heq
    rw [heq, (filterMap_take_drop (fun _ hkey => mem_of_mem_matchingKeys hkey) limit).1] at hreads
    refine ⟨by rw [hlimit, hentries]; exact hreads, ?_⟩
    have hle : (scan.matchingKeys (knownRecords overlay fetched)).length ≤
        (scan.matchingKeys (combinedRecords overlay stored)).length :=
      (hknown.sorted.nodup.subperm fun key hkey =>
        (hall.mem_iff key).mpr (hthere key ((hknown.mem_iff key).mp hkey))).length_le
    rw [hwindow.cursor, ← scan.length_matchingKeys hknownKeyed,
      ← scan.length_matchingKeys hallKeyed]
    exact iff_of_true ⟨limit, hlimit, hmore⟩ ⟨limit, hlimit, hmore.trans_le hle⟩

/-- With no more records known than the limit, a scan is exact exactly when none is missing. -/
theorem exact_iff_of_all (hstored : RecordsKeyed stored) (hoverlay : OverlayKeyed overlay)
    (h : EntriesOf stored fetched) {limit : ℕ} (hlimit : scan.limit = some limit)
    (hfew : (scan.matchingKeys (knownRecords overlay fetched)).length ≤ limit) :
    scan.Exact (combinedRecords overlay stored)
        (scanWindow scan.limit (scan.matching (knownRecords overlay fetched))) ↔
      scan.missing stored overlay fetched = [] := by
  have hknownKeyed := recordsKeyed_knownRecords hstored hoverlay h
  constructor
  · intro hexact
    -- there is no cursor, so the listed records are all there are
    have hwindow := scan.exact_scanWindow (knownRecords overlay fetched)
    have hnone : ¬ limit < (scan.matching (combinedRecords overlay stored)).length := by
      intro hmore
      obtain ⟨other, hother, hlt⟩ :=
        hwindow.cursor.mp (hexact.cursor.mpr ⟨limit, hlimit, hmore⟩)
      rw [hlimit] at hother
      cases hother
      rw [← scan.length_matchingKeys hknownKeyed] at hlt
      omega
    have hall := hwindow.entries.symm.trans hexact.entries
    rw [hlimit, limited, limited, List.take_of_length_le (not_lt.mp hnone),
      List.take_of_length_le (by rwa [← scan.length_matchingKeys hknownKeyed])] at hall
    refine List.eq_nil_iff_forall_not_mem.mpr fun key hkey => ?_
    obtain ⟨hthere, hunknown⟩ := (mem_missing_iff h).mp hkey
    have hkeys := congrArg (List.map RecordEntry.key) hall
    rw [scan.map_key_matching hknownKeyed,
      scan.map_key_matching (recordsKeyed_combinedRecords hoverlay hstored)] at hkeys
    refine hunknown (((scan.enumerates_matchingKeys _).mem_iff key).mp ?_)
    rw [hkeys]
    exact ((scan.enumerates_matchingKeys _).mem_iff key).mpr hthere
  · intro hall
    rw [matching_knownRecords h hall]
    exact scan.exact_scanWindow _

/-- What is shown of the known records is exact exactly when every missing record comes after as
many as the limit, and more than the limit are known. -/
theorem exact_knownRecords_iff (hstored : RecordsKeyed stored) (hoverlay : OverlayKeyed overlay)
    (h : EntriesOf stored fetched) {limit : ℕ} (hlimit : scan.limit = some limit) :
    scan.Exact (combinedRecords overlay stored)
        (scanWindow scan.limit (scan.matching (knownRecords overlay fetched))) ↔
      ∀ key ∈ scan.missing stored overlay fetched,
        limit < (scan.matchingKeys (knownRecords overlay fetched)).length ∧
          limit ≤ ((scan.matchingKeys (knownRecords overlay fetched)).filter
            fun other => decide (scan.precedes other key)).length := by
  by_cases hmore : limit < (scan.matchingKeys (knownRecords overlay fetched)).length
  · simp only [exact_iff_of_more hstored hoverlay h hlimit hmore, hmore, true_and]
  · simp only [exact_iff_of_all hstored hoverlay h hlimit (not_lt.mp hmore), hmore, false_and,
      List.eq_nil_iff_forall_not_mem, imp_false]

private theorem recordScanResult_page (hstored : RecordsKeyed stored)
    (hoverlay : OverlayKeyed overlay) (h : EntriesOf stored fetched) :
    recordScanResult (Program.recordEntriesPage scan fetched overlay) scan =
      scanWindow scan.limit (scan.matching (knownRecords overlay fetched)) := by
  rw [recordEntriesPage_eq hoverlay]
  exact recordScanResult_valueList (recordsKeyed_knownRecords hstored hoverlay h)

variable {listing : RecordScan → List RecordEntry}

/-- A listing misses nothing that lies in the store. -/
theorem missing_listing (hstored : RecordsKeyed stored) (hlists : Lists stored listing)
    (scan : RecordScan) (overlay : BTreeMap String (Option RecordEntry)) :
    scan.missing stored overlay (listing scan) = [] := by
  refine List.eq_nil_iff_forall_not_mem.mpr fun key hkey => ?_
  obtain ⟨hmatching, hout⟩ := List.mem_filter.mp hkey
  rw [← scan.map_key_matching hstored, ← ((hlists scan).map _).mem_iff] at hmatching
  simp [hmatching] at hout

/-- Without a limit the scan shows all. -/
theorem recordScanResult_listing (hstored : RecordsKeyed stored) (hoverlay : OverlayKeyed overlay)
    (hlists : Lists stored listing) {fuel : ℕ} (hlimit : scan.limit = none) :
    recordScanResult (collectEntries listing overlay fuel scan) scan =
      scanWindow none (scan.matching (combinedRecords overlay stored)) := by
  have hentries : EntriesOf stored (listing scan) := fun entry hentry =>
    get_of_mem_matching hstored ((hlists scan).mem_iff.mp hentry)
  rw [collectEntries, hlimit]
  dsimp only
  rw [storedPage, hlimit, limited, recordScanResult_page hstored hoverlay hentries, hlimit,
    matching_knownRecords hentries (missing_listing hstored hlists scan overlay)]

/-- What a scan collects is exact exactly when the pages suffice. -/
theorem exact_collectEntries_iff (hstored : RecordsKeyed stored) (hoverlay : OverlayKeyed overlay)
    (hlists : Lists stored listing) {fuel : ℕ} (hfuel : stored.size < fuel) :
    scan.Exact (combinedRecords overlay stored)
        (recordScanResult (collectEntries listing overlay fuel scan) scan) ↔
      scan.PagesSuffice stored listing overlay := by
  cases hlimit : scan.limit with
  | none =>
    refine iff_of_true ?_ fun limit hsome => by rw [hlimit] at hsome; cases hsome
    rw [recordScanResult_listing hstored hoverlay hlists hlimit, ← hlimit]
    exact scan.exact_scanWindow _
  | some limit =>
    rw [collectEntries, hlimit]
    dsimp only
    obtain ⟨n, -, hends, hbefore, heq⟩ :=
      collectPages_eq (n := 0) hstored hoverlay hlists scan limit
      ((length_matching_le_size _ stored).trans_lt hfuel)
    have hentries := entriesOf_pages hstored hlists scan limit (n + 1)
    have hpages : collectPages listing overlay scan limit fuel
        { scan with limit := some (txSucc limit) } [] =
        Program.recordEntriesPage scan (scan.pages listing limit (n + 1)) overlay := heq
    rw [hpages, recordScanResult_page hstored hoverlay hentries,
      exact_knownRecords_iff hstored hoverlay hentries hlimit]
    constructor
    · intro hfits other hother m hstop hfirst
      rw [hlimit] at hother
      cases hother
      -- only one page is the first to end the loop
      have hsame : m = n := by
        by_contra hne
        rcases lt_or_gt_of_ne hne with hlt | hlt
        · exact hbefore m (Nat.zero_le m) hlt hstop
        · exact hfirst n hlt hends
      subst hsame
      exact hfits
    · exact fun hsuffice => hsuffice limit hlimit n hends fun m hm =>
        hbefore m (Nat.zero_le m) hm

end RecordScan

/-- `scan_records`. -/
def Program.scanRecords (fuel : ℕ) (scan : RecordScan) : Program RecordScanResult := do
  let entries ← recordEntriesForScan fuel scan
  pure (recordScanResult entries scan)

/-- The store of a database holds records and lists those a scan matches, up to the limit and in
an order of its own; without a store there are none. -/
structure Inner.HoldsRecords {σ : Type} [RecordStore σ] (inner : Inner σ)
    (stored : BTreeMap String RecordEntry) (listing : RecordScan → List RecordEntry) : Prop where
  /-- All matching records are listed. -/
  lists : Lists stored listing
  /-- The store answers with what it lists. -/
  page : ∀ scan, scan.limit ≠ some 0 → ∃ found, inner.storedRecords scan = .ok found ∧
    found.getD [] = storedPage listing scan

variable {σ : Type}

/-- Without a store there are no records behind memory. -/
theorem Inner.holdsRecords_of_none [RecordStore σ] {inner : Inner σ}
    (h : inner.storageEngine = none) : inner.HoldsRecords ∅ fun _ => [] where
  lists scan := by
    have hnone : scan.matching (∅ : BTreeMap String RecordEntry) = [] := by
      simp [RecordScan.matching]
    rw [hnone]
  page scan _ := by
    refine ⟨none, by rw [storedRecords, h], ?_⟩
    rw [storedPage]
    cases scan.limit with
    | none => rfl
    | some limit => exact List.take_nil.symm

section Holds

variable [RecordStore σ] {inner : Inner σ} {stored : BTreeMap String RecordEntry}
  {listing : RecordScan → List RecordEntry}

private theorem Inner.HoldsRecords.answers (h : inner.HoldsRecords stored listing) :
    AnswersRecords Command.exec inner listing inner.recordOverlay where
  overlay := rfl
  stored scan hlimit := by
    obtain ⟨found, hfound, hpage⟩ := h.page scan hlimit
    exact ⟨found, congrArg (·, inner) hfound, hpage⟩

/-- A scan over a store sorts and cuts what it collects. -/
theorem Inner.HoldsRecords.run_scanRecords (h : inner.HoldsRecords stored listing) (fuel : ℕ)
    (scan : RecordScan) :
    (Program.scanRecords fuel scan).run Command.exec inner =
      (.ok (recordScanResult (collectEntries listing inner.recordOverlay fuel scan) scan),
        inner) := by
  rw [Program.scanRecords, Script.run_bind,
    Effect.bind_ok (h.answers.run_recordEntriesForScan fuel scan)]
  rfl

end Holds

/-- A scan over a store and an overlay returns, and it is exact exactly when the pages suffice. -/
theorem scanRecords_exact_iff {σ : Type} [RecordStore σ] {inner : Inner σ}
    {stored : BTreeMap String RecordEntry} {listing : RecordScan → List RecordEntry}
    (hstored : RecordsKeyed stored) (hholds : inner.HoldsRecords stored listing)
    (hoverlay : OverlayKeyed inner.recordOverlay) (scan : RecordScan) {fuel : ℕ}
    (hfuel : stored.size < fuel) :
    ∃ result, (Program.scanRecords fuel scan).run Command.exec inner = (.ok result, inner) ∧
      (scan.Exact (combinedRecords inner.recordOverlay stored) result ↔
        scan.PagesSuffice stored listing inner.recordOverlay) :=
  ⟨_, hholds.run_scanRecords fuel scan,
    RecordScan.exact_collectEntries_iff hstored hoverlay hholds.lists hfuel⟩

/-- A store that holds records only. -/
structure RecordTable where
  records : BTreeMap String RecordEntry

/-- The records a scan matches in the order of the files of a store: the record of the empty key
is the last of them. -/
def RecordTable.listing (table : RecordTable) (scan : RecordScan) : List RecordEntry :=
  let named := (scan.matching table.records).filter fun entry => !entry.key.isEmpty
  let unnamed := (scan.matching table.records).filter fun entry => entry.key.isEmpty
  if scan.reverse then unnamed ++ named else named ++ unnamed

private theorem RecordTable.lists (table : RecordTable) : Lists table.records table.listing := by
  intro scan
  rw [listing]
  split
  · exact List.filter_append_perm _ _
  · exact List.perm_append_comm.trans (List.filter_append_perm _ _)

instance : RecordStore RecordTable where
  loadMetadata _ := .ok none
  applyTransaction tx table := (.ok (),
    ⟨tx.records.toList.foldl (fun records entry => records.insert entry.1 entry.2)
      (tx.deletedRecords.toList.foldl (·.erase ·) table.records)⟩)
  getNode _ _ := .ok none
  scanRecordEntries table scan := .ok (some (storedPage table.listing scan))

private theorem RecordTable.holdsRecords {inner : Inner RecordTable} {table : RecordTable}
    (h : inner.storageEngine = some table) : inner.HoldsRecords table.records table.listing where
  lists := table.lists
  page scan _ := ⟨some (storedPage table.listing scan), by rw [Inner.storedRecords, h]; rfl, rfl⟩

private theorem recordsKeyed_recordsOfList (entries : List RecordEntry) :
    RecordsKeyed (recordsOfList entries) := by
  have hfold : ∀ (entries : List RecordEntry) (records : BTreeMap String RecordEntry),
      RecordsKeyed records →
      RecordsKeyed (entries.foldl
        (fun records entry => records.insert entry.key entry) records) := by
    intro entries
    induction entries with
    | nil => exact fun _ h => h
    | cons entry entries ih =>
      intro records h
      refine ih _ fun key other hother => ?_
      rw [BTreeMap.get_insert] at hother
      split at hother
      · cases hother
        assumption
      · exact h key other hother
  exact hfold entries ∅ fun key entry hentry => by simp at hentry

/-- Four stored records. -/
def fourRecords : BTreeMap String RecordEntry :=
  recordsOfList (["k", "l", "m", "n"].map (⟨·, .json .null⟩))

/-- The stored records lie under their keys. -/
theorem recordsKeyed_fourRecords : RecordsKeyed fourRecords := recordsKeyed_recordsOfList _

/-- An overlay that deletes the first two of them and puts two records behind them. -/
def deletedAndPut : BTreeMap String (Option RecordEntry) :=
  ((((∅ : BTreeMap String (Option RecordEntry)).insert "k" none).insert "l" none).insert "y"
    (some ⟨"y", .json .null⟩)).insert "z" (some ⟨"z", .json .null⟩)

/-- A database with both. -/
def shadowedDb : Inner RecordTable :=
  { Inner.configured (σ := RecordTable) "a" ⟨fun _ => 0, 0⟩ ∅ .default with
    storageEngine := some ⟨fourRecords⟩
    recordOverlay := deletedAndPut }

private theorem holdsRecords_shadowedDb :
    shadowedDb.HoldsRecords fourRecords (RecordTable.mk fourRecords).listing :=
  RecordTable.holdsRecords rfl

private theorem overlayKeyed_shadowedDb : OverlayKeyed shadowedDb.recordOverlay := by
  intro key entry hentry
  simp only [shadowedDb, deletedAndPut, BTreeMap.get_insert] at hentry
  split_ifs at hentry with hz hy hl hk
  · cases hentry
    exact hz
  · cases hentry
    exact hy
  · cases hentry
  · cases hentry
  · simp at hentry

/-- A scan of three records fetches the whole store with its first page and is exact. -/
theorem scanRecords_exact_iff_shadowedDb :
    let scan : RecordScan := ⟨none, none, none, none, none, false, some 3, none⟩
    ∃ result, (Program.scanRecords 5 scan).run Command.exec shadowedDb = (.ok result, shadowedDb) ∧
      scan.Exact (combinedRecords shadowedDb.recordOverlay fourRecords) result := by
  intro scan
  obtain ⟨result, hrun, hexact⟩ := scanRecords_exact_iff recordsKeyed_fourRecords
    holdsRecords_shadowedDb overlayKeyed_shadowedDb scan (show _ < 5 by decide +kernel)
  refine ⟨result, hrun, hexact.mpr fun limit hlimit n _ hfirst => ?_⟩
  obtain rfl := Option.some.inj hlimit
  cases n with
  | zero => decide +kernel
  | succ n => exact absurd (Or.inl (by decide +kernel)) (hfirst 0 n.succ_pos)

/-- A scan of one record stops at the first page, both records of which are deleted, since the
two put records are more than the limit, and misses the record of the second page. -/
theorem scan_stops_before_stored_record :
    let scan : RecordScan := ⟨none, none, none, none, none, false, some 1, none⟩
    (∃ result, (Program.scanRecords 5 scan).run Command.exec shadowedDb =
        (.ok result, shadowedDb) ∧ result.entries.map RecordEntry.key = ["y"]) ∧
      (limited scan.limit (scan.matching
        (combinedRecords shadowedDb.recordOverlay fourRecords))).map RecordEntry.key = ["m"] := by
  intro scan
  refine ⟨⟨_, holdsRecords_shadowedDb.run_scanRecords 5 scan, ?_⟩, by decide +kernel⟩
  have hpage : collectEntries (RecordTable.mk fourRecords).listing shadowedDb.recordOverlay 5 scan =
      Program.recordEntriesPage scan (scan.pages (RecordTable.mk fourRecords).listing 1 1)
        shadowedDb.recordOverlay := by
    decide +kernel
  have hentries : EntriesOf fourRecords (scan.pages (RecordTable.mk fourRecords).listing 1 1) :=
    RecordScan.entriesOf_pages recordsKeyed_fourRecords (RecordTable.lists ⟨fourRecords⟩) scan 1 1
  rw [hpage, RecordScan.recordScanResult_page recordsKeyed_fourRecords overlayKeyed_shadowedDb
    hentries]
  decide +kernel

end Primadb

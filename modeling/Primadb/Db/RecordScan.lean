import Primadb.Core.Enumeration
import Primadb.Db.RecordWatch

/-!
# Scans of records

A scan sees the stored records under the overlay of the records changed since: an entry of the
overlay hides the stored one and may delete it. The matching keys are listed in ascending or
descending order and cut at the limit; the cursor of the next page is the last key listed.
-/

namespace Primadb

namespace RecordScan

/-- The order of keys in a scan. -/
def precedes (scan : RecordScan) (a b : String) : Prop := if scan.reverse then b < a else a < b

instance (scan : RecordScan) : DecidableRel scan.precedes := fun a b =>
  inferInstanceAs (Decidable (if scan.reverse then b < a else a < b))

instance (scan : RecordScan) : IsStrictTotalOrder String scan.precedes := by
  cases hreverse : scan.reverse with
  | false =>
    have heq : scan.precedes = (· < ·) := by
      funext a b
      simp [precedes, hreverse]
    rw [heq]
    infer_instance
  | true =>
    have heq : scan.precedes = (· > ·) := by
      funext a b
      simp [precedes, hreverse]
    rw [heq]
    infer_instance

/-- An ascending list in the order of a scan. -/
def ordered {α : Type} (scan : RecordScan) (l : List α) : List α :=
  if scan.reverse then l.reverse else l

/-- The keys of the records a scan matches, in its order. -/
def matchingKeys (scan : RecordScan) (records : BTreeMap String RecordEntry) : List String :=
  scan.ordered (records.keys.filter scan.matchesKey)

/-- The records a scan matches, in its order. -/
def matching (scan : RecordScan) (records : BTreeMap String RecordEntry) : List RecordEntry :=
  (scan.matchingKeys records).filterMap fun key => records[key]?

private theorem enumerates_ordered {scan : RecordScan} {keys : List String} {p : String → Prop}
    (h : Enumerates (· < ·) keys p) : Enumerates scan.precedes (scan.ordered keys) p := by
  cases hreverse : scan.reverse with
  | false =>
    have heq : scan.precedes = (· < ·) := by
      funext a b
      simp [precedes, hreverse]
    rw [heq, ordered, hreverse]
    exact h
  | true =>
    have heq : scan.precedes = fun a b => b < a := by
      funext a b
      simp [precedes, hreverse]
    rw [heq, ordered, hreverse]
    exact h.reverse

private theorem enumerates_keys (records : BTreeMap String RecordEntry) :
    Enumerates (· < ·) records.keys (· ∈ records) where
  sorted := Std.ExtTreeMap.ordered_keys.imp compare_lt_iff_lt.mp
  mem_iff _ := Std.ExtTreeMap.mem_keys

/-- The matching keys in the order of the scan. -/
theorem enumerates_matchingKeys (scan : RecordScan) (records : BTreeMap String RecordEntry) :
    Enumerates scan.precedes (scan.matchingKeys records)
      fun key => key ∈ records ∧ scan.matchesKey key = true :=
  enumerates_ordered ((enumerates_keys records).filter scan.matchesKey)

end RecordScan

/-- Every record lies under its key. -/
def RecordsKeyed (records : BTreeMap String RecordEntry) : Prop :=
  ∀ (key : String) entry, records[key]? = some entry → entry.key = key

/-- Every record of an overlay lies under its key. -/
def OverlayKeyed (overlay : BTreeMap String (Option RecordEntry)) : Prop :=
  ∀ (key : String) entry, overlay[key]? = some (some entry) → entry.key = key

/-- A list of records by key; a later one replaces an earlier one. -/
def recordsOfList (entries : List RecordEntry) : BTreeMap String RecordEntry :=
  entries.foldl (fun records entry => records.insert entry.key entry) ∅

/-- What is read under a key: the overlay first, and the stored record where it is silent. -/
def overlaid (overlay : BTreeMap String (Option RecordEntry))
    (records : BTreeMap String RecordEntry) (key : String) : Option RecordEntry :=
  match overlay[key]? with
  | some change => change
  | none => records[key]?

/-- The stored records under an overlay. -/
def combinedRecords (overlay : BTreeMap String (Option RecordEntry))
    (records : BTreeMap String RecordEntry) : BTreeMap String RecordEntry :=
  overlay.toList.foldl
    (fun records change =>
      match change.2 with
      | some entry => records.insert change.1 entry
      | none => records.erase change.1)
    records

/-- Reading the stored records under an overlay. -/
theorem combinedRecords_get (overlay : BTreeMap String (Option RecordEntry))
    (records : BTreeMap String RecordEntry) (key : String) :
    (combinedRecords overlay records)[key]? = overlaid overlay records key := by
  rw [combinedRecords, BTreeMap.foldl_toList_at overlay (k := key)
    (π := fun records : BTreeMap String RecordEntry => records[key]?) (g := fun _ change => change)]
  · rw [overlaid]
    cases overlay[key]? <;> rfl
  · rintro records other (_ | entry) -
    · rw [BTreeMap.get_erase]
    · rw [BTreeMap.get_insert]

theorem recordsKeyed_combinedRecords {overlay : BTreeMap String (Option RecordEntry)}
    {records : BTreeMap String RecordEntry} (hoverlay : OverlayKeyed overlay)
    (hrecords : RecordsKeyed records) : RecordsKeyed (combinedRecords overlay records) := by
  intro key entry hentry
  rw [combinedRecords_get, overlaid] at hentry
  split at hentry
  · rename_i hchange
    exact hoverlay key entry (hentry ▸ hchange)
  · exact hrecords key entry hentry

private theorem recordsOfList_filter_get (scan : RecordScan) (entries : List RecordEntry)
    (key : String) :
    (recordsOfList (entries.filter fun entry => scan.matchesKey entry.key))[key]? =
      if scan.matchesKey key then (recordsOfList entries)[key]? else none := by
  have hfold : ∀ (entries : List RecordEntry) (some all : BTreeMap String RecordEntry),
      some[key]? = (if scan.matchesKey key then all[key]? else none) →
      ((entries.filter fun entry => scan.matchesKey entry.key).foldl
          (fun records entry => records.insert entry.key entry) some)[key]? =
        if scan.matchesKey key then
          (entries.foldl (fun records entry => records.insert entry.key entry) all)[key]?
        else none := by
    intro entries
    induction entries with
    | nil => exact fun _ _ h => h
    | cons entry entries ih =>
      intro some all h
      rw [List.filter_cons]
      split
      · rename_i hmatches
        refine ih _ _ ?_
        rw [BTreeMap.get_insert, BTreeMap.get_insert, h]
        by_cases heq : entry.key = key
        · rw [if_pos heq, if_pos heq, if_pos (heq ▸ hmatches)]
        · rw [if_neg heq, if_neg heq]
      · rename_i hmatches
        refine ih _ _ ?_
        rw [BTreeMap.get_insert, h]
        by_cases heq : entry.key = key
        · rw [heq] at hmatches
          rw [if_neg hmatches, if_neg hmatches]
        · rw [if_neg heq]
  exact hfold entries ∅ ∅ (by simp)

/-- A page is the matching part of the stored records under the overlay, in ascending order. -/
theorem recordEntriesPage_eq {overlay : BTreeMap String (Option RecordEntry)}
    (hoverlay : OverlayKeyed overlay) (scan : RecordScan) (stored : List RecordEntry) :
    Program.recordEntriesPage scan stored overlay =
      BTreeMap.valueList ((combinedRecords overlay (recordsOfList stored)).filter
        fun key _ => scan.matchesKey key) := by
  rw [Program.recordEntriesPage, BTreeMap.values_eq_valueList]
  congr 1
  refine Std.ExtTreeMap.ext_getElem? fun key => ?_
  rw [Std.ExtTreeMap.getElem?_filter', combinedRecords_get, overlaid]
  rw [BTreeMap.foldl_toList_at overlay (k := key)
    (π := fun records : BTreeMap String RecordEntry => records[key]?)
    (g := fun old change => if scan.matchesKey key then change else old)]
  · have hstored := recordsOfList_filter_get scan stored key
    rw [recordsOfList] at hstored
    rw [hstored]
    have hall : ∀ read : Option RecordEntry, (read.filter fun _ => true) = read := by
      rintro (_ | _) <;> rfl
    cases overlay[key]? with
    | none => cases scan.matchesKey key <;> simp [hall]
    | some change => cases scan.matchesKey key <;> simp [hall]
  · intro records other change hchange
    dsimp only
    by_cases heq : other = key
    · subst heq
      rw [if_pos rfl]
      split
      · cases change with
        | none =>
          dsimp only
          rw [BTreeMap.get_erase, if_pos rfl]
        | some entry =>
          dsimp only
          rw [BTreeMap.get_insert, if_pos (hoverlay other entry hchange)]
      · rfl
    · rw [if_neg heq]
      split
      · cases change with
        | none =>
          dsimp only
          rw [BTreeMap.get_erase, if_neg heq]
        | some entry =>
          dsimp only
          rw [BTreeMap.get_insert, if_neg (hoverlay other entry hchange ▸ heq)]
      · rfl

/-- Entries in the order of a scan, cut at the limit. -/
def scanWindow (limit : Option ℕ) (entries : List RecordEntry) : RecordScanResult :=
  match limit with
  | none => ⟨entries, none⟩
  | some limit =>
    if limit < entries.length then
      ⟨entries.take limit,
        ((entries.take limit).getLast?.or (entries.drop limit).head?).map RecordEntry.key⟩
    else ⟨entries, none⟩

namespace RecordScan

variable {scan : RecordScan} {records : BTreeMap String RecordEntry}

theorem filterMap_keys (scan : RecordScan) (records : BTreeMap String RecordEntry) :
    (records.keys.filter scan.matchesKey).filterMap (fun key => records[key]?) =
      BTreeMap.valueList (records.filter fun key _ => scan.matchesKey key) := by
  rw [BTreeMap.valueList, Std.ExtTreeMap.toList_filter, ← Std.ExtTreeMap.map_fst_toList_eq_keys,
    List.filter_map, List.filterMap_map, ← List.filterMap_eq_map]
  refine List.filterMap_congr fun entry hentry => ?_
  exact Std.ExtTreeMap.mem_toList_iff_getElem?_eq_some.mp (List.mem_of_mem_filter hentry)

theorem ordered_filterMap {α β : Type} (scan : RecordScan) (f : α → Option β) (l : List α) :
    scan.ordered (l.filterMap f) = (scan.ordered l).filterMap f := by
  rw [ordered, ordered]
  split
  · exact List.filterMap_reverse.symm
  · rfl

private theorem map_key_filterMap (h : RecordsKeyed records) {keys : List String}
    (hkeys : ∀ key ∈ keys, key ∈ records) :
    (keys.filterMap fun key => records[key]?).map RecordEntry.key = keys := by
  induction keys with
  | nil => rfl
  | cons key keys ih =>
    obtain ⟨entry, hentry⟩ := Option.isSome_iff_exists.mp
      (Std.ExtTreeMap.mem_iff_isSome_getElem?.mp (hkeys key List.mem_cons_self))
    rw [List.filterMap_cons_some hentry, List.map_cons, h key entry hentry,
      ih fun other hother => hkeys other (List.mem_cons_of_mem _ hother)]

/-- Reading keys that have records, place by place. -/
theorem filterMap_take_drop {keys : List String} (hkeys : ∀ key ∈ keys, key ∈ records) (n : ℕ) :
    (keys.take n).filterMap (fun key => records[key]?) =
        (keys.filterMap fun key => records[key]?).take n ∧
      (keys.drop n).filterMap (fun key => records[key]?) =
        (keys.filterMap fun key => records[key]?).drop n := by
  induction keys generalizing n with
  | nil => simp
  | cons key keys ih =>
    obtain ⟨entry, hentry⟩ := Option.isSome_iff_exists.mp
      (Std.ExtTreeMap.mem_iff_isSome_getElem?.mp (hkeys key List.mem_cons_self))
    cases n with
    | zero => simp
    | succ n =>
      obtain ⟨htake, hdrop⟩ :=
        ih (fun other hother => hkeys other (List.mem_cons_of_mem _ hother)) n
      rw [List.take_succ_cons, List.drop_succ_cons, List.filterMap_cons_some hentry,
        List.filterMap_cons_some hentry, htake, hdrop]
      exact ⟨rfl, rfl⟩

theorem mem_of_mem_matchingKeys {key : String} (hkey : key ∈ scan.matchingKeys records) :
    key ∈ records :=
  (((scan.enumerates_matchingKeys records).mem_iff key).mp hkey).1

/-- Matching entries and keys correspond. -/
theorem map_key_matching (scan : RecordScan) (h : RecordsKeyed records) :
    (scan.matching records).map RecordEntry.key = scan.matchingKeys records :=
  map_key_filterMap h fun _ hkey => mem_of_mem_matchingKeys hkey

/-- Entries in ascending order of their keys are sorted, turned and cut. -/
theorem recordScanResult_valueList (h : RecordsKeyed records) :
    recordScanResult (BTreeMap.valueList (records.filter fun key _ => scan.matchesKey key)) scan =
      scanWindow scan.limit (scan.matching records) := by
  have hsorted : (BTreeMap.valueList (records.filter fun key _ => scan.matchesKey key)).Pairwise
      fun left right => decide (left.key ≤ right.key) = true := by
    have hkeys := (enumerates_keys records).filter scan.matchesKey
    have hforward := map_key_filterMap h fun key hkey => ((hkeys.mem_iff key).mp hkey).1
    rw [filterMap_keys] at hforward
    have hascending := hkeys.sorted
    rw [← hforward, List.pairwise_map] at hascending
    exact hascending.imp fun hlt => decide_eq_true hlt.le
  rw [recordScanResult, List.mergeSort_of_pairwise hsorted, matching, matchingKeys,
    ← ordered_filterMap, filterMap_keys]
  rfl

end RecordScan

/-- A scan without a store lists the matching records of the overlay in its order, up to the
limit. -/
theorem Inner.scanRecords_eq {σ : Type} {inner : Inner σ} (h : OverlayKeyed inner.recordOverlay)
    (scan : RecordScan) :
    inner.scanRecords scan =
      scanWindow scan.limit (scan.matching (combinedRecords inner.recordOverlay ∅)) := by
  rw [scanRecords, recordEntriesPage_eq h]
  refine RecordScan.recordScanResult_valueList (recordsKeyed_combinedRecords h ?_)
  intro key entry hentry
  simp [recordsOfList] at hentry

end Primadb

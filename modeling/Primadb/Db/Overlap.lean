import Primadb.Db.Transaction
import Primadb.Engine.Transaction

/-!
# Events and watches

A change event names the paths and record keys it touched. A watch of a path, of records, of
a text source or of a vector collection is read again when the event overlaps it. An event
that changed records without naming keys overlaps every watch of records. Events that wait
in a queue are merged into one; a named key then hides that another of them named none.
-/

namespace Primadb

/-- `path_overlaps`: one path lies at or below the other. -/
def pathOverlaps (left right : String) : Bool :=
  left == right || startsWith left (right ++ "/") || startsWith right (left ++ "/")

/-- `watch_change_overlaps`. -/
def watchChangeOverlaps (path : String) (event : ChangeEvent) : Bool :=
  event.impact.fullRefresh || event.impact.touchedPaths.any (pathOverlaps path)

/-- The value of a hexadecimal digit. -/
def hexDigitValue (c : Char) : Option ℕ :=
  if '0' ≤ c ∧ c ≤ '9' then some (c.toNat - '0'.toNat)
  else if 'a' ≤ c ∧ c ≤ 'f' then some (c.toNat - 'a'.toNat + 10)
  else if 'A' ≤ c ∧ c ≤ 'F' then some (c.toNat - 'A'.toNat + 10)
  else none

/-- `u8::from_str_radix` in base sixteen on two characters; a plus sign may stand first. -/
def byteFromHex (high low : Char) : Option UInt8 := do
  let high ← if high = '+' then some 0 else hexDigitValue high
  let low ← hexDigitValue low
  some (UInt8.ofNat (16 * high + low))

/-- The bytes written as pairs of hexadecimal digits. -/
def bytesFromHex : List Char → Option (List UInt8)
  | [] => some []
  | [_] => none
  | high :: low :: rest => do
    let byte ← byteFromHex high low
    let bytes ← bytesFromHex rest
    some (byte :: bytes)

/-- `decode_component`, without the text of its errors; where it panics there is no text
either. -/
def decodeComponent (input : String) : Option String := do
  let bytes ← bytesFromHex input.toList
  String.fromUTF8? ⟨bytes.toArray⟩

/-- Whether reading pairs of bytes, up to the first that is no byte in hexadecimal, cuts a
character. -/
def cutsCharacter : List Char → Bool
  | high :: low :: rest =>
    if high.utf8Size = 1 then
      low.utf8Size != 1 || (byteFromHex high low).isSome && cutsCharacter rest
    else high.utf8Size != 2
  | [high] => high.utf8Size == 4
  | [] => false

/-- Whether `decode_component` panics: its input is of even length and a pair of bytes starts or
ends inside a character. -/
def decodeComponentPanics (input : String) : Bool :=
  input.utf8ByteSize % 2 == 0 && cutsCharacter input.toList

/-- A hexadecimal digit is one byte. -/
theorem utf8Size_of_hexDigitValue {c : Char} {n : ℕ} (h : hexDigitValue c = some n) :
    c.utf8Size = 1 := by
  have hle : c ≤ 'f' := by
    unfold hexDigitValue at h
    split at h
    · rename_i hc
      exact Char.le_trans hc.2 (by decide)
    · split at h
      · rename_i hc
        exact hc.2
      · split at h
        · rename_i hc
          exact Char.le_trans hc.2 (by decide)
        · cases h
  have hval : c.val ≤ UInt32.ofNatLT 127 (by decide) :=
    UInt32.le_trans (show c.val ≤ 'f'.val from hle) (by decide)
  rw [Char.utf8Size, if_pos hval]

/-- The characters of a byte in hexadecimal are one byte each. -/
theorem utf8Size_of_byteFromHex {high low : Char} {byte : UInt8}
    (h : byteFromHex high low = some byte) : high.utf8Size = 1 ∧ low.utf8Size = 1 := by
  simp only [byteFromHex, Option.bind_eq_bind] at h
  split at h
  · rename_i hplus
    obtain ⟨_, -, hrest⟩ := Option.bind_eq_some_iff.mp h
    obtain ⟨_, hlow, -⟩ := Option.bind_eq_some_iff.mp hrest
    exact ⟨by rw [hplus]; rfl, utf8Size_of_hexDigitValue hlow⟩
  · obtain ⟨_, hhigh, hrest⟩ := Option.bind_eq_some_iff.mp h
    obtain ⟨_, hlow, -⟩ := Option.bind_eq_some_iff.mp hrest
    exact ⟨utf8Size_of_hexDigitValue hhigh, utf8Size_of_hexDigitValue hlow⟩

/-- Characters of which one is cut are no bytes in hexadecimal. -/
theorem bytesFromHex_of_cutsCharacter {chars : List Char} (h : cutsCharacter chars = true) :
    bytesFromHex chars = none := by
  induction chars using bytesFromHex.induct with
  | case1 => cases h
  | case2 c => rfl
  | case3 high low rest ih =>
    rw [bytesFromHex]
    cases hbyte : byteFromHex high low with
    | none => rfl
    | some byte =>
      obtain ⟨hhigh, hlow⟩ := utf8Size_of_byteFromHex hbyte
      rw [cutsCharacter, if_pos hhigh, hlow, hbyte] at h
      rw [ih h]
      rfl

/-- Where `decode_component` panics no text is decoded. -/
theorem decodeComponent_of_panics {input : String} (h : decodeComponentPanics input = true) :
    decodeComponent input = none := by
  rw [decodeComponent, bytesFromHex_of_cutsCharacter (Bool.and_eq_true_iff.mp h).2]
  rfl

/-- The first component behind a reserved start of record keys. -/
def collectionComponent (recordPrefix key : String) : Option String :=
  let start := recordPrefix ++ "/"
  if startsWith key start then
    some (String.ofList ((key.toList.drop start.toList.length).takeWhile (· != '/')))
  else none

/-- The collection named by the first component behind a reserved start of record keys. -/
def collectionFromRecordKey (recordPrefix key : String) : Option String :=
  (collectionComponent recordPrefix key).bind decodeComponent

/-- `vector_collection_from_record_key`. -/
def vectorCollectionFromRecordKey (key : String) : Option String :=
  collectionFromRecordKey "__primadb_vectors" key

/-- `text_collection_from_record_key`. -/
def textCollectionFromRecordKey (key : String) : Option String :=
  collectionFromRecordKey "__primadb_text" key

/-- Whether an event overlaps a watch of the selected record keys. -/
def recordKeysOverlap (selects : String → Bool) (event : ChangeEvent) : Bool :=
  if event.impact.fullRefresh then true
  else if !event.impact.recordsChanged then false
  else event.impact.touchedRecordKeys.isEmpty || event.impact.touchedRecordKeys.any selects

/-- `record_watch_change_overlaps`. -/
def recordWatchChangeOverlaps (scan : RecordScan) (event : ChangeEvent) : Bool :=
  recordKeysOverlap scan.matchesKey event

/-- `vector_watch_change_overlaps`. -/
def vectorWatchChangeOverlaps (collection : String) (event : ChangeEvent) : Bool :=
  recordKeysOverlap (fun key => vectorCollectionFromRecordKey key == some collection) event

/-- `text_collection_watch_overlaps`. -/
def textCollectionWatchOverlaps (collection : String) (event : ChangeEvent) : Bool :=
  recordKeysOverlap (fun key => textCollectionFromRecordKey key == some collection) event

/-- Where a text search reads from; the query of a graph source does not enter the overlap. -/
inductive TextSearchSource where
  | collection (collection : String)
  | graphQuery (anchor : String) (segments : List String)
  | records (scan : RecordScan)

/-- `text_watch_change_overlaps`. -/
def textWatchChangeOverlaps : TextSearchSource → ChangeEvent → Bool
  | .collection collection, event => textCollectionWatchOverlaps collection event
  | .graphQuery anchor segments, event => watchChangeOverlaps (watchPathKey anchor segments) event
  | .records scan, event => recordWatchChangeOverlaps scan event

/-- What is watched. -/
inductive Watched where
  | path (place : String)
  | records (scan : RecordScan)
  | text (source : TextSearchSource)
  | vectors (collection : String)

/-- Whether an event overlaps what is watched. -/
def Watched.overlaps : Watched → ChangeEvent → Bool
  | .path place, event => watchChangeOverlaps place event
  | .records scan, event => recordWatchChangeOverlaps scan event
  | .text source, event => textWatchChangeOverlaps source event
  | .vectors collection, event => vectorWatchChangeOverlaps collection event

private theorem Watched.overlaps_cases (watched : Watched) :
    (∃ path, ∀ event, watched.overlaps event = watchChangeOverlaps path event) ∨
      ∃ selects, ∀ event, watched.overlaps event = recordKeysOverlap selects event := by
  cases watched with
  | path place => exact Or.inl ⟨place, fun _ => rfl⟩
  | records scan => exact Or.inr ⟨_, fun _ => rfl⟩
  | vectors collection => exact Or.inr ⟨_, fun _ => rfl⟩
  | text source =>
    cases source with
    | collection collection => exact Or.inr ⟨_, fun _ => rfl⟩
    | graphQuery anchor segments => exact Or.inl ⟨_, fun _ => rfl⟩
    | records scan => exact Or.inr ⟨_, fun _ => rfl⟩

/-- When record keys overlap with an event. -/
theorem recordKeysOverlap_iff {selects : String → Bool} {event : ChangeEvent} :
    recordKeysOverlap selects event = true ↔ event.impact.fullRefresh = true ∨
      event.impact.recordsChanged = true ∧ (event.impact.touchedRecordKeys = [] ∨
        ∃ key ∈ event.impact.touchedRecordKeys, selects key = true) := by
  cases hfull : event.impact.fullRefresh <;> cases hrecords : event.impact.recordsChanged <;>
    simp [recordKeysOverlap, hfull, hrecords]

private theorem watchChangeOverlaps_iff {path : String} {event : ChangeEvent} :
    watchChangeOverlaps path event = true ↔ event.impact.fullRefresh = true ∨
      ∃ changed ∈ event.impact.touchedPaths, pathOverlaps path changed = true := by
  simp [watchChangeOverlaps]

namespace ChangeEvent

/-- The union of two lists of texts, in order. -/
def mergeTexts (mine other : List String) : List String :=
  if other.isEmpty then mine
  else (other.foldl (fun merged text => merged.insert text)
    (mine.foldl (fun merged text => merged.insert text) (∅ : BTreeSet String))).toList

/-- `ChangeEvent::merge`. -/
def merge (event other : ChangeEvent) : ChangeEvent where
  revision := max event.revision other.revision
  pendingOps := other.pendingOps
  impact :=
    { dataChanged := event.impact.dataChanged || other.impact.dataChanged
      fullRefresh := event.impact.fullRefresh || other.impact.fullRefresh
      touchedPaths := mergeTexts event.impact.touchedPaths other.impact.touchedPaths
      recordsChanged := event.impact.recordsChanged || other.impact.recordsChanged
      touchedRecordKeys :=
        mergeTexts event.impact.touchedRecordKeys other.impact.touchedRecordKeys }

/-- The union contains what either list contains. -/
theorem mem_mergeTexts {mine other : List String} {text : String} :
    text ∈ mergeTexts mine other ↔ text ∈ mine ∨ text ∈ other := by
  unfold mergeTexts
  split
  · rename_i h
    rw [List.isEmpty_iff.mp h]
    simp
  · rw [Std.ExtTreeSet.mem_toList]
    refine (BTreeSet.mem_foldl_insert id other _ text).trans (or_congr ?_ (by simp))
    exact (BTreeSet.mem_foldl_insert id mine ∅ text).trans (by simp)

/-- A property that merging takes from either event holds of the merged queue when it holds of
one of its events. -/
theorem foldl_merge_iff {P : ChangeEvent → Prop}
    (hmerge : ∀ event other, P (merge event other) ↔ P event ∨ P other) (first : ChangeEvent)
    (rest : List ChangeEvent) : P (rest.foldl merge first) ↔ ∃ event ∈ first :: rest, P event := by
  induction rest generalizing first with
  | nil => simp
  | cons next rest ih => simp [ih, hmerge, or_assoc]

section Coalesced

variable (first : ChangeEvent) (rest : List ChangeEvent)

private theorem foldl_merge_fullRefresh : (rest.foldl merge first).impact.fullRefresh = true ↔
    ∃ event ∈ first :: rest, event.impact.fullRefresh = true :=
  foldl_merge_iff (P := fun event => event.impact.fullRefresh = true)
    (fun _ _ => Bool.or_eq_true_iff) first rest

private theorem foldl_merge_recordsChanged : (rest.foldl merge first).impact.recordsChanged = true ↔
    ∃ event ∈ first :: rest, event.impact.recordsChanged = true :=
  foldl_merge_iff (P := fun event => event.impact.recordsChanged = true)
    (fun _ _ => Bool.or_eq_true_iff) first rest

private theorem mem_foldl_merge_paths (path : String) :
    path ∈ (rest.foldl merge first).impact.touchedPaths ↔
      ∃ event ∈ first :: rest, path ∈ event.impact.touchedPaths :=
  foldl_merge_iff (P := fun event => path ∈ event.impact.touchedPaths)
    (fun _ _ => mem_mergeTexts) first rest

private theorem mem_foldl_merge_keys (key : String) :
    key ∈ (rest.foldl merge first).impact.touchedRecordKeys ↔
      ∃ event ∈ first :: rest, key ∈ event.impact.touchedRecordKeys :=
  foldl_merge_iff (P := fun event => key ∈ event.impact.touchedRecordKeys)
    (fun _ _ => mem_mergeTexts) first rest

end Coalesced

/-- Merging hides no watch: a full refresh is among the events, or no event changes records
without naming keys, or no event names a key. -/
def Coalescible (events : List ChangeEvent) : Prop :=
  (∃ event ∈ events, event.impact.fullRefresh = true) ∨
    (∀ event ∈ events, event.impact.recordsChanged = true → event.impact.touchedRecordKeys ≠ []) ∨
    ∀ event ∈ events, event.impact.touchedRecordKeys = []

variable {first : ChangeEvent} {rest : List ChangeEvent}

private theorem watchChangeOverlaps_foldl_merge {path : String} {event : ChangeEvent}
    (hmem : event ∈ first :: rest) (h : watchChangeOverlaps path event = true) :
    watchChangeOverlaps path (rest.foldl merge first) = true := by
  rw [watchChangeOverlaps_iff] at h ⊢
  rcases h with h | ⟨changed, hchanged, h⟩
  · exact Or.inl ((foldl_merge_fullRefresh first rest).mpr ⟨event, hmem, h⟩)
  · have hmerged := (mem_foldl_merge_paths first rest changed).mpr ⟨event, hmem, hchanged⟩
    exact Or.inr ⟨changed, hmerged, h⟩

private theorem recordKeysOverlap_foldl_merge (hcoalescible : Coalescible (first :: rest))
    {selects : String → Bool} {event : ChangeEvent} (hmem : event ∈ first :: rest)
    (h : recordKeysOverlap selects event = true) :
    recordKeysOverlap selects (rest.foldl merge first) = true := by
  rw [recordKeysOverlap_iff] at h ⊢
  rcases h with h | ⟨hrecords, h⟩
  · exact Or.inl ((foldl_merge_fullRefresh first rest).mpr ⟨event, hmem, h⟩)
  have hmerged := (foldl_merge_recordsChanged first rest).mpr ⟨event, hmem, hrecords⟩
  rcases hcoalescible with hfull | hkeys | hkeys
  · exact Or.inl ((foldl_merge_fullRefresh first rest).mpr hfull)
  · obtain ⟨key, hkey, hselects⟩ := h.resolve_left (hkeys event hmem hrecords)
    have hkey := (mem_foldl_merge_keys first rest key).mpr ⟨event, hmem, hkey⟩
    exact Or.inr ⟨hmerged, Or.inr ⟨key, hkey, hselects⟩⟩
  · refine Or.inr ⟨hmerged, Or.inl (List.eq_nil_iff_forall_not_mem.mpr fun key hkey => ?_)⟩
    obtain ⟨other, hother, hkey⟩ := (mem_foldl_merge_keys first rest key).mp hkey
    rw [hkeys other hother] at hkey
    cases hkey

/-- The scan of all keys with a common start. -/
def prefixScan (start : String) : RecordScan :=
  ⟨some start, none, none, none, none, false, none, none⟩

/-- Some scan selects none of finitely many keys. -/
theorem exists_prefixScan (keys : List String) :
    ∃ start, ∀ key ∈ keys, (prefixScan start).matchesKey key = false := by
  refine ⟨String.ofList (List.replicate ((keys.map String.length).sum + 1) 'a'), fun key hkey => ?_⟩
  have hlength : key.length ≤ (keys.map String.length).sum :=
    List.single_le_sum (fun _ _ => Nat.zero_le _) _ (List.mem_map_of_mem hkey)
  have hshort : startsWith key
      (String.ofList (List.replicate ((keys.map String.length).sum + 1) 'a')) = false := by
    rw [← Bool.not_eq_true, startsWith_iff]
    intro h
    have := h.length_le
    simp only [String.toList_ofList, List.length_replicate, String.length_toList] at this
    omega
  simp [prefixScan, RecordScan.matchesKey, hshort]

/-- Every watch that overlaps an event of a queue overlaps the merged event exactly when the
events are coalescible. -/
theorem overlaps_foldl_merge_iff (first : ChangeEvent) (rest : List ChangeEvent) :
    (∀ watched : Watched, ∀ event ∈ first :: rest, watched.overlaps event = true →
      watched.overlaps (rest.foldl merge first) = true) ↔ Coalescible (first :: rest) := by
  constructor
  · intro h
    by_contra hnot
    unfold Coalescible at hnot
    push Not at hnot
    obtain ⟨hfull, ⟨event, hmem, hrecords, hbroad⟩, other, hother, hnamed⟩ := hnot
    obtain ⟨key, hkey⟩ := List.exists_mem_of_ne_nil _ hnamed
    obtain ⟨start, hstart⟩ := exists_prefixScan (rest.foldl merge first).impact.touchedRecordKeys
    have hevent : (Watched.records (prefixScan start)).overlaps event = true :=
      recordKeysOverlap_iff.mpr (Or.inr ⟨hrecords, Or.inl hbroad⟩)
    rcases recordKeysOverlap_iff.mp (h _ event hmem hevent) with hrefresh | ⟨-, hnone | hselected⟩
    · obtain ⟨event, hmem, hrefresh⟩ := (foldl_merge_fullRefresh first rest).mp hrefresh
      exact hfull event hmem hrefresh
    · have hkey := (mem_foldl_merge_keys first rest key).mpr ⟨other, hother, hkey⟩
      rw [hnone] at hkey
      cases hkey
    · obtain ⟨key, hkey, hselects⟩ := hselected
      rw [hstart key hkey] at hselects
      cases hselects
  · intro hcoalescible watched event hmem h
    rcases watched.overlaps_cases with ⟨path, heq⟩ | ⟨selects, heq⟩
    · rw [heq] at h ⊢
      exact watchChangeOverlaps_foldl_merge hmem h
    · rw [heq] at h ⊢
      exact recordKeysOverlap_foldl_merge hcoalescible hmem h

/-- An event of changed records. -/
def recordsEvent (keys : List String) : ChangeEvent := ⟨1, 0, true, false, [], true, keys⟩

/-- Records changed without keys, and then one with a key: a scan of another key misses both. -/
theorem scan_lost_in_merge :
    recordWatchChangeOverlaps (prefixScan "a") (recordsEvent []) = true ∧
      recordWatchChangeOverlaps (prefixScan "a") ((recordsEvent []).merge (recordsEvent ["b"])) =
        false := by
  decide +kernel

end ChangeEvent

end Primadb

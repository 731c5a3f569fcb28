import Primadb.Core.Chunks
import Primadb.Engine.Transaction

/-!
# Where records are stored

The engine keeps every record in a file of its own, below directories named by
the digits of its key, a fixed number of digits each. A scan walks only the
directories its bounds leave; no key the scan matches lies outside of them.
-/

namespace Primadb

/-- Digits in the name of one directory. -/
def recordKeyChunkHex : ℕ := 64

/-- Digits of a key that name directories. -/
def recordKeyIndexHexLimit : ℕ := 512

/-- The directories named by the first digits of a text. -/
def recordDirectories (digits : List Char) : List String :=
  (digits.toChunks recordKeyChunkHex).map String.ofList

/-- The file of a record: below the directories of its key, and for a longer key below a
directory named by the digest of the key. -/
def recordEntryPath [Blake3] (entriesRoot : List String) (key : String) : List String :=
  let encoded := (encodeComponent key).toList
  let path :=
    if encoded.isEmpty then entriesRoot ++ ["_empty"]
    else
      entriesRoot ++ recordDirectories (encoded.take recordKeyIndexHexLimit) ++
        if recordKeyIndexHexLimit < encoded.length then ["_overflow", Blake3.hash key] else []
  path ++ ["entry.json"]

/-- The characters two texts start with. -/
def commonPrefix : List Char → List Char → List Char
  | left :: lefts, right :: rights =>
    if left ≠ right then [] else left :: commonPrefix lefts rights
  | [], _ | _, [] => []

/-- `common_string_prefix`. -/
def commonStringPrefix (left right : String) : String :=
  String.ofList (commonPrefix left.toList right.toList)

/-- The lower bound of a scan. -/
def RecordScan.lower (scan : RecordScan) : Option String :=
  if scan.reverse then scan.startAt.or scan.startAfter
  else (scan.cursor.or scan.startAt).or scan.startAfter

/-- The upper bound of a scan. -/
def RecordScan.upper (scan : RecordScan) : Option String :=
  if scan.reverse then (scan.cursor.or scan.endAt).or scan.endBefore
  else scan.endAt.or scan.endBefore

/-- What every key of a scan starts with, when the scan says so. -/
def recordScanKeyPrefix (scan : RecordScan) : Option String :=
  match scan.keyPrefix with
  | some start => some start
  | none => do
    let common := commonStringPrefix (← scan.lower) (← scan.upper)
    if common.isEmpty then none else some common

/-- The directory a scan starts from and how the directories below it have to start. -/
def recordScanRoot (entriesRoot : List String) (scan : RecordScan) :
    List String × Option String :=
  match recordScanKeyPrefix scan with
  | none => (entriesRoot, none)
  | some start =>
    let encoded := (encodeComponent start).toList
    if encoded.isEmpty then (entriesRoot, none)
    else
      let indexed := encoded.take recordKeyIndexHexLimit
      let fullChunksLen := indexed.length / recordKeyChunkHex * recordKeyChunkHex
      (entriesRoot ++ recordDirectories (indexed.take fullChunksLen),
        if fullChunksLen < indexed.length then some (String.ofList (indexed.drop fullChunksLen))
        else none)

/-- A path lies in the part of the directory tree a scan walks. -/
def InSubtree (selected : List String × Option String) (path : List String) : Prop :=
  ∃ name rest, path = selected.1 ++ name :: rest ∧
    ∀ start, selected.2 = some start → startsWith name start = true

/-! ## A list that starts like another is cut like it -/

section

variable {α : Type}

/-- Full chunks at the start of a list are its first chunks, and what follows them, being shorter
than a chunk, begins the next one. -/
theorem toChunks_of_starts {n k : ℕ} (hn : n ≠ 0) {full part whole : List α}
    (hfull : full.length = k * n) (hpart : part.length < n) (h : full ++ part <+: whole) :
    ∃ rest, whole.toChunks n = full.toChunks n ++ rest ∧
      (part ≠ [] → ∃ name names, rest = name :: names ∧ part <+: name) := by
  induction k generalizing full whole with
  | zero =>
    obtain rfl := List.length_eq_zero_iff.mp (hfull.trans (Nat.zero_mul n))
    refine ⟨whole.toChunks n, by rw [List.toChunks, List.nil_append], fun hne => ?_⟩
    rw [List.nil_append] at h
    by_cases hwhole : whole.length ≤ n
    · refine ⟨whole, [], toChunks_of_length_le ?_ hwhole, h⟩
      rintro rfl
      exact hne (List.prefix_nil.mp h)
    · refine ⟨whole.take n, (whole.drop n).toChunks n, ?_, List.prefix_take_iff.mpr ⟨h, hpart.le⟩⟩
      have hlength : (whole.take n).length = n := List.length_take_of_le (by omega)
      have hcut := toChunks_append hn hlength (whole.drop n)
      rwa [List.take_append_drop] at hcut
  | succ k ih =>
    obtain ⟨tail, rfl⟩ := h
    have hlength : (full.take n).length = n := List.length_take_of_le (by rw [hfull]; nlinarith)
    have hfull' : (full.drop n).length = k * n := by
      rw [List.length_drop, hfull, Nat.succ_mul, Nat.add_sub_cancel]
    obtain ⟨rest, hrest, hnext⟩ := ih hfull' (List.prefix_append (full.drop n ++ part) tail)
    refine ⟨rest, ?_, hnext⟩
    have hcut := toChunks_append hn hlength (full.drop n ++ part ++ tail)
    rw [← List.append_assoc, ← List.append_assoc, List.take_append_drop, hrest] at hcut
    have hfirst := toChunks_append hn hlength (full.drop n)
    rw [List.take_append_drop] at hfirst
    rw [hcut, hfirst, List.cons_append]

end

/-! ## What the bounds of a scan have in common -/

/-- A text between two others starts with what they have in common. -/
theorem starts_of_commonPrefix {lower upper key : List Char} (hlower : ¬key < lower)
    (hupper : ¬upper < key) : commonPrefix lower upper <+: key := by
  induction lower, upper using commonPrefix.induct generalizing key with
  | case1 left lefts right rights hne =>
    rw [commonPrefix, if_pos hne]
    exact List.nil_prefix
  | case2 left lefts right rights heq ih =>
    obtain rfl := not_not.mp heq
    rw [commonPrefix, if_neg heq]
    cases key with
    | nil => exact absurd (List.nil_lt_cons _ _) hlower
    | cons c key =>
      rw [List.cons_lt_cons_iff, not_or, not_and] at hlower hupper
      obtain rfl : c = left := le_antisymm (not_lt.mp hupper.1) (not_lt.mp hlower.1)
      exact List.cons_prefix_cons.mpr ⟨rfl, ih (hlower.2 rfl) (hupper.2 rfl)⟩
  | case3 | case4 =>
    simp [commonPrefix]

section

variable {scan : RecordScan} {key bound : String}

private theorem lower_le (hmatch : scan.matchesKey key = true) (h : scan.lower = some bound) :
    bound ≤ key := by
  simp only [RecordScan.matchesKey, Bool.and_eq_true, Option.all_eq_true,
    decide_eq_true_eq] at hmatch
  obtain ⟨⟨⟨⟨⟨-, hcursor⟩, hstartAt⟩, hstartAfter⟩, -⟩, -⟩ := hmatch
  cases hreverse : scan.reverse <;>
    simp only [RecordScan.lower, hreverse, if_true, Bool.false_eq_true, if_false,
      Option.or_eq_some_iff] at h hcursor
  · rcases h with (h | ⟨-, h⟩) | ⟨-, h⟩
    · exact (of_decide_eq_true (hcursor _ h)).le
    · exact hstartAt _ h
    · exact (hstartAfter _ h).le
  · rcases h with h | ⟨-, h⟩
    · exact hstartAt _ h
    · exact (hstartAfter _ h).le

private theorem le_upper (hmatch : scan.matchesKey key = true) (h : scan.upper = some bound) :
    key ≤ bound := by
  simp only [RecordScan.matchesKey, Bool.and_eq_true, Option.all_eq_true,
    decide_eq_true_eq] at hmatch
  obtain ⟨⟨⟨⟨⟨-, hcursor⟩, -⟩, -⟩, hendAt⟩, hendBefore⟩ := hmatch
  cases hreverse : scan.reverse <;>
    simp only [RecordScan.upper, hreverse, if_true, Bool.false_eq_true, if_false,
      Option.or_eq_some_iff] at h hcursor
  · rcases h with h | ⟨-, h⟩
    · exact hendAt _ h
    · exact (hendBefore _ h).le
  · rcases h with (h | ⟨-, h⟩) | ⟨-, h⟩
    · exact (of_decide_eq_true (hcursor _ h)).le
    · exact hendAt _ h
    · exact (hendBefore _ h).le

private theorem starts_of_recordScanKeyPrefix (hmatch : scan.matchesKey key = true)
    (h : recordScanKeyPrefix scan = some bound) : bound.toList <+: key.toList := by
  rw [recordScanKeyPrefix] at h
  cases hstarts : scan.keyPrefix with
  | some given =>
    obtain rfl : given = bound := by simpa [hstarts] using h
    simp only [RecordScan.matchesKey, hstarts, Option.all_some, Bool.and_eq_true] at hmatch
    exact startsWith_iff.mp hmatch.1.1.1.1.1
  | none =>
    simp only [hstarts, Option.bind_eq_bind, Option.bind_eq_some_iff] at h
    obtain ⟨lower, hlower, upper, hupper, h⟩ := h
    split at h
    · exact absurd h (by simp)
    · cases h
      rw [commonStringPrefix, String.toList_ofList]
      refine starts_of_commonPrefix ?_ ?_ <;> rw [← String.lt_iff_toList_lt]
      · exact not_lt.mpr (lower_le hmatch hlower)
      · exact not_lt.mpr (le_upper hmatch hupper)

end

/-- Below the directories of a key that is not empty something follows. -/
theorem recordEntryPath_of_ne_nil [Blake3] (entriesRoot : List String) {key : String}
    (hne : (encodeComponent key).toList ≠ []) :
    ∃ tail, tail ≠ [] ∧ recordEntryPath entriesRoot key = entriesRoot ++
      (recordDirectories ((encodeComponent key).toList.take recordKeyIndexHexLimit) ++ tail) := by
  rw [recordEntryPath, List.isEmpty_eq_false_iff.mpr hne]
  refine ⟨(if recordKeyIndexHexLimit < (encodeComponent key).toList.length
    then ["_overflow", Blake3.hash key] else []) ++ ["entry.json"], by simp, ?_⟩
  simp only [Bool.false_eq_true, if_false, List.append_assoc]

/-- A path below a directory lies in the whole tree of the directory. -/
theorem inSubtree_none {root below : List String} (hne : below ≠ []) :
    InSubtree (root, none) (root ++ below) := by
  obtain ⟨name, rest, rfl⟩ := List.exists_cons_of_ne_nil hne
  exact ⟨name, rest, rfl, fun start h => nomatch h⟩

/-- No key a scan matches is stored outside the directories the scan walks. -/
theorem scan_walks_matches [Blake3] (entriesRoot : List String) {scan : RecordScan} {key : String}
    (hmatch : scan.matchesKey key = true) :
    InSubtree (recordScanRoot entriesRoot scan) (recordEntryPath entriesRoot key) := by
  have hwhole : InSubtree (entriesRoot, none) (recordEntryPath entriesRoot key) := by
    by_cases hne : (encodeComponent key).toList = []
    · rw [recordEntryPath, hne, List.isEmpty_nil, if_pos rfl, List.append_assoc]
      exact inSubtree_none (by simp)
    · obtain ⟨tail, htail, hpath⟩ := recordEntryPath_of_ne_nil entriesRoot hne
      rw [hpath]
      exact inSubtree_none (by simp [htail])
  rw [recordScanRoot]
  cases hstart : recordScanKeyPrefix scan with
  | none => exact hwhole
  | some start =>
    dsimp only
    by_cases hempty : (encodeComponent start).toList = []
    · rw [hempty, List.isEmpty_nil, if_pos rfl]
      exact hwhole
    rw [List.isEmpty_eq_false_iff.mpr hempty, if_neg Bool.false_ne_true]
    have hencoded : (encodeComponent start).toList <+: (encodeComponent key).toList := by
      rw [encodeComponent, encodeComponent, String.toList_ofList, String.toList_ofList]
      exact ((starts_of_recordScanKeyPrefix hmatch hstart).flatMap _).flatMap _
    have hne : (encodeComponent key).toList ≠ [] := fun h =>
      hempty (List.prefix_nil.mp (h ▸ hencoded))
    obtain ⟨tail, htail, hpath⟩ := recordEntryPath_of_ne_nil entriesRoot hne
    -- The directories of the key start with the full ones of the prefix.
    generalize hindexed : (encodeComponent start).toList.take recordKeyIndexHexLimit = indexed
    have hstarts := hencoded.take recordKeyIndexHexLimit
    rw [hindexed] at hstarts
    have hlength := Nat.div_add_mod' indexed.length recordKeyChunkHex
    have hmod := Nat.mod_lt indexed.length (show 0 < recordKeyChunkHex by decide)
    generalize hcut : indexed.length / recordKeyChunkHex * recordKeyChunkHex = cut at hlength ⊢
    rw [← List.take_append_drop cut indexed] at hstarts
    have hfull : (indexed.take cut).length =
        indexed.length / recordKeyChunkHex * recordKeyChunkHex := by
      rw [hcut, List.length_take_of_le (by omega)]
    have hshort : (indexed.drop cut).length < recordKeyChunkHex := by
      rw [List.length_drop]
      omega
    obtain ⟨rest, hchunks, hnext⟩ := toChunks_of_starts (by decide) hfull hshort hstarts
    rw [hpath, recordDirectories, recordDirectories, hchunks, List.map_append, List.append_assoc,
      ← List.append_assoc]
    by_cases hpart : cut < indexed.length
    · obtain ⟨name, names, rfl, hname⟩ := hnext (by rw [ne_eq, List.drop_eq_nil_iff]; omega)
      refine ⟨String.ofList name, names.map String.ofList ++ tail, rfl, fun partialName h => ?_⟩
      rw [if_pos hpart, Option.some.injEq] at h
      rw [← h, startsWith_iff, String.toList_ofList, String.toList_ofList]
      exact hname
    · rw [if_neg hpart]
      exact inSubtree_none (by simp [htail])

/-- A scan from `user/a` to `user/b` walks only the directories of keys that start with
`user/`. -/
theorem scan_walks_matches_users :
    let scan : RecordScan := ⟨none, some "user/a", none, some "user/b", none, false, none, none⟩
    letI := plainHash
    recordScanRoot [] scan = ([], some "757365722f") ∧
      InSubtree (recordScanRoot [] scan) (recordEntryPath [] "user/ann") :=
  ⟨by decide +kernel, @scan_walks_matches plainHash [] _ "user/ann" (by decide +kernel)⟩

end Primadb

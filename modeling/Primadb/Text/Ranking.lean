import Mathlib.Data.Prod.Lex
import Mathlib.Data.String.Basic
import Primadb.Core.Collections
import Primadb.Core.Greatest

/-!
# Bounded ranking of text matches

A search that asks for a page keeps only as many documents as the page can reach, in a bounded
heap, before it sorts and cuts. Scores are of any linearly ordered type.
-/

namespace Primadb

/-- An entry of the heap. -/
structure DenseWorstScore (α : Type) where
  /-- The document. -/
  index : ℕ
  score : α

namespace DenseWorstScore

variable {α : Type}

/-- Higher scores first, then lower indices. -/
def key (entry : DenseWorstScore α) : α ×ₗ ℕᵒᵈ := toLex (entry.score, OrderDual.toDual entry.index)

private theorem key_injective : Function.Injective (key (α := α)) := by
  rintro ⟨index, score⟩ ⟨index', score'⟩ h
  obtain ⟨rfl, rfl⟩ := Prod.mk.inj (toLex.injective h)
  rfl

/-- The reverse of `Ord for DenseWorstScore`: what the heap shows first is the least here. -/
instance [LinearOrder α] : LinearOrder (DenseWorstScore α) := LinearOrder.lift' key key_injective

private theorem lt_iff [LinearOrder α] {left right : DenseWorstScore α} :
    left < right ↔
      left.score < right.score ∨ left.score = right.score ∧ right.index < left.index :=
  Prod.Lex.toLex_lt_toLex

end DenseWorstScore

/-- A document to search: its id and what a match shows of it. -/
structure TextMatchDocument (χ : Type) where
  id : String
  /-- Fields and metadata. -/
  contents : χ

/-- A match. -/
structure TextSearchMatch (α κ : Type) where
  /-- The document. -/
  id : String
  score : α
  /-- Field hits, and what else the search includes. -/
  detail : κ
  deriving DecidableEq

/-- Where a page starts and how long it is. -/
structure TextPage where
  offset : Option ℕ
  limit : Option ℕ

/-- `usize::MAX`. -/
def usizeMax : ℕ := 2 ^ 64 - 1

variable {α η χ κ : Type} [LinearOrder α] [Zero α]

/-- `select_top_score_indices`; a heap is the set of its entries, which are all different. -/
def selectTopScoreIndices (scores : BTreeMap ℕ (α × η)) (maxMatches : ℕ) : Finset ℕ :=
  if maxMatches = usizeMax then scores.keys.toFinset
  else
    (scores.toList.foldl (fun heap row =>
      if row.2.1 ≤ 0 then heap else keepGreatest maxMatches heap ⟨row.1, row.2.1⟩)
      (∅ : Finset (DenseWorstScore α))).image (·.index)

/-- The order of matches: descending scores, then ascending ids. -/
def matchLe (left right : TextSearchMatch α κ) : Bool :=
  right.score < left.score ∨ right.score = left.score ∧ left.id ≤ right.id

/-- The match of a scored document. -/
def matchOf (render : χ → η → κ) (row : ℕ × α × η) (document : TextMatchDocument χ) :
    TextSearchMatch α κ :=
  ⟨document.id, row.2.1, render document.contents row.2.2⟩

/-- `build_top_matches_dense`. -/
def buildTopMatchesDense (scores : BTreeMap ℕ (α × η))
    (documents : BTreeMap ℕ (TextMatchDocument χ)) (page : TextPage) (render : χ → η → κ) :
    List (TextSearchMatch α κ) :=
  let maxMatches := (page.limit.map (saturatingAdd (page.offset.getD 0))).getD usizeMax
  let selected := selectTopScoreIndices scores maxMatches
  (scores.toList.filterMap fun row =>
    if row.1 ∉ selected ∨ row.2.1 ≤ 0 then none
    else documents[row.1]?.map (matchOf render row)).mergeSort matchLe

/-- `paginate_matches`. -/
def paginateMatches {β : Type} (ranked : List β) (page : TextPage) : List β :=
  let offset := page.offset.getD 0
  let rest :=
    if offset > 0 then (if offset ≥ ranked.length then [] else ranked.drop offset) else ranked
  rest.take (page.limit.getD usizeMax)

/-- All documents with a positive score, ranked. -/
def fullRanking (scores : BTreeMap ℕ (α × η)) (documents : BTreeMap ℕ (TextMatchDocument χ))
    (render : χ → η → κ) : List (TextSearchMatch α κ) :=
  (scores.toList.filterMap fun row =>
    if row.2.1 ≤ 0 then none else documents[row.1]?.map (matchOf render row)).mergeSort matchLe

private theorem paginateMatches_eq {β : Type} (ranked : List β) (page : TextPage) :
    paginateMatches ranked page =
      (ranked.drop (page.offset.getD 0)).take (page.limit.getD usizeMax) := by
  rw [paginateMatches]
  congr 1
  split
  · split
    · rename_i hlong
      exact (List.drop_eq_nil_of_le hlong).symm
    · rfl
  · rename_i hzero
    rw [Nat.eq_zero_of_not_pos hzero, List.drop_zero]

/-- The heap's entry of a scored document. -/
def entryOf (row : ℕ × α × η) : DenseWorstScore α := ⟨row.1, row.2.1⟩

private theorem foldl_keepGreatest {n : ℕ} (hn : 0 < n) {rows : List (ℕ × α × η)}
    {seen : Finset (DenseWorstScore α)} (hrows : rows.Pairwise (·.1 ≠ ·.1))
    (hseen : ∀ row ∈ rows, entryOf row ∉ seen) :
    rows.foldl (fun heap row =>
        if row.2.1 ≤ 0 then heap else keepGreatest n heap ⟨row.1, row.2.1⟩) (greatest n seen) =
      greatest n (seen ∪ ((rows.filter (0 < ·.2.1)).map entryOf).toFinset) := by
  induction rows generalizing seen with
  | nil => rw [List.filter_nil, List.map_nil, List.toFinset_nil, Finset.union_empty]; rfl
  | cons row rows ih =>
    obtain ⟨hfirst, hrest⟩ := List.pairwise_cons.mp hrows
    rw [List.foldl_cons]
    split
    · rename_i hzero
      rw [ih hrest fun other hother => hseen other (List.mem_cons_of_mem _ hother),
        List.filter_cons_of_neg (by simpa using hzero)]
    · rename_i hpos
      have hnew : entryOf row ∉ greatest n seen := fun h =>
        hseen row List.mem_cons_self (mem_greatest.mp h).1
      rw [show (⟨row.1, row.2.1⟩ : DenseWorstScore α) = entryOf row from rfl,
        keepGreatest_eq hn card_greatest_le hnew, greatest_insert_greatest, ih hrest,
        List.filter_cons_of_pos (by simpa using hpos), List.map_cons, List.toFinset_cons,
        Finset.insert_union, Finset.union_insert]
      intro other hother h
      rcases Finset.mem_insert.mp h with heq | h
      · exact hfirst other hother (congrArg DenseWorstScore.index heq).symm
      · exact hseen other (List.mem_cons_of_mem _ hother) h

section Selection

variable {scores : BTreeMap ℕ (α × η)} {documents : BTreeMap ℕ (TextMatchDocument χ)}

/-- The scored documents with what is known of them. -/
def scoredDocuments (scores : BTreeMap ℕ (α × η)) (documents : BTreeMap ℕ (TextMatchDocument χ)) :
    List ((ℕ × α × η) × TextMatchDocument χ) :=
  scores.toList.filterMap fun row => documents[row.1]?.map (row, ·)

omit [LinearOrder α] [Zero α] in
private theorem filterMap_matchOf (render : χ → η → κ) (skip : ℕ × α × η → Prop)
    [DecidablePred skip] :
    (scores.toList.filterMap fun row =>
        if skip row then none else documents[row.1]?.map (matchOf render row)) =
      ((scoredDocuments scores documents).filter (¬skip ·.1)).map fun scored =>
        matchOf render scored.1 scored.2 := by
  rw [scoredDocuments]
  induction scores.toList with
  | nil => rfl
  | cons row rows ih =>
    rw [List.filterMap_cons, List.filterMap_cons]
    cases documents[row.1]? with
    | none => simp [ih]
    | some document =>
      by_cases hskip : skip row
      · simp [hskip, ih]
      · simp [hskip, ih]

omit [LinearOrder α] [Zero α] in
private theorem map_fst_scoredDocuments (hdocuments : ∀ index ∈ scores, index ∈ documents) :
    (scoredDocuments scores documents).map (·.1) = scores.toList := by
  have hrows : ∀ row ∈ scores.toList, (documents[row.1]?).isSome = true := by
    intro row hrow
    exact Std.ExtTreeMap.mem_iff_isSome_getElem?.mp (hdocuments row.1
      (Std.ExtTreeMap.mem_iff_isSome_getElem?.mpr
        (by rw [Std.ExtTreeMap.mem_toList_iff_getElem?_eq_some.mp hrow]; rfl)))
  rw [scoredDocuments]
  generalize scores.toList = rows at hrows ⊢
  induction rows with
  | nil => rfl
  | cons row rows ih =>
    obtain ⟨document, hdocument⟩ := Option.isSome_iff_exists.mp (hrows row List.mem_cons_self)
    rw [List.filterMap_cons, hdocument, Option.map_some, List.map_cons,
      ih fun other hother => hrows other (List.mem_cons_of_mem _ hother)]

/-- The heap's order on scored documents. -/
def entryGe (left right : (ℕ × α × η) × TextMatchDocument χ) : Bool :=
  entryOf right.1 ≤ entryOf left.1

omit [Zero α] in
/-- Sorting by scores and ids is sorting by entries. -/
theorem matchLe_matchOf
    (hids : ∀ (i j : ℕ) (left right : TextMatchDocument χ), documents[i]? = some left →
      documents[j]? = some right → i < j → left.id < right.id) (render : χ → η → κ)
    {left right : (ℕ × α × η) × TextMatchDocument χ}
    (hleft : left ∈ scoredDocuments scores documents)
    (hright : right ∈ scoredDocuments scores documents) :
    entryGe left right =
      matchLe (matchOf render left.1 left.2) (matchOf render right.1 right.2) := by
  have hdocument : ∀ scored ∈ scoredDocuments scores documents,
      documents[scored.1.1]? = some scored.2 := by
    intro scored hscored
    obtain ⟨row, -, hrow⟩ := List.mem_filterMap.mp hscored
    obtain ⟨document, hdocument, rfl⟩ := Option.map_eq_some_iff.mp hrow
    exact hdocument
  have hl := hdocument left hleft
  have hr := hdocument right hright
  rw [entryGe, matchLe, decide_eq_decide, ← not_lt, DenseWorstScore.lt_iff]
  dsimp only [entryOf, matchOf]
  rcases lt_trichotomy left.1.2.1 right.1.2.1 with hlt | heq | hgt
  · simp [hlt, hlt.ne', not_lt.mpr hlt.le]
  · rcases lt_trichotomy left.1.1 right.1.1 with hindex | hindex | hindex
    · simp [heq, hindex.le, (hids _ _ _ _ hl hr hindex).le]
    · rw [hindex] at hl
      simp [heq, hindex, Option.some.inj (hl.symm.trans hr)]
    · simp [heq, hindex, not_le.mpr (hids _ _ _ _ hr hl hindex)]
  · simp [hgt, not_lt.mpr hgt.le, hgt.ne']

omit [Zero α] in
/-- Sorted by entries, the scored documents strictly descend. -/
theorem pairwise_mergeSort_entryGe (hdocuments : ∀ index ∈ scores, index ∈ documents)
    (keep : (ℕ × α × η) × TextMatchDocument χ → Bool) :
    ((((scoredDocuments scores documents).filter keep).mergeSort entryGe).map
      (entryOf ·.1)).Pairwise (· > ·) := by
  have hdistinct : (((scoredDocuments scores documents).filter keep).mergeSort entryGe).Pairwise
      fun left right => left.1.1 ≠ right.1.1 := by
    refine List.Perm.pairwise (List.mergeSort_perm _ _).symm ?_ fun h => Ne.symm h
    refine List.Pairwise.sublist List.filter_sublist ?_
    rw [← List.pairwise_map (f := fun scored : (ℕ × α × η) × TextMatchDocument χ => scored.1)
      (R := fun left right => left.1 ≠ right.1), map_fst_scoredDocuments hdocuments]
    exact Std.ExtTreeMap.distinct_keys_toList.imp fun h heq => h (Std.compare_eq_iff_eq.mpr heq)
  rw [List.pairwise_map]
  refine ((List.pairwise_mergeSort (fun a b c hab hbc => ?_) (fun a b => ?_) _).and
    hdistinct).imp fun ⟨hge, hne⟩ => ?_
  · exact decide_eq_true ((of_decide_eq_true hbc).trans (of_decide_eq_true hab))
  · simpa [entryGe] using le_total (entryOf b.1) (entryOf a.1)
  · exact lt_of_le_of_ne (of_decide_eq_true hge) fun heq =>
      hne (congrArg DenseWorstScore.index heq).symm

omit [Zero α] in
private theorem mergeSort_filter_entryGe (hdocuments : ∀ index ∈ scores, index ∈ documents)
    (keep more : (ℕ × α × η) × TextMatchDocument χ → Bool) :
    (((scoredDocuments scores documents).filter keep).filter more).mergeSort entryGe =
      (((scoredDocuments scores documents).filter keep).mergeSort entryGe).filter more := by
  have hstrict := List.pairwise_map.mp (pairwise_mergeSort_entryGe hdocuments keep)
  have hstrict' := List.pairwise_map.mp
    (pairwise_mergeSort_entryGe hdocuments fun scored => more scored && keep scored)
  rw [List.filter_filter]
  refine List.Perm.eq_of_pairwise (fun a b _ _ hab hba => absurd hab (not_lt.mpr hba.le))
    hstrict' (hstrict.sublist List.filter_sublist) ?_
  refine (List.mergeSort_perm _ _).trans ?_
  rw [← List.filter_filter]
  exact ((List.mergeSort_perm _ _).filter _).symm

/-- Selecting with the bounded heap, sorting and cutting gives the page of the full ranking. -/
theorem paginate_buildTopMatchesDense {page : TextPage}
    (hdocuments : ∀ index ∈ scores, index ∈ documents)
    (hids : ∀ (i j : ℕ) (left right : TextMatchDocument χ), documents[i]? = some left →
      documents[j]? = some right → i < j → left.id < right.id)
    (hlimit : ∀ limit, page.limit = some limit → 1 ≤ limit) (render : χ → η → κ) :
    paginateMatches (buildTopMatchesDense scores documents page render) page =
      ((fullRanking scores documents render).drop (page.offset.getD 0)).take
        (page.limit.getD usizeMax) := by
  let positive := (scoredDocuments scores documents).filter (¬·.1.2.1 ≤ 0)
  have hsub : ∀ scored ∈ positive, scored ∈ scoredDocuments scores documents :=
    fun scored h => List.mem_of_mem_filter h
  have hsort : ∀ more : (ℕ × α × η) × TextMatchDocument χ → Bool,
      ((positive.filter more).map fun scored => matchOf render scored.1 scored.2).mergeSort
          matchLe =
        ((positive.mergeSort entryGe).filter more).map fun scored =>
          matchOf render scored.1 scored.2 := by
    intro more
    rw [← mergeSort_filter_entryGe hdocuments, List.map_mergeSort]
    intro a ha b hb
    exact matchLe_matchOf hids render (hsub a (List.mem_of_mem_filter ha))
      (hsub b (List.mem_of_mem_filter hb))
  have hfull : fullRanking scores documents render =
      (positive.mergeSort entryGe).map fun scored => matchOf render scored.1 scored.2 := by
    rw [fullRanking, filterMap_matchOf render (·.2.1 ≤ 0)]
    have hall := hsort fun _ => true
    rwa [List.filter_true, List.filter_true] at hall
  rw [paginateMatches_eq, hfull, buildTopMatchesDense]
  generalize hn : (page.limit.map (saturatingAdd (page.offset.getD 0))).getD usizeMax = n
  have hselected : (scoredDocuments scores documents).filter (fun scored =>
      ¬(scored.1.1 ∉ selectTopScoreIndices scores n ∨ scored.1.2.1 ≤ 0)) =
        positive.filter fun scored => scored.1.1 ∈ selectTopScoreIndices scores n := by
    rw [List.filter_filter]
    exact List.filter_congr fun scored _ => by simp
  rw [filterMap_matchOf render fun row =>
    row.1 ∉ selectTopScoreIndices scores n ∨ row.2.1 ≤ 0, hselected, hsort]
  have hrowOf : ∀ scored ∈ positive.mergeSort entryGe, scored.1 ∈ scores.toList := by
    intro scored hscored
    rw [← map_fst_scoredDocuments hdocuments]
    exact List.mem_map_of_mem (hsub scored ((List.mergeSort_perm _ _).mem_iff.mp hscored))
  by_cases hall : n = usizeMax
  · -- nothing is left out
    rw [List.filter_eq_self.mpr]
    intro scored hscored
    have hrow := hrowOf scored hscored
    rw [decide_eq_true_eq, selectTopScoreIndices, if_pos hall, List.mem_toFinset,
      Std.ExtTreeMap.mem_keys, Std.ExtTreeMap.mem_iff_isSome_getElem?,
      Std.ExtTreeMap.mem_toList_iff_getElem?_eq_some.mp hrow]
    rfl
  · obtain ⟨limit, hlimited⟩ : ∃ limit, page.limit = some limit := by
      cases hnone : page.limit with
      | none =>
        rw [hnone] at hn
        exact absurd hn.symm hall
      | some limit => exact ⟨limit, rfl⟩
    have hpos := hlimit limit hlimited
    rw [hlimited, Option.map_some, Option.getD_some, saturatingAdd] at hn
    have hsum : n = page.offset.getD 0 + limit := by
      rw [usizeMax] at hall
      omega
    have hrows : scores.toList.Pairwise fun left right => left.1 ≠ right.1 :=
      Std.ExtTreeMap.distinct_keys_toList.imp fun h heq => h (Std.compare_eq_iff_eq.mpr heq)
    have hunseen : ∀ row ∈ scores.toList, entryOf row ∉ (∅ : Finset (DenseWorstScore α)) :=
      fun row _ => Finset.notMem_empty _
    have hheap := foldl_keepGreatest (n := n) (by omega) hrows hunseen
    have hentries : ((scores.toList.filter (0 < ·.2.1)).map entryOf).toFinset =
        ((positive.mergeSort entryGe).map (entryOf ·.1)).toFinset := by
      ext entry
      rw [← map_fst_scoredDocuments hdocuments, List.filter_map, List.map_map, List.mem_toFinset,
        List.mem_toFinset, ((List.mergeSort_perm positive entryGe).map _).mem_iff]
      simp [positive, Function.comp_def]
    have htop : (positive.mergeSort entryGe).filter (fun scored =>
        scored.1.1 ∈ selectTopScoreIndices scores n) = (positive.mergeSort entryGe).take n := by
      rw [← filter_greatest_eq_take (f := fun scored : (ℕ × α × η) × TextMatchDocument χ =>
        entryOf scored.1) (pairwise_mergeSort_entryGe hdocuments _) n, ← hentries]
      refine List.filter_congr fun scored hscored => decide_eq_decide.mpr ?_
      have hrow := hrowOf scored hscored
      rw [selectTopScoreIndices, if_neg hall, Finset.mem_image]
      rw [show greatest n (∅ : Finset (DenseWorstScore α)) = ∅ from rfl,
        Finset.empty_union] at hheap
      rw [hheap]
      constructor
      · rintro ⟨entry, hentry, hindex⟩
        obtain ⟨row, hmem, rfl⟩ :=
          List.mem_map.mp (List.mem_toFinset.mp (mem_greatest.mp hentry).1)
        have hsame := Std.ExtTreeMap.mem_toList_iff_getElem?_eq_some.mp
          (List.mem_of_mem_filter hmem)
        rw [show row.1 = scored.1.1 from hindex,
          Std.ExtTreeMap.mem_toList_iff_getElem?_eq_some.mp hrow] at hsame
        rwa [show scored.1 = row from Prod.ext hindex.symm (Option.some.inj hsame)]
      · exact fun h => ⟨entryOf scored.1, h, rfl⟩
    rw [htop, hlimited, Option.getD_some, hsum, List.map_take, List.drop_take, List.take_take]
    congr 1
    omega

end Selection

/-- Two documents that share a score. -/
def sampleScores : BTreeMap ℕ (ℕ × Unit) :=
  ((∅ : BTreeMap ℕ (ℕ × Unit)).insert 0 (2, ())).insert 1 (2, ())

/-- What is known of them. -/
def sampleDocuments : BTreeMap ℕ (TextMatchDocument Unit) :=
  ((∅ : BTreeMap ℕ (TextMatchDocument Unit)).insert 0 ⟨"a", ()⟩).insert 1 ⟨"b", ()⟩

/-- The second page of one match. -/
theorem paginate_sampleScores :
    paginateMatches (buildTopMatchesDense sampleScores sampleDocuments ⟨some 1, some 1⟩
      fun _ _ => ()) ⟨some 1, some 1⟩ =
        ((fullRanking sampleScores sampleDocuments fun _ _ => ()).drop 1).take 1 := by
  refine paginate_buildTopMatchesDense (fun index hindex => ?_) (fun i j left right hi hj hlt => ?_)
    (fun limit h => ?_) _
  · simpa only [sampleScores, sampleDocuments, Std.ExtTreeMap.mem_insert,
      Std.ExtTreeMap.not_mem_empty] using hindex
  · obtain ⟨rfl, rfl⟩ : i = 0 ∧ j = 1 := by
      simp only [sampleDocuments, BTreeMap.get_insert, Std.ExtTreeMap.getElem?_empty] at hi hj
      grind
    simp only [sampleDocuments, BTreeMap.get_insert] at hi hj
    cases hi
    cases hj
    decide
  · cases h
    exact le_rfl

end Primadb

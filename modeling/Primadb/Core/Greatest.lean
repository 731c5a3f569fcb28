import Mathlib.Data.Finset.Max

/-!
# The greatest elements of a growing set

A bounded memory that throws out its smallest element whenever it is too large keeps the greatest
elements of everything it was given, whatever the order they came in.
-/

namespace Primadb

variable {α : Type*} [LinearOrder α] {n : ℕ} {S : Finset α} {a j k : α}

/-- The elements above one. -/
def above (S : Finset α) (k : α) : Finset α := {j ∈ S | k < j}

/-- The greatest elements of a set, as many as given. -/
def greatest (n : ℕ) (S : Finset α) : Finset α := {k ∈ S | (above S k).card < n}

private theorem mem_above : j ∈ above S k ↔ j ∈ S ∧ k < j := Finset.mem_filter

/-- The elements with fewer than `n` above them. -/
theorem mem_greatest : k ∈ greatest n S ↔ k ∈ S ∧ (above S k).card < n := Finset.mem_filter

private theorem card_above_le {T : Finset α} (h : T ⊆ S) (k : α) :
    (above T k).card ≤ (above S k).card :=
  Finset.card_le_card (Finset.filter_subset_filter _ h)

/-- What lies above one of the greatest elements is among them. -/
theorem above_subset_of_mem_greatest (hk : k ∈ greatest n S) : above S k ⊆ greatest n S := by
  intro j hj
  obtain ⟨hjS, hkj⟩ := mem_above.mp hj
  refine mem_greatest.mpr ⟨hjS, lt_of_le_of_lt (Finset.card_le_card fun i hi => ?_)
    (mem_greatest.mp hk).2⟩
  obtain ⟨hiS, hji⟩ := mem_above.mp hi
  exact mem_above.mpr ⟨hiS, hkj.trans hji⟩

/-- Where too few of the greatest elements lie above, everything above is among them. -/
theorem above_subset_greatest (h : (above (greatest n S) a).card < n) :
    above S a ⊆ greatest n S := by
  by_contra hnot
  obtain ⟨i, hi, hiout⟩ := Finset.not_subset.mp hnot
  -- the greatest element above that is left out has only kept elements above itself
  obtain ⟨m, hm, hmax⟩ := (above S a \ greatest n S).exists_max_image id
    ⟨i, Finset.mem_sdiff.mpr ⟨hi, hiout⟩⟩
  obtain ⟨hmabove, hmout⟩ := Finset.mem_sdiff.mp hm
  obtain ⟨hmS, ham⟩ := mem_above.mp hmabove
  refine hmout (mem_greatest.mpr ⟨hmS, lt_of_le_of_lt (Finset.card_le_card fun j hj => ?_) h⟩)
  obtain ⟨hjS, hmj⟩ := mem_above.mp hj
  refine mem_above.mpr ⟨?_, ham.trans hmj⟩
  by_contra hjout
  have hle := hmax j (Finset.mem_sdiff.mpr ⟨mem_above.mpr ⟨hjS, ham.trans hmj⟩, hjout⟩)
  exact absurd hmj (not_lt.mpr hle)

/-- Only the greatest elements so far matter for those to come. -/
theorem greatest_insert_greatest (n : ℕ) (a : α) (S : Finset α) :
    greatest n (insert a (greatest n S)) = greatest n (insert a S) := by
  have hsub : insert a (greatest n S) ⊆ insert a S :=
    Finset.insert_subset_insert a (Finset.filter_subset _ S)
  ext k
  rw [mem_greatest, mem_greatest]
  constructor
  · rintro ⟨hk, hcount⟩
    refine ⟨hsub hk, lt_of_le_of_lt (Finset.card_le_card fun j hj => ?_) hcount⟩
    obtain ⟨hj, hkj⟩ := mem_above.mp hj
    refine mem_above.mpr ⟨?_, hkj⟩
    rcases Finset.mem_insert.mp hj with rfl | hjS
    · exact Finset.mem_insert_self _ _
    refine Finset.mem_insert_of_mem ?_
    rcases Finset.mem_insert.mp hk with rfl | hkeep
    · refine above_subset_greatest (lt_of_le_of_lt ?_ hcount) (mem_above.mpr ⟨hjS, hkj⟩)
      exact card_above_le (Finset.subset_insert _ _) _
    · exact above_subset_of_mem_greatest hkeep (mem_above.mpr ⟨hjS, hkj⟩)
  · rintro ⟨hk, hcount⟩
    refine ⟨?_, (card_above_le hsub k).trans_lt hcount⟩
    rcases Finset.mem_insert.mp hk with rfl | hkS
    · exact Finset.mem_insert_self _ _
    · refine Finset.mem_insert_of_mem (mem_greatest.mpr ⟨hkS, ?_⟩)
      exact (card_above_le (Finset.subset_insert _ _) k).trans_lt hcount

/-- At most `n` elements are kept. -/
theorem card_greatest_le : (greatest n S).card ≤ n := by
  by_contra hmore
  obtain ⟨least, hleast⟩ := Finset.min_of_nonempty
    (Finset.card_pos.mp (show 0 < (greatest n S).card by omega))
  have hmem := Finset.mem_of_min hleast
  have hsub : (greatest n S).erase least ⊆ above S least := by
    intro k hk
    obtain ⟨hne, hk⟩ := Finset.mem_erase.mp hk
    exact mem_above.mpr ⟨(mem_greatest.mp hk).1,
      lt_of_le_of_ne (Finset.min_le_of_eq hk hleast) (Ne.symm hne)⟩
  have hle := Finset.card_le_card hsub
  have hlt := (mem_greatest.mp hmem).2
  rw [Finset.card_erase_of_mem hmem] at hle
  omega

/-- A small set is kept whole. -/
theorem greatest_of_card_le (h : S.card ≤ n) : greatest n S = S := by
  refine Finset.filter_true_of_mem fun k hk => lt_of_lt_of_le (Finset.card_lt_card ?_) h
  exact Finset.filter_ssubset.mpr ⟨k, hk, lt_irrefl k⟩

/-- The smallest element of a set that is too large is not among the greatest. -/
theorem greatest_erase (hleast : ∀ k ∈ S, a ≤ k) (hmem : a ∈ S) (hcard : n < S.card) :
    greatest n (S.erase a) = greatest n S := by
  have habove : ∀ k ∈ S, above (S.erase a) k = above S k := by
    intro k hk
    ext j
    simp only [mem_above, Finset.mem_erase]
    exact ⟨fun hj => ⟨hj.1.2, hj.2⟩, fun hj =>
      ⟨⟨fun heq => absurd (heq ▸ hj.2) (not_lt.mpr (hleast k hk)), hj.1⟩, hj.2⟩⟩
  have hself : above S a = S.erase a := by
    ext j
    simp only [mem_above, Finset.mem_erase]
    exact ⟨fun hj => ⟨hj.2.ne', hj.1⟩, fun hj => ⟨hj.2, lt_of_le_of_ne (hleast j hj.2) hj.1.symm⟩⟩
  ext k
  rw [mem_greatest, mem_greatest, Finset.mem_erase]
  constructor
  · rintro ⟨⟨-, hk⟩, hcount⟩
    exact ⟨hk, habove k hk ▸ hcount⟩
  · rintro ⟨hk, hcount⟩
    refine ⟨⟨?_, hk⟩, (habove k hk).symm ▸ hcount⟩
    rintro rfl
    rw [hself, Finset.card_erase_of_mem hmem] at hcount
    omega

/-- A bounded memory that is full takes a new element in the place of its smallest, or not at
all. -/
def keepGreatest (n : ℕ) (S : Finset α) (a : α) : Finset α :=
  if S.card < n then insert a S
  else
    match S.min with
    | ⊤ => S
    | (least : α) => if least < a then insert a (S.erase least) else S

/-- It keeps the greatest elements of what it held and what it is given. -/
theorem keepGreatest_eq (hn : 0 < n) (hS : S.card ≤ n) (ha : a ∉ S) :
    keepGreatest n S a = greatest n (insert a S) := by
  have hcard := Finset.card_insert_of_notMem ha
  rw [keepGreatest]
  split
  · exact (greatest_of_card_le (by omega)).symm
  · rename_i hfull
    obtain ⟨least, hleast⟩ := Finset.min_of_nonempty
      (Finset.card_pos.mp (show 0 < S.card by omega))
    have hmem := Finset.mem_insert_of_mem (b := a) (Finset.mem_of_min hleast)
    have hmin : ∀ k ∈ S, least ≤ k := fun k hk => Finset.min_le_of_eq hk hleast
    rw [hleast]
    dsimp only
    split
    · rename_i hlt
      have hall : ∀ k ∈ insert a S, least ≤ k := by
        intro k hk
        rcases Finset.mem_insert.mp hk with rfl | hk
        · exact hlt.le
        · exact hmin k hk
      rw [← greatest_erase hall hmem (by omega), Finset.erase_insert_of_ne hlt.ne',
        greatest_of_card_le]
      rw [← Finset.erase_insert_of_ne hlt.ne', Finset.card_erase_of_mem hmem]
      omega
    · rename_i hge
      have hall : ∀ k ∈ insert a S, a ≤ k := by
        intro k hk
        rcases Finset.mem_insert.mp hk with rfl | hk
        · exact le_rfl
        · exact (not_lt.mp hge).trans (hmin k hk)
      rw [← greatest_erase hall (Finset.mem_insert_self a S) (by omega), Finset.erase_insert ha,
        greatest_of_card_le hS]

/-- In a list in descending order the greatest elements are the first. -/
theorem filter_greatest_eq_take {β : Type*} {f : β → α} {l : List β}
    (hl : (l.map f).Pairwise (· > ·)) (n : ℕ) :
    l.filter (fun b => f b ∈ greatest n (l.map f).toFinset) = l.take n := by
  induction l generalizing n with
  | nil => rw [List.filter_nil, List.take_nil]
  | cons b l ih =>
    obtain ⟨hfirst, hrest⟩ := List.pairwise_cons.mp hl
    have hnot : f b ∉ (l.map f).toFinset := fun h => lt_irrefl _ (hfirst _ (List.mem_toFinset.mp h))
    have hset : ((b :: l).map f).toFinset = insert (f b) (l.map f).toFinset := List.toFinset_cons
    have hzero : (above (insert (f b) (l.map f).toFinset) (f b)).card = 0 := by
      rw [Finset.card_eq_zero, above, Finset.filter_eq_empty_iff]
      intro j hj
      rcases Finset.mem_insert.mp hj with rfl | hj
      · exact lt_irrefl _
      · exact not_lt.mpr (hfirst j (List.mem_toFinset.mp hj)).le
    have hsucc : ∀ c ∈ l, (above (insert (f b) (l.map f).toFinset) (f c)).card =
        (above (l.map f).toFinset (f c)).card + 1 := by
      intro c hc
      rw [above, Finset.filter_insert, if_pos (hfirst _ (List.mem_map_of_mem hc)),
        Finset.card_insert_of_notMem fun h => hnot (Finset.mem_of_mem_filter _ h), above]
    rw [hset]
    cases n with
    | zero =>
      rw [List.take_zero, List.filter_eq_nil_iff]
      intro c _ hc
      exact Nat.not_lt_zero _ (mem_greatest.mp (of_decide_eq_true hc)).2
    | succ n =>
      rw [List.take_succ_cons, List.filter_cons_of_pos, ← ih hrest n]
      · congr 1
        refine List.filter_congr fun c hc => decide_eq_decide.mpr ?_
        rw [mem_greatest, mem_greatest, hsucc c hc, Nat.add_lt_add_iff_right]
        have hmem : f c ∈ (l.map f).toFinset := List.mem_toFinset.mpr (List.mem_map_of_mem hc)
        exact and_congr_left fun _ => ⟨fun _ => hmem, fun _ => Finset.mem_insert_of_mem hmem⟩
      · exact decide_eq_true (mem_greatest.mpr ⟨Finset.mem_insert_self _ _, by omega⟩)

end Primadb

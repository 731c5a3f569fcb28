import Primadb.Core.Comparator
import Primadb.Data.Query

/-!
# The order of query results

Results are sorted by the value at the path of an order clause, and by key where two values
are equal or of different kinds. Values of different kinds are not ordered, so the keys decide
between them, and a value of another kind can close a circle with two values whose keys are in
the opposite order.
-/

namespace Primadb

/-- `QueryDirection`. -/
inductive QueryDirection where
  | asc
  | desc
  deriving DecidableEq

/-- `QueryOrder`. -/
structure QueryOrder where
  /-- Where the value lies in an entry. -/
  path : String
  /-- Whether small values come first. -/
  direction : QueryDirection
  deriving DecidableEq

/-- What `EvaluatedQueryCandidate` holds for the order. -/
structure EvaluatedQueryCandidate where
  /-- Key of the candidate. -/
  key : String
  /-- The value at the path of the order clause. -/
  orderValue : Option JsonValue
  deriving DecidableEq

/-- `compare_evaluated_candidates`. -/
def compareEvaluatedCandidates (left right : EvaluatedQueryCandidate) (order : QueryOrder) :
    Ordering :=
  let base := match left.orderValue, right.orderValue with
    | some leftValue, some rightValue => (compareJsonValues leftValue rightValue).getD .eq
    | some _, none => .gt
    | none, some _ => .lt
    | none, none => compare left.key right.key
  match order.direction with
  | .asc => base.then (compare left.key right.key)
  | .desc => base.swap.then (compare left.key right.key)

/-- Values of one kind are in one order, and values of two kinds are not comparable. -/
theorem partialComparator_compareJsonValues : PartialComparator compareJsonValues := by
  have hnumber := PartialComparator.compareRanks f64Rank
  have hstring := PartialComparator.compareRanks fun s : String => some s
  have hbool := PartialComparator.compareRanks fun b : Bool => some b
  refine ⟨fun a b => ?_, fun {a b c x y} hx hy => ?_, fun {a b c x y} hx hy hxne hyne => ?_⟩
  · cases a <;> cases b <;> try rfl
    · exact hbool.swap _ _
    · exact hnumber.swap _ _
    · exact hstring.swap _ _
  -- in the other two laws the three values are of one kind
  · cases a <;> cases b <;> try cases hx; done
    all_goals cases c <;> try cases hy; done
    · exact Option.some_ne_none _
    · exact hbool.connected hx hy
    · exact hnumber.connected hx hy
    · exact hstring.connected hx hy
  · cases a <;> cases b <;> try cases hx; done
    all_goals cases c <;> try cases hy; done
    · cases hx
      cases hy
      rfl
    · exact hbool.trans hx hy hxne hyne
    · exact hnumber.trans hx hy hxne hyne
    · exact hstring.trans hx hy hxne hyne

namespace QueryDirection

/-- Whether a value comes before another one of its kind. -/
def before : QueryDirection → JsonValue → JsonValue → Bool
  | asc, left, right => compareJsonValues left right == some .lt
  | desc, left, right => compareJsonValues left right == some .gt

/-- The comparison of values in a direction. -/
def compareValues : QueryDirection → JsonValue → JsonValue → Option Ordering
  | asc, left, right => compareJsonValues left right
  | desc, left, right => compareJsonValues right left

/-- An answer seen in a direction. -/
def orient : QueryDirection → Ordering → Ordering
  | asc, answer => answer
  | desc, answer => answer.swap

private theorem partialComparator_compareValues (direction : QueryDirection) :
    PartialComparator direction.compareValues := by
  cases direction with
  | asc => exact partialComparator_compareJsonValues
  | desc => exact partialComparator_compareJsonValues.reverse

/-- A value comes before another one when the comparison says so. -/
theorem compareValues_lt_iff {direction : QueryDirection} {left right : JsonValue} :
    direction.compareValues left right = some .lt ↔ direction.before left right = true := by
  cases direction with
  | asc => exact beq_iff_eq.symm
  | desc =>
    rw [compareValues, partialComparator_compareJsonValues.swap left right, before, beq_iff_eq]
    cases compareJsonValues left right with
    | none => simp
    | some answer => cases answer <;> simp

/-- Incomparable values are so in both directions. -/
theorem compareValues_none_iff {direction : QueryDirection} {left right : JsonValue} :
    direction.compareValues left right = none ↔ compareJsonValues left right = none := by
  cases direction with
  | asc => exact Iff.rfl
  | desc => rw [compareValues, partialComparator_compareJsonValues.swap left right,
      Option.map_eq_none_iff]

end QueryDirection

section Candidates

variable {order : QueryOrder} {a b c : EvaluatedQueryCandidate}

/-- The comparison of the values that candidates have. -/
def QueryOrder.compareCandidates (order : QueryOrder) :
    EvaluatedQueryCandidate → EvaluatedQueryCandidate → Option Ordering :=
  compareFound order.direction.compareValues EvaluatedQueryCandidate.orderValue

private theorem compareEvaluatedCandidates_of_some {x y : JsonValue} (ha : a.orderValue = some x)
    (hb : b.orderValue = some y) :
    compareEvaluatedCandidates a b order =
      withFallback order.compareCandidates EvaluatedQueryCandidate.key a b := by
  simp only [compareEvaluatedCandidates, withFallback, QueryOrder.compareCandidates, compareFound,
    ha, hb]
  cases order.direction with
  | asc => rfl
  | desc =>
    simp only [QueryDirection.compareValues, partialComparator_compareJsonValues.swap x y]
    cases compareJsonValues x y <;> rfl

/-- A candidate without a value comes first, seen in the direction. -/
theorem compareEvaluatedCandidates_of_mixed (order : QueryOrder) {x : JsonValue}
    (ha : a.orderValue = some x) (hb : b.orderValue = none) :
    compareEvaluatedCandidates a b order = order.direction.orient .gt ∧
      compareEvaluatedCandidates b a order = order.direction.orient .lt := by
  simp only [compareEvaluatedCandidates, ha, hb]
  cases order.direction <;> exact ⟨rfl, rfl⟩

private theorem compareEvaluatedCandidates_of_none (ha : a.orderValue = none)
    (hb : b.orderValue = none) :
    compareEvaluatedCandidates a b order = order.direction.orient (compare a.key b.key) := by
  simp only [compareEvaluatedCandidates, ha, hb]
  cases order.direction <;> cases compare a.key b.key <;> rfl

private theorem compareEvaluatedCandidates_self (a : EvaluatedQueryCandidate) (order : QueryOrder) :
    compareEvaluatedCandidates a a order = .eq := by
  cases ha : a.orderValue with
  | some x =>
    rw [compareEvaluatedCandidates_of_some ha ha]
    exact (order.direction.partialComparator_compareValues.compareFound _).withFallback_self a
  | none =>
    have hkey : compare a.key a.key = .eq := Std.ReflCmp.compare_self
    rw [compareEvaluatedCandidates_of_none ha ha, hkey]
    cases order.direction <;> rfl

/-- Comparing two candidates in the two directions. -/
theorem compareEvaluatedCandidates_swap (a b : EvaluatedQueryCandidate) (order : QueryOrder) :
    compareEvaluatedCandidates b a order = (compareEvaluatedCandidates a b order).swap := by
  cases ha : a.orderValue with
  | some x =>
    cases hb : b.orderValue with
    | some y =>
      rw [compareEvaluatedCandidates_of_some ha hb, compareEvaluatedCandidates_of_some hb ha]
      exact (order.direction.partialComparator_compareValues.compareFound _).withFallback_swap a b
    | none =>
      obtain ⟨hab, hba⟩ := compareEvaluatedCandidates_of_mixed order ha hb
      rw [hab, hba]
      cases order.direction <;> rfl
  | none =>
    cases hb : b.orderValue with
    | some y =>
      obtain ⟨hba, hab⟩ := compareEvaluatedCandidates_of_mixed order hb ha
      rw [hab, hba]
      cases order.direction <;> rfl
    | none =>
      have hkey : compare b.key a.key = (compare a.key b.key).swap := Std.OrientedCmp.eq_swap
      rw [compareEvaluatedCandidates_of_none ha hb, compareEvaluatedCandidates_of_none hb ha, hkey]
      cases order.direction <;> rfl

private theorem compareEvaluatedCandidates_trans_of_none
    (h : a.orderValue = none ∨ b.orderValue = none ∨ c.orderValue = none)
    (hab : compareEvaluatedCandidates a b order ≠ .gt)
    (hbc : compareEvaluatedCandidates b c order ≠ .gt) :
    compareEvaluatedCandidates a c order ≠ .gt := by
  cases ha : a.orderValue with
  | none =>
    cases hb : b.orderValue with
    | none =>
      cases hc : c.orderValue with
      | none =>
        rw [compareEvaluatedCandidates_of_none ha hb] at hab
        rw [compareEvaluatedCandidates_of_none hb hc] at hbc
        rw [compareEvaluatedCandidates_of_none ha hc]
        cases hdirection : order.direction with
        | asc =>
          rw [hdirection] at hab hbc
          exact compare_le_iff_le.mpr ((compare_le_iff_le.mp hab).trans (compare_le_iff_le.mp hbc))
        | desc =>
          have hkeys : ∀ k l : String, QueryDirection.desc.orient (compare k l) = compare l k :=
            fun k l => Std.OrientedCmp.eq_swap.symm
          rw [hdirection, hkeys] at hab hbc
          rw [hkeys]
          exact compare_le_iff_le.mpr ((compare_le_iff_le.mp hbc).trans (compare_le_iff_le.mp hab))
      | some z =>
        rw [(compareEvaluatedCandidates_of_mixed order hc hb).2] at hbc
        rwa [(compareEvaluatedCandidates_of_mixed order hc ha).2]
    | some y =>
      rw [(compareEvaluatedCandidates_of_mixed order hb ha).2] at hab
      cases hc : c.orderValue with
      | none =>
        rw [(compareEvaluatedCandidates_of_mixed order hb hc).1] at hbc
        cases hdirection : order.direction <;> rw [hdirection] at hab hbc
        · exact absurd rfl hbc
        · exact absurd rfl hab
      | some z => rwa [(compareEvaluatedCandidates_of_mixed order hc ha).2]
  | some x =>
    cases hb : b.orderValue with
    | none =>
      rw [(compareEvaluatedCandidates_of_mixed order ha hb).1] at hab
      cases hc : c.orderValue with
      | none => rwa [(compareEvaluatedCandidates_of_mixed order ha hc).1]
      | some z =>
        rw [(compareEvaluatedCandidates_of_mixed order hc hb).2] at hbc
        cases hdirection : order.direction <;> rw [hdirection] at hab hbc
        · exact absurd rfl hab
        · exact absurd rfl hbc
    | some y =>
      cases hc : c.orderValue with
      | none =>
        rw [(compareEvaluatedCandidates_of_mixed order hb hc).1] at hbc
        rwa [(compareEvaluatedCandidates_of_mixed order ha hc).1]
      | some z => simp [ha, hb, hc] at h

end Candidates

/-- No candidate lies by its key between two candidates of another kind whose values are ordered
against their keys. -/
def QueryOrder.Apart (order : QueryOrder) (items : List EvaluatedQueryCandidate) : Prop :=
  ∀ a ∈ items, ∀ b ∈ items, ∀ c ∈ items, ∀ x y z,
    a.orderValue = some x → b.orderValue = some y → c.orderValue = some z →
    order.direction.before x y = true → compareJsonValues x z = none → b.key ≤ c.key →
    ¬ c.key ≤ a.key

/-- The comparator orders a list of candidates as a sort requires exactly when no candidate lies
by its key between two candidates of another kind whose values are ordered against their keys. -/
theorem sortOrder_compareEvaluatedCandidates_iff (order : QueryOrder)
    (items : List EvaluatedQueryCandidate) :
    SortOrder (compareEvaluatedCandidates · · order) items ↔ order.Apart items := by
  have hlaws : PartialComparator order.compareCandidates :=
    order.direction.partialComparator_compareValues.compareFound _
  have htrans := hlaws.withFallback_trans_iff EvaluatedQueryCandidate.key
    fun item => item ∈ items ∧ item.orderValue ≠ none
  constructor
  · intro hsort a ha b hb c hc x y z hx hy hz hbefore hnone
    refine htrans.mp ?_ a b c ⟨ha, by simp [hx]⟩ ⟨hb, by simp [hy]⟩ ⟨hc, by simp [hz]⟩ ?_ ?_
    · rintro a b c ⟨ha, hx⟩ ⟨hb, hy⟩ ⟨hc, hz⟩
      obtain ⟨x, hx⟩ := Option.ne_none_iff_exists'.mp hx
      obtain ⟨y, hy⟩ := Option.ne_none_iff_exists'.mp hy
      obtain ⟨z, hz⟩ := Option.ne_none_iff_exists'.mp hz
      rw [← compareEvaluatedCandidates_of_some hx hy, ← compareEvaluatedCandidates_of_some hy hz,
        ← compareEvaluatedCandidates_of_some hx hz]
      exact hsort.trans a ha b hb c hc
    · rw [QueryOrder.compareCandidates, compareFound, hx, hy]
      exact QueryDirection.compareValues_lt_iff.mpr hbefore
    · rw [QueryOrder.compareCandidates, compareFound, hx, hz]
      exact QueryDirection.compareValues_none_iff.mpr hnone
  · intro hapart
    refine ⟨fun a _ => compareEvaluatedCandidates_self a order,
      fun a _ b _ => compareEvaluatedCandidates_swap a b order,
      fun a ha b hb c hc hab hbc => ?_, fun a _ b _ => ?_⟩
    · by_cases hvalues : a.orderValue = none ∨ b.orderValue = none ∨ c.orderValue = none
      · exact compareEvaluatedCandidates_trans_of_none hvalues hab hbc
      · push Not at hvalues
        obtain ⟨hx, hy, hz⟩ := hvalues
        obtain ⟨x, hx'⟩ := Option.ne_none_iff_exists'.mp hx
        obtain ⟨y, hy'⟩ := Option.ne_none_iff_exists'.mp hy
        obtain ⟨z, hz'⟩ := Option.ne_none_iff_exists'.mp hz
        rw [compareEvaluatedCandidates_of_some hx' hy'] at hab
        rw [compareEvaluatedCandidates_of_some hy' hz'] at hbc
        rw [compareEvaluatedCandidates_of_some hx' hz']
        refine htrans.mpr ?_ a b c ⟨ha, hx⟩ ⟨hb, hy⟩ ⟨hc, hz⟩ hab hbc
        rintro a b c ⟨ha, hx⟩ ⟨hb, hy⟩ ⟨hc, hz⟩ hbefore hnone
        obtain ⟨x, hx⟩ := Option.ne_none_iff_exists'.mp hx
        obtain ⟨y, hy⟩ := Option.ne_none_iff_exists'.mp hy
        obtain ⟨z, hz⟩ := Option.ne_none_iff_exists'.mp hz
        rw [QueryOrder.compareCandidates, compareFound, hx, hy] at hbefore
        rw [QueryOrder.compareCandidates, compareFound, hx, hz] at hnone
        exact hapart a ha b hb c hc x y z hx hy hz (QueryDirection.compareValues_lt_iff.mp hbefore)
          (QueryDirection.compareValues_none_iff.mp hnone)
    · rw [compareEvaluatedCandidates_swap a b order]
      cases compareEvaluatedCandidates a b order <;> simp

/-- Two numbers whose keys are in the opposite order and a text between them: the text comes after
the greater number and before the smaller one. -/
theorem compareEvaluatedCandidates_circle :
    let order : QueryOrder := ⟨"rank", .asc⟩
    let two : EvaluatedQueryCandidate := ⟨"a", some (.number (.posInt 2))⟩
    let text : EvaluatedQueryCandidate := ⟨"b", some (.string "x")⟩
    let one : EvaluatedQueryCandidate := ⟨"c", some (.number (.posInt 1))⟩
    compareEvaluatedCandidates two text order = .lt ∧
      compareEvaluatedCandidates text one order = .lt ∧
      compareEvaluatedCandidates two one order = .gt := by
  decide +kernel

end Primadb

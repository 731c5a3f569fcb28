import Primadb.Core.Greatest
import Primadb.Net.Duplicates

/-!
# The routes a router remembers

After every route it accepts a router throws out its smallest ids, not its oldest ones. What it
remembers is therefore the greatest of all ids it accepted, and a recent route is forgotten at
once when enough greater ids came before it.
-/

namespace Primadb

/-- The keys of a cache. -/
def keySet {α : Type} (seen : BTreeMap String α) : Finset String := seen.keys.toFinset

section Keys

variable {α : Type} {seen : BTreeMap String α}

private theorem mem_keySet {key : String} : key ∈ keySet seen ↔ key ∈ seen := by
  rw [keySet, List.mem_toFinset, Std.ExtTreeMap.mem_keys]

private theorem card_keySet : (keySet seen).card = seen.size := by
  rw [keySet, List.toFinset_card_of_nodup Std.ExtTreeMap.nodup_keys, Std.ExtTreeMap.length_keys]

private theorem keySet_insert (key : String) (value : α) :
    keySet (seen.insert key value) = insert key (keySet seen) := by
  ext other
  rw [mem_keySet, Std.ExtTreeMap.mem_insert, Std.compare_eq_iff_eq, Finset.mem_insert, mem_keySet,
    eq_comm]

private theorem keySet_erase (key : String) :
    keySet (seen.erase key) = (keySet seen).erase key := by
  ext other
  rw [mem_keySet, Std.ExtTreeMap.mem_erase, Finset.mem_erase, mem_keySet, ne_eq,
    Std.compare_eq_iff_eq, eq_comm]

/-- Removing the smallest keys until the bound is met keeps the greatest. -/
theorem keySet_removeOldest {n rounds : ℕ} (hrounds : seen.size - n = rounds) :
    keySet (removeOldest rounds seen) = greatest n (keySet seen) := by
  induction rounds generalizing seen with
  | zero =>
    have hsmall : (keySet seen).card ≤ n := by
      rw [card_keySet]
      omega
    exact (greatest_of_card_le hsmall).symm
  | succ rounds ih =>
    rw [removeOldest]
    split
    · rename_i hnone
      rw [Std.ExtTreeMap.minKey?_eq_none_iff] at hnone
      subst hnone
      simp at hrounds
    · rename_i oldest holdest
      obtain ⟨hmem, hleast⟩ := Std.ExtTreeMap.minKey?_eq_some_iff_mem_and_forall.mp holdest
      have hsize : (seen.erase oldest).size = seen.size - 1 := by
        rw [Std.ExtTreeMap.size_erase, if_pos (Std.ExtTreeMap.mem_iff_contains.mp hmem)]
      rw [ih (by omega), keySet_erase]
      refine greatest_erase (fun key hkey => ?_) (mem_keySet.mpr hmem) ?_
      · exact compare_le_iff_le.mp (Ordering.isLE_iff_ne_gt.mp (hleast key (mem_keySet.mp hkey)))
      · rw [card_keySet]
        omega

end Keys

private theorem keySet_trimSeenCache (seen : BTreeMap String ℕ) (n : ℕ) :
    keySet (trimSeenCache seen n) = greatest n (keySet seen) :=
  keySet_removeOldest rfl

namespace RouterConfig

variable {ρ β : Type} (config : RouterConfig)

/-- The router after a route that arrives at a clock reading. -/
def acceptStep (inner : RouterInner) (arrival : ℕ × RouteEnvelope ρ β) : RouterInner :=
  (config.accept arrival.1 inner arrival.2).2

/-- The route is not dropped as seen. -/
def Accepts (inner : RouterInner) (arrival : ℕ × RouteEnvelope ρ β) : Prop :=
  (config.accept arrival.1 inner arrival.2).1.duplicate = false

/-- A route is dropped exactly when it is a duplicate. -/
theorem accept_duplicate (now : ℕ) (inner : RouterInner) (envelope : RouteEnvelope ρ β) :
    (config.accept now inner envelope).1.duplicate =
      inner.seen.duplicate config.peerId envelope := by
  rw [accept]
  split
  · rename_i hdup
    exact hdup.symm
  · rename_i hnew
    exact (Bool.eq_false_iff.mpr hnew).symm

private theorem seen_acceptStep {inner : RouterInner} {arrival : ℕ × RouteEnvelope ρ β}
    (h : config.Accepts inner arrival) :
    (config.acceptStep inner arrival).seen =
      inner.seen.remember arrival.1 config.maxSeenRoutes arrival.2 := by
  rw [Accepts, accept_duplicate] at h
  rw [acceptStep, accept, h]
  rfl

private theorem keySet_seenRoutes {arrivals : List (ℕ × RouteEnvelope ρ β)}
    (h : Run.Along config.acceptStep config.Accepts .new arrivals) :
    keySet (arrivals.foldl config.acceptStep .new).seen.seenRoutes =
      greatest config.maxSeenRoutes (arrivals.map (·.2.routeId)).toFinset := by
  induction arrivals using List.reverseRecOn with
  | nil => rfl
  | append_singleton arrivals arrival ih =>
    obtain ⟨hbefore, haccepts⟩ := Run.along_concat.mp h
    rw [List.foldl_append, List.foldl_cons, List.foldl_nil, config.seen_acceptStep haccepts,
      SeenCache.remember, keySet_trimSeenCache, keySet_insert, ih hbefore,
      greatest_insert_greatest]
    congr 1
    ext id
    simp

/-- A route that nothing but its id tells apart. -/
def bareRoute (id : String) : RouteEnvelope ρ β :=
  ⟨id, "", "", .broadcast, 0, 0, 0, none, none, [], .signal "" .null⟩

private theorem accept_bareRoute (now : ℕ) (inner : RouterInner) (id : String) :
    (config.accept now inner (bareRoute id : RouteEnvelope ρ β)).1.duplicate = true ↔
      id ∈ keySet inner.seen.seenRoutes := by
  rw [accept_duplicate, mem_keySet, Std.ExtTreeMap.mem_iff_contains]
  simp [SeenCache.duplicate, bareRoute, dedupeKey]

/-- A route is a duplicate whatever else it holds exactly when its id is remembered. -/
theorem duplicate_of_id_iff (inner : RouterInner) (id : String) :
    (∀ now (envelope : RouteEnvelope ρ β), envelope.routeId = id →
        (config.accept now inner envelope).1.duplicate = true) ↔
      id ∈ keySet inner.seen.seenRoutes := by
  constructor
  · intro h
    exact (config.accept_bareRoute 0 inner id).mp (h 0 (bareRoute id) rfl)
  · rintro h now envelope rfl
    rw [mem_keySet, Std.ExtTreeMap.mem_iff_contains] at h
    rw [accept_duplicate, SeenCache.duplicate, h]
    simp

/-- Each of the latest accepted ids is recognised when it is received again exactly when, of all
ids accepted, fewer are greater than it than the router remembers. -/
theorem recognises_latest_iff (arrivals : List (ℕ × RouteEnvelope ρ β))
    (haccepted : Run.Along config.acceptStep config.Accepts .new arrivals) :
    let ids := arrivals.map (·.2.routeId)
    (∀ id ∈ ids.reverse.take config.maxSeenRoutes, ∀ now (envelope : RouteEnvelope ρ β),
        envelope.routeId = id →
          (config.accept now (arrivals.foldl config.acceptStep .new) envelope).1.duplicate = true) ↔
      ∀ id ∈ ids.reverse.take config.maxSeenRoutes,
        (above ids.toFinset id).card < config.maxSeenRoutes := by
  refine forall₂_congr fun id hid => ?_
  rw [duplicate_of_id_iff, config.keySet_seenRoutes haccepted, mem_greatest, List.mem_toFinset]
  exact and_iff_right (List.mem_reverse.mp (List.mem_of_mem_take hid))

/-- Decides whether a route is accepted. -/
instance (inner : RouterInner) (arrival : ℕ × RouteEnvelope ρ β) :
    Decidable (config.Accepts inner arrival) :=
  inferInstanceAs (Decidable (_ = false))

/-- Ids accepted in increasing order are recognised. -/
theorem recognises_latest_iff_increasing :
    let config : RouterConfig := { peerId := "p", maxSeenRoutes := 2 }
    let arrivals : List (ℕ × RouteEnvelope Unit Unit) :=
      ["a", "b", "c"].map fun id => (0, bareRoute id)
    ∀ id ∈ ["c", "b"], ∀ now (envelope : RouteEnvelope Unit Unit), envelope.routeId = id →
      (config.accept now (arrivals.foldl config.acceptStep .new) envelope).1.duplicate = true := by
  intro config arrivals
  exact (config.recognises_latest_iff arrivals (by decide +kernel)).mpr (by decide +kernel)

/-- A router for one route accepts "b" and then "a", and accepts "a" when it comes again. -/
theorem latest_forgotten :
    let config : RouterConfig := { peerId := "p", maxSeenRoutes := 1 }
    let arrivals : List (ℕ × RouteEnvelope Unit Unit) :=
      ["b", "a"].map fun id => (0, bareRoute id)
    Run.Along config.acceptStep config.Accepts .new arrivals ∧
      (config.accept 0 (arrivals.foldl config.acceptStep .new)
        (bareRoute "a" : RouteEnvelope Unit Unit)).1.duplicate = false := by
  intro config arrivals
  have haccepted : Run.Along config.acceptStep config.Accepts .new arrivals := by decide +kernel
  refine ⟨haccepted, Bool.eq_false_iff.mpr fun hdup => ?_⟩
  rw [accept_bareRoute, config.keySet_seenRoutes haccepted] at hdup
  exact absurd hdup (by decide +kernel)

end RouterConfig

end Primadb

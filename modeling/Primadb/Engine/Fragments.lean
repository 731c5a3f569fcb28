import Primadb.Db.InMemory
import Primadb.Engine.Transaction

/-!
# Reusing the scalars below a node

While index entries are derived, the scalars below a node are kept when no cycle
was met below it. What is collected inside a cycle depends on the nodes being
visited; what is kept does not, because no node that can be kept is reached from
itself. So collecting with the shared cache gives what collecting anew gives.
-/

namespace Primadb

/-- The scalars of one field, given what is collected below linked nodes. -/
def fieldFragments (child : NodeId → List DirectScalarIndexFragment × Bool)
    (entry : String × FieldState) : List DirectScalarIndexFragment :=
  match entry.2.value with
  | .scalar value =>
    match sortableScalarKey value with
    | some key => [⟨entry.1, value, key⟩]
    | none => []
  | .link target => (child target).1.map (·.below entry.1)
  | .set _ | .bytes _ | .blob _ => []

/-- Whether a cycle is met below one field. -/
def fieldContainsCycle (child : NodeId → List DirectScalarIndexFragment × Bool)
    (entry : String × FieldState) : Bool :=
  match entry.2.value with
  | .link target => (child target).2
  | _ => false

/-- Collecting the scalars below a node without a cache. It ends because every node entered
leaves the nodes of the map still to be visited. -/
def collectAnew (nodes : BTreeMap NodeId NodeState) (visited : BTreeSet NodeId)
    (nodeId : NodeId) : List DirectScalarIndexFragment × Bool :=
  if _ : visited.contains nodeId = true then ([], true)
  else
    match _ : nodes[nodeId]? with
    | none => ([], false)
    | some state =>
      let child := fun target => collectAnew nodes (visited.insert nodeId) target
      (state.fields.toList.flatMap (fieldFragments child),
        state.fields.toList.any (fieldContainsCycle child))
termination_by (nodes.keys.filter fun key => !visited.contains key).length
decreasing_by
  refine Views.unvisited_lt ?_ (Bool.eq_false_iff.mpr (by assumption))
  rw [Std.ExtTreeMap.mem_keys, Std.ExtTreeMap.mem_iff_isSome_getElem?]
  exact Option.isSome_iff_exists.mpr ⟨_, by assumption⟩

/-- Collecting below one root after another with one cache. -/
def collectRoots (nodes : BTreeMap NodeId NodeState) (fuel : ℕ) :
    List NodeId → FragmentCache → Option (List (List DirectScalarIndexFragment))
  | [], _ => some []
  | root :: roots, cache => do
    let collected ← storageCollectScalarFragments nodes fuel root ∅ cache
    let rest ← collectRoots nodes fuel roots collected.2
    some (collected.1.1 :: rest)

/-- A node has a field linking to another. -/
def LinksTo (nodes : BTreeMap NodeId NodeState) (a b : NodeId) : Prop :=
  ∃ state, nodes[a]? = some state ∧ ∃ entry ∈ state.fields.toList, entry.2.value = .link b

/-- No cycle is reached from a node. -/
def CycleFree (nodes : BTreeMap NodeId NodeState) : NodeId → Prop :=
  Acc fun b a => LinksTo nodes a b

/-- Every kept result is of a node that reaches no cycle, and is what collecting anew gives. -/
def FragmentCache.Exact (nodes : BTreeMap NodeId NodeState) (cache : FragmentCache) : Prop :=
  ∀ node fragments, cache[node]? = some fragments →
    CycleFree nodes node ∧ (collectAnew nodes ∅ node).1 = fragments

section

variable {nodes : BTreeMap NodeId NodeState} {visited : BTreeSet NodeId} {node : NodeId}

/-- What is collected below the linked nodes determines what is collected below a node. -/
theorem fields_congr {state : NodeState}
    {left right : NodeId → List DirectScalarIndexFragment × Bool}
    (h : ∀ entry ∈ state.fields.toList, ∀ target, entry.2.value = .link target →
      left target = right target) :
    state.fields.toList.flatMap (fieldFragments left) =
        state.fields.toList.flatMap (fieldFragments right) ∧
      state.fields.toList.any (fieldContainsCycle left) =
        state.fields.toList.any (fieldContainsCycle right) := by
  have hentry : ∀ entry ∈ state.fields.toList, fieldFragments left entry =
      fieldFragments right entry ∧ fieldContainsCycle left entry =
        fieldContainsCycle right entry := by
    intro entry hentry
    unfold fieldFragments fieldContainsCycle
    cases hvalue : entry.2.value with
    | link target => simp only [h entry hentry target hvalue, and_self]
    | scalar _ | set _ | bytes _ | blob _ => exact ⟨rfl, rfl⟩
  refine ⟨List.flatMap_congr fun entry hmem => (hentry entry hmem).1, ?_⟩
  rw [Bool.eq_iff_iff, List.any_eq_true, List.any_eq_true]
  exact exists_congr fun entry => and_congr_right fun hmem => by rw [(hentry entry hmem).2]

/-- Collecting below a node that is not in the map. -/
theorem collectAnew_of_none (hvisited : ¬visited.contains node = true)
    (hstate : nodes[node]? = none) : collectAnew nodes visited node = ([], false) := by
  rw [collectAnew, dif_neg hvisited]
  split
  · rfl
  · rename_i h
    exact absurd (hstate.symm.trans h) (by simp)

private theorem collectAnew_of_some {state : NodeState} (hvisited : ¬visited.contains node = true)
    (hstate : nodes[node]? = some state) {child : NodeId → List DirectScalarIndexFragment × Bool}
    (hchild : ∀ target, LinksTo nodes node target →
      collectAnew nodes (visited.insert node) target = child target) :
    collectAnew nodes visited node = (state.fields.toList.flatMap (fieldFragments child),
      state.fields.toList.any (fieldContainsCycle child)) := by
  rw [collectAnew, dif_neg hvisited]
  split
  · rename_i h
    exact absurd (hstate.symm.trans h) (by simp)
  · rename_i found h
    obtain rfl : state = found := Option.some.inj (hstate.symm.trans h)
    obtain ⟨hfragments, hcycle⟩ := fields_congr fun entry hentry target hvalue =>
      hchild target ⟨state, hstate, entry, hentry, hvalue⟩
    rw [← hfragments, ← hcycle]

/-- A node that reaches no cycle does not reach itself. -/
theorem CycleFree.irrefl (h : CycleFree nodes node) :
    ¬Relation.TransGen (LinksTo nodes) node node := by
  induction h with
  | intro node _ ih =>
    intro hcycle
    obtain ⟨next, hnext, hback⟩ := Relation.TransGen.head'_iff.mp hcycle
    exact ih next hnext (Relation.TransGen.tail' hback hnext)

/-- Below a node that reaches no cycle and no node being visited, what is collected does not
depend on the nodes being visited. -/
theorem CycleFree.collectAnew_eq (h : CycleFree nodes node)
    (havoid : ∀ v, visited.contains v = true → ¬Relation.ReflTransGen (LinksTo nodes) node v) :
    collectAnew nodes visited node = ((collectAnew nodes ∅ node).1, false) := by
  induction h generalizing visited with
  | intro node hacc ih =>
    have hcycle := CycleFree.irrefl (Acc.intro node hacc)
    -- Either set gives what is collected below the links from the empty set.
    have hentered : ∀ visited : BTreeSet NodeId,
        (∀ v, visited.contains v = true → ¬Relation.ReflTransGen (LinksTo nodes) node v) →
        (∀ target, LinksTo nodes node target → collectAnew nodes (visited.insert node) target =
          ((collectAnew nodes ∅ target).1, false)) := by
      intro visited havoid target hlink
      refine ih target hlink fun v hv hreach => ?_
      rw [BTreeSet.contains_insert, Bool.or_eq_true, decide_eq_true_eq] at hv
      rcases hv with rfl | hv
      · exact hcycle (Relation.TransGen.head' hlink hreach)
      · exact havoid v hv (.head hlink hreach)
    have hvisited : ∀ visited : BTreeSet NodeId,
        (∀ v, visited.contains v = true → ¬Relation.ReflTransGen (LinksTo nodes) node v) →
        ¬visited.contains node = true := fun _ havoid hmem => havoid node hmem .refl
    cases hstate : nodes[node]? with
    | none =>
      rw [collectAnew_of_none (hvisited visited havoid) hstate,
        collectAnew_of_none (hvisited ∅ (by simp)) hstate]
    | some state =>
      rw [collectAnew_of_some (hvisited visited havoid) hstate (hentered visited havoid),
        collectAnew_of_some (hvisited ∅ (by simp)) hstate (hentered ∅ (by simp))]
      refine Prod.ext rfl ?_
      refine List.any_eq_false.mpr fun entry _ => ?_
      unfold fieldContainsCycle
      cases entry.2.value <;> simp

/-- A node below which no cycle was met reaches no cycle. -/
theorem cycleFree_of_collectAnew (h : (collectAnew nodes visited node).2 = false) :
    CycleFree nodes node := by
  induction visited, node using collectAnew.induct nodes with
  | case1 visited node hvisited =>
    rw [collectAnew, dif_pos hvisited] at h
    exact absurd h (by simp)
  | case2 visited node hvisited hstate =>
    refine Acc.intro node fun target ⟨state, hsome, _⟩ => ?_
    exact absurd (hstate.symm.trans hsome) (by simp)
  | case3 visited node hvisited state hstate ih =>
    refine Acc.intro node fun target hlink => ih target ?_
    obtain ⟨found, hfound, entry, hentry, hvalue⟩ := hlink
    obtain rfl : state = found := Option.some.inj (hstate.symm.trans hfound)
    rw [collectAnew_of_some hvisited hstate fun _ _ => rfl] at h
    have hcycle := List.any_eq_false.mp h entry hentry
    simpa [fieldContainsCycle, hvalue] using hcycle

/-- A collection ends with what collecting anew gives and leaves an exact cache. -/
def Gives (nodes : BTreeMap NodeId NodeState) (anew : List DirectScalarIndexFragment × Bool)
    (collected : Option Collected) : Prop :=
  ∃ cache : FragmentCache, collected = some (anew, cache) ∧ cache.Exact nodes

/-- One turn of the loop over the fields of a node. -/
def collectField (cached : NodeId → FragmentCache → Option Collected) (acc : Collected)
    (entry : String × FieldState) : Option Collected :=
  match entry.2.value with
  | .scalar value =>
    match sortableScalarKey value with
    | some key => some ((acc.1.1 ++ [⟨entry.1, value, key⟩], acc.1.2), acc.2)
    | none => some acc
  | .link target =>
    (cached target acc.2).map fun child =>
      ((acc.1.1 ++ child.1.1.map (·.below entry.1), acc.1.2 || child.1.2), child.2)
  | .set _ | .bytes _ | .blob _ => some acc

/-- The loop over the fields of a node, when collecting below each link gives what collecting
anew gives and keeps the cache exact. -/
theorem foldlM_collectField {child : NodeId → List DirectScalarIndexFragment × Bool}
    {cached : NodeId → FragmentCache → Option Collected}
    {fields : List (String × FieldState)}
    (hchild : ∀ entry ∈ fields, ∀ target, entry.2.value = .link target → ∀ cache,
      FragmentCache.Exact nodes cache → Gives nodes (child target) (cached target cache))
    (acc : List DirectScalarIndexFragment × Bool) {cache : FragmentCache}
    (hexact : cache.Exact nodes) :
    Gives nodes (acc.1 ++ fields.flatMap (fieldFragments child),
        (acc.2 || fields.any (fieldContainsCycle child)))
      (fields.foldlM (collectField cached) (acc, cache)) := by
  induction fields generalizing acc cache with
  | nil => exact ⟨cache, by simp, hexact⟩
  | cons entry fields ih =>
    have hone : Gives nodes
        (acc.1 ++ fieldFragments child entry, (acc.2 || fieldContainsCycle child entry))
        (collectField cached (acc, cache) entry) := by
      unfold collectField fieldFragments fieldContainsCycle
      cases hvalue : entry.2.value with
      | scalar value =>
        cases hkey : sortableScalarKey value <;> exact ⟨cache, by simp [hkey], hexact⟩
      | link target =>
        obtain ⟨after, hfound, hafter⟩ :=
          hchild entry List.mem_cons_self target hvalue cache hexact
        exact ⟨after, by simp [hfound], hafter⟩
      | set _ | bytes _ | blob _ => exact ⟨cache, by simp, hexact⟩
    obtain ⟨next, hnext, hexactNext⟩ := hone
    obtain ⟨after, hfound, hafter⟩ :=
      ih (fun e he => hchild e (List.mem_cons_of_mem _ he)) _ hexactNext
    refine ⟨after, ?_, hafter⟩
    rw [List.foldlM_cons, hnext, Option.bind_eq_bind, Option.bind_some, hfound, List.flatMap_cons,
      List.any_cons, List.append_assoc, Bool.or_assoc]

/-- Collecting with an exact cache, while every node being visited leads here, gives what
collecting anew gives and leaves an exact cache. -/
theorem collect_exact {fuel : ℕ} {cache : FragmentCache}
    (hfuel : (nodes.keys.filter fun key => !visited.contains key).length < fuel)
    (hexact : cache.Exact nodes)
    (hpath : ∀ v, visited.contains v = true → Relation.TransGen (LinksTo nodes) v node) :
    Gives nodes (collectAnew nodes visited node)
      (storageCollectScalarFragments nodes fuel node visited cache) := by
  -- A node that reaches no cycle reaches none of the nodes that lead to it.
  have hindependent : ∀ {node : NodeId} {visited : BTreeSet NodeId}, CycleFree nodes node →
      (∀ v, visited.contains v = true → Relation.TransGen (LinksTo nodes) v node) →
      collectAnew nodes visited node = ((collectAnew nodes ∅ node).1, false) :=
    fun hfree hpath => hfree.collectAnew_eq fun v hv hreach =>
      hfree.irrefl (Relation.TransGen.trans_right hreach (hpath v hv))
  induction fuel generalizing visited node cache with
  | zero => exact absurd hfuel (Nat.not_lt_zero _)
  | succ fuel ih =>
    rw [storageCollectScalarFragments]
    cases hcache : cache[node]? with
    | some fragments =>
      obtain ⟨hfree, hfragments⟩ := hexact node fragments hcache
      exact ⟨cache, by rw [hindependent hfree hpath, hfragments], hexact⟩
    | none =>
      dsimp only
      by_cases hvisited : visited.contains node = true
      · rw [if_pos hvisited, collectAnew, dif_pos hvisited]
        exact ⟨cache, rfl, hexact⟩
      rw [if_neg hvisited]
      have hloop : ∀ loop, loop = List.foldlM (collectField fun target cache =>
          storageCollectScalarFragments nodes fuel target (visited.insert node) cache)
            (([], false), cache) ((nodes[node]?.map fun state => state.fields.toList).getD []) →
          Gives nodes (collectAnew nodes visited node) loop := by
        rintro loop rfl
        cases hstate : nodes[node]? with
        | none => exact ⟨cache, by rw [collectAnew_of_none hvisited hstate]; rfl, hexact⟩
        | some state =>
          rw [collectAnew_of_some hvisited hstate fun _ _ => rfl]
          refine foldlM_collectField (fun entry hentry target hvalue cache hexact => ?_) ([], false)
            hexact
          have hlink : LinksTo nodes node target := ⟨state, hstate, entry, hentry, hvalue⟩
          have hmem : node ∈ nodes.keys := by
            rw [Std.ExtTreeMap.mem_keys, Std.ExtTreeMap.mem_iff_isSome_getElem?, hstate]
            rfl
          have hless := Views.unvisited_lt hmem (Bool.eq_false_iff.mpr hvisited)
          refine ih (by omega) hexact fun v hv => ?_
          rw [BTreeSet.contains_insert, Bool.or_eq_true, decide_eq_true_eq] at hv
          rcases hv with rfl | hv
          · exact .single hlink
          · exact (hpath v hv).tail hlink
      obtain ⟨after, hfound, hafter⟩ := hloop _ rfl
      refine ⟨_, congrArg (Option.map _) hfound, ?_⟩
      dsimp only
      split
      · exact hafter
      · rename_i hcycle
        -- No cycle was met, so what is kept does not depend on the nodes being visited.
        have hfree : CycleFree nodes node :=
          cycleFree_of_collectAnew (Bool.eq_false_iff.mpr hcycle)
        intro other fragments hother
        rw [BTreeMap.get_insert] at hother
        split at hother
        · rename_i heq
          subst heq
          cases hother
          exact ⟨hfree, (congrArg Prod.fst (hindependent hfree hpath)).symm⟩
        · exact hafter other fragments hother

end

/-- Collecting below any sequence of roots with one shared cache ends, and gives for every root
what collecting anew gives. -/
theorem shared_cache_exact (nodes : BTreeMap NodeId NodeState) (roots : List NodeId) {fuel : ℕ}
    (hfuel : nodes.size < fuel) :
    collectRoots nodes fuel roots ∅ =
      some (roots.map fun root => (collectAnew nodes ∅ root).1) := by
  have hall : ∀ cache : FragmentCache, cache.Exact nodes → collectRoots nodes fuel roots cache =
      some (roots.map fun root => (collectAnew nodes ∅ root).1) := by
    induction roots with
    | nil => exact fun _ _ => rfl
    | cons root roots ih =>
      intro cache hexact
      obtain ⟨after, hfound, hafter⟩ := @collect_exact nodes ∅ root fuel cache
        (lt_of_le_of_lt ((List.length_filter_le _ _).trans_eq Std.ExtTreeMap.length_keys) hfuel)
        hexact (by simp)
      rw [collectRoots, List.map_cons, hfound, Option.bind_eq_bind, Option.bind_some,
        ih after hafter]
      rfl
  exact hall ∅ (by simp [FragmentCache.Exact])

/-- A node with links and one scalar, for closed runs. -/
def linkingNode (id : NodeId) (links : List (String × NodeId)) : NodeId × NodeState :=
  let fields : BTreeMap String FieldState := links.foldl
    (fun fields link => fields.insert link.1 ⟨.link link.2, zeroMarker⟩)
    ((∅ : BTreeMap String FieldState).insert "own" ⟨.scalar .null, zeroMarker⟩)
  (id, ⟨id, fields, ∅⟩)

/-- Two nodes that link to each other and one of them to a third: each gets the scalars it gets
on its own. -/
theorem shared_cache_exact_cycle :
    let nodes : BTreeMap NodeId NodeState := .ofList [linkingNode "a" [("next", "b")],
      linkingNode "b" [("back", "a"), ("leaf", "c")], linkingNode "c" []]
    (collectRoots nodes 4 ["a", "b"] ∅).map (·.map (·.map (·.path))) =
        some [["next.leaf.own", "next.own", "own"], ["back.own", "leaf.own", "own"]] ∧
      collectRoots nodes 4 ["a", "b"] ∅ =
        some (["a", "b"].map fun root => (collectAnew nodes ∅ root).1) :=
  ⟨by decide +kernel, shared_cache_exact _ _ (by decide +kernel)⟩

end Primadb

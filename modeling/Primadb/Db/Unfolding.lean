import Primadb.Core.Restoring
import Primadb.Db.BreadthFirst
import Primadb.Db.PathWatch

/-!
# Materialization unfolds paths

A node is materialized as the tree that unfolds its links and set members. The nodes on the way to
a position are kept in one set, into which a node is put before its fields are materialized and
from which it is taken afterwards. A position of the tree is a reference exactly when its node is
absent or lies on the way to it.
-/

namespace Primadb

/-- A program over the set of nodes on the way and the state; it does not return without fuel. -/
abbrev Walk (σ : Type) := StateT (BTreeSet NodeId × Inner σ) Option

namespace Walk

variable {σ : Type}

/-- `materialize_field`, given how scalars and nodes are materialized. -/
def materializeField (scalar : String → JsonValue → JsonValue) (visit : NodeId → Walk σ JsonValue)
    (node : NodeId) (field : String) : FieldValue → Walk σ JsonValue
  | .scalar value => pure (scalar (node ++ "/" ++ field) value)
  | .bytes bytes => pure (bytesMarkerValue bytes)
  | .blob reference => pure (blobMarkerValue reference)
  | .link target => visit target
  | .set set => do
    let members ← set.members.keys.mapM visit
    pure (.object [("$set", .array members)])

/-- The object of a node that is there, and the reference to one that is not. -/
def materializeState (scalar : String → JsonValue → JsonValue) (visit : NodeId → Walk σ JsonValue)
    (node : NodeId) : Option NodeState → Walk σ JsonValue
  | some state => do
    let object ← state.fields.toList.foldlM (fun object entry => do
      let value ← materializeField scalar visit node entry.1 entry.2.value
      pure (insertEntry entry.1 value object)) [("$id", .string state.id)]
    pure (.object object)
  | none => pure (refValue node)

variable [IncrementalStore σ]

/-- `materialize_node`. -/
def materializeNode (scalar : String → JsonValue → JsonValue) : ℕ → NodeId → Walk σ JsonValue
  | 0, _ => failure
  | fuel + 1, node => do
    let (visited, inner) ← get
    if visited.contains node then pure (refValue node)
    else
      let inner := (maybeLoadNode node inner).2
      set (visited.insert node, inner)
      let output ← materializeState scalar (materializeNode scalar fuel) node inner.nodes[node]?
      modify fun (visited, inner) => (visited.erase node, inner)
      pure output

end Walk

/-! ## The visible graph -/

/-- The visible value of a field, with scalars as they are shown. -/
def FieldValue.shownAs (scalar : String → JsonValue → JsonValue) (path : String) :
    FieldValue → VisibleValue
  | .scalar value => .scalar (scalar path value)
  | value => value.visible

/-- What a reader sees of a graph, with scalars as they are shown. -/
def scalarViews (scalar : String → JsonValue → JsonValue) (graph : NodeId → Option NodeState) :
    Views := fun node =>
  (graph node).map fun state =>
    ⟨state.id, state.fields.map fun field fieldState =>
      fieldState.value.shownAs scalar (node ++ "/" ++ field)⟩

section Walk

variable {σ : Type} [IncrementalStore σ]

/-- In the states of the invariant, asking for a node shows that of the graph. -/
structure Serves (I : Inner σ → Prop) (graph : NodeId → Option NodeState) : Prop where
  /-- Asking keeps the invariant. -/
  load : ∀ inner node, I inner → I (maybeLoadNode node inner).2
  /-- Asking shows the node. -/
  shows : ∀ inner node, I inner → (maybeLoadNode node inner).2.nodes[node]? = graph node

/-- A database without a store serves its nodes, and stays as it is. -/
theorem serves_of_none {inner : Inner σ} (h : inner.storageEngine = none) :
    Serves (· = inner) fun node => inner.nodes[node]? := by
  refine ⟨?_, ?_⟩
  · rintro _ node rfl
    rw [Inner.maybeLoadNode_of_none h]
  · rintro _ node rfl
    rw [Inner.maybeLoadNode_of_none h]

variable {I : Inner σ → Prop} {graph : NodeId → Option NodeState}
  {scalar : String → JsonValue → JsonValue}

omit [IncrementalStore σ] in
/-- A field is materialized as it is shown. -/
theorem restores_materializeField {visited : BTreeSet NodeId} {visit : NodeId → Walk σ JsonValue}
    {shown : NodeId → JsonValue} (h : ∀ target, Restores I visited (visit target) (shown target))
    (node : NodeId) (field : String) (value : FieldValue) :
    Restores I visited (Walk.materializeField scalar visit node field value)
      (Views.shownField shown (value.shownAs scalar (node ++ "/" ++ field))) := by
  cases value with
  | link target => exact h target
  | set set => exact (Restores.mapM fun member _ => h member).bind (.pure _)
  | scalar value => exact .pure _
  | bytes bytes => exact .pure _
  | blob reference => exact .pure _

omit [IncrementalStore σ] in
/-- The fields of a node that is there are shown. -/
theorem restores_materializeState {visited : BTreeSet NodeId} {visit : NodeId → Walk σ JsonValue}
    {shown : NodeId → JsonValue} (h : ∀ target, Restores I visited (visit target) (shown target))
    {node : NodeId} {state : NodeState} (hstate : graph node = some state) :
    ∃ view, scalarViews scalar graph node = some view ∧
      Restores I visited (Walk.materializeState scalar visit node (some state))
        (view.opened shown) := by
  refine ⟨_, congrArg (Option.map _) hstate, ?_⟩
  rw [NodeView.opened, Std.ExtTreeMap.toList_map, List.map_map, List.foldl_map]
  refine .bind (.foldlM (fun entry _ object => ?_) _) (.pure _)
  exact (restores_materializeField h node entry.1 entry.2.value).bind (.pure _)

theorem erase_insert_visited {visited : BTreeSet NodeId} {node : NodeId}
    (h : visited.contains node = false) : (visited.insert node).erase node = visited := by
  refine Std.ExtTreeSet.ext_mem fun other => ?_
  rw [Std.ExtTreeSet.mem_iff_contains, Std.ExtTreeSet.mem_iff_contains, BTreeSet.contains_erase,
    BTreeSet.contains_insert]
  by_cases hother : node = other
  · subst hother
    simp [h]
  · simp [hother]

/-- A node is shown, and the nodes on the way are as before. -/
theorem restores_materializeNode (hserves : Serves I graph) {keys : List NodeId}
    (hkeys : ∀ n, n ∉ keys → graph n = none) {fuel : ℕ} {visited : BTreeSet NodeId}
    (hfuel : (keys.filter fun key => !visited.contains key).length < fuel) (node : NodeId) :
    Restores I visited (Walk.materializeNode scalar fuel node)
      (Views.shownNode (scalarViews scalar graph) fuel visited node) := by
  induction fuel generalizing visited node with
  | zero => omega
  | succ fuel ih =>
    intro inner hinner
    cases hvisited : visited.contains node with
    | true =>
      rw [Views.shownNode]
      refine ⟨inner, hinner, ?_⟩
      change (if visited.contains node then (Pure.pure (refValue node) : Walk σ JsonValue)
        else _) (visited, inner) = _
      rw [hvisited]
      rfl
    | false =>
      -- the fields are materialized with the node on the way
      obtain ⟨shown, hbody, hshown⟩ : ∃ shown, Restores I (visited.insert node)
          (Walk.materializeState scalar (Walk.materializeNode scalar fuel) node (graph node))
          shown ∧ Views.shownNode (scalarViews scalar graph) (fuel + 1) visited node = shown := by
        rw [Views.shownNode, hvisited]
        cases hstate : graph node with
        | none =>
          rw [show scalarViews scalar graph node = none from congrArg (Option.map _) hstate]
          exact ⟨refValue node, .pure _, rfl⟩
        | some state =>
          have hnode : node ∈ keys := by
            by_contra habsent
            rw [hkeys node habsent] at hstate
            cases hstate
          have hless := Views.unvisited_lt hnode hvisited
          have hbehind : ∀ target, Restores I (visited.insert node)
              (Walk.materializeNode scalar fuel target)
              (Views.shownNode (scalarViews scalar graph) fuel (visited.insert node) target) :=
            fun target => ih (by omega) target
          obtain ⟨view, hview, hopened⟩ := restores_materializeState hbehind hstate
          rw [hview]
          exact ⟨_, hopened, rfl⟩
      rw [hshown]
      obtain ⟨after, hafter, hrun⟩ := hbody _ (hserves.load inner node hinner)
      refine ⟨after, hafter, ?_⟩
      change (if visited.contains node then (Pure.pure (refValue node) : Walk σ JsonValue)
        else _) (visited, inner) = _
      rw [hvisited, if_neg Bool.false_ne_true]
      change (Walk.materializeState scalar (Walk.materializeNode scalar fuel) node
        (maybeLoadNode node inner).2.nodes[node]?
        (visited.insert node, (maybeLoadNode node inner).2)).bind
          (fun result => some (result.1, (result.2.1.erase node, result.2.2))) = _
      rw [hserves.shows inner node hinner, hrun, Option.bind_some, erase_insert_visited hvisited]

end Walk

/-! ## The unfolding -/

namespace Views

/-- The tree of a node with the nodes on the way to it: a reference when the node is absent or on
the way, and otherwise its fields with the trees behind it. -/
inductive Unfolds (views : Views) : Set NodeId → NodeId → JsonValue → Prop where
  | cut {way : Set NodeId} {node : NodeId} (hcut : views node = none ∨ node ∈ way) :
    Unfolds views way node (refValue node)
  | opened {way : Set NodeId} {node : NodeId} {view : NodeView} (hview : views node = some view)
    (hnew : node ∉ way) (behind : NodeId → JsonValue)
    (hbehind : ∀ target ∈ view.targets, Unfolds views (insert node way) target (behind target)) :
    Unfolds views way node (view.opened behind)

variable {views : Views} {way : Set NodeId} {node : NodeId} {tree : JsonValue}

theorem mem_targets {view : NodeView} {field : String} {value : VisibleValue}
    (hfield : view.fields[field]? = some value) {target : NodeId}
    (htarget : target ∈ value.targets) : target ∈ view.targets :=
  List.mem_flatMap.mpr ⟨value, BTreeMap.mem_valueList.mpr ⟨field, hfield⟩, htarget⟩

/-- An opened node depends on the trees of its targets only. -/
theorem opened_congr {view : NodeView} {behind other : NodeId → JsonValue}
    (h : ∀ target ∈ view.targets, behind target = other target) :
    view.opened behind = view.opened other := by
  have hfields : ∀ entry ∈ view.fields.toList,
      (entry.1, shownField behind entry.2) = (entry.1, shownField other entry.2) := by
    intro entry hentry
    have hfield := Std.ExtTreeMap.mem_toList_iff_getElem?_eq_some.mp hentry
    rw [shownField_congr fun target htarget => h target (mem_targets hfield htarget)]
  rw [NodeView.opened, NodeView.opened, List.map_congr_left hfields]

private theorem opened_ne_refValue (view : NodeView) (behind : NodeId → JsonValue)
    (other : NodeId) : view.opened behind ≠ refValue other := by
  intro heq
  have hentry := congrArg (JsonValue.entry "$id") heq
  have href : (refValue other).entry "$id" = none := by
    rw [refValue, JsonValue.entry, getEntry_cons, if_neg (by decide)]
    rfl
  rw [NodeView.entry_opened, href] at hentry
  split at hentry <;> cases hentry

/-- The tree of a node is a reference exactly when the node is absent or on the way. -/
theorem Unfolds.ref_iff (h : views.Unfolds way node tree) :
    tree = refValue node ↔ views node = none ∨ node ∈ way := by
  cases h with
  | cut hcut => exact iff_of_true rfl hcut
  | opened hview hnew behind hbehind =>
    refine iff_of_false (opened_ne_refValue _ _ _) ?_
    rintro (hnone | hway)
    · rw [hview] at hnone
      cases hnone
    · exact hnew hway

/-- The tree of a node opens its view. -/
theorem Unfolds.of_view (h : views.Unfolds way node tree) {view : NodeView}
    (hview : views node = some view) (hnew : node ∉ way) :
    ∃ behind : NodeId → JsonValue, tree = view.opened behind ∧
      ∀ target ∈ view.targets, views.Unfolds (insert node way) target (behind target) := by
  cases h with
  | cut hcut =>
    rcases hcut with hnone | hway
    · rw [hview] at hnone
      cases hnone
    · exact absurd hway hnew
  | opened hview' _ behind hbehind =>
    obtain rfl := Option.some.inj (hview.symm.trans hview')
    exact ⟨behind, rfl, hbehind⟩

private theorem Unfolds.unique {other : JsonValue} (h : views.Unfolds way node tree)
    (hother : views.Unfolds way node other) : tree = other := by
  induction h generalizing other with
  | cut hcut => exact (hother.ref_iff.mpr hcut).symm
  | @opened way node view hview hnew behind hbehind ih =>
    obtain ⟨behind', rfl, hbehind'⟩ := hother.of_view hview hnew
    exact opened_congr fun target htarget => ih target htarget (hbehind' target htarget)

theorem setOf_mem_insert (visited : BTreeSet NodeId) (node : NodeId) :
    {n | n ∈ visited.insert node} = insert node {n | n ∈ visited} := by
  ext n
  exact Std.ExtTreeSet.mem_insert.trans (by rw [Std.compare_eq_iff_eq, eq_comm]; rfl)

/-- With enough fuel a node is shown as its tree. -/
theorem unfolds_shownNode {keys : List NodeId} (hkeys : ∀ n, n ∉ keys → views n = none) {fuel : ℕ}
    {visited : BTreeSet NodeId}
    (hfuel : (keys.filter fun key => !visited.contains key).length < fuel) (node : NodeId) :
    views.Unfolds {n | n ∈ visited} node (shownNode views fuel visited node) := by
  induction fuel generalizing visited node with
  | zero => omega
  | succ fuel ih =>
    rw [shownNode]
    cases hvisited : visited.contains node with
    | true => exact .cut (.inr (Std.ExtTreeSet.mem_iff_contains.mpr hvisited))
    | false =>
      rw [if_neg Bool.false_ne_true]
      cases hview : views node with
      | none => exact .cut (.inl hview)
      | some view =>
        have hnode : node ∈ keys := by
          by_contra habsent
          rw [hkeys node habsent] at hview
          cases hview
        have hless := unvisited_lt hnode hvisited
        refine .opened hview (fun hin => ?_) _ fun target _ => ?_
        · rw [Set.mem_ofPred_eq, Std.ExtTreeSet.mem_iff_contains, hvisited] at hin
          cases hin
        · rw [← setOf_mem_insert]
          exact ih (by omega) target

/-- The positions of a tree: the root, and what stands in the fields of the nodes that are opened,
each with the nodes on the way to it from the root. -/
inductive Position (views : Views) (above : Set NodeId) (root : NodeId) (tree : JsonValue) :
    List NodeId → NodeId → JsonValue → Prop where
  | root : Position views above root tree [] root tree
  | link {way : List NodeId} {node target : NodeId} {shown behind : JsonValue} {field : String}
    (hposition : Position views above root tree way node shown) (hnew : node ∉ above ∧ node ∉ way)
    (hfield : views.field node field = some (.link target))
    (hshown : shown.entry field = some behind) :
    Position views above root tree (way ++ [node]) target behind
  | member {way : List NodeId} {node target : NodeId} {shown behind : JsonValue} {field : String}
    {members : List NodeId} {behinds : List JsonValue} {i : ℕ}
    (hposition : Position views above root tree way node shown) (hnew : node ∉ above ∧ node ∉ way)
    (hfield : views.field node field = some (.set members))
    (hshown : shown.entry field = some (.object [("$set", .array behinds)]))
    (hmember : members[i]? = some target) (hbehind : behinds[i]? = some behind) :
    Position views above root tree (way ++ [node]) target behind

/-- Below a node that is opened stand the trees behind it. -/
theorem Unfolds.behind (h : views.Unfolds way node tree) (hnew : node ∉ way) {field : String}
    {value : VisibleValue} (hfield : views.field node field = some value) :
    ∃ behind, tree.entry field = some (shownField behind value) ∧
      ∀ target ∈ value.targets, views.Unfolds (insert node way) target (behind target) := by
  obtain ⟨view, hview, hvalue⟩ := Option.bind_eq_some_iff.mp hfield
  obtain ⟨behind, rfl, hbehind⟩ := h.of_view hview hnew
  refine ⟨behind, ?_, fun target htarget => hbehind target (mem_targets hvalue htarget)⟩
  rw [NodeView.entry_opened, hvalue]

/-- At every position stands the tree of its node with the nodes on the way to it. -/
theorem Unfolds.position {above : Set NodeId} {root : NodeId} (h : views.Unfolds above root tree)
    {way : List NodeId} {node : NodeId} {shown : JsonValue}
    (hposition : views.Position above root tree way node shown) :
    views.Unfolds (above ∪ {n | n ∈ way}) node shown := by
  have hgrows : ∀ (way : List NodeId) (node : NodeId),
      above ∪ {n | n ∈ way ++ [node]} = insert node (above ∪ {n | n ∈ way}) := by
    intro way node
    ext n
    simp only [Set.mem_union, Set.mem_ofPred_eq, List.mem_append, List.mem_singleton,
      Set.mem_insert_iff]
    tauto
  induction hposition with
  | root => simpa using h
  | @link way node target shown behind field _ hnew hfield hshown ih =>
    obtain ⟨trees, hentry, htrees⟩ := ih.behind (by simpa using hnew) hfield
    rw [hshown] at hentry
    cases hentry
    rw [hgrows]
    exact htrees target (List.mem_singleton.mpr rfl)
  | @member way node target shown behind field members behinds i _ hnew hfield hshown hmember
      hbehind ih =>
    obtain ⟨trees, hentry, htrees⟩ := ih.behind (by simpa using hnew) hfield
    rw [hshown] at hentry
    cases hentry
    rw [List.getElem?_map, hmember] at hbehind
    cases hbehind
    rw [hgrows]
    exact htrees target (List.mem_of_getElem? hmember)

end Views

section InMemory

variable {σ : Type} [IncrementalStore σ] (scalar : String → JsonValue → JsonValue) {inner : Inner σ}
  (hstore : inner.storageEngine = none) (visited : BTreeSet NodeId) (node : NodeId) {fuel : ℕ}
  (hfuel : inner.nodes.size < fuel)

omit [IncrementalStore σ] in
include hfuel in
/-- No more nodes are unvisited than there are in memory. -/
theorem unvisited_lt_of_size :
    (inner.nodes.keys.filter fun key => !visited.contains key).length < fuel := by
  rw [← Std.ExtTreeMap.length_keys] at hfuel
  exact (List.length_filter_le _ _).trans_lt hfuel

omit [IncrementalStore σ] in
private theorem getElem?_of_not_mem_keys {n : NodeId} (h : n ∉ inner.nodes.keys) :
    inner.nodes[n]? = none :=
  Std.ExtTreeMap.getElem?_eq_none fun hin => h (Std.ExtTreeMap.mem_keys.mpr hin)

include hstore hfuel

private theorem walk_of_none :
    Walk.materializeNode scalar fuel node (visited, inner) =
      some (Views.shownNode (scalarViews scalar fun node => inner.nodes[node]?) fuel visited node,
        (visited, inner)) := by
  have hrestores : Restores (· = inner) visited (Walk.materializeNode scalar fuel node) _ :=
    restores_materializeNode (serves_of_none hstore) (fun _ => getElem?_of_not_mem_keys)
      (unvisited_lt_of_size visited hfuel) node
  obtain ⟨_, rfl, hrun⟩ := hrestores inner rfl
  exact hrun

end InMemory

/-- Materializing a node in memory returns with the nodes on the way as they were. The tree it
returns is the unfolding of the node, in which a position is a reference exactly when its node is
absent or occurs on the way to it. -/
theorem materialize_unfolds {σ : Type} [IncrementalStore σ]
    (scalar : String → JsonValue → JsonValue) {inner : Inner σ}
    (hstore : inner.storageEngine = none) (visited : BTreeSet NodeId) (node : NodeId) {fuel : ℕ}
    (hfuel : inner.nodes.size < fuel) :
    let views := scalarViews scalar fun node => inner.nodes[node]?
    ∃ tree, Walk.materializeNode scalar fuel node (visited, inner) =
        some (tree, (visited, inner)) ∧
      (∀ other, views.Unfolds {n | n ∈ visited} node other ↔ other = tree) ∧
      ∀ way target shown, views.Position {n | n ∈ visited} node tree way target shown →
        (shown = refValue target ↔
          inner.nodes[target]? = none ∨ target ∈ visited ∨ target ∈ way) := by
  intro views
  have hunfolds := Views.unfolds_shownNode
    (fun n hn => congrArg (Option.map _) (getElem?_of_not_mem_keys hn) : ∀ n, _ → views n = none)
    (unvisited_lt_of_size visited hfuel) node
  refine ⟨_, walk_of_none scalar hstore visited node hfuel,
    fun other => ⟨fun hother => hother.unique hunfolds, ?_⟩, ?_⟩
  · rintro rfl
    exact hunfolds
  · intro way target shown hposition
    rw [(hunfolds.position hposition).ref_iff]
    exact or_congr Option.map_eq_none_iff Iff.rfl

/-- A cycle of two nodes, the second with a link to an absent node. -/
theorem materialize_unfolds_linkedDb :
    let inner := linkedDb [("a", ["b"]), ("b", ["a", "c"])]
    let tree : JsonValue := .object [("$id", .string "a"),
      ("b", .object [("$id", .string "b"), ("a", refValue "a"), ("c", refValue "c")])]
    inner.nodes.size < 3 ∧
      Walk.materializeNode (fun _ value => value) 3 "a" (∅, inner) = some (tree, (∅, inner)) := by
  intro inner tree
  have hsize : inner.nodes.size < 3 := by decide +kernel
  obtain ⟨shown, hrun, -⟩ := materialize_unfolds (fun _ value => value)
    (rfl : inner.storageEngine = none) ∅ "a" hsize
  have hshown : (Walk.materializeNode (fun _ value => value) 3 "a" (∅, inner)).map (·.1) =
      some tree := by decide +kernel
  rw [hrun] at hshown
  obtain rfl : shown = tree := Option.some.inj hshown
  exact ⟨hsize, hrun⟩

end Primadb

import Primadb.Core.Worklist
import Primadb.Db.Read
import Primadb.Graph.Convergence

/-!
# Reads without a store

Without a store a read changes nothing, and what it answers is a function of the views of the
nodes. It asks for the views of the nodes its path leads over and of what is reachable from
there over links and set members, so graphs that agree on these answer alike.
-/

namespace Primadb

/-- What a reader sees of a node. -/
structure NodeView where
  /-- The id shown. -/
  id : NodeId
  /-- The visible value of every field. -/
  fields : BTreeMap String VisibleValue
  deriving DecidableEq

/-- What a reader sees of a node state. -/
def NodeState.view (state : NodeState) : NodeView :=
  ⟨state.id, state.fields.map fun _ field => field.value.visible⟩

/-- What a reader sees of a node in memory. -/
def Inner.view {σ : Type} (inner : Inner σ) (node : NodeId) : Option NodeView :=
  inner.nodes[node]?.map NodeState.view

open Effect

/-- The views of all nodes. -/
abbrev Views := NodeId → Option NodeView

/-- The nodes a visible value leads to. -/
def VisibleValue.targets : VisibleValue → List NodeId
  | .link target => [target]
  | .set members => members
  | .scalar _ | .bytes _ | .blob _ => []

/-- The nodes a node leads to. -/
def NodeView.targets (view : NodeView) : List NodeId :=
  view.fields.valueList.flatMap VisibleValue.targets

namespace Views

/-- The nodes a node leads to; an absent node leads nowhere. -/
def successors (views : Views) (node : NodeId) : List NodeId :=
  ((views node).map NodeView.targets).getD []

/-- The visible value of a field. -/
def field (views : Views) (node : NodeId) (name : String) : Option VisibleValue :=
  (views node).bind fun view => view.fields[name]?

/-- What a field leads to, its node leads to. -/
theorem mem_successors {views : Views} {node target : NodeId} {name : String}
    {value : VisibleValue} (hvalue : views.field node name = some value)
    (htarget : target ∈ value.targets) : target ∈ views.successors node := by
  obtain ⟨view, hview, hfield⟩ := Option.bind_eq_some_iff.mp hvalue
  rw [successors, hview]
  exact List.mem_flatMap.mpr ⟨value, BTreeMap.mem_valueList.mpr ⟨name, hfield⟩, htarget⟩

/-- The JSON shown for a visible value, given that of nodes. -/
def shownField (node : NodeId → JsonValue) : VisibleValue → JsonValue
  | .scalar value => value
  | .bytes bytes => bytesMarkerValue bytes
  | .blob reference => blobMarkerValue reference
  | .link target => node target
  | .set members => .object [("$set", .array (members.map node))]

/-- The JSON shown for a node that is not on the path `visited`. -/
def shownNode (views : Views) : ℕ → BTreeSet NodeId → NodeId → JsonValue
  | 0, _, _ => .null
  | fuel + 1, visited, node =>
    if visited.contains node then refValue node
    else
      match views node with
      | some view =>
        .object ((view.fields.toList.map fun entry =>
          (entry.1, shownField (shownNode views fuel (visited.insert node)) entry.2)).foldl
            (fun object entry => insertEntry entry.1 entry.2 object) [("$id", .string view.id)])
      | none => refValue node

/-- Follow the segments of a path. -/
def follow (views : Views) : NodeId → List String → Except PrimadbError (Option NodeId)
  | current, [] => .ok (some current)
  | current, segment :: rest =>
    match views.field current segment with
    | none => .ok none
    | some (.link target) => follow views target rest
    | some (.scalar _) | some (.bytes _) | some (.blob _) =>
      .error (.traversalIntoScalar current segment)
    | some (.set _) => .error (.traversalIntoSet current segment)

/-- The value at a path: the node itself, a field of it, or the value at the rest of the path
behind a link. -/
def valueAt (views : Views) (fuel : ℕ) :
    NodeId → List String → Except PrimadbError (Option JsonValue)
  | current, [] => .ok ((views current).map fun _ => shownNode views fuel ∅ current)
  | current, [segment] =>
    .ok ((views.field current segment).map (shownField (shownNode views fuel ∅)))
  | current, segment :: next :: rest =>
    match views.field current segment with
    | none => .ok none
    | some (.link target) => valueAt views fuel target (next :: rest)
    | some (.scalar _) | some (.bytes _) | some (.blob _) =>
      .error (.traversalIntoScalar current segment)
    | some (.set _) => .error (.traversalIntoSet current segment)

/-- The entries of a node, each shown on its own. -/
def entries (views : Views) (fuel : ℕ) (node : NodeId) : List (String × JsonValue) :=
  ((views node).map fun view => view.fields.toList.map fun entry =>
    (entry.1, shownField (shownNode views fuel ∅) entry.2)).getD []

/-- The entries of the node or set at a path. -/
def entriesAt (views : Views) (fuel : ℕ) (anchor : NodeId) (segments : List String) :
    Except PrimadbError (List (String × JsonValue)) :=
  if segments.isEmpty then .ok (views.entries fuel anchor)
  else
    match views.follow anchor segments.dropLast with
    | .error e => .error e
    | .ok none => .ok []
    | .ok (some node) =>
      match views.field node (segments.getLast?.getD "") with
      | some (.link target) => .ok (views.entries fuel target)
      | some (.set members) => .ok (members.zip (members.map (shownNode views fuel ∅)))
      | some (.scalar _) | some (.bytes _) | some (.blob _) | none => .ok []

/-- The value behind a followed path is the one at its last segment. -/
theorem valueAt_concat (views : Views) (fuel : ℕ) (current : NodeId) (segments : List String)
    (last : String) :
    views.valueAt fuel current (segments ++ [last]) =
      match views.follow current segments with
      | .ok (some node) =>
        .ok ((views.field node last).map (shownField (shownNode views fuel ∅)))
      | .ok none => .ok none
      | .error e => .error e := by
  induction segments generalizing current with
  | nil => rfl
  | cons segment segments ih =>
    obtain ⟨next, rest, heq⟩ : ∃ next rest, segments ++ [last] = next :: rest := by
      cases segments with
      | nil => exact ⟨last, [], rfl⟩
      | cons next rest => exact ⟨next, rest ++ [last], rfl⟩
    rw [List.cons_append, heq, valueAt, follow]
    cases views.field current segment with
    | none => rfl
    | some value =>
      cases value with
      | link target =>
        simp only
        rw [← heq]
        exact ih target
      | _ => rfl

section Agree

variable {views views' : Views}

/-- A field is shown by its targets alone. -/
theorem shownField_congr {node node' : NodeId → JsonValue} {value : VisibleValue}
    (h : ∀ target ∈ value.targets, node' target = node target) :
    shownField node' value = shownField node value := by
  cases value with
  | link target => exact h target List.mem_cons_self
  | set members =>
    have hmap : members.map node' = members.map node := List.map_congr_left h
    rw [shownField, shownField, hmap]
  | _ => rfl

/-- Graphs that agree on what is reachable from a node show it alike. -/
theorem shownNode_congr {fuel : ℕ} {visited : BTreeSet NodeId} {node : NodeId}
    (h : ∀ m, Worklist.Reach views.successors node m → views' m = views m) :
    shownNode views' fuel visited node = shownNode views fuel visited node := by
  induction fuel generalizing visited node with
  | zero => rfl
  | succ fuel ih =>
    simp only [shownNode, h node .refl]
    split
    · rfl
    · cases hview : views node with
      | none => rfl
      | some view =>
        have hfields : ∀ entry ∈ view.fields.toList,
            shownField (shownNode views' fuel (visited.insert node)) entry.2 =
              shownField (shownNode views fuel (visited.insert node)) entry.2 := by
          intro entry hentry
          have hfield : views.field node entry.1 = some entry.2 := by
            rw [field, hview]
            exact Std.ExtTreeMap.mem_toList_iff_getElem?_eq_some.mp hentry
          refine shownField_congr fun target htarget => ih fun m hm => h m ?_
          exact .head (mem_successors hfield htarget) hm
        simp only
        rw [List.map_congr_left fun entry hentry => by rw [hfields entry hentry]]

/-- Graphs that agree on what is reachable from a node have the same values at all paths
from it. -/
theorem valueAt_congr {fuel : ℕ} {current : NodeId} {segments : List String}
    (h : ∀ m, Worklist.Reach views.successors current m → views' m = views m) :
    views'.valueAt fuel current segments = views.valueAt fuel current segments := by
  have hfield : ∀ node name, views' node = views node →
      views'.field node name = views.field node name := by
    intro node name hview
    rw [field, hview, field]
  induction segments generalizing current with
  | nil =>
    rw [valueAt, valueAt, h current .refl, shownNode_congr h]
  | cons segment rest ih =>
    cases rest with
    | nil =>
      rw [valueAt, valueAt, hfield current segment (h current .refl)]
      cases hvalue : views.field current segment with
      | none => rfl
      | some value =>
        refine congrArg (fun value => Except.ok (some value)) (shownField_congr ?_)
        intro target htarget
        exact shownNode_congr fun m hm => h m (.head (mem_successors hvalue htarget) hm)
    | cons next rest =>
      rw [valueAt, valueAt, hfield current segment (h current .refl)]
      cases hvalue : views.field current segment with
      | none => rfl
      | some value =>
        cases value with
        | link target =>
          exact ih fun m hm => h m (.head (mem_successors hvalue List.mem_cons_self) hm)
        | _ => rfl

/-- Graphs that agree on what is reachable from a node show its entries alike. -/
theorem entries_congr {fuel : ℕ} {node : NodeId}
    (h : ∀ m, Worklist.Reach views.successors node m → views' m = views m) :
    views'.entries fuel node = views.entries fuel node := by
  rw [entries, entries, h node .refl]
  cases hview : views node with
  | none => rfl
  | some view =>
    refine List.map_congr_left fun entry hentry => ?_
    have hfield : views.field node entry.1 = some entry.2 := by
      rw [field, hview]
      exact Std.ExtTreeMap.mem_toList_iff_getElem?_eq_some.mp hentry
    refine congrArg (Prod.mk entry.1) (shownField_congr fun target htarget => ?_)
    exact shownNode_congr fun m hm => h m (.head (mem_successors hfield htarget) hm)

/-- Graphs that agree on what is reachable from a node follow paths from it alike, and what is
reached is reachable. -/
theorem follow_congr {current : NodeId} {segments : List String}
    (h : ∀ m, Worklist.Reach views.successors current m → views' m = views m) :
    views'.follow current segments = views.follow current segments ∧
      ∀ node, views.follow current segments = .ok (some node) →
        Worklist.Reach views.successors current node := by
  induction segments generalizing current with
  | nil =>
    refine ⟨rfl, fun node hnode => ?_⟩
    cases hnode
    exact .refl
  | cons segment rest ih =>
    have hfield : views'.field current segment = views.field current segment := by
      rw [field, h current .refl, field]
    rw [follow, follow, hfield]
    cases hvalue : views.field current segment with
    | none => exact ⟨rfl, fun node hnode => by cases hnode⟩
    | some value =>
      cases value with
      | link target =>
        have hstep := mem_successors hvalue List.mem_cons_self
        obtain ⟨hfollow, hreach⟩ := ih fun m hm => h m (.head hstep hm)
        exact ⟨hfollow, fun node hnode => .head hstep (hreach node hnode)⟩
      | _ => exact ⟨rfl, fun node hnode => by cases hnode⟩

/-- Graphs that agree on what is reachable from a node have the same entries at all paths
from it. -/
theorem entriesAt_congr {fuel : ℕ} {anchor : NodeId} {segments : List String}
    (h : ∀ m, Worklist.Reach views.successors anchor m → views' m = views m) :
    views'.entriesAt fuel anchor segments = views.entriesAt fuel anchor segments := by
  obtain ⟨hfollow, hreach⟩ := @follow_congr views views' anchor segments.dropLast h
  rw [entriesAt, entriesAt, entries_congr h, hfollow]
  split
  · rfl
  · cases hplace : views.follow anchor segments.dropLast with
    | error e => rfl
    | ok place =>
      cases place with
      | none => rfl
      | some node =>
        have hnode := hreach node hplace
        have hfield : views'.field node (segments.getLast?.getD "") =
            views.field node (segments.getLast?.getD "") := by
          rw [field, h node hnode, field]
        simp only [hfield]
        cases hvalue : views.field node (segments.getLast?.getD "") with
        | none => rfl
        | some value =>
          have hbehind : ∀ target ∈ value.targets, ∀ m,
              Worklist.Reach views.successors target m → views' m = views m :=
            fun target htarget m hm =>
              h m (hnode.trans (.head (mem_successors hvalue htarget) hm))
          cases value with
          | link target =>
            exact congrArg Except.ok (entries_congr (hbehind target List.mem_cons_self))
          | set members =>
            have hmap : members.map (shownNode views' fuel ∅) =
                members.map (shownNode views fuel ∅) :=
              List.map_congr_left fun target htarget => shownNode_congr (hbehind target htarget)
            simp only [hmap]
          | _ => rfl

end Agree

section Fuel

/-- Expanding a node leaves fewer nodes to expand. -/
theorem unvisited_lt {keys : List NodeId} {visited : BTreeSet NodeId} {node : NodeId}
    (hnode : node ∈ keys) (hvisited : visited.contains node = false) :
    (keys.filter fun key => !(visited.insert node).contains key).length <
      (keys.filter fun key => !visited.contains key).length := by
  have hsplit : (keys.filter fun key => !(visited.insert node).contains key) =
      (keys.filter fun key => !visited.contains key).filter fun key => !decide (node = key) := by
    rw [List.filter_filter]
    exact List.filter_congr fun key _ => by rw [BTreeSet.contains_insert, Bool.not_or]
  rw [hsplit, List.length_filter_lt_length_iff_exists]
  exact ⟨node, List.mem_filter.mpr ⟨hnode, by rw [hvisited]; rfl⟩, by simp⟩

variable {views : Views} {keys : List NodeId} (hkeys : ∀ n, n ∉ keys → views n = none)
include hkeys

/-- With more fuel than nodes to expand, the fuel does not matter. -/
theorem shownNode_fuel {fuel fuel' : ℕ} {visited : BTreeSet NodeId} {node : NodeId}
    (hfuel : (keys.filter fun key => !visited.contains key).length < fuel)
    (hfuel' : (keys.filter fun key => !visited.contains key).length < fuel') :
    shownNode views fuel visited node = shownNode views fuel' visited node := by
  induction fuel generalizing fuel' visited node with
  | zero => omega
  | succ fuel ih =>
    cases fuel' with
    | zero => omega
    | succ fuel' =>
      simp only [shownNode]
      split
      · rfl
      · rename_i hvisited
        cases hview : views node with
        | none => rfl
        | some view =>
          have hnode : node ∈ keys := by
            by_contra habsent
            rw [hkeys node habsent] at hview
            cases hview
          have hless := unvisited_lt hnode (Bool.eq_false_iff.mpr hvisited)
          have hnodes : shownNode views fuel (visited.insert node) =
              shownNode views fuel' (visited.insert node) :=
            funext fun target => ih (by omega) (by omega)
          rw [hnodes]

/-- With more fuel than nodes, values do not depend on the fuel. -/
theorem valueAt_fuel {fuel fuel' : ℕ} (hfuel : keys.length < fuel) (hfuel' : keys.length < fuel')
    (current : NodeId) (segments : List String) :
    views.valueAt fuel current segments = views.valueAt fuel' current segments := by
  have hnodes : shownNode views fuel ∅ = shownNode views fuel' ∅ := by
    have hle := List.length_filter_le (fun key => !(∅ : BTreeSet NodeId).contains key) keys
    exact funext fun node => shownNode_fuel hkeys (by omega) (by omega)
  induction segments generalizing current with
  | nil => rw [valueAt, valueAt, hnodes]
  | cons segment rest ih =>
    cases rest with
    | nil => rw [valueAt, valueAt, hnodes]
    | cons next rest =>
      rw [valueAt, valueAt]
      cases views.field current segment with
      | none => rfl
      | some value =>
        cases value with
        | link target => exact ih target
        | _ => rfl

end Fuel

end Views

namespace Inner

variable {σ : Type} [IncrementalStore σ] {inner : Inner σ}

omit [IncrementalStore σ] in
theorem field_view (inner : Inner σ) (node : NodeId) (name : String) :
    Views.field inner.view node name = (inner.fieldValue node name).map FieldValue.visible := by
  rw [Views.field, view, fieldValue]
  cases inner.nodes[node]? with
  | none => rfl
  | some state => simp [NodeState.view, Option.map_map, Function.comp_def]

/-- Without a store asking for a node changes nothing. -/
theorem maybeLoadNode_of_none (h : inner.storageEngine = none) (node : NodeId) :
    maybeLoadNode node inner = (.ok (inner.view node).isSome, inner) := by
  rw [maybeLoadNode, resident, view]
  cases hnode : inner.nodes[node]? with
  | none =>
    simp only [Bool.false_eq_true, if_false, h]
    split <;> rfl
  | some state => simp [h]

section Pure

variable {node : NodeId → Inner σ → JsonValue × Inner σ} {shown : NodeId → JsonValue}
  (h : ∀ id, node id inner = (shown id, inner))
include h

omit [IncrementalStore σ] in
/-- Nodes that are only looked at, one after another. -/
theorem materializeAll_of_pure (ids : List NodeId) :
    materializeAll node ids inner = (ids.map shown, inner) := by
  induction ids with
  | nil => rfl
  | cons id ids ih => simp only [materializeAll, h id, ih, List.map_cons]

omit [IncrementalStore σ] in
/-- A field of nodes that are only looked at. -/
theorem materializeField_of_pure (value : FieldValue) :
    materializeField node value inner = (Views.shownField shown value.visible, inner) := by
  cases value with
  | link target => exact h target
  | set set =>
    simp only [materializeField, materializeAll_of_pure h]
    rfl
  | _ => rfl

omit [IncrementalStore σ] in
/-- The fields of a node among nodes that are only looked at. -/
theorem materializeFields_of_pure (fields : List (String × FieldState)) :
    materializeFields node fields inner =
      (fields.map fun entry => (entry.1, Views.shownField shown entry.2.value.visible), inner) := by
  induction fields with
  | nil => rfl
  | cons entry fields ih =>
    simp only [materializeFields, materializeField_of_pure h, ih, List.map_cons]

end Pure

omit [IncrementalStore σ] in
private theorem toList_view_fields (state : NodeState) :
    state.view.fields.toList =
      state.fields.toList.map fun entry => (entry.1, entry.2.value.visible) := by
  simp [NodeState.view, Std.ExtTreeMap.toList_map]

/-- Without a store nodes are materialized as their views are shown. -/
theorem materializeNode_of_none (h : inner.storageEngine = none) (fuel : ℕ)
    (visited : BTreeSet NodeId) (node : NodeId) :
    materializeNode fuel visited node inner =
      (Views.shownNode inner.view fuel visited node, inner) := by
  induction fuel generalizing visited node with
  | zero => rfl
  | succ fuel ih =>
    simp only [materializeNode, Views.shownNode, maybeLoadNode_of_none h]
    split
    · rfl
    · cases hnode : inner.nodes[node]? with
      | none => simp [view, hnode]
      | some state =>
        simp only [view, hnode, Option.map_some,
          materializeFields_of_pure (ih (visited.insert node)), toList_view_fields, List.map_map]
        rfl

private theorem resolvePath_of_none (h : inner.storageEngine = none) (current : NodeId)
    (segments : List String) :
    resolvePath current segments inner = (Views.follow inner.view current segments, inner) := by
  induction segments generalizing current with
  | nil => rfl
  | cons segment rest ih =>
    rw [resolvePath, bind_ok (maybeLoadNode_of_none h current), Views.follow, field_view]
    cases hview : inner.view current with
    | none =>
      have hnone : inner.fieldValue current segment = none := by
        rw [view, Option.map_eq_none_iff] at hview
        simp [fieldValue, hview]
      rw [hnone]
      rfl
    | some nodeView =>
      simp only [Option.isSome_some, Bool.not_true, Bool.false_eq_true, if_false, get_bind]
      cases inner.fieldValue current segment with
      | none => rfl
      | some value =>
        cases value with
        | link target => exact ih target
        | _ => rfl

/-- Without a store the place a path names is found over views. -/
theorem resolveCursor_of_none (h : inner.storageEngine = none) (anchor : NodeId)
    (segments : List String) :
    resolveCursor anchor segments inner =
      (if (inner.view anchor).isNone then .ok none
        else if segments.isEmpty then .ok (some (.node anchor))
        else
          match Views.follow inner.view anchor segments.dropLast with
          | .error e => .error e
          | .ok none => .ok none
          | .ok (some node) =>
            if (inner.view node).isNone then .ok none
            else .ok (some (.field node (segments.getLast?.getD ""))), inner) := by
  rw [resolveCursor, bind_ok (maybeLoadNode_of_none h anchor)]
  cases inner.view anchor with
  | none => rfl
  | some nodeView =>
    simp only [Option.isSome_some, Bool.not_true, Bool.false_eq_true, if_false, Option.isNone_some]
    split
    · rfl
    · cases hfollow : Views.follow inner.view anchor segments.dropLast with
      | error e =>
        exact bind_error (by rw [resolvePath_of_none h, hfollow])
      | ok place =>
        rw [bind_ok (a := place) (t := inner) (by rw [resolvePath_of_none h, hfollow])]
        cases place with
        | none => rfl
        | some node =>
          simp only
          rw [bind_ok (maybeLoadNode_of_none h node)]
          cases inner.view node with
          | none => rfl
          | some nodeView => rfl

omit [IncrementalStore σ] in
private theorem field_of_view_none {node : NodeId} (h : inner.view node = none) (name : String) :
    Views.field inner.view node name = none := by
  rw [Views.field, h]
  rfl

/-- Without a store, what is read at the end of a path with segments is read over views. -/
private theorem resolved_of_none {α : Type} (h : inner.storageEngine = none) (anchor : NodeId)
    {segments : List String} (hsegments : segments.isEmpty = false)
    {g : Option Cursor → Call σ α} {a : α} {f : NodeId → Except PrimadbError α}
    (hnone : g none = pure a) (habsent : ∀ node, inner.view node = none → f node = .ok a)
    (hfield : ∀ node, g (some (.field node (segments.getLast?.getD ""))) inner = (f node, inner)) :
    (resolveCursor anchor segments >>= g) inner =
      (match Views.follow inner.view anchor segments.dropLast with
        | .error e => .error e
        | .ok none => .ok a
        | .ok (some node) => f node, inner) := by
  have hcursor := resolveCursor_of_none h anchor segments
  rw [hsegments] at hcursor
  cases hview : inner.view anchor with
  | none =>
    -- an absent anchor leads nowhere
    rw [hview] at hcursor
    rw [bind_ok hcursor, hnone]
    cases segments.dropLast with
    | nil => simp only [Views.follow, habsent anchor hview]; rfl
    | cons segment rest => simp only [Views.follow, field_of_view_none hview]; rfl
  | some nodeView =>
    rw [hview] at hcursor
    cases hfollow : Views.follow inner.view anchor segments.dropLast with
    | error e =>
      rw [hfollow] at hcursor
      rw [bind_error hcursor]
    | ok place =>
      rw [hfollow] at hcursor
      cases place with
      | none =>
        rw [bind_ok hcursor, hnone]
        rfl
      | some node =>
        cases hnode : inner.view node with
        | none =>
          simp only [hnode, Option.isNone_some, Option.isNone_none, Bool.false_eq_true, if_false,
            if_true] at hcursor
          rw [bind_ok hcursor, hnone]
          exact congrArg (·, inner) (habsent node hnode).symm
        | some view =>
          simp only [hnode, Option.isNone_some, Bool.false_eq_true, if_false] at hcursor
          rw [bind_ok hcursor, hfield]

/-- Without a store a read answers the value at its path. -/
theorem onceJson_of_none (h : inner.storageEngine = none) (fuel : ℕ) (anchor : NodeId)
    (segments : List String) :
    onceJson fuel anchor segments inner =
      (Views.valueAt inner.view fuel anchor segments, inner) := by
  rw [onceJson]
  rcases List.eq_nil_or_concat segments with rfl | ⟨init, last, heq⟩
  · have hcursor := resolveCursor_of_none h anchor []
    cases hview : inner.view anchor with
    | none =>
      rw [hview] at hcursor
      rw [bind_ok hcursor, Views.valueAt, hview]
      rfl
    | some nodeView =>
      rw [hview] at hcursor
      rw [bind_ok hcursor, Views.valueAt, hview]
      simp only [bind_apply, lift, materializeNode_of_none h]
      rfl
  · rw [List.concat_eq_append] at heq
    subst heq
    have hlast : (init ++ [last]).getLast?.getD "" = last := by simp
    rw [Views.valueAt_concat, resolved_of_none h anchor (by simp) (a := none)
      (f := fun node => .ok ((Views.field inner.view node last).map
        (Views.shownField (Views.shownNode inner.view fuel ∅)))) rfl
      (fun node hnode => by simp only [field_of_view_none hnode, Option.map_none])
      fun node => ?_, List.dropLast_concat]
    · cases Views.follow inner.view anchor init with
      | error e => rfl
      | ok place => cases place <;> rfl
    · rw [hlast]
      simp only [get_bind, field_view]
      cases inner.fieldValue node last with
      | none => rfl
      | some value =>
        simp only [bind_apply, lift, materializeField_of_pure (materializeNode_of_none h fuel ∅)]
        rfl

/-- Without a store `map` answers the entries at its path. -/
theorem mapAt_of_none (h : inner.storageEngine = none) (fuel : ℕ) (anchor : NodeId)
    (segments : List String) :
    mapAt fuel anchor segments inner =
      (Views.entriesAt inner.view fuel anchor segments, inner) := by
  have hmap : ∀ node, mapNode fuel node inner = (Views.entries inner.view fuel node, inner) := by
    intro node
    simp only [mapNode, maybeLoadNode_of_none h, Views.entries, view]
    cases inner.nodes[node]? with
    | none => rfl
    | some state =>
      simp only [materializeFields_of_pure (materializeNode_of_none h fuel ∅), Option.map_some,
        Option.getD_some, toList_view_fields, List.map_map]
      rfl
  rw [mapAt, Views.entriesAt]
  split
  · rename_i hempty
    have hcursor := resolveCursor_of_none h anchor segments
    rw [hempty] at hcursor
    cases hview : inner.view anchor with
    | none =>
      rw [hview] at hcursor
      rw [bind_ok hcursor, Views.entries, hview]
      rfl
    | some nodeView =>
      rw [hview] at hcursor
      rw [bind_ok hcursor]
      simp only [lift, hmap]
  · rename_i hnonempty
    refine resolved_of_none h anchor (Bool.eq_false_iff.mpr hnonempty) rfl
      (fun node hnode => by simp only [field_of_view_none hnode]) fun node => ?_
    simp only [get_bind, field_view]
    cases inner.fieldValue node (segments.getLast?.getD "") with
    | none => rfl
    | some value =>
      cases value with
      | link target => simp only [lift, hmap]; rfl
      | set set =>
        simp only [bind_apply, lift, materializeAll_of_pure (materializeNode_of_none h fuel ∅)]
        rfl
      | _ => rfl

end Inner

/-- The entry of an object that starts with a given one. -/
theorem getEntry_cons (key k : String) (value : JsonValue) (rest : List (String × JsonValue)) :
    getEntry k ((key, value) :: rest) = if key = k then some value else getEntry k rest := by
  by_cases h : key = k
  · rw [if_pos h, getEntry, List.lookup_cons, h, beq_self_eq_true]
  · rw [if_neg h, getEntry, List.lookup_cons, beq_eq_false_iff_ne.mpr (Ne.symm h)]
    rfl

/-- An insertion changes the entry of its key alone. -/
theorem getEntry_insertEntry (key k : String) (value : JsonValue)
    (entries : List (String × JsonValue)) :
    getEntry k (insertEntry key value entries) =
      if key = k then some value else getEntry k entries := by
  induction entries with
  | nil => rw [insertEntry, getEntry_cons]
  | cons entry rest ih =>
    obtain ⟨first, v⟩ := entry
    rw [insertEntry]
    split
    · rw [getEntry_cons]
    · split
      · rename_i heq
        rw [getEntry_cons, getEntry_cons, heq]
        split <;> rfl
      · rename_i hne
        rw [getEntry_cons, getEntry_cons, ih]
        split
        · rename_i hfirst
          rw [if_neg (hfirst ▸ hne)]
        · rfl

/-- The entry of an object. -/
def JsonValue.entry (key : String) : JsonValue → Option JsonValue
  | .object entries => getEntry key entries
  | _ => none

/-- The JSON of a node whose fields are shown, given that of nodes. -/
def NodeView.opened (view : NodeView) (node : NodeId → JsonValue) : JsonValue :=
  .object ((view.fields.toList.map fun entry => (entry.1, Views.shownField node entry.2)).foldl
    (fun object entry => insertEntry entry.1 entry.2 object) [("$id", .string view.id)])

/-- The entries of a node whose fields are shown are its fields, and its id. -/
theorem NodeView.entry_opened (view : NodeView) (node : NodeId → JsonValue) (key : String) :
    (view.opened node).entry key =
      match view.fields[key]? with
      | some value => some (Views.shownField node value)
      | none => getEntry key [("$id", .string view.id)] := by
  simp only [opened, JsonValue.entry, List.foldl_map]
  rw [BTreeMap.foldl_toList_at view.fields (π := getEntry key) (k := key)
    (g := fun _ value => some (Views.shownField node value))
    (fun entries a value _ => getEntry_insertEntry a key _ entries)]
  cases view.fields[key]? <;> rfl

namespace Views

variable {views : Views} {fuel : ℕ}

/-- The entries of a node that is not shown yet. -/
theorem entry_shownNode {visited : BTreeSet NodeId} {node : NodeId} {view : NodeView}
    (hview : views node = some view) (hvisited : visited.contains node = false) (key : String) :
    (shownNode views (fuel + 1) visited node).entry key =
      match view.fields[key]? with
      | some value => some (shownField (shownNode views fuel (visited.insert node)) value)
      | none => getEntry key [("$id", .string view.id)] := by
  rw [shownNode, hvisited, if_neg Bool.false_ne_true, hview]
  exact view.entry_opened _ key

end Views

end Primadb

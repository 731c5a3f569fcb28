import Primadb.Data.Query
import Primadb.Db.InMemory
import Primadb.Db.Relationships

/-!
# Traversals

A traversal starts at the nodes a path leads to and follows edges of the relationship index
breadth first or depth first. It emits the nodes that pass its filters, up to a limit, and
follows edges up to a depth. The fuel bounds the number of frames taken from the frontier.
-/

namespace Primadb

open Effect

/-- The edges a traversal follows. -/
inductive TraversalDirection where
  | outbound
  | inbound
  | both
  deriving DecidableEq

/-- The end of the frontier a traversal goes on from. -/
inductive TraversalStrategy where
  | bfs
  | dfs
  deriving DecidableEq

/-- What a traversal does. -/
structure TraversalSpec where
  /-- The edges followed. -/
  direction : TraversalDirection
  /-- The order of the visits. -/
  strategy : TraversalStrategy
  /-- The greatest depth followed. -/
  maxDepth : ℕ
  /-- The greatest number of entries. -/
  limit : Option ℕ
  /-- The fields whose edges are followed; all when absent. -/
  edgeFields : Option (List String)
  /-- Whether links are followed. -/
  followLinks : Bool
  /-- Whether set members are followed. -/
  followSets : Bool
  /-- Whether the starting nodes are emitted. -/
  includeStart : Bool
  /-- Whether entries carry values. -/
  includeValues : Bool
  /-- The filters of entries. -/
  filters : List QueryFilter
  deriving DecidableEq

/-- A node to visit. -/
structure TraversalFrame where
  node : NodeId
  /-- Its distance from the start. -/
  depth : ℕ
  /-- The nodes on the way to it. -/
  path : List NodeId
  /-- The edge it was reached over. -/
  via : Option TraversalEdge
  deriving DecidableEq

/-- An emitted node. -/
structure TraversalEntry where
  nodeId : NodeId
  /-- Its distance from the start. -/
  depth : ℕ
  /-- The nodes on the way to it. -/
  path : List NodeId
  /-- The edge it was reached over. -/
  via : Option TraversalEdge
  /-- Its value, when values are asked for. -/
  value : Option JsonValue
  deriving DecidableEq

/-- The result of a traversal. -/
structure TraversalResult where
  /-- The emitted nodes. -/
  entries : List TraversalEntry
  /-- Whether nothing was left out. -/
  complete : Bool
  /-- Whether time ran out. -/
  timedOut : Bool
  /-- Whether edges were left at the greatest depth. -/
  depthLimitReached : Bool
  /-- Whether a node was left out for the limit. -/
  resultLimitReached : Bool
  /-- The number of nodes fetched. -/
  fetched : ℕ
  /-- The nodes that are absent. -/
  missing : List NodeId
  /-- The nodes that were refused. -/
  denied : List NodeId
  deriving DecidableEq

/-- The variables of the loop. -/
structure TraversalState where
  /-- The nodes to visit. -/
  frontier : List TraversalFrame
  /-- The nodes visited. -/
  visited : BTreeSet NodeId
  /-- The entries so far. -/
  entries : List TraversalEntry
  /-- The absent nodes so far. -/
  missing : BTreeSet NodeId
  /-- Whether edges were left at the greatest depth. -/
  depthLimitReached : Bool
  /-- Whether a node was left out for the limit. -/
  resultLimitReached : Bool

namespace TraversalSpec

/-- Whether the values of nodes are read. -/
def needsValue (spec : TraversalSpec) : Bool := spec.includeValues || !spec.filters.isEmpty

/-- Whether a node at a depth is emitted when it matches. -/
def emits (spec : TraversalSpec) (depth : ℕ) : Bool := decide (0 < depth) || spec.includeStart

/-- The test of a node's value. -/
def matchesNode (spec : TraversalSpec) (node : NodeId) (value : JsonValue) : Bool :=
  spec.filters.all (QueryFilter.matchesFilterParts node value)

/-- Whether an edge is followed. -/
def keepsEdge (spec : TraversalSpec) (edge : TraversalEdge) : Bool :=
  spec.edgeFields.all (·.contains edge.field) &&
    match edge.kind with
    | .link => spec.followLinks
    | .setMember => spec.followSets

/-- The greatest number of entries; `usize::MAX` when none is given. -/
def limitValue (spec : TraversalSpec) : ℕ := spec.limit.getD (2 ^ 64 - 1)

end TraversalSpec

namespace TraversalState

/-- Take the next frame off the frontier. -/
def pop (strategy : TraversalStrategy) (st : TraversalState) :
    Option (TraversalFrame × TraversalState) :=
  match strategy with
  | .bfs => st.frontier.head?.map fun frame => (frame, { st with frontier := st.frontier.tail })
  | .dfs =>
    st.frontier.getLast?.map fun frame => (frame, { st with frontier := st.frontier.dropLast })

/-- Emit a node that matches, unless the limit is reached. -/
def emit (spec : TraversalSpec) (frame : TraversalFrame) (value : Option JsonValue)
    (st : TraversalState) : TraversalState :=
  if spec.limitValue ≤ st.entries.length then { st with resultLimitReached := true }
  else
    { st with
      entries := st.entries ++ [⟨frame.node, frame.depth, frame.path, frame.via, value⟩] }

/-- Go on over the edges of a node. -/
def expand (spec : TraversalSpec) (frame : TraversalFrame) (edges : List TraversalEdge)
    (st : TraversalState) : TraversalState :=
  if spec.maxDepth ≤ frame.depth then
    { st with depthLimitReached := st.depthLimitReached || !edges.isEmpty }
  else
    { st with
      frontier := st.frontier ++ edges.filterMap fun edge =>
        let next := if edge.source = frame.node then edge.target else edge.source
        if st.visited.contains next then none
        else some ⟨next, frame.depth + 1, frame.path ++ [next], some edge⟩ }

end TraversalState

/-- `sort_unstable` and `dedup`. -/
def sortDedup (edges : List TraversalEdge) : List TraversalEdge :=
  (edges.foldl (fun set edge => set.insert edge) (∅ : BTreeSet TraversalEdge)).toList

/-- `materialize_field_shallow`. -/
def materializeFieldShallow : FieldValue → JsonValue
  | .scalar value => value
  | .bytes bytes => bytesMarkerValue bytes
  | .blob reference => blobMarkerValue reference
  | .link target => .object [("$link", .string target)]
  | .set set =>
    .object [("$set", .array (set.members.keys.map fun member =>
      .object [("$link", .string member)]))]

/-- The shallow value of a node state. -/
def NodeState.shallow (state : NodeState) : JsonValue :=
  .object ((state.fields.toList.map fun entry =>
    (entry.1, materializeFieldShallow entry.2.value)).foldl
      (fun object entry => insertEntry entry.1 entry.2 object) [("$id", .string state.id)])

/-- The edges of a node a traversal follows. -/
def RelationshipIndex.followedEdges (index : RelationshipIndex) (spec : TraversalSpec)
    (node : NodeId) : List TraversalEdge :=
  let outbound := if spec.direction = .inbound then [] else (group index.outbound node).toList
  let inbound := if spec.direction = .outbound then [] else (group index.inbound node).toList
  sortDedup ((outbound ++ inbound).filter spec.keepsEdge)

section Calls

variable {σ : Type} [IncrementalStore σ]

/-- `materialize_node_shallow`. -/
def materializeNodeShallow (node : NodeId) : Call σ (Option JsonValue) := do
  let found ← maybeLoadNode node
  if !found then pure none
  else gets fun inner => inner.nodes[node]?.map NodeState.shallow

/-- `traversal_node_match_and_value`. -/
def traversalNodeMatchAndValue (node : NodeId) (spec : TraversalSpec) :
    Call σ (Bool × Option JsonValue) :=
  if !spec.needsValue then pure (true, none)
  else do
    match ← materializeNodeShallow node with
    | none => pure (false, none)
    | some value =>
      pure (spec.matchesNode node value, if spec.includeValues then some value else none)

/-- `traversal_edges`. -/
def traversalEdges (node : NodeId) (spec : TraversalSpec) : Call σ (List TraversalEdge) := do
  let _ ← maybeLoadNode node
  gets fun inner => inner.relationshipIndex.followedEdges spec node

/-- Emit the node of a frame when it is due and matches. -/
def emitFrame (spec : TraversalSpec) (frame : TraversalFrame) (st : TraversalState) :
    Call σ TraversalState :=
  if spec.emits frame.depth then do
    let found ← traversalNodeMatchAndValue frame.node spec
    pure (if found.1 then st.emit spec frame found.2 else st)
  else pure st

/-- Go on from a frame, unless the limit stopped the loop; the flag says whether it goes on. -/
def expandFrame (spec : TraversalSpec) (frame : TraversalFrame) (st : TraversalState) :
    Call σ (TraversalState × Bool) :=
  if st.resultLimitReached then pure (st, false)
  else do
    let edges ← traversalEdges frame.node spec
    pure (st.expand spec frame edges, true)

/-- One round of the loop on a frame whose node was not visited before. -/
def visitFrame (spec : TraversalSpec) (frame : TraversalFrame) (st : TraversalState) :
    Call σ (TraversalState × Bool) := do
  let found ← maybeLoadNode frame.node
  if !found then pure ({ st with missing := st.missing.insert frame.node }, true)
  else
    let st ← emitFrame spec frame st
    expandFrame spec frame st

/-- The loop of `traverse_at`, with no state while it has not ended. -/
def traverseLoop (spec : TraversalSpec) : ℕ → TraversalState → Call σ (Option TraversalState)
  | 0, _ => pure none
  | fuel + 1, st =>
    match st.pop spec.strategy with
    | none => pure (some st)
    | some (frame, st) =>
      if st.visited.contains frame.node then traverseLoop spec fuel st
      else do
        let visit ← visitFrame spec frame { st with visited := st.visited.insert frame.node }
        if visit.2 then traverseLoop spec fuel visit.1 else pure (some visit.1)

/-- `resolve_traversal_starts`: the nodes to start from and the missing ones. -/
def resolveTraversalStarts (anchor : NodeId) (segments : List String) :
    Call σ (List NodeId × List NodeId) := do
  match ← resolveCursor anchor segments with
  | some (.node node) => pure ([node], [])
  | some (.field node field) =>
    let inner ← get
    match inner.fieldValue node field with
    | some (.link target) => pure ([target], [])
    | some (.set set) => pure (set.members.keys, [])
    | some (.scalar _) | some (.bytes _) | some (.blob _) | none => pure ([], [])
  | none => pure ([], [anchor])

end Calls

/-- The state the loop starts in. -/
def TraversalState.start (starts missing : List NodeId) : TraversalState :=
  ⟨starts.map fun node => ⟨node, 0, [node], none⟩, ∅, [],
    missing.foldl (fun set node => set.insert node) ∅, false, false⟩

/-- The result read off the state the loop ends in. -/
def TraversalState.result (st : TraversalState) : TraversalResult :=
  let missing := st.missing.toList
  ⟨st.entries, missing.isEmpty && !st.depthLimitReached && !st.resultLimitReached, false,
    st.depthLimitReached, st.resultLimitReached, 0, missing, []⟩

/-- `traverse_at`, with no result while its loop has not ended. -/
def traverseAt {σ : Type} [IncrementalStore σ] (fuel : ℕ) (anchor : NodeId)
    (segments : List String) (spec : TraversalSpec) : Call σ (Option TraversalResult) := do
  let starts ← resolveTraversalStarts anchor segments
  let st ← traverseLoop spec fuel (.start starts.1 starts.2)
  pure (st.map TraversalState.result)

/-- What a traversal reads of a graph: the shallow values of nodes and the edges it follows. -/
structure TraversalGraph where
  /-- The value of a node that is there. -/
  value : NodeId → Option JsonValue
  /-- The edges followed from a node. -/
  edges : NodeId → List TraversalEdge

namespace TraversalGraph

/-- Emit a node with a given value when it is due and matches. -/
def emitted (spec : TraversalSpec) (frame : TraversalFrame) (value : JsonValue)
    (st : TraversalState) : TraversalState :=
  if spec.emits frame.depth && (!spec.needsValue || spec.matchesNode frame.node value) then
    st.emit spec frame (if spec.includeValues then some value else none)
  else st

/-- One round of the loop. -/
def visit (graph : TraversalGraph) (spec : TraversalSpec) (frame : TraversalFrame)
    (st : TraversalState) : TraversalState × Bool :=
  match graph.value frame.node with
  | none => ({ st with missing := st.missing.insert frame.node }, true)
  | some value =>
    let st := emitted spec frame value st
    if st.resultLimitReached then (st, false)
    else (st.expand spec frame (graph.edges frame.node), true)

/-- The loop. -/
def loop (graph : TraversalGraph) (spec : TraversalSpec) :
    ℕ → TraversalState → Option TraversalState
  | 0, _ => none
  | fuel + 1, st =>
    match st.pop spec.strategy with
    | none => some st
    | some (frame, st) =>
      if st.visited.contains frame.node then loop graph spec fuel st
      else
        let visit := graph.visit spec frame { st with visited := st.visited.insert frame.node }
        if visit.2 then loop graph spec fuel visit.1 else some visit.1

variable {graph : TraversalGraph} {spec : TraversalSpec}

theorem pop_eq {strategy : TraversalStrategy} {st st' : TraversalState} {frame : TraversalFrame}
    (h : st.pop strategy = some (frame, st')) :
    st' = { st with frontier := st'.frontier } ∧
      st.frontier.length = st'.frontier.length + 1 := by
  cases strategy with
  | bfs =>
    obtain ⟨first, hfirst, heq⟩ := Option.map_eq_some_iff.mp h
    obtain ⟨-, rfl⟩ := Prod.mk.inj heq
    obtain ⟨rest, hrest⟩ := List.head?_eq_some_iff.mp hfirst
    exact ⟨rfl, by simp [hrest]⟩
  | dfs =>
    obtain ⟨last, hlast, heq⟩ := Option.map_eq_some_iff.mp h
    obtain ⟨-, rfl⟩ := Prod.mk.inj heq
    obtain ⟨init, hinit⟩ := List.getLast?_eq_some_iff.mp hlast
    exact ⟨rfl, by simp [hinit]⟩

/-- The nodes behind the edges of a node that is there. -/
def leaving (graph : TraversalGraph) (node : NodeId) : List NodeId :=
  if (graph.value node).isSome then (graph.edges node).map TraversalEdge.target else []

/-- Emitting leaves the frontier and what was visited or found missing. -/
theorem emitted_frame (spec : TraversalSpec) (frame : TraversalFrame) (value : JsonValue)
    (st : TraversalState) :
    (emitted spec frame value st).visited = st.visited ∧
      (emitted spec frame value st).missing = st.missing ∧
      (emitted spec frame value st).frontier = st.frontier := by
  rw [emitted]
  split
  · rw [TraversalState.emit]
    split <;> exact ⟨rfl, rfl, rfl⟩
  · exact ⟨rfl, rfl, rfl⟩

/-- Going on adds at most the edges to the frontier. -/
theorem expand_grows (spec : TraversalSpec) (frame : TraversalFrame) (edges : List TraversalEdge)
    (st : TraversalState) :
    (st.expand spec frame edges).visited = st.visited ∧
      (st.expand spec frame edges).missing = st.missing ∧
      (st.expand spec frame edges).frontier.length ≤ st.frontier.length + edges.length := by
  rw [TraversalState.expand]
  split
  · exact ⟨rfl, rfl, Nat.le_add_right _ _⟩
  · refine ⟨rfl, rfl, ?_⟩
    rw [List.length_append]
    exact Nat.add_le_add_left (List.length_filterMap_le _ _) _

/-- A round adds at most the edges of its node to the frontier, and keeps what was visited or
found missing. -/
theorem visit_grows (graph : TraversalGraph) (spec : TraversalSpec) (frame : TraversalFrame)
    (st : TraversalState) :
    (graph.visit spec frame st).1.visited = st.visited ∧
      (∀ n ∈ st.missing, n ∈ (graph.visit spec frame st).1.missing) ∧
      (graph.visit spec frame st).1.frontier.length ≤
        st.frontier.length + (graph.leaving frame.node).length := by
  rw [visit, leaving]
  cases hvalue : graph.value frame.node with
  | none =>
    refine ⟨rfl, fun n hn => ?_, Nat.le_add_right _ _⟩
    exact Std.ExtTreeSet.mem_insert.mpr (Or.inr hn)
  | some value =>
    obtain ⟨hvisited, hmissing, hfrontier⟩ := emitted_frame spec frame value st
    simp only [Option.isSome_some, if_true, List.length_map]
    split
    · refine ⟨hvisited, fun n hn => ?_, ?_⟩
      · rwa [hmissing]
      · rw [hfrontier]
        exact Nat.le_add_right _ _
    · obtain ⟨hvisited', hmissing', hlength⟩ := expand_grows spec frame (graph.edges frame.node)
        (emitted spec frame value st)
      refine ⟨hvisited'.trans hvisited, fun n hn => ?_, ?_⟩
      · rw [hmissing', hmissing]
        exact hn
      · rw [hfrontier] at hlength
        exact hlength

end TraversalGraph

/-- The starting nodes and the missing ones of a path. -/
def Views.starts (views : Views) (anchor : NodeId) (segments : List String) :
    Except PrimadbError (List NodeId × List NodeId) :=
  if (views anchor).isNone then .ok ([], [anchor])
  else if segments.isEmpty then .ok ([anchor], [])
  else
    match views.follow anchor segments.dropLast with
    | .error e => .error e
    | .ok none => .ok ([], [anchor])
    | .ok (some node) =>
      if (views node).isNone then .ok ([], [anchor])
      else
        .ok (((views.field node (segments.getLast?.getD "")).map VisibleValue.targets).getD [], [])

namespace Inner

variable {σ : Type} [IncrementalStore σ] {inner : Inner σ}

/-- What a traversal reads of a database in memory. -/
def traversalGraph (inner : Inner σ) (spec : TraversalSpec) : TraversalGraph :=
  ⟨fun node => inner.nodes[node]?.map NodeState.shallow, inner.relationshipIndex.followedEdges spec⟩

/-- Without a store a round of the loop reads the graph. -/
theorem visitFrame_of_none (h : inner.storageEngine = none) (spec : TraversalSpec)
    (frame : TraversalFrame) (st : TraversalState) :
    visitFrame spec frame st inner = (.ok ((inner.traversalGraph spec).visit spec frame st),
      inner) := by
  rw [visitFrame, bind_ok (maybeLoadNode_of_none h frame.node), view, TraversalGraph.visit,
    traversalGraph]
  cases hnode : inner.nodes[frame.node]? with
  | none => simp [hnode]
  | some state =>
    have hfound : maybeLoadNode frame.node inner = (.ok true, inner) := by
      rw [maybeLoadNode_of_none h, view, hnode]
      rfl
    have hvalue : materializeNodeShallow frame.node inner = (.ok (some state.shallow), inner) := by
      rw [materializeNodeShallow, bind_ok hfound]
      simp [gets, hnode]
    have hmatch : traversalNodeMatchAndValue frame.node spec inner =
        (.ok (!spec.needsValue || spec.matchesNode frame.node state.shallow,
          if spec.includeValues then some state.shallow else none), inner) := by
      rw [traversalNodeMatchAndValue]
      cases hneeds : spec.needsValue with
      | false =>
        have hinclude : spec.includeValues = false := by
          rw [TraversalSpec.needsValue, Bool.or_eq_false_iff] at hneeds
          exact hneeds.1
        simp [hinclude]
      | true =>
        simp only [Bool.not_true, Bool.false_eq_true, if_false, Bool.false_or]
        rw [bind_ok hvalue]
        rfl
    have hemit : emitFrame spec frame st inner =
        (.ok (TraversalGraph.emitted spec frame state.shallow st), inner) := by
      rw [emitFrame, TraversalGraph.emitted]
      cases spec.emits frame.depth with
      | false => rfl
      | true =>
        rw [if_pos rfl, bind_ok hmatch, Bool.true_and]
        rfl
    have hedges : traversalEdges frame.node spec inner =
        (.ok (inner.relationshipIndex.followedEdges spec frame.node), inner) := by
      rw [traversalEdges, bind_ok hfound]
      rfl
    have hexpand : ∀ st : TraversalState, expandFrame spec frame st inner =
        (.ok (if st.resultLimitReached then (st, false)
          else (st.expand spec frame (inner.relationshipIndex.followedEdges spec frame.node),
            true)), inner) := by
      intro st
      rw [expandFrame]
      cases st.resultLimitReached with
      | true => rfl
      | false =>
        rw [if_neg Bool.false_ne_true, bind_ok hedges]
        rfl
    simp only [Option.map_some, Option.isSome_some, Bool.not_true, Bool.false_eq_true, if_false,
      hnode]
    rw [bind_ok hemit, hexpand]

/-- Without a store the loop reads the graph. -/
theorem traverseLoop_of_none (h : inner.storageEngine = none) (spec : TraversalSpec) (fuel : ℕ)
    (st : TraversalState) :
    traverseLoop spec fuel st inner = (.ok ((inner.traversalGraph spec).loop spec fuel st),
      inner) := by
  induction fuel generalizing st with
  | zero => rfl
  | succ fuel ih =>
    rw [traverseLoop, TraversalGraph.loop]
    cases st.pop spec.strategy with
    | none => rfl
    | some next =>
      simp only
      split
      · exact ih next.2
      · rw [bind_ok (visitFrame_of_none h spec next.1 _)]
        split
        · exact ih _
        · rfl

/-- Without a store the starting nodes are found over views. -/
theorem resolveTraversalStarts_of_none (h : inner.storageEngine = none) (anchor : NodeId)
    (segments : List String) :
    resolveTraversalStarts anchor segments inner =
      (Views.starts inner.view anchor segments, inner) := by
  have hcursor := resolveCursor_of_none h anchor segments
  have hfield : ∀ node field, (match inner.fieldValue node field with
      | some (.link target) => pure ([target], [])
      | some (.set set) => pure (set.members.keys, [])
      | some (.scalar _) | some (.bytes _) | some (.blob _) | none => pure ([], []) :
        Call σ (List NodeId × List NodeId)) inner =
      (.ok (((Views.field inner.view node field).map VisibleValue.targets).getD [], []),
        inner) := by
    intro node field
    rw [field_view]
    cases inner.fieldValue node field with
    | none => rfl
    | some value => cases value <;> rfl
  rw [resolveTraversalStarts, Views.starts]
  cases hanchor : inner.view anchor with
  | none =>
    rw [hanchor] at hcursor
    rw [bind_ok hcursor]
    rfl
  | some anchorView =>
    rw [hanchor] at hcursor
    simp only [Option.isNone_some, Bool.false_eq_true, if_false] at hcursor ⊢
    split
    · rename_i hempty
      rw [if_pos hempty] at hcursor
      rw [bind_ok hcursor]
      rfl
    · rename_i hempty
      rw [if_neg hempty] at hcursor
      cases hfollow : Views.follow inner.view anchor segments.dropLast with
      | error e =>
        rw [hfollow] at hcursor
        exact bind_error hcursor
      | ok place =>
        rw [hfollow] at hcursor
        cases place with
        | none =>
          rw [bind_ok hcursor]
          rfl
        | some node =>
          simp only at hcursor ⊢
          split
          · rename_i hnode
            rw [if_pos hnode] at hcursor
            rw [bind_ok hcursor]
            rfl
          · rename_i hnode
            rw [if_neg hnode] at hcursor
            rw [bind_ok hcursor]
            exact hfield node _

/-- Without a store a traversal reads the views and the graph. -/
theorem traverseAt_of_none (h : inner.storageEngine = none) (fuel : ℕ) (anchor : NodeId)
    (segments : List String) (spec : TraversalSpec) :
    traverseAt fuel anchor segments spec inner =
      ((Views.starts inner.view anchor segments).map fun starts =>
        ((inner.traversalGraph spec).loop spec fuel (.start starts.1 starts.2)).map
          TraversalState.result, inner) := by
  rw [traverseAt]
  cases hstarts : Views.starts inner.view anchor segments with
  | error e => exact bind_error (by rw [resolveTraversalStarts_of_none h, hstarts])
  | ok starts =>
    rw [bind_ok (a := starts) (t := inner) (by rw [resolveTraversalStarts_of_none h, hstarts]),
      bind_ok (traverseLoop_of_none h spec fuel _)]
    rfl

end Inner

end Primadb

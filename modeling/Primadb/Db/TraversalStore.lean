import Primadb.Db.Asking
import Primadb.Db.TraversalReach

/-!
# Traversals over a store

With a store attached a traversal loads the nodes it meets, and the index learns the edges of a
node when the node is loaded. Edges that become known on the way lead from nodes met before, so the
traversal shows what is reachable over the edges that each node has once it was asked for. This is
the whole graph as long as memory holds all that is stored of the nodes it answers for and, when
edges are followed against their direction, the nodes with such edges are in memory.
-/

namespace Primadb

open Effect

/-- Lists of the same edges are sorted alike. -/
theorem sortDedup_congr {l m : List TraversalEdge} (h : ∀ edge, edge ∈ l ↔ edge ∈ m) :
    sortDedup l = sortDedup m := by
  have hsame : l.foldl (fun set edge => set.insert edge) (∅ : BTreeSet TraversalEdge) =
      m.foldl (fun set edge => set.insert edge) ∅ := by
    refine Std.ExtTreeSet.ext_mem fun edge => ?_
    have hl : edge ∈ sortDedup l ↔ edge ∈ l := mem_sortDedup
    have hm : edge ∈ sortDedup m ↔ edge ∈ m := mem_sortDedup
    rw [sortDedup, Std.ExtTreeSet.mem_toList] at hl hm
    rw [hl, hm, h edge]
  rw [sortDedup, sortDedup, hsame]

/-- Sorted edges are selected in order. -/
theorem sortDedup_filter (l : List TraversalEdge) (keeps : TraversalEdge → Bool) :
    (sortDedup l).filter keeps = sortDedup (l.filter keeps) := by
  rw [sortDedup, ← Std.ExtTreeSet.toList_filter, sortDedup]
  congr 1
  refine Std.ExtTreeSet.ext_mem fun edge => ?_
  have hl : edge ∈ sortDedup l ↔ edge ∈ l := mem_sortDedup
  have hm : edge ∈ sortDedup (l.filter keeps) ↔ edge ∈ l.filter keeps := mem_sortDedup
  rw [sortDedup, Std.ExtTreeSet.mem_toList] at hl hm
  rw [hm, List.mem_filter, ← hl, Std.ExtTreeSet.mem_filter]
  simp

/-- The edges of an index are sorted. -/
theorem sortDedup_followedEdges (index : RelationshipIndex) (spec : TraversalSpec)
    (node : NodeId) :
    sortDedup (index.followedEdges spec node) = index.followedEdges spec node := by
  rw [RelationshipIndex.followedEdges]
  exact sortDedup_congr fun edge => mem_sortDedup

namespace TraversalGraph

variable {graph : TraversalGraph} {spec : TraversalSpec} {frame : TraversalFrame}
  {visited : BTreeSet NodeId} {edges : List TraversalEdge}

/-- A graph with other edges. -/
def knowing (graph : TraversalGraph) (edges : List TraversalEdge) : TraversalGraph :=
  ⟨graph.value, fun _ => edges⟩

/-- Edges that differ in edges to nodes met only push the same frames. -/
theorem pushed_knowing (hsorted : sortDedup (graph.edges frame.node) = graph.edges frame.node)
    (h : ∀ edge, edge.across frame.node ∉ visited →
      (edge ∈ edges ↔ edge ∈ graph.edges frame.node)) :
    (graph.knowing (sortDedup edges)).pushed spec frame visited =
      graph.pushed spec frame visited := by
  have hfilter : ∀ l : List TraversalEdge, (l.filterMap fun edge =>
      if visited.contains (edge.across frame.node) then none
      else some (⟨edge.across frame.node, frame.depth + 1,
        frame.path ++ [edge.across frame.node], some edge⟩ : TraversalFrame)) =
      (l.filter fun edge => !visited.contains (edge.across frame.node)).map fun edge =>
        ⟨edge.across frame.node, frame.depth + 1, frame.path ++ [edge.across frame.node],
          some edge⟩ := by
    intro l
    induction l with
    | nil => rfl
    | cons edge l ih =>
      rw [List.filterMap_cons, List.filter_cons]
      cases visited.contains (edge.across frame.node) with
      | true => simpa using ih
      | false => simpa using ih
  have hedges : (sortDedup edges).filter (fun edge => !visited.contains (edge.across frame.node)) =
      (graph.edges frame.node).filter
        fun edge => !visited.contains (edge.across frame.node) := by
    rw [← hsorted, sortDedup_filter, sortDedup_filter]
    refine sortDedup_congr fun edge => ?_
    rw [List.mem_filter, List.mem_filter]
    refine and_congr_left fun hnew => h edge fun hmet => ?_
    rw [Std.ExtTreeSet.mem_iff_contains.mp hmet] at hnew
    cases hnew
  simp only [pushed, knowing, hfilter, hedges]

/-- A round that leaves none of the edges it knows goes on over the edges of the graph. -/
theorem goesOn_knowing (h : ∀ edge, edge.across frame.node ∉ visited →
      (edge ∈ edges ↔ edge ∈ graph.edges frame.node))
    (hcut : (graph.knowing (sortDedup edges)).cuts spec frame = false) :
    graph.GoesOn spec frame visited := by
  refine or_iff_not_imp_left.mpr fun hdepth w hw => ?_
  obtain ⟨hvalue, edge, hedge, rfl⟩ := hw
  by_contra hnew
  have hknown : edge ∈ sortDedup edges := mem_sortDedup.mpr ((h edge hnew).mpr hedge)
  have hempty : sortDedup edges = [] := by
    have hisSome : ((graph.knowing (sortDedup edges)).value frame.node).isSome = true := hvalue
    rw [cuts, hisSome, decide_eq_true (Nat.le_of_not_lt hdepth), Bool.true_and, Bool.true_and,
      Bool.not_eq_false', List.isEmpty_iff] at hcut
    exact hcut
  rw [hempty] at hknown
  cases hknown

end TraversalGraph

namespace Inner

variable {σ : Type} [RecordStore σ] {inner before : Inner σ} {E : Set TraversalEdge} {node : NodeId}

/-! ## Edges of a node that is asked for -/

/-- The node a store is read for when it is asked for, merged into memory. -/
def fetched (inner : Inner σ) (node : NodeId) : Option NodeState :=
  if inner.resident node || inner.missingNodes.contains node then none
  else
    match inner.storageEngine with
    | none => none
    | some engine =>
      match IncrementalStore.getNode engine node with
      | .ok (some state) => some ((nodeEntry inner.nodes node).mergeWith state)
      | .ok none | .error _ => none

/-- The store holds the node. -/
def Stores (inner : Inner σ) (node : NodeId) : Prop :=
  ∃ engine state, inner.storageEngine = some engine ∧
    IncrementalStore.getNode engine node = .ok (some state)

/-- A node is fetched when memory does not answer for it and the store holds it. -/
theorem fetched_eq_some_iff (hkeyed : KeyedNodes σ) {state : NodeState} :
    inner.fetched node = some state ↔
      inner.resident node = false ∧ inner.asking node = (.ok true, some state) ∧
        inner.Stores node := by
  rw [fetched, asking_eq hkeyed, Stores]
  cases hresident : inner.resident node with
  | true => simp
  | false =>
    cases hmissing : inner.missingNodes.contains node with
    | true => simp
    | false =>
      cases hengine : inner.storageEngine with
      | none => simp
      | some engine =>
        rcases hstored : IncrementalStore.getNode engine node with e | _ | stored <;>
          simp [hstored]

/-- The edges leaving a node once it was asked for. -/
def leavingAfter (inner : Inner σ) (E : Set TraversalEdge) (node : NodeId) : Set TraversalEdge :=
  match inner.fetched node with
  | some state => {edge | edge ∈ nodeEdges node state}
  | none => E

/-- Asking for a node replaces the edges leaving it when it is fetched. -/
theorem load_mirrors (hkeyed : KeyedNodes σ) (h : inner.relationshipIndex.Mirrors E)
    (node : NodeId) :
    (maybeLoadNode node inner).2.relationshipIndex.Mirrors
      (replaceEdges E node (inner.leavingAfter E node)) := by
  have hsame : replaceEdges E node E = E := by
    ext edge
    simp [replaceEdges]
  rw [leavingAfter, fetched, maybeLoadNode]
  cases hresident : inner.resident node with
  | true => simpa [hsame] using h
  | false =>
    cases hmissing : inner.missingNodes.contains node with
    | true => simpa [hsame] using h
    | false =>
      cases hengine : inner.storageEngine with
      | none => simpa [hsame] using h
      | some engine =>
        rcases hstored : IncrementalStore.getNode engine node with e | _ | state
        · simpa [hsame, hstored] using h
        · simp only [Bool.or_self, Bool.false_eq_true, if_false, hstored, hsame]
          split <;> exact h
        · obtain rfl := hkeyed engine node state hstored
          simp only [Bool.or_self, Bool.false_eq_true, if_false, hstored]
          have hnode : (mergeNodeState inner.nodes state)[state.id]? =
              some ((nodeEntry inner.nodes state.id).mergeWith state) :=
            (BTreeMap.get_insert _ _ _ _).trans (if_pos rfl)
          have hedges : replaceEdges E state.id {edge | edge ∈ nodeEdges state.id
              ((nodeEntry inner.nodes state.id).mergeWith state)} =
              replaceEdges E state.id (graphEdges (mergeNodeState inner.nodes state)) := by
            ext edge
            simp only [replaceEdges, Set.mem_ofPred_eq]
            split
            · rename_i hsource
              simp [graphEdges, hsource, hnode]
            · rfl
          rw [hedges]
          refine reindexNodeRelationships_mirrors ?_ state.id
          exact h

/-- A state reached by asking for some nodes. -/
structure Ahead (E : Set TraversalEdge) (before inner : Inner σ) (visited : BTreeSet NodeId) :
    Prop where
  engine : inner.storageEngine = before.storageEngine
  /-- The nodes not asked for. -/
  nodes : ∀ m, m ∉ visited → inner.nodes[m]? = before.nodes[m]?
  /-- The answers. -/
  asking : ∀ m, inner.asking m = before.asking m
  /-- Memory keeps the nodes it answers for. -/
  resident : ∀ m, before.resident m = true → inner.resident m = true
  /-- The edges of the nodes asked for are known. -/
  index : inner.relationshipIndex.Mirrors {edge |
    if edge.source ∈ visited then edge ∈ before.leavingAfter E edge.source else edge ∈ E}

namespace Ahead

variable {visited : BTreeSet NodeId}

private theorem refl (h : before.relationshipIndex.Mirrors E) : before.Ahead E before ∅ where
  engine := rfl
  nodes _ _ := rfl
  asking _ := rfl
  resident _ h := h
  index := by
    have hset : {edge : TraversalEdge | if edge.source ∈ (∅ : BTreeSet NodeId)
        then edge ∈ before.leavingAfter E edge.source else edge ∈ E} = E := by
      ext edge
      simp
    rw [hset]
    exact h

private theorem stores_iff (h : Ahead E before inner visited) (node : NodeId) :
    inner.Stores node ↔ before.Stores node := by
  rw [Stores, Stores, h.engine]

/-- What is fetched now would have been fetched before. -/
theorem fetched_before (hkeyed : KeyedNodes σ) (h : Ahead E before inner visited)
    {state : NodeState} (hfetched : inner.fetched node = some state) :
    before.fetched node = some state := by
  rw [fetched_eq_some_iff hkeyed] at hfetched ⊢
  obtain ⟨hresident, hasking, hstores⟩ := hfetched
  refine ⟨?_, h.asking node ▸ hasking, (h.stores_iff node).mp hstores⟩
  rw [Bool.eq_false_iff] at hresident ⊢
  exact fun hbefore => hresident (h.resident node hbefore)

/-- A node not asked for is fetched as before. -/
theorem fetched_eq (hkeyed : KeyedNodes σ) (h : Ahead E before inner visited)
    (hnew : node ∉ visited) : inner.fetched node = before.fetched node := by
  refine Option.ext fun state => ⟨h.fetched_before hkeyed, fun hfetched => ?_⟩
  rw [fetched_eq_some_iff hkeyed] at hfetched ⊢
  obtain ⟨hresident, hasking, hstores⟩ := hfetched
  refine ⟨?_, (h.asking node).trans hasking, (h.stores_iff node).mpr hstores⟩
  rw [Inner.resident] at hresident ⊢
  rw [h.nodes node hnew, h.engine]
  exact hresident

/-- Asking for one more node. -/
theorem load (hkeyed : KeyedNodes σ) (h : Ahead E before inner visited) (node : NodeId) :
    Ahead E before (maybeLoadNode node inner).2 (visited.insert node) where
  engine := (storageEngine_load inner node).trans h.engine
  nodes m hm := by
    rw [TraversalGraph.mem_insert_visited, not_or] at hm
    rw [nodes_load_of_ne hkeyed fun heq => hm.1 heq.symm, h.nodes m hm.2]
  asking m := (asking_load hkeyed inner node m).trans (h.asking m)
  resident m hm := resident_load hkeyed (h.resident m hm) node
  index := by
    have hset : replaceEdges {edge | if edge.source ∈ visited
          then edge ∈ before.leavingAfter E edge.source else edge ∈ E} node
        (inner.leavingAfter {edge | if edge.source ∈ visited
          then edge ∈ before.leavingAfter E edge.source else edge ∈ E} node) =
        {edge | if edge.source ∈ visited.insert node
          then edge ∈ before.leavingAfter E edge.source else edge ∈ E} := by
      ext edge
      simp only [replaceEdges, Set.mem_ofPred_eq, TraversalGraph.mem_insert_visited]
      by_cases hsource : edge.source = node
      · subst hsource
        rw [if_pos rfl, if_pos (.inl rfl), leavingAfter, leavingAfter]
        cases hfetched : inner.fetched edge.source with
        | some state => rw [h.fetched_before hkeyed hfetched]
        | none =>
          by_cases hvisited : edge.source ∈ visited
          · simp only [Set.mem_ofPred_eq, hvisited, if_true]
            rfl
          · rw [← h.fetched_eq hkeyed hvisited, hfetched]
            simp [hvisited]
      · simp [hsource]
    rw [← hset]
    exact load_mirrors hkeyed h.index node

/-- Asking once more for a node. -/
theorem again (hkeyed : KeyedNodes σ) (h : Ahead E before inner visited) (hnode : node ∈ visited) :
    Ahead E before (maybeLoadNode node inner).2 visited := by
  have hsame : visited.insert node = visited := by
    refine Std.ExtTreeSet.ext_mem fun m => ?_
    rw [TraversalGraph.mem_insert_visited]
    exact ⟨fun hm => hm.elim (fun heq => heq ▸ hnode) id, .inr⟩
  have hload := h.load hkeyed node
  rwa [hsame] at hload

end Ahead

/-! ## What a traversal reads -/

/-- The values and edges of nodes once they were asked for. -/
def shownGraph (inner : Inner σ) (spec : TraversalSpec) : TraversalGraph :=
  ⟨fun node =>
    match (inner.asking node).1 with
    | .ok true => (inner.asking node).2.map NodeState.shallow
    | .ok false | .error _ => none,
    fun node => (maybeLoadNode node inner).2.relationshipIndex.followedEdges spec node⟩

private theorem shownGraph_value {state : NodeState}
    (h : inner.asking node = (.ok true, some state))
    (spec : TraversalSpec) : (inner.shownGraph spec).value node = some state.shallow := by
  rw [shownGraph]
  simp [h]

namespace Ahead

variable {visited : BTreeSet NodeId} {spec : TraversalSpec} {state : NodeState} {after : Inner σ}
  {frame : TraversalFrame} {st : TraversalState}

/-- An answer is the one of the state before. -/
theorem of_load (hkeyed : KeyedNodes σ) (h : Ahead E before inner visited) {found : Bool}
    (hload : maybeLoadNode node inner = (.ok found, after)) :
    before.asking node = (.ok found, after.nodes[node]?) ∧
      Ahead E before after (visited.insert node) := by
  have hafter := h.load hkeyed node
  have hasking : inner.asking node = (.ok found, after.nodes[node]?) := by
    rw [Inner.asking, hload]
  rw [hload] at hafter
  exact ⟨(h.asking node).symm.trans hasking, hafter⟩

/-- Edges to nodes not met are those shown, whatever was loaded on the way. -/
theorem mem_followedEdges_iff (hkeyed : KeyedNodes σ) (hindex : before.relationshipIndex.Mirrors E)
    (h : Ahead E before inner visited) (hnode : node ∈ visited) {edge : TraversalEdge}
    (hnew : edge.across node ∉ visited) :
    edge ∈ inner.relationshipIndex.followedEdges spec node ↔
      edge ∈ (before.shownGraph spec).edges node := by
  have hshown : edge ∈ (before.shownGraph spec).edges node ↔ _ :=
    (load_mirrors hkeyed hindex node).mem_followedEdges
  rw [h.index.mem_followedEdges, hshown]
  simp only [replaceEdges, Set.mem_ofPred_eq]
  by_cases hsource : edge.source = node
  · rw [if_pos hsource, hsource, if_pos hnode]
  · rw [TraversalEdge.across, if_neg hsource] at hnew
    rw [if_neg hsource, if_neg hnew]

private theorem materialize (hkeyed : KeyedNodes σ) (h : Ahead E before inner visited)
    (hnode : node ∈ visited) (hstate : before.asking node = (.ok true, some state))
    {value : Option JsonValue} (hvalue : materializeNodeShallow node inner = (.ok value, after)) :
    value = some state.shallow ∧ Ahead E before after visited := by
  rw [materializeNodeShallow] at hvalue
  obtain ⟨found, loaded, hload, hrest⟩ := bind_eq_ok hvalue
  have hasking := (h.of_load hkeyed hload).1
  have hagain := h.again hkeyed hnode
  rw [hload] at hagain
  rw [hstate] at hasking
  obtain ⟨hfound, hloaded⟩ := Prod.mk.inj hasking
  cases hfound
  simp only [Bool.not_true, Bool.false_eq_true, if_false, gets, Prod.mk.injEq,
    Except.ok.injEq] at hrest
  obtain ⟨rfl, rfl⟩ := hrest
  rw [← hloaded]
  exact ⟨rfl, hagain⟩

private theorem matched (hkeyed : KeyedNodes σ) (h : Ahead E before inner visited)
    (hnode : node ∈ visited) (hstate : before.asking node = (.ok true, some state))
    {answer : Bool × Option JsonValue}
    (hanswer : traversalNodeMatchAndValue node spec inner = (.ok answer, after)) :
    answer = (!spec.needsValue || spec.matchesNode node state.shallow,
      if spec.includeValues then some state.shallow else none) ∧
      Ahead E before after visited := by
  rw [traversalNodeMatchAndValue] at hanswer
  cases hneeds : spec.needsValue with
  | false =>
    have hinclude : spec.includeValues = false := by
      rw [TraversalSpec.needsValue, Bool.or_eq_false_iff] at hneeds
      exact hneeds.1
    rw [hneeds] at hanswer
    cases hanswer
    simp [hinclude, h]
  | true =>
    rw [hneeds] at hanswer
    obtain ⟨value, loaded, hvalue, hrest⟩ := bind_eq_ok hanswer
    obtain ⟨rfl, hahead⟩ := h.materialize hkeyed hnode hstate hvalue
    cases hrest
    exact ⟨rfl, hahead⟩

private theorem emitFrame (hkeyed : KeyedNodes σ) (h : Ahead E before inner visited)
    (hnode : frame.node ∈ visited) (hstate : before.asking frame.node = (.ok true, some state))
    {out : TraversalState} (hemit : Primadb.emitFrame spec frame st inner = (.ok out, after)) :
    out = TraversalGraph.emitted spec frame state.shallow st ∧ Ahead E before after visited := by
  rw [Primadb.emitFrame] at hemit
  rw [TraversalGraph.emitted]
  cases hdue : spec.emits frame.depth with
  | false =>
    rw [hdue] at hemit
    cases hemit
    exact ⟨rfl, h⟩
  | true =>
    rw [hdue] at hemit
    obtain ⟨answer, loaded, hanswer, hrest⟩ := bind_eq_ok hemit
    obtain ⟨rfl, hahead⟩ := h.matched hkeyed hnode hstate hanswer
    cases hrest
    exact ⟨rfl, hahead⟩

/-- A round of the loop works on the graph shown, with the edges known then: these are the edges
shown, apart from edges to nodes met. -/
theorem visitFrame (hkeyed : KeyedNodes σ) (hindex : before.relationshipIndex.Mirrors E)
    (h : Ahead E before inner visited) (hst : st.visited = visited.insert frame.node)
    {out : TraversalState × Bool}
    (hvisit : Primadb.visitFrame spec frame st inner = (.ok out, after)) :
    Ahead E before after st.visited ∧ ∃ edges,
      ((before.shownGraph spec).knowing (sortDedup edges)).visit spec frame st = out ∧
        ∀ edge, edge.across frame.node ∉ st.visited →
          (edge ∈ edges ↔ edge ∈ (before.shownGraph spec).edges frame.node) := by
  have hnode : frame.node ∈ st.visited := by
    rw [hst]
    exact TraversalGraph.mem_insert_visited.mpr (.inl rfl)
  rw [Primadb.visitFrame] at hvisit
  obtain ⟨found, loaded, hload, hrest⟩ := bind_eq_ok hvisit
  obtain ⟨hasking, hloaded⟩ := h.of_load hkeyed hload
  rw [← hst] at hloaded
  have hvalue : ∀ edges, ((before.shownGraph spec).knowing edges).value frame.node =
      (before.shownGraph spec).value frame.node := fun _ => rfl
  cases found with
  | false =>
    have hnone : (before.shownGraph spec).value frame.node = none := by
      rw [shownGraph]
      simp [hasking]
    cases hrest
    refine ⟨hloaded, (before.shownGraph spec).edges frame.node, ?_, fun _ _ => Iff.rfl⟩
    rw [TraversalGraph.visit, hvalue, hnone]
  | true =>
    obtain ⟨state, hstate⟩ := Option.isSome_iff_exists.mp
      (isSome_of_asking hkeyed (congrArg Prod.fst hasking))
    have hasked : before.asking frame.node = (.ok true, some state) := by
      rw [hasking] at hstate ⊢
      exact congrArg (Prod.mk _) hstate
    obtain ⟨st', emitted, hemit, hexpand⟩ := bind_eq_ok hrest
    obtain ⟨rfl, hemitted⟩ := hloaded.emitFrame hkeyed hnode hasked hemit
    rw [expandFrame] at hexpand
    have hround : ∀ edges, ((before.shownGraph spec).knowing edges).visit spec frame st =
        if (TraversalGraph.emitted spec frame state.shallow st).resultLimitReached then
          (TraversalGraph.emitted spec frame state.shallow st, false)
        else ((TraversalGraph.emitted spec frame state.shallow st).expand spec frame edges,
          true) := by
      intro edges
      rw [TraversalGraph.visit, hvalue, shownGraph_value hasked]
      rfl
    split at hexpand
    · rename_i hlimit
      cases hexpand
      refine ⟨hemitted, (before.shownGraph spec).edges frame.node, ?_, fun _ _ => Iff.rfl⟩
      rw [hround, if_pos hlimit]
    · rename_i hlimit
      obtain ⟨edges, expanded, hedges, hpure⟩ := bind_eq_ok hexpand
      rw [traversalEdges] at hedges
      obtain ⟨found, reread, hagain, hgets⟩ := bind_eq_ok hedges
      have hahead := hemitted.again hkeyed hnode
      rw [hagain] at hahead
      cases hgets
      cases hpure
      refine ⟨hahead, after.relationshipIndex.followedEdges spec frame.node, ?_,
        fun edge hnew => hahead.mem_followedEdges_iff hkeyed hindex hnode hnew⟩
      rw [hround, if_neg hlimit, sortDedup_followedEdges]

/-- The loop keeps what its rounds keep, and ends with nothing pending unless the limit stopped
it. -/
theorem traverseLoop (hkeyed : KeyedNodes σ) (hindex : before.relationshipIndex.Mirrors E)
    (h : Ahead E before inner st.visited) {nodes : List NodeId}
    (htracked : (before.shownGraph spec).Tracked spec nodes st)
    (hlimit : st.resultLimitReached = false) {fuel : ℕ} {out : TraversalState}
    (hloop : Primadb.traverseLoop spec fuel st inner = (.ok (some out), after))
    (hout : out.resultLimitReached = false) :
    (before.shownGraph spec).Tracked spec nodes out ∧ out.frontier = [] := by
  induction fuel generalizing st inner with
  | zero => cases hloop
  | succ fuel ih =>
    rw [Primadb.traverseLoop] at hloop
    cases hpop : st.pop spec.strategy with
    | none =>
      rw [hpop] at hloop
      cases hloop
      refine ⟨htracked, ?_⟩
      cases hstrategy : spec.strategy <;> simpa [hstrategy, TraversalState.pop] using hpop
    | some next =>
      obtain ⟨frame, st'⟩ := next
      obtain ⟨rest, hst', -⟩ := TraversalGraph.pop_rest hpop
      have hvisited : st'.visited = st.visited := by rw [hst']
      have hlimit' : st'.resultLimitReached = false := by rw [hst']; exact hlimit
      rw [hpop] at hloop
      dsimp only at hloop
      split at hloop
      · rename_i hseen
        exact ih (hvisited ▸ h) (htracked.skip hpop hseen) hlimit' hloop
      · rename_i hnew
        rw [Bool.not_eq_true] at hnew
        obtain ⟨visit, visited, hvisit, hrest⟩ := bind_eq_ok hloop
        obtain ⟨hahead, edges, rfl, hedges⟩ := h.visitFrame hkeyed hindex (by rw [hvisited]) hvisit
        have hround := ((before.shownGraph spec).knowing (sortDedup edges)).visit_eq spec frame
          (show { st' with visited := st'.visited.insert frame.node }.resultLimitReached = false
            from hlimit')
        rw [hround] at hrest
        split at hrest
        · cases hrest
          cases hout
        · rw [if_pos rfl,
            TraversalGraph.pushed_knowing (sortDedup_followedEdges _ _ _) hedges] at hrest
          refine ih ?_ (htracked.visit hpop hnew fun hcut => ?_) rfl hrest
          · exact hahead
          · exact TraversalGraph.goesOn_knowing hedges hcut

end Ahead

end Inner

/-! ## Complete results -/

/-- Whether an edge is followed from a node. -/
def TraversalSpec.leaves (spec : TraversalSpec) (node : NodeId) (edge : TraversalEdge) : Bool :=
  spec.keepsEdge edge &&
    (decide (spec.direction ≠ .inbound ∧ edge.source = node) ||
      decide (spec.direction ≠ .outbound ∧ edge.target = node))

/-- The edges of a whole graph. -/
def wholeEdges (whole : NodeId → Option NodeState) : Set TraversalEdge :=
  {edge | ∃ state, whole edge.source = some state ∧ edge ∈ nodeEdges edge.source state}

/-- A selected edge of the whole graph leads from a node to another in the asked direction. -/
def TraversalSpec.SelectsWhole (spec : TraversalSpec) (whole : NodeId → Option NodeState)
    (node next : NodeId) : Prop :=
  ∃ edge ∈ wholeEdges whole, spec.leaves node edge = true ∧ edge.across node = next

/-- The nodes of the whole graph that pass the filters and are reachable from the starts. -/
def TraversalSpec.reachable (spec : TraversalSpec) (whole : NodeId → Option NodeState)
    (starts : List NodeId) : Set NodeId :=
  {node | (∃ state, whole node = some state ∧ spec.matchesNode node state.shallow = true) ∧
    ∃ path, Way {n | n ∈ starts} (spec.SelectsWhole whole) path node}

section Resolve

variable {σ : Type} [RecordStore σ] {R : Inner σ → Inner σ → Prop} (hR : Composes R)
  (hload : ∀ node, Keeps R (maybeLoadNode (σ := σ) node))
include hR hload

/-- Paths are followed by asking for nodes. -/
theorem keeps_resolvePath (current : NodeId) (segments : List String) :
    Keeps R (resolvePath (σ := σ) current segments) := by
  induction segments generalizing current with
  | nil => exact hR.pure _
  | cons segment rest ih =>
    refine hR.bind (hload current) fun found => ?_
    cases found with
    | false => exact hR.pure _
    | true =>
      refine hR.bind hR.get fun asked => ?_
      split
      · exact hR.pure _
      · exact ih _
      all_goals exact hR.fail _

/-- The starts of a traversal are found by asking for nodes. -/
theorem keeps_resolveTraversalStarts (anchor : NodeId) (segments : List String) :
    Keeps R (resolveTraversalStarts (σ := σ) anchor segments) := by
  have hcursor : Keeps R (resolveCursor (σ := σ) anchor segments) := by
    refine hR.bind (hload anchor) fun found => ?_
    cases found with
    | false => exact hR.pure _
    | true =>
      rw [Bool.not_true, if_neg Bool.false_ne_true]
      split
      · exact hR.pure _
      refine hR.bind (keeps_resolvePath hR hload anchor _) fun place => ?_
      cases place with
      | none => exact hR.pure _
      | some current =>
        refine hR.bind (hload current) fun found => ?_
        cases found <;> exact hR.pure _
  refine hR.bind hcursor fun cursor => ?_
  rcases cursor with _ | node | ⟨node, field⟩
  · exact hR.pure _
  · exact hR.pure _
  · refine hR.bind hR.get fun asked => ?_
    split <;> exact hR.pure _

end Resolve

/-- The index files its edges by their ends while nodes are asked for. -/
theorem mirrors_resolved {σ : Type} [RecordStore σ] (hkeyed : KeyedNodes σ)
    {inner resolved : Inner σ} (hindex : ∃ E, inner.relationshipIndex.Mirrors E) {anchor : NodeId}
    {segments : List String} {found : Except PrimadbError (List NodeId × List NodeId)}
    (hstarts : resolveTraversalStarts anchor segments inner = (found, resolved)) :
    ∃ E, resolved.relationshipIndex.Mirrors E := by
  have hkept := keeps_resolveTraversalStarts
    (R := fun before after : Inner σ => (∃ E, before.relationshipIndex.Mirrors E) →
      ∃ E, after.relationshipIndex.Mirrors E)
    ⟨fun _ h => h, fun h h' hbefore => h' (h hbefore)⟩
    (fun node _ ⟨E, hE⟩ => ⟨_, Inner.load_mirrors hkeyed hE node⟩) anchor segments inner hindex
  rwa [hstarts] at hkept

/-- What asking for nodes shows from the starts is what the whole graph has. -/
def Inner.ShowsWhole {σ : Type} [RecordStore σ] (inner resolved : Inner σ) (spec : TraversalSpec)
    (starts : List NodeId) : Prop :=
  ∀ node, (resolved.shownGraph spec).Shows spec starts node ↔
    node ∈ spec.reachable inner.wholeNode starts

section Complete

variable {σ : Type} [RecordStore σ] {inner resolved after : Inner σ} {anchor : NodeId}
  {segments : List String} {starts missing : List NodeId} {spec : TraversalSpec} {fuel : ℕ}
  {result : TraversalResult}

/-- A result said to be complete lists what asking for nodes shows from the starts. -/
theorem TraversalResult.found_eq (hkeyed : KeyedNodes σ) {E : Set TraversalEdge}
    (hindex : resolved.relationshipIndex.Mirrors E)
    (hstarts : resolveTraversalStarts anchor segments inner = (.ok (starts, missing), resolved))
    (hrun : traverseAt fuel anchor segments spec inner = (.ok (some result), after))
    (hcomplete : result.complete = true) :
    result.found = {node | (resolved.shownGraph spec).Shows spec starts node} := by
  rw [traverseAt] at hrun
  obtain ⟨found, resolved', hfound, hrest⟩ := bind_eq_ok hrun
  rw [hstarts] at hfound
  cases hfound
  obtain ⟨out, after', hloop, hpure⟩ := bind_eq_ok hrest
  cases out with
  | none => cases hpure
  | some st =>
    cases hpure
    simp only [TraversalState.result, Bool.and_eq_true, Bool.not_eq_true', List.isEmpty_iff]
      at hcomplete
    obtain ⟨htracked, hend⟩ := (Inner.Ahead.refl hindex).traverseLoop hkeyed hindex
      (.start_state starts missing) rfl hloop hcomplete.2
    ext node
    exact htracked.emitted_iff hend hcomplete.1.2

end Complete

/-! ## A loaded graph -/

section Loaded

variable {σ : Type} [RecordStore σ] {inner resolved : Inner σ} {spec : TraversalSpec}
  {node : NodeId}

/-- A state reached by asking for nodes answers alike. -/
structure Inner.Answers (inner resolved : Inner σ) : Prop where
  asking : ∀ node, resolved.asking node = inner.asking node
  mirrored : inner.Mirrored → resolved.Mirrored
  resident : ∀ node, inner.resident node = true → resolved.resident node = true

private theorem Inner.Answers.composes : Composes (Inner.Answers (σ := σ)) where
  refl _ := ⟨fun _ => rfl, id, fun _ h => h⟩
  trans h h' := ⟨fun node => (h'.asking node).trans (h.asking node),
    fun hinner => h'.mirrored (h.mirrored hinner),
    fun node hnode => h'.resident node (h.resident node hnode)⟩

private theorem Inner.answers_load (hkeyed : KeyedNodes σ) (inner : Inner σ) (node : NodeId) :
    inner.Answers (maybeLoadNode node inner).2 :=
  ⟨asking_load hkeyed inner node, fun h => h.load hkeyed node,
    fun _ h => resident_load hkeyed h node⟩

/-- Memory shows the nodes of the whole graph it answers for. -/
theorem Inner.Answers.nodes_of_resident (hkeyed : KeyedNodes σ) (hloaded : inner.Loaded)
    (h : inner.Answers resolved) (hresident : resolved.resident node = true) :
    resolved.nodes[node]? = inner.wholeNode node := by
  have hasking : inner.asking node = (.ok true, resolved.nodes[node]?) := by
    rw [← h.asking, asking_eq hkeyed, if_pos hresident]
  exact (hloaded.asking hkeyed hasking).2

/-- The edges in memory are edges of the whole graph. -/
theorem Inner.Answers.graphEdges_subset (hkeyed : KeyedNodes σ) (hloaded : inner.Loaded)
    (h : inner.Answers resolved) : graphEdges resolved.nodes ⊆ wholeEdges inner.wholeNode := by
  rintro edge ⟨state, hstate, hedge⟩
  have hbusy : state.isEmpty = false := by
    rw [Bool.eq_false_iff]
    intro hempty
    rw [NodeState.isEmpty, Bool.and_eq_true, Std.ExtTreeMap.isEmpty_iff] at hempty
    rw [nodeEdges, hempty.1] at hedge
    cases hedge
  have hresident : resolved.resident edge.source = true := by
    rw [Inner.resident, hstate]
    simp [hbusy]
  rw [h.nodes_of_resident hkeyed hloaded hresident] at hstate
  exact ⟨state, hstate, hedge⟩

/-- A node that is there shows the selected edges of the whole graph, when these are followed in
their direction or the nodes with such edges are in memory. -/
theorem Inner.Answers.mem_shownGraph_edges (hkeyed : KeyedNodes σ) (hmirrored : inner.Mirrored)
    (hloaded : inner.Loaded)
    (hvisible : spec.direction = .outbound ∨ ∀ node state, inner.wholeNode node = some state →
      (∃ edge ∈ nodeEdges node state, spec.keepsEdge edge = true) → inner.resident node = true)
    (h : inner.Answers resolved) (hnode : ((resolved.shownGraph spec).value node).isSome = true)
    {edge : TraversalEdge} :
    edge ∈ (resolved.shownGraph spec).edges node ↔
      edge ∈ wholeEdges inner.wholeNode ∧ spec.leaves node edge = true := by
  have hload := Inner.Answers.composes.trans h (resolved.answers_load hkeyed node)
  have hshown : edge ∈ (resolved.shownGraph spec).edges node ↔ _ :=
    RelationshipIndex.Mirrors.mem_followedEdges (hload.mirrored hmirrored)
  rw [hshown, TraversalSpec.leaves, Bool.and_eq_true, Bool.or_eq_true, decide_eq_true_iff,
    decide_eq_true_iff]
  refine ⟨fun hedge => ⟨hload.graphEdges_subset hkeyed hloaded hedge.1, hedge.2⟩, ?_⟩
  rintro ⟨⟨state, hstate, hedge⟩, hkeeps, hends⟩
  refine ⟨⟨state, ?_, hedge⟩, hkeeps, hends⟩
  rcases hends with ⟨-, hsource⟩ | ⟨hdirection, -⟩
  · -- the node itself was asked for
    rw [hsource] at hstate ⊢
    rw [shownGraph] at hnode
    rcases hasking : resolved.asking node with ⟨_ | found, asked⟩
    · simp [hasking] at hnode
    · have hinner := (h.asking node).symm.trans hasking
      have hnodes : (maybeLoadNode node resolved).2.nodes[node]? = asked :=
        congrArg Prod.snd hasking
      rw [hnodes, (hloaded.asking hkeyed hinner).2, hstate]
  · have hresident := hvisible.resolve_left hdirection _ state hstate ⟨edge, hedge, hkeeps⟩
    rw [hload.nodes_of_resident hkeyed hloaded (hload.resident _ hresident), hstate]

/-- The nodes that are shown and pass are those of the whole graph. -/
theorem Inner.Answers.passes_iff (hkeyed : KeyedNodes σ) (hloaded : inner.Loaded)
    (h : inner.Answers resolved) (hnode : ((resolved.shownGraph spec).value node).isSome = true) :
    (resolved.shownGraph spec).Passes spec node ↔
      ∃ state, inner.wholeNode node = some state ∧
        spec.matchesNode node state.shallow = true := by
  rw [shownGraph] at hnode
  rcases hasking : resolved.asking node with ⟨_ | found, asked⟩
  · simp [hasking] at hnode
  · obtain ⟨hfound, rfl⟩ := hloaded.asking hkeyed ((h.asking node).symm.trans hasking)
    cases found with
    | false => simp [hasking] at hnode
    | true =>
      obtain ⟨state, hstate⟩ := Option.isSome_iff_exists.mp hfound.symm
      rw [hstate] at hasking
      rw [TraversalGraph.Passes, shownGraph_value hasking, hstate]
      simp

/-- Asking for nodes shows the whole graph when memory holds all that is stored of the nodes it
answers for, edges are not followed against their direction or the nodes with selected edges are in
memory, no node on the way is absent, and starts are asked for or do not pass. -/
theorem Inner.showsWhole_of_loaded (hkeyed : KeyedNodes σ) (hmirrored : inner.Mirrored)
    (hloaded : inner.Loaded)
    (hvisible : spec.direction = .outbound ∨ ∀ node state, inner.wholeNode node = some state →
      (∃ edge ∈ nodeEdges node state, spec.keepsEdge edge = true) → inner.resident node = true)
    {anchor : NodeId} {segments : List String} {starts missing : List NodeId}
    (hstarts : resolveTraversalStarts anchor segments inner = (.ok (starts, missing), resolved))
    (hthere : ∀ node ∈ (resolved.shownGraph spec).reach starts,
      ((resolved.shownGraph spec).value node).isSome = true)
    (hdue : spec.includeStart = true ∨ ∀ start ∈ starts, ∀ state,
      inner.wholeNode start = some state → spec.matchesNode start state.shallow = false) :
    inner.ShowsWhole resolved spec starts := by
  have h : inner.Answers resolved := by
    have hkept := keeps_resolveTraversalStarts Inner.Answers.composes
      (fun node inner => inner.answers_load hkeyed node) anchor segments inner
    rwa [hstarts] at hkept
  have hedges := fun node (hnode : node ∈ (resolved.shownGraph spec).reach starts) =>
    @Inner.Answers.mem_shownGraph_edges σ _ inner resolved spec node hkeyed hmirrored hloaded
      hvisible h (hthere node hnode)
  have hreach : ∀ node, node ∈ (resolved.shownGraph spec).reach starts ↔
      ∃ path, Way {n | n ∈ starts} (spec.SelectsWhole inner.wholeNode) path node := by
    intro node
    constructor
    · intro hnode
      obtain ⟨path, hway⟩ := hnode
      refine ⟨path, ?_⟩
      induction hway with
      | start hstart => exact .start hstart
      | snoc hprevious hstep ih =>
        obtain ⟨-, edge, hedge, hacross⟩ := hstep
        obtain ⟨hwhole, hleaves⟩ := (hedges _ ⟨_, hprevious⟩).mp hedge
        exact .snoc ih ⟨edge, hwhole, hleaves, hacross⟩
    · rintro ⟨path, hway⟩
      refine hway.induct (P := (· ∈ (resolved.shownGraph spec).reach starts))
        (fun s hs => TraversalGraph.mem_reach_of_mem hs) fun a b ha hab => ?_
      obtain ⟨edge, hwhole, hleaves, hacross⟩ := hab
      exact TraversalGraph.reach_of_leads ha
        ⟨hthere a ha, edge, (hedges a ha).mpr ⟨hwhole, hleaves⟩, hacross⟩
  intro node
  constructor
  · rintro ⟨hpasses, hnode, -⟩
    exact ⟨(h.passes_iff hkeyed hloaded (hthere node hnode)).mp hpasses, (hreach node).mp hnode⟩
  · rintro ⟨hpasses, hway⟩
    have hnode := (hreach node).mpr hway
    refine ⟨(h.passes_iff hkeyed hloaded (hthere node hnode)).mpr hpasses, hnode, ?_⟩
    refine hdue.imp_right fun hfails => .inl fun hstart => ?_
    obtain ⟨state, hstate, hmatches⟩ := hpasses
    rw [hfails node hstart state hstate] at hmatches
    cases hmatches

end Loaded

/-- A store that holds nodes only. -/
structure NodeTable where
  nodes : BTreeMap NodeId NodeState

instance : RecordStore NodeTable where
  loadMetadata _ := .ok none
  applyTransaction tx table := (.ok (),
    ⟨tx.nodes.toList.foldl (fun nodes entry => nodes.insert entry.1 entry.2) table.nodes⟩)
  getNode table node := .ok (table.nodes[node]?.filter (·.id = node))
  scanRecordEntries _ _ := .ok none

/-- The table returns nodes under their own ids. -/
theorem keyedNodes_nodeTable : KeyedNodes NodeTable := by
  intro table node state hstate
  have hfilter : table.nodes[node]?.filter (·.id = node) = some state := Except.ok.inj hstate
  rw [Option.filter_eq_some_iff] at hfilter
  exact of_decide_eq_true hfilter.2

/-- A database with nodes in a store and nodes in memory. -/
def storedDb (stored memory : List (NodeId × List NodeId)) : Inner NodeTable :=
  Inner.rebuildRelationshipIndex
    { (Inner.withReplicaId "r" ⟨fun _ => 0, 0⟩ : Inner NodeTable) with
      storageEngine := some ⟨(linkedDb stored).nodes⟩
      nodes := (linkedDb memory).nodes }

/-- The nodes of a traversal with whether it is said to be complete. -/
def completed (anchor : NodeId) (spec : TraversalSpec) (inner : Inner NodeTable) :
    Except PrimadbError (Option (Bool × List NodeId)) :=
  (traverseAt 9 anchor [] spec inner).1.map fun result =>
    result.map fun found => (found.complete, found.entries.map (·.nodeId))

private theorem exists_of_completed {anchor : NodeId} {spec : TraversalSpec}
    {inner : Inner NodeTable}
    {nodes : List NodeId} (h : completed anchor spec inner = .ok (some (true, nodes))) :
    ∃ result, traverseAt 9 anchor [] spec inner =
        (.ok (some result), (traverseAt 9 anchor [] spec inner).2) ∧
      result.complete = true ∧ result.entries.map (·.nodeId) = nodes := by
  rw [completed] at h
  rcases hrun : traverseAt 9 anchor [] spec inner with ⟨e | _ | result, after⟩
  · rw [hrun] at h
    cases h
  · rw [hrun] at h
    cases h
  · rw [hrun] at h
    obtain ⟨hcomplete, hnodes⟩ := Prod.mk.inj (Option.some.inj (Except.ok.inj h))
    exact ⟨result, rfl, hcomplete, hnodes⟩

/-- A node behind an edge of a start is reachable. -/
theorem mem_reachable_of_edge {whole : NodeId → Option NodeState} {spec : TraversalSpec}
    (hfilters : spec.filters = []) {start : NodeId} {e : TraversalEdge}
    (hedge : ((whole e.source).map (nodeEdges e.source)).any (·.contains e) = true)
    (hleaves : spec.leaves start e = true) (hnext : (whole (e.across start)).isSome = true) :
    e.across start ∈ spec.reachable whole [start] := by
  obtain ⟨state, hstate⟩ := Option.isSome_iff_exists.mp hnext
  refine ⟨⟨state, hstate, ?_⟩, [start] ++ [e.across start], ?_⟩
  · rw [TraversalSpec.matchesNode, hfilters]
    rfl
  · refine .snoc (.start (List.mem_singleton.mpr rfl)) ⟨e, ?_, hleaves, rfl⟩
    cases hsource : whole e.source with
    | none =>
      rw [hsource] at hedge
      cases hedge
    | some source =>
      rw [hsource, Option.map_some, Option.any_some] at hedge
      exact ⟨source, hsource, List.contains_iff_mem.mp hedge⟩

end Primadb

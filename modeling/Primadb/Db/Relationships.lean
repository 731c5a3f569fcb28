import Primadb.Core.Grouping
import Primadb.Db.Inner

/-!
# The relationship index

The index groups the edges of the graph by source and by target. Reindexing a node
replaces the edges leaving it, and an index is determined by its edges, so a
maintained index equals the one rebuilt from the nodes.
-/

namespace Primadb

/-- The edges of a node map. -/
def graphEdges (nodes : BTreeMap NodeId NodeState) : Set TraversalEdge :=
  {edge | ∃ state, nodes[edge.source]? = some state ∧ edge ∈ nodeEdges edge.source state}

/-- The edges with those leaving a node replaced. -/
def replaceEdges (E : Set TraversalEdge) (node : NodeId) (new : Set TraversalEdge) :
    Set TraversalEdge :=
  {edge | if edge.source = node then edge ∈ new else edge ∈ E}

private theorem source_of_mem_nodeEdges {node : NodeId} {state : NodeState} {edge : TraversalEdge}
    (h : edge ∈ nodeEdges node state) : edge.source = node := by
  obtain ⟨entry, -, hedge⟩ := List.mem_flatMap.mp h
  split at hedge
  · rw [List.mem_singleton.mp hedge]
  · obtain ⟨target, -, rfl⟩ := List.mem_map.mp hedge
    rfl
  all_goals exact absurd hedge List.not_mem_nil

namespace RelationshipIndex

/-- The index holds exactly the given edges. -/
structure Mirrors (index : RelationshipIndex) (E : Set TraversalEdge) : Prop where
  outbound : Groups index.outbound TraversalEdge.source E
  inbound : Groups index.inbound TraversalEdge.target E

namespace Mirrors

variable {index index' : RelationshipIndex} {E : Set TraversalEdge}

theorem empty : RelationshipIndex.empty.Mirrors ∅ := ⟨Groups.empty, Groups.empty⟩

/-- A set of edges has one index. -/
theorem unique (h : index.Mirrors E) (h' : index'.Mirrors E) : index = index' := by
  cases index
  cases index'
  exact congrArg₂ _ (h.outbound.unique h'.outbound) (h.inbound.unique h'.inbound)

private theorem foldl_insert (h : index.Mirrors E) (edges : List TraversalEdge) :
    (edges.foldl RelationshipIndex.insert index).Mirrors {e | e ∈ E ∨ e ∈ edges} := by
  have hfold : ∀ (l : List TraversalEdge) (i : RelationshipIndex),
      l.foldl RelationshipIndex.insert i =
        ⟨l.foldl (fun groups e => addToGroup groups e.source e) i.outbound,
          l.foldl (fun groups e => addToGroup groups e.target e) i.inbound⟩ := by
    intro l
    induction l with
    | nil => exact fun _ => rfl
    | cons e l ih => exact fun i => ih (i.insert e)
  rw [hfold]
  exact ⟨h.outbound.addAll edges, h.inbound.addAll edges⟩

/-- Removing a source removes exactly the edges leaving it. -/
theorem removeSource (h : index.Mirrors E) (source : NodeId) :
    (index.removeSource source).Mirrors {e ∈ E | e.source ≠ source} := by
  have hmem := h.outbound.mem source
  rw [RelationshipIndex.removeSource]
  cases hout : index.outbound[source]? with
  | none =>
    have hset : {e ∈ E | e.source ≠ source} = E := by
      ext e
      refine ⟨And.left, fun he => ⟨he, fun hs => ?_⟩⟩
      have := (hmem e).mpr ⟨he, hs⟩
      simp [group, hout] at this
    rw [hset]
    exact h
  | some edges =>
    have hfold : ∀ {f : RelationshipIndex → TraversalEdge → RelationshipIndex},
        (∀ i e, f i e = ⟨i.outbound, removeFromGroup i.inbound e.target e⟩) →
        ∀ (l : List TraversalEdge) (i : RelationshipIndex), l.foldl f i =
          ⟨i.outbound, l.foldl (fun groups e => removeFromGroup groups e.target e) i.inbound⟩ := by
      intro f hf l
      induction l with
      | nil => exact fun _ => rfl
      | cons e l ih =>
        intro i
        rw [List.foldl_cons, List.foldl_cons, ih, hf]
    have hset : {e | e ∈ E ∧ e ∉ edges.toList} = {e ∈ E | e.source ≠ source} := by
      ext e
      simp only [Set.mem_ofPred_eq, Std.ExtTreeSet.mem_toList]
      refine and_congr_right fun he => not_congr ?_
      have := hmem e
      rw [group, hout, Option.getD_some] at this
      rw [this]
      exact ⟨And.right, fun hs => ⟨he, hs⟩⟩
    dsimp only
    rw [hfold]
    · exact ⟨h.outbound.dropGroup source, hset ▸ h.inbound.removeAll edges.toList⟩
    · intro i e
      simp only [removeFromGroup]
      cases hi : i.inbound[e.target]? with
      | none => rfl
      | some members =>
        dsimp only
        split <;> rfl

end Mirrors

end RelationshipIndex

namespace Inner

variable {σ : Type}

/-- Reindexing a node replaces the edges leaving it by those of its state. -/
theorem reindexNodeRelationships_mirrors {inner : Inner σ} {E : Set TraversalEdge}
    (h : inner.relationshipIndex.Mirrors E) (node : NodeId) :
    (inner.reindexNodeRelationships node).relationshipIndex.Mirrors
      (replaceEdges E node (graphEdges inner.nodes)) := by
  have hremove := h.removeSource node
  rw [reindexNodeRelationships]
  cases hn : inner.nodes[node]? with
  | none =>
    have hset : {e ∈ E | e.source ≠ node} = replaceEdges E node (graphEdges inner.nodes) := by
      ext e
      simp only [replaceEdges, Set.mem_ofPred_eq]
      by_cases hs : e.source = node
      · simp [hs, graphEdges, hn]
      · simp [hs]
    exact hset ▸ hremove
  | some state =>
    have hset : {e | e ∈ {e ∈ E | e.source ≠ node} ∨ e ∈ nodeEdges node state} =
        replaceEdges E node (graphEdges inner.nodes) := by
      ext e
      simp only [replaceEdges, Set.mem_ofPred_eq]
      by_cases hs : e.source = node
      · simp [hs, graphEdges, hn]
      · have hno : e ∉ nodeEdges node state := fun he => hs (source_of_mem_nodeEdges he)
        simp [hs, hno]
    exact hset ▸ hremove.foldl_insert (nodeEdges node state)

theorem reindexNodeRelationships_eq (inner : Inner σ) (node : NodeId) :
    inner.reindexNodeRelationships node =
      { inner with
        relationshipIndex := (inner.reindexNodeRelationships node).relationshipIndex } := rfl

/-- Reindexing several nodes changes the index only. -/
theorem foldl_reindex_eq (inner : Inner σ) (l : List NodeId) :
    ∃ index, l.foldl reindexNodeRelationships inner =
      { inner with relationshipIndex := index } := by
  induction l generalizing inner with
  | nil => exact ⟨_, rfl⟩
  | cons node l ih => exact ih (inner.reindexNodeRelationships node)

/-- Reindexing several nodes changes the index only and replaces their edges. -/
theorem foldl_reindex {inner : Inner σ} {E : Set TraversalEdge}
    (h : inner.relationshipIndex.Mirrors E) (l : List NodeId) :
    ∃ index, l.foldl reindexNodeRelationships inner = { inner with relationshipIndex := index } ∧
      index.Mirrors {e | if e.source ∈ l then e ∈ graphEdges inner.nodes else e ∈ E} := by
  induction l generalizing inner E with
  | nil => exact ⟨_, rfl, by simpa using h⟩
  | cons node l ih =>
    obtain ⟨index, heq, hindex⟩ := ih (reindexNodeRelationships_mirrors h node)
    refine ⟨index, heq, ?_⟩
    have hset : {e | if e.source ∈ l then e ∈ graphEdges inner.nodes
        else e ∈ replaceEdges E node (graphEdges inner.nodes)} =
        {e | if e.source ∈ node :: l then e ∈ graphEdges inner.nodes else e ∈ E} := by
      ext e
      simp only [replaceEdges, Set.mem_ofPred_eq, List.mem_cons]
      by_cases hl : e.source ∈ l <;> by_cases hn : e.source = node <;> simp [hl, hn]
    exact hset ▸ hindex

/-- `rebuild_relationship_index`. -/
def rebuildRelationshipIndex (inner : Inner σ) : Inner σ :=
  inner.nodes.keys.foldl reindexNodeRelationships { inner with relationshipIndex := .empty }

/-- The rebuilt index holds exactly the edges of the nodes. -/
theorem rebuildRelationshipIndex_mirrors (inner : Inner σ) :
    inner.rebuildRelationshipIndex.relationshipIndex.Mirrors (graphEdges inner.nodes) := by
  obtain ⟨index, heq, hindex⟩ := foldl_reindex
    (show ({ inner with relationshipIndex := .empty } : Inner σ).relationshipIndex.Mirrors ∅ from
      RelationshipIndex.Mirrors.empty) inner.nodes.keys
  rw [rebuildRelationshipIndex, heq]
  have hset : {e | if e.source ∈ inner.nodes.keys then e ∈ graphEdges inner.nodes
      else e ∈ (∅ : Set TraversalEdge)} = graphEdges inner.nodes := by
    ext e
    simp only [Set.mem_ofPred_eq, Std.ExtTreeMap.mem_keys]
    split
    · exact Iff.rfl
    · rename_i hk
      refine ⟨fun h => absurd h (Set.notMem_empty e), fun ⟨state, hs, _⟩ => absurd ?_ hk⟩
      exact Std.ExtTreeMap.mem_iff_isSome_getElem?.mpr (by rw [hs]; rfl)
  exact hset ▸ hindex

/-- The relationship index matches the node map: it is the one rebuilt from scratch. -/
def IndexMatches (inner : Inner σ) : Prop :=
  inner.relationshipIndex = inner.rebuildRelationshipIndex.relationshipIndex

/-- A matching index holds exactly the edges of the nodes. -/
theorem indexMatches_iff (inner : Inner σ) :
    inner.IndexMatches ↔ inner.relationshipIndex.Mirrors (graphEdges inner.nodes) := by
  constructor
  · intro h
    rw [h]
    exact inner.rebuildRelationshipIndex_mirrors
  · exact fun h => h.unique inner.rebuildRelationshipIndex_mirrors

end Inner

end Primadb

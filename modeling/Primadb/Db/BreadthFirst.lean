import Primadb.Db.IndexRuns
import Primadb.Db.TraversalRuns

/-!
# Breadth first

The frontier of a breadth-first traversal lies in layers: the depths of its frames do not decrease
and span two levels at most. A node is therefore met at its distance from the starts, and when the
frontier is empty every node within the greatest depth was met.
-/

namespace Primadb

namespace TraversalGraph

variable {graph : TraversalGraph} {spec : TraversalSpec} {frame : TraversalFrame}
  {st st' : TraversalState} {starts : Set NodeId}

/-- The frontier is in layers, and what was met was met at its distance. -/
structure Layered (graph : TraversalGraph) (spec : TraversalSpec) (starts : Set NodeId)
    (st : TraversalState) : Prop where
  /-- Frames, entries and starts. -/
  explored : graph.Explored spec starts st
  /-- The depths do not decrease. -/
  ordered : st.frontier.Pairwise (·.depth ≤ ·.depth)
  /-- They span two levels. -/
  span : ∀ f ∈ st.frontier, ∀ g ∈ st.frontier, g.depth ≤ f.depth + 1
  /-- No node met is farther than a frame. -/
  nearer : ∀ v ∈ st.visited, ∃ d, IsDistance starts graph.Leads v d ∧ ∀ f ∈ st.frontier, d ≤ f.depth
  /-- What lies behind a node met was met or is pending one level deeper. -/
  closed : ∀ v ∈ st.visited, ∀ d, IsDistance starts graph.Leads v d → d < spec.maxDepth →
    ∀ w, graph.Leads v w → w ∈ st.visited ∨ ∃ f ∈ st.frontier, f.node = w ∧ f.depth ≤ d + 1
  /-- Entries have their distance. -/
  distance : ∀ e ∈ st.entries, IsDistance starts graph.Leads e.nodeId e.depth
  /-- The depths of the entries do not decrease. -/
  levels : st.entries.Pairwise (·.depth ≤ ·.depth)
  /-- No entry is deeper than a frame. -/
  emitted : ∀ e ∈ st.entries, ∀ f ∈ st.frontier, e.depth ≤ f.depth

/-- Breadth first, the first frame is taken. -/
theorem pop_bfs (hbfs : spec.strategy = .bfs) (h : st.pop spec.strategy = some (frame, st')) :
    ∃ rest, st.frontier = frame :: rest ∧ st' = { st with frontier := rest } := by
  rw [hbfs] at h
  obtain ⟨first, hfirst, heq⟩ := Option.map_eq_some_iff.mp h
  obtain ⟨rfl, rfl⟩ := Prod.mk.inj heq
  obtain ⟨rest, hrest⟩ := List.head?_eq_some_iff.mp hfirst
  exact ⟨rest, hrest, by rw [hrest]; rfl⟩

namespace Layered

/-- The start of a traversal is layered. -/
theorem start_state (nodes missing : List NodeId) :
    graph.Layered spec {n | n ∈ nodes} (.start nodes missing) := by
  have hdepth : ∀ f ∈ (TraversalState.start nodes missing).frontier, f.depth = 0 := by
    intro f hf
    obtain ⟨node, -, rfl⟩ := List.mem_map.mp hf
    rfl
  refine ⟨.start_state nodes missing, ?_, fun f hf g hg => ?_, ?_, ?_, ?_, .nil, ?_⟩
  · refine List.pairwise_of_forall_mem_list fun f hf g hg => ?_
    rw [hdepth f hf, hdepth g hg]
  · rw [hdepth f hf, hdepth g hg]
    exact Nat.zero_le _
  · exact fun v hv => absurd hv Std.ExtTreeSet.not_mem_empty
  · exact fun v hv => absurd hv Std.ExtTreeSet.not_mem_empty
  · exact fun e he => absurd he List.not_mem_nil
  · exact fun e he => absurd he List.not_mem_nil

/-- A way that is not too long leads to a node met or is at least as long as a frame is deep. -/
theorem met_or_pending (h : graph.Layered spec starts st) {path : List NodeId} {v : NodeId}
    (hway : Way starts graph.Leads path v) (hbound : path.length ≤ spec.maxDepth + 1) :
    v ∈ st.visited ∨ ∃ f ∈ st.frontier, f.depth ≤ path.length - 1 := by
  refine hway.done_or_pending (D := (· ∈ st.visited))
    (P := fun n => ∃ f ∈ st.frontier, f.depth ≤ n) ?_ ?_ ?_ hbound
  · rintro m n hmn ⟨f, hf, hle⟩
    exact ⟨f, hf, hle.trans hmn⟩
  · intro s hs
    refine (h.explored.start s hs).imp_right ?_
    rintro ⟨f, hf, -, hdepth⟩
    exact ⟨f, hf, hdepth.le⟩
  · intro a b d ha hd hlt hab
    refine (h.closed a ha d hd hlt b hab).imp_right ?_
    rintro ⟨f, hf, -, hle⟩
    exact ⟨f, hf, hle⟩

/-- The first frame is no deeper than the others, which are at most one level deeper. -/
theorem head_depth {rest : List TraversalFrame} (h : graph.Layered spec starts st)
    (hfrontier : st.frontier = frame :: rest) {f : TraversalFrame} (hf : f ∈ rest) :
    frame.depth ≤ f.depth ∧ f.depth ≤ frame.depth + 1 := by
  have hordered := h.ordered
  rw [hfrontier] at hordered
  refine ⟨(List.pairwise_cons.mp hordered).1 f hf, h.span frame ?_ f ?_⟩
  · exact hfrontier ▸ List.mem_cons_self
  · exact hfrontier ▸ List.mem_cons_of_mem _ hf

private theorem distance_head {rest : List TraversalFrame} (h : graph.Layered spec starts st)
    (hfrontier : st.frontier = frame :: rest) (hunmet : frame.node ∉ st.visited) :
    IsDistance starts graph.Leads frame.node frame.depth := by
  have hframe : frame ∈ st.frontier := hfrontier ▸ List.mem_cons_self
  have hway := h.explored.way frame hframe
  refine ⟨⟨frame.path, hway.way, hway.length⟩, fun path hpath => ?_⟩
  by_contra hshort
  have hpos := hpath.length_pos
  have hdepth := h.explored.bounded frame hframe
  rcases h.met_or_pending hpath (by omega) with hmet | ⟨f, hf, hle⟩
  · exact hunmet hmet
  · have hfirst : frame.depth ≤ f.depth := by
      rw [hfrontier] at hf
      rcases List.mem_cons.mp hf with rfl | hf
      · exact le_rfl
      · exact (h.head_depth hfrontier hf).1
    omega

/-- A frame of a node met before is left out. -/
theorem skip (hbfs : spec.strategy = .bfs) (h : graph.Layered spec starts st)
    (hpop : st.pop spec.strategy = some (frame, st'))
    (hseen : st'.visited.contains frame.node = true) : graph.Layered spec starts st' := by
  have hexplored := h.explored.skip hpop hseen
  obtain ⟨rest, hfrontier, rfl⟩ := pop_bfs hbfs hpop
  have hrest : ∀ f ∈ rest, f ∈ st.frontier := fun f hf => hfrontier ▸ List.mem_cons_of_mem _ hf
  have hordered := h.ordered
  rw [hfrontier] at hordered
  refine ⟨hexplored, (List.pairwise_cons.mp hordered).2, fun f hf g hg => ?_, fun v hv => ?_,
    fun v hv d hd hlt w hw => ?_, h.distance, h.levels, fun e he f hf => ?_⟩
  · exact h.span f (hrest f hf) g (hrest g hg)
  · obtain ⟨d, hd, hle⟩ := h.nearer v hv
    exact ⟨d, hd, fun f hf => hle f (hrest f hf)⟩
  · exact Due.skip (fun f hf => hf.1) (h.closed v hv d hd hlt w hw) hpop hseen
  · exact h.emitted e he f (hrest f hf)

/-- A round on a new node keeps the layers. -/
theorem visit (hbfs : spec.strategy = .bfs) (h : graph.Layered spec starts st)
    (hpop : st.pop spec.strategy = some (frame, st'))
    (hnew : st'.visited.contains frame.node = false) :
    graph.Layered spec starts (graph.afterVisit spec frame st' (graph.cuts spec frame)) := by
  have hexplored := h.explored.visit hpop hnew
  obtain ⟨rest, hfrontier, rfl⟩ := pop_bfs hbfs hpop
  have hunmet : frame.node ∉ st.visited := by
    rw [Std.ExtTreeSet.mem_iff_contains]
    exact Bool.eq_false_iff.mp hnew
  have hframe : frame ∈ st.frontier := hfrontier ▸ List.mem_cons_self
  have hdistance := h.distance_head hfrontier hunmet
  -- the frames lie on the level of the first one or one level deeper
  have hpushed : ∀ f ∈ graph.pushed spec frame (st.visited.insert frame.node),
      f.depth = frame.depth + 1 := fun f hf => (mem_pushed.mp hf).2.2.2.1
  have hdepth : ∀ f ∈ rest ++ graph.pushed spec frame (st.visited.insert frame.node),
      frame.depth ≤ f.depth ∧ f.depth ≤ frame.depth + 1 := by
    intro f hf
    rcases List.mem_append.mp hf with hf | hf
    · exact h.head_depth hfrontier hf
    · rw [hpushed f hf]
      exact ⟨Nat.le_succ _, le_rfl⟩
  have hordered := h.ordered
  rw [hfrontier] at hordered
  refine ⟨hexplored, List.pairwise_append.mpr ⟨(List.pairwise_cons.mp hordered).2, ?_, ?_⟩,
    fun f hf g hg => (hdepth g hg).2.trans (Nat.succ_le_succ (hdepth f hf).1), fun v hv => ?_,
    fun v hv d hd hlt w hw => ?_, fun e he => ?_, ?_, fun e he f hf => ?_⟩
  · refine List.pairwise_of_forall_mem_list fun f hf g hg => ?_
    rw [hpushed f hf, hpushed g hg]
  · intro f hf g hg
    rw [hpushed g hg]
    exact (h.head_depth hfrontier hf).2
  · rcases mem_insert_visited.mp hv with rfl | hmet
    · exact ⟨frame.depth, hdistance, fun f hf => (hdepth f hf).1⟩
    · obtain ⟨d, hd, hle⟩ := h.nearer v hmet
      exact ⟨d, hd, fun f hf => (hle frame hframe).trans (hdepth f hf).1⟩
  · rcases mem_insert_visited.mp hv with rfl | hmet
    · -- what lies behind the new node is pushed unless it was met
      obtain rfl := hd.unique hdistance
      by_cases hseen : w ∈ st.visited.insert frame.node
      · exact .inl hseen
      · obtain ⟨f, hf, hnode, hlevel⟩ := exists_pushed hlt hw hseen
        exact .inr ⟨f, List.mem_append_right _ hf, hnode, hlevel.le⟩
    · exact Due.visit (fun f hf => hf.1) (h.closed v hmet d hd hlt w hw) hpop
  · rcases List.mem_append.mp he with he | he
    · exact h.distance e he
    · obtain ⟨hnode, hlevel, -⟩ := mem_emission he
      rw [hnode, hlevel]
      exact hdistance
  · refine List.pairwise_append.mpr ⟨h.levels, ?_, fun e he e' he' => ?_⟩
    · refine List.pairwise_of_forall_mem_list fun e he e' he' => ?_
      rw [(mem_emission he).2.1, (mem_emission he').2.1]
    · rw [(mem_emission he').2.1]
      exact h.emitted e he frame hframe
  · refine le_trans ?_ (hdepth f hf).1
    rcases List.mem_append.mp he with he | he
    · exact h.emitted e he frame hframe
    · exact (mem_emission he).2.1.le

end Layered

/-- A breadth-first loop with room for all nodes ends in layers. -/
theorem bfs_loop (hbfs : spec.strategy = .bfs) {keys : List NodeId} (hnodup : keys.Nodup)
    (hkeys : ∀ n, n ∉ keys → graph.value n = none) (hroom : keys.length ≤ spec.limitValue)
    {nodes missing : List NodeId} {fuel : ℕ}
    (hfuel : graph.work keys (.start nodes missing) < fuel) :
    ∃ out, graph.loop spec fuel (.start nodes missing) = some out ∧
      graph.Layered spec {n | n ∈ nodes} out ∧ out.frontier = [] := by
  obtain ⟨out, hloop, ⟨hlayered, hfrontier, -⟩ |
    ⟨-, before, frame, after, hlayered, hpop, hnew, hemits, hfull⟩⟩ :=
    loop_invariant (I := graph.Layered spec {n | n ∈ nodes}) hnodup hkeys
      (fun h hpop hseen => h.skip hbfs hpop hseen) (fun h hpop hnew _ => h.visit hbfs hpop hnew)
      rfl (.start_state nodes missing) hfuel
  · exact ⟨out, hloop, hlayered, hfrontier⟩
  · have := hlayered.explored.room hkeys hpop hnew hemits
    omega

/-- At the end the entries are the nodes within the greatest depth that pass, starts apart when
they are not asked for. -/
theorem Layered.entries_iff (h : graph.Layered spec starts st) (hend : st.frontier = [])
    (node : NodeId) :
    (∃ e ∈ st.entries, e.nodeId = node) ↔
      graph.Passes spec node ∧ ∃ d ≤ spec.maxDepth, IsDistance starts graph.Leads node d ∧
        (0 < d ∨ spec.includeStart = true) := by
  constructor
  · rintro ⟨e, he, rfl⟩
    obtain ⟨-, hpasses, hemits, hdepth, -⟩ := h.explored.entry e he
    refine ⟨hpasses, e.depth, hdepth, h.distance e he, ?_⟩
    rw [TraversalSpec.emits, Bool.or_eq_true, decide_eq_true_iff] at hemits
    exact hemits
  · rintro ⟨hpasses, d, hle, hd, hdue⟩
    obtain ⟨path, hpath, hlength⟩ := hd.way
    have hmet : node ∈ st.visited := by
      refine (h.met_or_pending hpath (by omega)).resolve_right ?_
      rintro ⟨f, hf, -⟩
      rw [hend] at hf
      cases hf
    refine (h.explored.met node hmet hpasses).resolve_right ?_
    rintro ⟨hstart, hnot⟩
    have hleast := hd.least [node] (.start hstart)
    rw [List.length_singleton] at hleast
    rcases hdue with hpos | hinclude
    · omega
    · rw [hnot] at hinclude
      cases hinclude

end TraversalGraph

/-! ## The edges selected -/

/-- A node in memory leads to another over an edge the traversal follows. -/
def TraversalSpec.Selects (spec : TraversalSpec) (nodes : BTreeMap NodeId NodeState)
    (node next : NodeId) : Prop :=
  node ∈ nodes ∧ ∃ edge ∈ graphEdges nodes, spec.keepsEdge edge = true ∧
    (spec.direction ≠ .inbound ∧ edge.source = node ∧ edge.target = next ∨
      spec.direction ≠ .outbound ∧ edge.target = node ∧ edge.source = next)

/-- Sorting edges and dropping repetitions keeps the edges. -/
theorem mem_sortDedup {edge : TraversalEdge} {edges : List TraversalEdge} :
    edge ∈ sortDedup edges ↔ edge ∈ edges := by
  rw [sortDedup, Std.ExtTreeSet.mem_toList]
  refine (BTreeSet.mem_foldl_insert id edges ∅ edge).trans ?_
  simp

/-- The edges followed from a node are those of the index that leave it in the asked direction. -/
theorem RelationshipIndex.Mirrors.mem_followedEdges {index : RelationshipIndex}
    {E : Set TraversalEdge} (h : index.Mirrors E) {spec : TraversalSpec} {node : NodeId}
    {edge : TraversalEdge} :
    edge ∈ index.followedEdges spec node ↔
      edge ∈ E ∧ spec.keepsEdge edge = true ∧
        (spec.direction ≠ .inbound ∧ edge.source = node ∨
          spec.direction ≠ .outbound ∧ edge.target = node) := by
  rw [RelationshipIndex.followedEdges, mem_sortDedup, List.mem_filter, List.mem_append]
  have hout : edge ∈ (if spec.direction = .inbound then []
      else (group index.outbound node).toList) ↔
      edge ∈ E ∧ spec.direction ≠ .inbound ∧ edge.source = node := by
    split
    · rename_i hdirection
      simp [hdirection]
    · rename_i hdirection
      rw [Std.ExtTreeSet.mem_toList, h.outbound.mem]
      simp [hdirection]
  have hin : edge ∈ (if spec.direction = .outbound then []
      else (group index.inbound node).toList) ↔
      edge ∈ E ∧ spec.direction ≠ .outbound ∧ edge.target = node := by
    split
    · rename_i hdirection
      simp [hdirection]
    · rename_i hdirection
      rw [Std.ExtTreeSet.mem_toList, h.inbound.mem]
      simp [hdirection]
  rw [hout, hin]
  tauto

namespace Inner

variable {σ : Type} {inner : Inner σ} {spec : TraversalSpec}

/-- The traversal goes from node to node over selected edges. -/
theorem Mirrored.leads_iff (h : inner.Mirrored) :
    (inner.traversalGraph spec).Leads = spec.Selects inner.nodes := by
  funext node next
  refine propext (and_congr ?_ (exists_congr fun edge => ?_))
  · rw [traversalGraph, Option.isSome_map, Std.ExtTreeMap.mem_iff_isSome_getElem?]
  · have hedge : edge ∈ inner.relationshipIndex.followedEdges spec node ↔ _ :=
      RelationshipIndex.Mirrors.mem_followedEdges h
    rw [traversalGraph, hedge, TraversalEdge.across]
    constructor
    · rintro ⟨⟨hgraph, hkeeps, hout | hin⟩, hnext⟩
      · rw [if_pos hout.2] at hnext
        exact ⟨hgraph, hkeeps, .inl ⟨hout.1, hout.2, hnext⟩⟩
      · refine ⟨hgraph, hkeeps, .inr ⟨hin.1, hin.2, ?_⟩⟩
        split at hnext
        · rename_i hsource
          rw [hsource, ← hin.2, hnext]
        · exact hnext
    · rintro ⟨hgraph, hkeeps, ⟨hdirection, hsource, htarget⟩ | ⟨hdirection, htarget, hsource⟩⟩
      · exact ⟨⟨hgraph, hkeeps, .inl ⟨hdirection, hsource⟩⟩, by rw [if_pos hsource, htarget]⟩
      · refine ⟨⟨hgraph, hkeeps, .inr ⟨hdirection, htarget⟩⟩, ?_⟩
        split
        · rename_i hself
          rw [htarget, ← hself, hsource]
        · exact hsource

private theorem passes_iff (hfilters : spec.filters = []) (node : NodeId) :
    (inner.traversalGraph spec).Passes spec node ↔ node ∈ inner.nodes := by
  rw [Std.ExtTreeMap.mem_iff_isSome_getElem?, TraversalGraph.Passes, traversalGraph]
  simp only [TraversalSpec.matchesNode, hfilters, List.all_nil, and_true]
  rw [← Option.isSome_iff_exists, Option.isSome_map]

private theorem value_eq_none {node : NodeId} (h : node ∉ inner.nodes.keys) :
    (inner.traversalGraph spec).value node = none := by
  rw [Std.ExtTreeMap.mem_keys] at h
  exact congrArg (Option.map NodeState.shallow) (Std.ExtTreeMap.getElem?_eq_none h)

end Inner

/-- The result lists the nodes within the greatest depth of the starts, nearest first. -/
structure TraversalResult.ListsNearest (result : TraversalResult) (spec : TraversalSpec)
    (nodes : BTreeMap NodeId NodeState) (starts : List NodeId) : Prop where
  /-- No node is listed twice. -/
  once : (result.entries.map (·.nodeId)).Nodup
  /-- The depths do not decrease. -/
  levels : result.entries.Pairwise (·.depth ≤ ·.depth)
  /-- The nodes listed are those within the greatest depth, starts when they are asked for. -/
  listed : ∀ node, (∃ e ∈ result.entries, e.nodeId = node) ↔
    node ∈ nodes ∧ ∃ d ≤ spec.maxDepth,
      IsDistance {n | n ∈ starts} (spec.Selects nodes) node d ∧ (0 < d ∨ spec.includeStart = true)
  /-- The depths are distances, and the paths are ways of that many selected edges. -/
  nearest : ∀ e ∈ result.entries,
    IsDistance {n | n ∈ starts} (spec.Selects nodes) e.nodeId e.depth ∧
      Way {n | n ∈ starts} (spec.Selects nodes) e.path e.nodeId ∧ e.path.length = e.depth + 1

/-- A breadth-first traversal in memory without filters and limit ends and lists every node in
memory within the greatest depth once, starts apart when they are not asked for: with its distance
as depth, in the order of depths, and with a way of that many selected edges. -/
theorem bfs_exact {σ : Type} [RecordStore σ] {inner : Inner σ}
    (hstore : inner.storageEngine = none) (hmirrored : inner.Mirrored)
    (hsize : inner.nodes.size < 2 ^ 64) {spec : TraversalSpec} (hbfs : spec.strategy = .bfs)
    (hfilters : spec.filters = []) (hlimit : spec.limit = none) {anchor : NodeId}
    {segments : List String} {starts missing : List NodeId}
    (hstarts : resolveTraversalStarts anchor segments inner = (.ok (starts, missing), inner)) :
    ∃ enough, ∀ fuel ≥ enough, ∃ result,
      traverseAt fuel anchor segments spec inner = (.ok (some result), inner) ∧
        result.ListsNearest spec inner.nodes starts := by
  refine ⟨(inner.traversalGraph spec).work inner.nodes.keys (.start starts missing) + 1,
    fun fuel hfuel => ?_⟩
  have hroom : inner.nodes.keys.length ≤ spec.limitValue := by
    rw [Std.ExtTreeMap.length_keys, TraversalSpec.limitValue, hlimit, Option.getD_none]
    omega
  obtain ⟨out, hloop, hlayered, hend⟩ := TraversalGraph.bfs_loop hbfs Std.ExtTreeMap.nodup_keys
    (fun n hn => Inner.value_eq_none hn) hroom hfuel
  have hrun : traverseAt fuel anchor segments spec inner = (.ok (some out.result), inner) := by
    rw [Inner.resolveTraversalStarts_of_none hstore] at hstarts
    rw [Inner.traverseAt_of_none hstore, (Prod.mk.inj hstarts).1, Except.map, hloop]
    rfl
  refine ⟨out.result, hrun, ?_⟩
  have hleads : (inner.traversalGraph spec).Leads = spec.Selects inner.nodes :=
    hmirrored.leads_iff
  refine ⟨hlayered.explored.once, hlayered.levels, fun node => ?_, fun e he => ?_⟩
  · rw [← Inner.passes_iff hfilters, ← hleads]
    exact hlayered.entries_iff hend node
  · rw [← hleads]
    have hway := (hlayered.explored.entry e he).2.2.2.2
    exact ⟨hlayered.distance e he, hway.way, hway.length⟩

/-- A database in memory whose nodes have links, each in a field named after its target. -/
def linkedDb (links : List (NodeId × List NodeId)) : Inner Empty :=
  Inner.rebuildRelationshipIndex
    { freshDatabase.inner with
      nodes := links.foldl (fun nodes entry => nodes.insert entry.1
        ⟨entry.1, entry.2.foldl (fun fields target => fields.insert target
          ⟨.link target, ⟨⟨0, 0, "r"⟩, "r"⟩⟩) ∅, ∅⟩) ∅ }

/-- A specification that sets no limit. -/
def unlimited (strategy : TraversalStrategy) (maxDepth : ℕ) (includeStart : Bool) : TraversalSpec :=
  ⟨.outbound, strategy, maxDepth, none, none, true, true, includeStart, false, []⟩

/-- The nodes of a traversal with their depths. -/
def depths (result : Option TraversalResult) : Option (List (NodeId × ℕ)) :=
  result.map fun found => found.entries.map fun e => (e.nodeId, e.depth)

/-- A cycle with a shortcut, a link to an absent node and a node that lies too deep. -/
theorem bfs_exact_linkedDb :
    let inner := linkedDb [("a", ["b", "c", "gone"]), ("b", ["c"]), ("c", ["a", "d"]), ("d", ["e"]),
      ("e", [])]
    let spec := unlimited .bfs 2 true
    (traverseAt 9 "a" [] spec inner).1.map depths =
        .ok (some [("a", 0), ("b", 1), ("c", 1), ("d", 2)]) ∧
      ∃ enough, ∀ fuel ≥ enough, ∃ result,
        traverseAt fuel "a" [] spec inner = (.ok (some result), inner) ∧
          result.ListsNearest spec inner.nodes ["a"] := by
  intro inner spec
  have hnone : inner.storageEngine = none := rfl
  have hstarts : Views.starts inner.view "a" [] = .ok (["a"], []) := by decide +kernel
  refine ⟨by decide +kernel, ?_⟩
  exact bfs_exact hnone (Inner.mirrored_rebuild _) (by decide +kernel) rfl rfl rfl
    (hstarts ▸ Inner.resolveTraversalStarts_of_none hnone "a" [])

/-- A start that is not asked for is not listed. -/
theorem bfs_leaves_out_start :
    let inner := linkedDb [("a", ["b"]), ("b", [])]
    "a" ∈ inner.nodes ∧
      IsDistance {n | n ∈ ["a"]} ((unlimited .bfs 1 false).Selects inner.nodes) "a" 0 ∧
      (traverseAt 4 "a" [] (unlimited .bfs 1 false) inner).1.map depths =
        .ok (some [("b", 1)]) := by
  refine ⟨by decide +kernel, ⟨⟨["a"], .start (List.mem_singleton.mpr rfl), rfl⟩,
    fun path hpath => hpath.length_pos⟩, by decide +kernel⟩

end Primadb

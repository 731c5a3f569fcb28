import Primadb.Core.Ways
import Primadb.Db.Traversal

/-!
# What the loop of a traversal does

A round of the loop either emits the node of its frame or not, and pushes the nodes behind the
edges of that node unless the frame is at the greatest depth. What each round keeps holds when the
loop ends, and it ends with an empty frontier or at the limit. Every frame carries a way without
repetition from a start.
-/

namespace Primadb

/-- The other end of an edge. -/
def TraversalEdge.across (edge : TraversalEdge) (node : NodeId) : NodeId :=
  if edge.source = node then edge.target else edge.source

/-- Nodes that pass the filters are those whose test succeeds, whether or not values are read. -/
theorem TraversalSpec.matches_eq (spec : TraversalSpec) (node : NodeId) (value : JsonValue) :
    (!spec.needsValue || spec.matchesNode node value) = spec.matchesNode node value := by
  cases hneeds : spec.needsValue with
  | true => rfl
  | false =>
    rw [TraversalSpec.needsValue, Bool.or_eq_false_iff, Bool.not_eq_false'] at hneeds
    rw [TraversalSpec.matchesNode, List.isEmpty_iff.mp hneeds.2]
    rfl

namespace TraversalGraph

variable {graph : TraversalGraph} {spec : TraversalSpec} {frame : TraversalFrame}
  {st st' : TraversalState}

/-- A node that is there leads over one of its edges. -/
def Leads (graph : TraversalGraph) (node next : NodeId) : Prop :=
  (graph.value node).isSome ∧ ∃ edge ∈ graph.edges node, edge.across node = next

/-- The node is there and passes the filters. -/
def Passes (graph : TraversalGraph) (spec : TraversalSpec) (node : NodeId) : Prop :=
  ∃ value, graph.value node = some value ∧ spec.matchesNode node value = true

/-! ## One round -/

/-- What a round on a new node emits. -/
def emission (graph : TraversalGraph) (spec : TraversalSpec) (frame : TraversalFrame) :
    List TraversalEntry :=
  match graph.value frame.node with
  | none => []
  | some value =>
    if spec.emits frame.depth && spec.matchesNode frame.node value then
      [⟨frame.node, frame.depth, frame.path, frame.via,
        if spec.includeValues then some value else none⟩]
    else []

/-- What a round on a new node pushes. -/
def pushed (graph : TraversalGraph) (spec : TraversalSpec) (frame : TraversalFrame)
    (visited : BTreeSet NodeId) : List TraversalFrame :=
  if (graph.value frame.node).isSome && decide (frame.depth < spec.maxDepth) then
    (graph.edges frame.node).filterMap fun edge =>
      if visited.contains (edge.across frame.node) then none
      else some ⟨edge.across frame.node, frame.depth + 1,
        frame.path ++ [edge.across frame.node], some edge⟩
  else []

/-- Whether a round on a new node leaves edges at the greatest depth. -/
def cuts (graph : TraversalGraph) (spec : TraversalSpec) (frame : TraversalFrame) : Bool :=
  (graph.value frame.node).isSome && decide (spec.maxDepth ≤ frame.depth) &&
    !(graph.edges frame.node).isEmpty

/-- Emitting appends what is due, or finds the limit reached. -/
theorem emitted_eq {value : JsonValue} (hvalue : graph.value frame.node = some value)
    (st : TraversalState) :
    emitted spec frame value st =
      if graph.emission spec frame ≠ [] ∧ spec.limitValue ≤ st.entries.length then
        { st with resultLimitReached := true }
      else { st with entries := st.entries ++ graph.emission spec frame } := by
  rw [emitted, spec.matches_eq]
  cases hdue : spec.emits frame.depth && spec.matchesNode frame.node value with
  | false =>
    have hemission : graph.emission spec frame = [] := by
      simp only [emission, hvalue, hdue, Bool.false_eq_true, if_false]
    simp [hemission]
  | true =>
    have hemission : graph.emission spec frame = [⟨frame.node, frame.depth, frame.path, frame.via,
        if spec.includeValues then some value else none⟩] := by
      simp only [emission, hvalue, hdue, if_true]
    simp only [hemission, TraversalState.emit, if_true, ne_eq, List.cons_ne_self,
      not_false_eq_true, true_and]

/-- Going on pushes what lies behind the edges, or notes that edges are left. -/
theorem expand_eq {value : JsonValue} (hvalue : graph.value frame.node = some value)
    (st : TraversalState) :
    st.expand spec frame (graph.edges frame.node) =
      { st with
        frontier := st.frontier ++ graph.pushed spec frame st.visited
        depthLimitReached := st.depthLimitReached || graph.cuts spec frame } := by
  rw [TraversalState.expand, pushed, cuts, hvalue]
  by_cases hdepth : spec.maxDepth ≤ frame.depth
  · simp [hdepth, Nat.not_lt.mpr hdepth]
  · simp [hdepth, Nat.not_le.mp hdepth, TraversalEdge.across]

/-- The state after a round on a new node; `cut` says whether edges are left. -/
abbrev afterVisit (graph : TraversalGraph) (spec : TraversalSpec) (frame : TraversalFrame)
    (st : TraversalState) (cut : Bool) : TraversalState :=
  ⟨st.frontier ++ graph.pushed spec frame (st.visited.insert frame.node),
    st.visited.insert frame.node, st.entries ++ graph.emission spec frame,
    if (graph.value frame.node).isSome then st.missing else st.missing.insert frame.node,
    st.depthLimitReached || cut, false⟩

/-- A round reaches the limit, or it appends what it emits and pushes. -/
theorem visit_eq (graph : TraversalGraph) (spec : TraversalSpec) (frame : TraversalFrame)
    {st : TraversalState} (hst : st.resultLimitReached = false) :
    graph.visit spec frame st =
      if graph.emission spec frame ≠ [] ∧ spec.limitValue ≤ st.entries.length then
        ({ st with resultLimitReached := true }, false)
      else
        (⟨st.frontier ++ graph.pushed spec frame st.visited, st.visited,
          st.entries ++ graph.emission spec frame,
          if (graph.value frame.node).isSome then st.missing else st.missing.insert frame.node,
          st.depthLimitReached || graph.cuts spec frame, false⟩, true) := by
  rw [visit]
  cases hvalue : graph.value frame.node with
  | none => simp [emission, pushed, cuts, hvalue, hst]
  | some value =>
    dsimp only
    rw [emitted_eq hvalue]
    split
    · rfl
    · simp only [hst, Bool.false_eq_true, if_false, expand_eq hvalue]
      rfl

/-! ## The loop -/

/-- A pop takes one frame off the frontier. -/
theorem pop_rest (h : st.pop spec.strategy = some (frame, st')) :
    ∃ rest, st' = { st with frontier := rest } ∧ ∀ f, f ∈ st.frontier ↔ f = frame ∨ f ∈ rest := by
  refine ⟨st'.frontier, (pop_eq h).1, fun f => ?_⟩
  cases hstrategy : spec.strategy with
  | bfs =>
    rw [hstrategy] at h
    obtain ⟨first, hfirst, heq⟩ := Option.map_eq_some_iff.mp h
    obtain ⟨rfl, rfl⟩ := Prod.mk.inj heq
    obtain ⟨rest, hrest⟩ := List.head?_eq_some_iff.mp hfirst
    simp [hrest]
  | dfs =>
    rw [hstrategy] at h
    obtain ⟨last, hlast, heq⟩ := Option.map_eq_some_iff.mp h
    obtain ⟨rfl, rfl⟩ := Prod.mk.inj heq
    obtain ⟨init, hinit⟩ := List.getLast?_eq_some_iff.mp hlast
    simp [hinit, or_comm]

/-- How many frames can still come. -/
def work (graph : TraversalGraph) (keys : List NodeId) (st : TraversalState) : ℕ :=
  st.frontier.length + ((keys.filter fun key => !st.visited.contains key).map fun key =>
    (graph.leaving key).length).sum

/-- The loop ends, and what every round keeps while the limit is not reached holds at its end,
which comes with an empty frontier unless the limit was reached by a round that had something to
emit. -/
theorem loop_invariant {I : TraversalState → Prop} {keys : List NodeId} (hnodup : keys.Nodup)
    (hkeys : ∀ n, n ∉ keys → graph.value n = none)
    (hskip : ∀ {st frame st'}, I st → st.pop spec.strategy = some (frame, st') →
      st'.visited.contains frame.node = true → I st')
    (hvisit : ∀ {st frame st'}, I st → st.pop spec.strategy = some (frame, st') →
      st'.visited.contains frame.node = false →
      ¬ (graph.emission spec frame ≠ [] ∧ spec.limitValue ≤ st'.entries.length) →
      I (graph.afterVisit spec frame st' (graph.cuts spec frame)))
    {fuel : ℕ} (hflag : st.resultLimitReached = false) (hst : I st)
    (hfuel : graph.work keys st < fuel) :
    ∃ out, graph.loop spec fuel st = some out ∧
      ((I out ∧ out.frontier = [] ∧ out.resultLimitReached = false) ∨
        out.resultLimitReached = true ∧
          ∃ before frame after, I before ∧ before.pop spec.strategy = some (frame, after) ∧
            after.visited.contains frame.node = false ∧ graph.emission spec frame ≠ [] ∧
            spec.limitValue ≤ after.entries.length) := by
  have hleaving : ∀ n, n ∉ keys → graph.leaving n = [] := by
    intro n hn
    rw [leaving, hkeys n hn]
    rfl
  induction fuel generalizing st with
  | zero => exact absurd hfuel (Nat.not_lt_zero _)
  | succ fuel ih =>
    rw [loop]
    cases hpop : st.pop spec.strategy with
    | none =>
      refine ⟨st, rfl, .inl ⟨hst, ?_, hflag⟩⟩
      cases hstrategy : spec.strategy <;> simpa [hstrategy, TraversalState.pop] using hpop
    | some next =>
      obtain ⟨frame, st'⟩ := next
      obtain ⟨hst', hlength⟩ := pop_eq hpop
      have hvisited : st'.visited = st.visited := by rw [hst']
      have hflag' : st'.resultLimitReached = false := by rw [hst']; exact hflag
      rw [work, ← hvisited] at hfuel
      simp only
      split
      · rename_i hseen
        refine ih hflag' (hskip hst hpop hseen) ?_
        rw [work]
        omega
      · rename_i hnew
        rw [Bool.not_eq_true] at hnew
        have hsum := Worklist.sum_insert_le hnodup hleaving hnew
        have hgrows := (graph.visit_grows spec frame
          { st' with visited := st'.visited.insert frame.node }).2.2
        have hround := graph.visit_eq spec frame
          (show { st' with visited := st'.visited.insert frame.node }.resultLimitReached = false
            from hflag')
        rw [hround] at hgrows ⊢
        split
        · rename_i hfull
          exact ⟨_, rfl, .inr ⟨rfl, st, frame, st', hst, hpop, hnew, hfull⟩⟩
        · rename_i hroom
          rw [if_neg hroom] at hgrows
          refine ih rfl (hvisit hst hpop hnew hroom) ?_
          rw [work]
          dsimp only at hgrows ⊢
          omega

/-! ## What was met -/

/-- The frames a visit pushes. -/
theorem mem_pushed {visited : BTreeSet NodeId} {f : TraversalFrame} :
    f ∈ graph.pushed spec frame visited ↔
      (graph.value frame.node).isSome = true ∧ frame.depth < spec.maxDepth ∧
        f.node ∉ visited ∧ f.depth = frame.depth + 1 ∧ f.path = frame.path ++ [f.node] ∧
        ∃ edge ∈ graph.edges frame.node, edge.across frame.node = f.node ∧ f.via = some edge := by
  rw [pushed]
  split
  · rename_i hgo
    obtain ⟨hvalue, hdepth⟩ := Bool.and_eq_true_iff.mp hgo
    rw [List.mem_filterMap]
    constructor
    · rintro ⟨edge, hedge, hsome⟩
      split at hsome
      · cases hsome
      · rename_i hunseen
        cases hsome
        exact ⟨hvalue, of_decide_eq_true hdepth,
          fun hmem => hunseen (Std.ExtTreeSet.mem_iff_contains.mp hmem), rfl, rfl, edge, hedge, rfl,
          rfl⟩
    · rintro ⟨-, -, hunseen, hf, hpath, edge, hedge, hnode, hvia⟩
      refine ⟨edge, hedge, ?_⟩
      rw [hnode, if_neg fun hmem => hunseen (Std.ExtTreeSet.mem_iff_contains.mpr hmem), ← hf,
        ← hpath, ← hvia]
  · rename_i hstay
    refine iff_of_false List.not_mem_nil ?_
    rintro ⟨hvalue, hdepth, -⟩
    exact hstay (Bool.and_eq_true_iff.mpr ⟨hvalue, decide_eq_true hdepth⟩)

/-- What a visit emits. -/
theorem mem_emission {e : TraversalEntry} (h : e ∈ graph.emission spec frame) :
    e.nodeId = frame.node ∧ e.depth = frame.depth ∧ e.path = frame.path ∧
      graph.Passes spec frame.node ∧ spec.emits frame.depth = true := by
  rw [emission] at h
  split at h
  · cases h
  · rename_i value hvalue
    split at h
    · rename_i hdue
      obtain ⟨hemits, hmatches⟩ := Bool.and_eq_true_iff.mp hdue
      rw [List.mem_singleton.mp h]
      exact ⟨rfl, rfl, rfl, ⟨value, hvalue, hmatches⟩, hemits⟩
    · cases h

theorem emission_cases (graph : TraversalGraph) (spec : TraversalSpec) (frame : TraversalFrame) :
    graph.emission spec frame = [] ∧
        ¬ (graph.Passes spec frame.node ∧ spec.emits frame.depth = true) ∨
      ∃ e, graph.emission spec frame = [e] := by
  rw [emission]
  split
  · rename_i hvalue
    refine .inl ⟨rfl, fun h => ?_⟩
    obtain ⟨⟨value, hsome, -⟩, -⟩ := h
    rw [hvalue] at hsome
    cases hsome
  · rename_i value hvalue
    split
    · exact .inr ⟨_, rfl⟩
    · rename_i hdue
      refine .inl ⟨rfl, fun h => hdue ?_⟩
      obtain ⟨⟨other, hsome, hmatches⟩, hemits⟩ := h
      rw [hvalue] at hsome
      cases hsome
      exact Bool.and_eq_true_iff.mpr ⟨hemits, hmatches⟩

/-- A node was met or a frame that stands for it is pending. -/
def Due (st : TraversalState) (fits : TraversalFrame → Prop) (node : NodeId) : Prop :=
  node ∈ st.visited ∨ ∃ f ∈ st.frontier, fits f

theorem mem_insert_visited {visited : BTreeSet NodeId} {node v : NodeId} :
    v ∈ visited.insert node ↔ v = node ∨ v ∈ visited := by
  rw [Std.ExtTreeSet.mem_insert, Std.compare_eq_iff_eq, eq_comm]

section Due

variable {fits : TraversalFrame → Prop} {node : NodeId} (hfits : ∀ f, fits f → f.node = node)
include hfits

/-- A frame of a node met before is left out. -/
theorem Due.skip (h : Due st fits node) (hpop : st.pop spec.strategy = some (frame, st'))
    (hseen : st'.visited.contains frame.node = true) : Due st' fits node := by
  obtain ⟨rest, rfl, hmem⟩ := pop_rest hpop
  rcases h with hmet | ⟨f, hf, hfit⟩
  · exact .inl hmet
  · rcases (hmem f).mp hf with rfl | hrest
    · exact .inl (hfits f hfit ▸ Std.ExtTreeSet.mem_iff_contains.mpr hseen)
    · exact .inr ⟨f, hrest, hfit⟩

/-- A node that is due stays due or is met. -/
theorem Due.visit (h : Due st fits node) (hpop : st.pop spec.strategy = some (frame, st')) :
    node ∈ st'.visited.insert frame.node ∨
      ∃ f ∈ st'.frontier ++ graph.pushed spec frame (st'.visited.insert frame.node), fits f := by
  obtain ⟨rest, rfl, hmem⟩ := pop_rest hpop
  rcases h with hmet | ⟨f, hf, hfit⟩
  · exact .inl (mem_insert_visited.mpr (.inr hmet))
  · rcases (hmem f).mp hf with rfl | hrest
    · exact .inl (mem_insert_visited.mpr (.inl (hfits f hfit).symm))
    · exact .inr ⟨f, List.mem_append_left _ hrest, hfit⟩

end Due

/-- What lies behind a node above the greatest depth is pushed unless it was met. -/
theorem exists_pushed (hdepth : frame.depth < spec.maxDepth) {next : NodeId}
    (hnext : graph.Leads frame.node next) {visited : BTreeSet NodeId} (hunseen : next ∉ visited) :
    ∃ f ∈ graph.pushed spec frame visited, f.node = next ∧ f.depth = frame.depth + 1 := by
  obtain ⟨hvalue, edge, hedge, rfl⟩ := hnext
  refine ⟨⟨_, frame.depth + 1, frame.path ++ [edge.across frame.node], some edge⟩, ?_, rfl, rfl⟩
  exact mem_pushed.mpr ⟨hvalue, hdepth, hunseen, rfl, rfl, edge, hedge, rfl, rfl⟩

/-- The frames and entries carry simple ways, the starts are met or pending, and the nodes met that
pass the filters are emitted, starts apart when they are not asked for. -/
structure Explored (graph : TraversalGraph) (spec : TraversalSpec) (starts : Set NodeId)
    (st : TraversalState) : Prop where
  /-- The ways of the frames. -/
  way : ∀ f ∈ st.frontier, SimpleWay starts graph.Leads f.path f.node f.depth
  /-- The depths of the frames. -/
  bounded : ∀ f ∈ st.frontier, f.depth ≤ spec.maxDepth
  /-- The nodes before the last were met. -/
  passed : ∀ f ∈ st.frontier, ∀ m ∈ f.path, m = f.node ∨ m ∈ st.visited
  start : ∀ s ∈ starts, s ∈ st.visited ∨ ∃ f ∈ st.frontier, f.node = s ∧ f.depth = 0
  /-- The entries. -/
  entry : ∀ e ∈ st.entries, e.nodeId ∈ st.visited ∧ graph.Passes spec e.nodeId ∧
    spec.emits e.depth = true ∧ e.depth ≤ spec.maxDepth ∧
    SimpleWay starts graph.Leads e.path e.nodeId e.depth
  /-- No node is emitted twice. -/
  once : (st.entries.map (·.nodeId)).Nodup
  /-- The nodes met were reached. -/
  reached : ∀ v ∈ st.visited, ∃ path, Way starts graph.Leads path v
  /-- The nodes met that pass. -/
  met : ∀ v ∈ st.visited, graph.Passes spec v →
    (∃ e ∈ st.entries, e.nodeId = v) ∨ v ∈ starts ∧ spec.includeStart = false
  /-- The nodes met that are absent. -/
  missing : ∀ v ∈ st.visited, graph.value v = none → v ∈ st.missing

namespace Explored

variable {starts : Set NodeId}

theorem start_state (nodes missing : List NodeId) :
    graph.Explored spec {n | n ∈ nodes} (.start nodes missing) := by
  have hframe : ∀ f ∈ (TraversalState.start nodes missing).frontier,
      f.node ∈ nodes ∧ f.depth = 0 ∧ f.path = [f.node] := by
    intro f hf
    obtain ⟨node, hnode, rfl⟩ := List.mem_map.mp hf
    exact ⟨hnode, rfl, rfl⟩
  refine ⟨fun f hf => ?_, fun f hf => ?_, fun f hf m hm => ?_, fun s hs => ?_, ?_, List.nodup_nil,
    ?_, ?_, ?_⟩
  · obtain ⟨hnode, hdepth, hpath⟩ := hframe f hf
    rw [hdepth, hpath]
    exact ⟨.start hnode, List.nodup_singleton _, rfl⟩
  · rw [(hframe f hf).2.1]
    exact Nat.zero_le _
  · rw [(hframe f hf).2.2] at hm
    exact .inl (List.mem_singleton.mp hm)
  · exact .inr ⟨⟨s, 0, [s], none⟩, List.mem_map.mpr ⟨s, hs, rfl⟩, rfl, rfl⟩
  · exact fun e he => absurd he List.not_mem_nil
  all_goals exact fun v hv => absurd hv Std.ExtTreeSet.not_mem_empty

/-- A frame of a node met before is left out. -/
theorem skip (h : graph.Explored spec starts st)
    (hpop : st.pop spec.strategy = some (frame, st'))
    (hseen : st'.visited.contains frame.node = true) : graph.Explored spec starts st' := by
  obtain ⟨rest, rfl, hmem⟩ := pop_rest hpop
  refine ⟨fun f hf => h.way f ((hmem f).mpr (.inr hf)),
    fun f hf => h.bounded f ((hmem f).mpr (.inr hf)),
    fun f hf => h.passed f ((hmem f).mpr (.inr hf)), fun s hs => ?_, h.entry, h.once, h.reached,
    h.met, h.missing⟩
  exact Due.skip (fun f hf => hf.1) (h.start s hs) hpop hseen

/-- A round on a new node. -/
theorem visit (h : graph.Explored spec starts st)
    (hpop : st.pop spec.strategy = some (frame, st'))
    (hnew : st'.visited.contains frame.node = false) :
    graph.Explored spec starts (graph.afterVisit spec frame st' (graph.cuts spec frame)) := by
  obtain ⟨rest, rfl, hmem⟩ := pop_rest hpop
  have hframe : frame ∈ st.frontier := (hmem frame).mpr (.inl rfl)
  have hway := h.way frame hframe
  have hunmet : frame.node ∉ st.visited := by
    rw [Std.ExtTreeSet.mem_iff_contains]
    exact Bool.eq_false_iff.mp hnew
  have hpath : ∀ m ∈ frame.path, m ∈ st.visited.insert frame.node :=
    fun m hm => mem_insert_visited.mpr (h.passed frame hframe m hm)
  have hfrontier : ∀ f ∈ rest ++ graph.pushed spec frame (st.visited.insert frame.node),
      f ∈ st.frontier ∨ f ∈ graph.pushed spec frame (st.visited.insert frame.node) :=
    fun f hf => (List.mem_append.mp hf).imp_left fun hrest => (hmem f).mpr (.inr hrest)
  refine ⟨fun f hf => ?_, fun f hf => ?_, fun f hf m hm => ?_, fun s hs => ?_, fun e he => ?_, ?_,
    fun v hv => ?_, fun v hv hpasses => ?_, fun v hv hvalue => ?_⟩
  · -- the ways of the frames
    rcases hfrontier f hf with hold | hpushed
    · exact h.way f hold
    · obtain ⟨hvalue, -, hunseen, hdepth, hfpath, edge, hedge, hnode, -⟩ := mem_pushed.mp hpushed
      rw [hdepth, hfpath]
      exact hway.snoc ⟨hvalue, edge, hedge, hnode⟩ fun hm => hunseen (hpath _ hm)
  · rcases hfrontier f hf with hold | hpushed
    · exact h.bounded f hold
    · obtain ⟨-, hdepth, -, heq, -⟩ := mem_pushed.mp hpushed
      omega
  · -- the nodes before the last of a frame
    rcases hfrontier f hf with hold | hpushed
    · exact (h.passed f hold m hm).imp_right fun hmet => mem_insert_visited.mpr (.inr hmet)
    · obtain ⟨-, -, -, -, hfpath, -⟩ := mem_pushed.mp hpushed
      rw [hfpath, List.mem_append, List.mem_singleton] at hm
      exact hm.symm.imp_right (hpath m)
  · -- the starts
    exact Due.visit (fun f hf => hf.1) (h.start s hs) hpop
  · -- the entries
    rcases List.mem_append.mp he with hold | hemitted
    · obtain ⟨hmet, hrest⟩ := h.entry e hold
      exact ⟨mem_insert_visited.mpr (.inr hmet), hrest⟩
    · obtain ⟨hnode, hdepth, hepath, hpasses, hemits⟩ := mem_emission hemitted
      rw [hnode, hdepth, hepath]
      exact ⟨mem_insert_visited.mpr (.inl rfl), hpasses, hemits, h.bounded frame hframe, hway⟩
  · -- no node twice
    rw [List.map_append, List.nodup_append]
    refine ⟨h.once, ?_, fun a ha b hb hab => ?_⟩
    · rcases graph.emission_cases spec frame with ⟨hnone, -⟩ | ⟨e, hone⟩
      · rw [hnone]
        exact List.nodup_nil
      · rw [hone]
        exact List.nodup_singleton _
    · obtain ⟨e, he, rfl⟩ := List.mem_map.mp ha
      obtain ⟨e', he', rfl⟩ := List.mem_map.mp hb
      rw [(mem_emission he').1] at hab
      exact hunmet (hab ▸ (h.entry e he).1)
  · rcases mem_insert_visited.mp hv with rfl | hmet
    · exact ⟨frame.path, hway.way⟩
    · exact h.reached v hmet
  · -- the nodes met that pass
    rcases mem_insert_visited.mp hv with rfl | hmet
    · rcases graph.emission_cases spec frame with ⟨-, hnot⟩ | ⟨e, hone⟩
      · right
        have hemits : spec.emits frame.depth = false :=
          Bool.eq_false_iff.mpr fun hemits => hnot ⟨hpasses, hemits⟩
        rw [TraversalSpec.emits, Bool.or_eq_false_iff, decide_eq_false_iff_not] at hemits
        refine ⟨hway.way.mem_starts ?_, hemits.2⟩
        rw [hway.length]
        omega
      · have he : e ∈ graph.emission spec frame := hone ▸ List.mem_singleton.mpr rfl
        exact .inl ⟨e, List.mem_append_right _ he, (mem_emission he).1⟩
    · refine (h.met v hmet hpasses).imp_left ?_
      rintro ⟨e, he, hnode⟩
      exact ⟨e, List.mem_append_left _ he, hnode⟩
  · -- the absent nodes
    rcases mem_insert_visited.mp hv with rfl | hmet
    · rw [afterVisit, hvalue]
      exact Std.ExtTreeSet.mem_insert_self
    · have hold := h.missing v hmet hvalue
      dsimp only [afterVisit]
      split
      · exact hold
      · exact Std.ExtTreeSet.mem_insert.mpr (.inr hold)

/-- While a node is to be emitted, there are fewer entries than nodes. -/
theorem room (h : graph.Explored spec starts st) {keys : List NodeId}
    (hkeys : ∀ n, n ∉ keys → graph.value n = none)
    (hpop : st.pop spec.strategy = some (frame, st'))
    (hnew : st'.visited.contains frame.node = false) (hemits : graph.emission spec frame ≠ []) :
    st'.entries.length < keys.length := by
  obtain ⟨rest, rfl, -⟩ := pop_rest hpop
  have hkey : ∀ n, graph.Passes spec n → n ∈ keys := by
    rintro n ⟨value, hvalue, -⟩
    by_contra hn
    rw [hkeys n hn] at hvalue
    cases hvalue
  obtain ⟨e, he⟩ := List.exists_mem_of_ne_nil _ hemits
  have hunlisted : frame.node ∉ st.entries.map (·.nodeId) := by
    intro hlisted
    obtain ⟨e, he, hnode⟩ := List.mem_map.mp hlisted
    have hmet := (h.entry e he).1
    rw [hnode, Std.ExtTreeSet.mem_iff_contains] at hmet
    exact Bool.eq_false_iff.mp hnew hmet
  have hsub : frame.node :: st.entries.map (·.nodeId) ⊆ keys := by
    intro n hn
    rcases List.mem_cons.mp hn with rfl | hn
    · exact hkey _ (mem_emission he).2.2.2.1
    · obtain ⟨e, he, rfl⟩ := List.mem_map.mp hn
      exact hkey _ (h.entry e he).2.1
  have hlength := (List.nodup_cons.mpr ⟨hunlisted, h.once⟩).length_le_of_subset hsub
  rw [List.length_cons, List.length_map] at hlength
  exact hlength

end Explored

end TraversalGraph

end Primadb

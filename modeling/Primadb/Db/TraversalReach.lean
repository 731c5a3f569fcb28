import Primadb.Db.BreadthFirst

/-!
# Which nodes a traversal finds

When nothing is cut off at the greatest depth, the nodes met are closed under the edges followed,
so that at the end they are the nodes reachable from the starts, whatever the strategy. Breadth
first, a start is met before what lies behind the starts. Depth first, the last start and all it
reaches come first, so a start reached from one behind it is met over an edge, and is emitted
though starts are not asked for.
-/

namespace Primadb

namespace TraversalGraph

variable {graph : TraversalGraph} {spec : TraversalSpec} {frame : TraversalFrame}
  {st st' : TraversalState} {starts : Set NodeId} {nodes : List NodeId} {v : NodeId}

/-- The nodes reachable from some nodes. -/
def reach (graph : TraversalGraph) (nodes : List NodeId) : Set NodeId :=
  {v | ∃ path, Way {n | n ∈ nodes} graph.Leads path v}

theorem mem_reach_of_mem (h : v ∈ nodes) : v ∈ graph.reach nodes := ⟨[v], .start h⟩

/-- What a reached node leads to is reached. -/
theorem reach_of_leads {w : NodeId} (h : v ∈ graph.reach nodes) (hlead : graph.Leads v w) :
    w ∈ graph.reach nodes := by
  obtain ⟨path, hpath⟩ := h
  exact ⟨_, hpath.snoc hlead⟩

/-- What is reachable lies in every set that holds the starts and is closed under edges. -/
theorem reach_induct {P : NodeId → Prop} (hstarts : ∀ n ∈ nodes, P n)
    (hstep : ∀ a b, P a → graph.Leads a b → P b) (h : v ∈ graph.reach nodes) : P v := by
  obtain ⟨path, hpath⟩ := h
  exact hpath.induct (P := P) hstarts hstep

private theorem reach_mono {nodes' : List NodeId} (hsub : ∀ n ∈ nodes, n ∈ nodes')
    (h : v ∈ graph.reach nodes) : v ∈ graph.reach nodes' :=
  reach_induct (fun n hn => mem_reach_of_mem (hsub n hn)) (fun _ _ => reach_of_leads) h

/-- What lies behind a node met was met or is pending. -/
def Closed (graph : TraversalGraph) (st : TraversalState) : Prop :=
  ∀ v ∈ st.visited, ∀ w, graph.Leads v w → w ∈ st.visited ∨ ∃ f ∈ st.frontier, f.node = w

private theorem closed_start (nodes missing : List NodeId) : graph.Closed (.start nodes missing) :=
  fun _ hv => absurd hv Std.ExtTreeSet.not_mem_empty

/-- A frame of a node met before is left out. -/
theorem Closed.skip (h : graph.Closed st) (hpop : st.pop spec.strategy = some (frame, st'))
    (hseen : st'.visited.contains frame.node = true) : graph.Closed st' := by
  obtain ⟨rest, rfl, -⟩ := pop_rest hpop
  exact fun v hv w hw => Due.skip (fun f hf => hf) (h v hv w hw) hpop hseen

/-- A round goes on from its node, or nothing new lies behind it. -/
def GoesOn (graph : TraversalGraph) (spec : TraversalSpec) (frame : TraversalFrame)
    (visited : BTreeSet NodeId) : Prop :=
  frame.depth < spec.maxDepth ∨ ∀ w, graph.Leads frame.node w → w ∈ visited

/-- What lies behind the node of a round that goes on was met or is pushed. -/
theorem GoesOn.pushed {visited : BTreeSet NodeId} (h : graph.GoesOn spec frame visited)
    {w : NodeId} (hw : graph.Leads frame.node w) :
    w ∈ visited ∨ ∃ f ∈ graph.pushed spec frame visited, f.node = w := by
  by_cases hseen : w ∈ visited
  · exact .inl hseen
  · have hdepth := h.resolve_right fun hall => hseen (hall w hw)
    obtain ⟨f, hf, hnode, -⟩ := exists_pushed hdepth hw hseen
    exact .inr ⟨f, hf, hnode⟩

/-- A round on a new node that goes on. -/
theorem Closed.visit (h : graph.Closed st) (hpop : st.pop spec.strategy = some (frame, st'))
    (hgoes : graph.GoesOn spec frame (st'.visited.insert frame.node))
    {entries : List TraversalEntry} {missing : BTreeSet NodeId} {depthLimitReached : Bool} :
    graph.Closed ⟨st'.frontier ++ graph.pushed spec frame (st'.visited.insert frame.node),
      st'.visited.insert frame.node, entries, missing, depthLimitReached, false⟩ := by
  obtain ⟨rest, rfl, -⟩ := pop_rest hpop
  intro v hv w hw
  rcases mem_insert_visited.mp hv with rfl | hmet
  · refine (hgoes.pushed hw).imp_right ?_
    rintro ⟨f, hf, hnode⟩
    exact ⟨f, List.mem_append_right _ hf, hnode⟩
  · exact Due.visit (fun f hf => hf) (h v hmet w hw) hpop

/-- At the end every reachable node was met. -/
theorem Explored.visited_of_reach (h : graph.Explored spec {n | n ∈ nodes} st)
    (hclosed : graph.Closed st) (hend : st.frontier = []) (hv : v ∈ graph.reach nodes) :
    v ∈ st.visited := by
  refine reach_induct (P := (· ∈ st.visited)) (fun s hs => ?_) (fun a b ha hab => ?_) hv
  · refine (h.start s hs).resolve_right ?_
    rintro ⟨f, hf, -⟩
    rw [hend] at hf
    cases hf
  · refine (hclosed a ha b hab).resolve_right ?_
    rintro ⟨f, hf, -⟩
    rw [hend] at hf
    cases hf

/-! ## Starts, depth first -/

/-- The starts behind the last place of a node among them. -/
def startsBehind (nodes : List NodeId) (v : NodeId) : List NodeId :=
  nodes.reverse.takeWhile (· ≠ v)

private theorem startsBehind_eq {front back : List NodeId} (h : v ∉ back) :
    startsBehind (front ++ v :: back) v = back.reverse := by
  have hback : ∀ n ∈ back.reverse, decide (n ≠ v) = true := by
    intro n hn
    simp only [ne_eq, decide_not, Bool.not_eq_true', decide_eq_false_iff_not]
    rintro rfl
    exact h (List.mem_reverse.mp hn)
  rw [startsBehind, List.reverse_append, List.reverse_cons, List.append_assoc,
    List.takeWhile_append_of_pos hback]
  simp

/-- A start reached from one behind it. -/
def Overtaken (graph : TraversalGraph) (nodes : List NodeId) (v : NodeId) : Prop :=
  v ∈ graph.reach (startsBehind nodes v)

private theorem overtaken_iff {front back : List NodeId} (h : v ∉ back) :
    graph.Overtaken (front ++ v :: back) v ↔ v ∈ graph.reach back := by
  rw [Overtaken, startsBehind_eq h]
  exact ⟨reach_mono fun n hn => List.mem_reverse.mp hn,
    reach_mono fun n hn => List.mem_reverse.mpr hn⟩

/-- A depth-first frontier: the starts not taken yet lie below what was reached from the others. -/
structure Stacked (graph : TraversalGraph) (nodes : List NodeId) (st : TraversalState)
    (low back : List NodeId) (upper : List TraversalFrame) : Prop where
  /-- The starts not taken and those taken. -/
  starts : nodes = low ++ back
  frontier : st.frontier = low.map (fun node => ⟨node, 0, [node], none⟩) ++ upper
  /-- The other frames were reached over edges. -/
  pending : ∀ f ∈ upper, 0 < f.depth ∧ f.node ∈ graph.reach back
  /-- The nodes met. -/
  reached : ∀ v ∈ st.visited, v ∈ graph.reach back
  /-- The starts taken. -/
  taken : ∀ s ∈ back, s ∈ st.visited
  /-- What lies behind a node met. -/
  closed : st.depthLimitReached = false → ∀ v ∈ st.visited, ∀ w, graph.Leads v w →
    w ∈ st.visited ∨ ∃ f ∈ upper, f.node = w

/-- A start that is not asked for is emitted exactly when it was reached from one behind it. -/
def StartsOvertaken (graph : TraversalGraph) (spec : TraversalSpec) (nodes : List NodeId)
    (st : TraversalState) : Prop :=
  st.depthLimitReached = false → spec.includeStart = false →
    ∀ v ∈ st.visited, v ∈ nodes → graph.Passes spec v →
      ((∃ e ∈ st.entries, e.nodeId = v) ↔ graph.Overtaken nodes v)

/-- Depth first, the last frame is taken. -/
theorem pop_dfs (hdfs : spec.strategy = .dfs) (h : st.pop spec.strategy = some (frame, st')) :
    ∃ rest, st.frontier = rest ++ [frame] ∧ st' = { st with frontier := rest } := by
  rw [hdfs] at h
  obtain ⟨last, hlast, heq⟩ := Option.map_eq_some_iff.mp h
  obtain ⟨rfl, rfl⟩ := Prod.mk.inj heq
  obtain ⟨init, hinit⟩ := List.getLast?_eq_some_iff.mp hlast
  exact ⟨init, hinit, by simp [hinit]⟩

namespace Stacked

variable {low back : List NodeId} {upper : List TraversalFrame}

/-- The last frame was reached over an edge, or it is the last start not taken. -/
theorem last_cases (h : graph.Stacked nodes st low back upper) {rest : List TraversalFrame}
    (hfrontier : st.frontier = rest ++ [frame]) :
    (∃ upper', upper = upper' ++ [frame] ∧
        rest = low.map (fun node => ⟨node, 0, [node], none⟩) ++ upper') ∨
      upper = [] ∧ ∃ low', low = low' ++ [frame.node] ∧ frame.depth = 0 ∧
        rest = low'.map (fun node => ⟨node, 0, [node], none⟩) := by
  have hsplit := h.frontier.symm.trans hfrontier
  rcases List.eq_nil_or_concat upper with rfl | ⟨upper', last, rfl⟩
  · right
    refine ⟨rfl, ?_⟩
    rcases List.eq_nil_or_concat low with rfl | ⟨low', last, rfl⟩
    · simp at hsplit
    · rw [List.concat_eq_append, List.append_nil, List.map_append, List.map_singleton] at hsplit
      obtain ⟨hrest, hframe⟩ := List.append_inj' hsplit rfl
      obtain rfl := List.singleton_injective hframe
      exact ⟨low', List.concat_eq_append, rfl, hrest.symm⟩
  · left
    rw [List.concat_eq_append, ← List.append_assoc] at hsplit
    obtain ⟨hrest, hframe⟩ := List.append_inj' hsplit rfl
    obtain rfl := List.singleton_injective hframe
    exact ⟨upper', List.concat_eq_append, hrest.symm⟩

private theorem start_state (nodes missing : List NodeId) :
    graph.Stacked nodes (.start nodes missing) nodes [] [] := by
  refine ⟨(List.append_nil _).symm, (List.append_nil _).symm, ?_, ?_, ?_, ?_⟩
  · exact fun f hf => absurd hf List.not_mem_nil
  · exact fun v hv => absurd hv Std.ExtTreeSet.not_mem_empty
  · exact fun s hs => absurd hs List.not_mem_nil
  · exact fun _ v hv => absurd hv Std.ExtTreeSet.not_mem_empty

/-- Taking one more start keeps what was reached. -/
theorem reach_taken {s : NodeId} (h : v ∈ graph.reach back) : v ∈ graph.reach (s :: back) :=
  reach_mono (fun _ hn => List.mem_cons_of_mem _ hn) h

/-- A frame of a node met before is left out. -/
theorem skip (hdfs : spec.strategy = .dfs) (h : graph.Stacked nodes st low back upper)
    (hpop : st.pop spec.strategy = some (frame, st'))
    (hseen : st'.visited.contains frame.node = true) :
    ∃ low back upper, graph.Stacked nodes st' low back upper := by
  obtain ⟨rest, hfrontier, rfl⟩ := pop_dfs hdfs hpop
  have hmet : frame.node ∈ st.visited := Std.ExtTreeSet.mem_iff_contains.mpr hseen
  rcases h.last_cases hfrontier with ⟨upper', rfl, hrest⟩ | ⟨rfl, low', rfl, -, hrest⟩
  · refine ⟨low, back, upper', h.starts, hrest,
      fun f hf => h.pending f (List.mem_append_left _ hf), h.reached, h.taken,
      fun hflag v hv w hw => ?_⟩
    rcases h.closed hflag v hv w hw with hw | ⟨f, hf, rfl⟩
    · exact .inl hw
    · rcases List.mem_append.mp hf with hf | hf
      · exact .inr ⟨f, hf, rfl⟩
      · rw [List.mem_singleton.mp hf]
        exact .inl hmet
  · refine ⟨low', frame.node :: back, [], ?_, ?_, fun f hf => absurd hf List.not_mem_nil,
      fun v hv => reach_taken (h.reached v hv), ?_, h.closed⟩
    · rw [h.starts, List.append_assoc]
      rfl
    · rw [List.append_nil]
      exact hrest
    · rintro s (_ | ⟨_, hs⟩)
      · exact hmet
      · exact h.taken s hs

variable {entries : List TraversalEntry} {missing : BTreeSet NodeId} {cut : Bool}

/-- A round on a new node: its frame leaves the frontier, and what it pushes comes on top. -/
theorem visit {low' back' : List NodeId} {upper' rest : List TraversalFrame}
    (h : graph.Stacked nodes st low back upper) (hstarts : nodes = low' ++ back')
    (hrest : rest = low'.map (fun node => ⟨node, 0, [node], none⟩) ++ upper')
    (hback : back ⊆ back') (htaken : ∀ s ∈ back', s = frame.node ∨ s ∈ back)
    (hframe : frame.node ∈ graph.reach back') (hupper' : upper' ⊆ upper)
    (hupper : ∀ f ∈ upper, f ∈ upper' ∨ f = frame)
    (hcut : cut = false → graph.GoesOn spec frame (st.visited.insert frame.node)) :
    graph.Stacked nodes
      ⟨rest ++ graph.pushed spec frame (st.visited.insert frame.node),
        st.visited.insert frame.node, entries, missing, st.depthLimitReached || cut, false⟩
      low' back' (upper' ++ graph.pushed spec frame (st.visited.insert frame.node)) := by
  refine ⟨hstarts, ?_, fun f hf => ?_, fun v hv => ?_, fun s hs => ?_, fun hflag v hv w hw => ?_⟩
  · rw [hrest, List.append_assoc]
  · rcases List.mem_append.mp hf with hf | hf
    · exact (h.pending f (hupper' hf)).imp_right (reach_mono hback)
    · obtain ⟨hvalue, -, -, hdepth, -, edge, hedge, hnode, -⟩ := mem_pushed.mp hf
      exact ⟨by omega, reach_of_leads hframe ⟨hvalue, edge, hedge, hnode⟩⟩
  · rcases mem_insert_visited.mp hv with rfl | hv
    · exact hframe
    · exact reach_mono hback (h.reached v hv)
  · exact mem_insert_visited.mpr ((htaken s hs).imp_right (h.taken s))
  · obtain ⟨hopen, rfl⟩ := Bool.or_eq_false_iff.mp hflag
    rcases mem_insert_visited.mp hv with rfl | hv
    · refine ((hcut rfl).pushed hw).imp_right ?_
      rintro ⟨f, hf, hnode⟩
      exact ⟨f, List.mem_append_right _ hf, hnode⟩
    · rcases h.closed hopen v hv w hw with hw | ⟨f, hf, rfl⟩
      · exact .inl (mem_insert_visited.mpr (.inr hw))
      · rcases hupper f hf with hf | rfl
        · exact .inr ⟨f, List.mem_append_left _ hf, rfl⟩
        · exact .inl (mem_insert_visited.mpr (.inl rfl))

/-- When a start is taken that was not met, it was not reached from the starts taken before. -/
theorem not_overtaken (h : graph.Stacked nodes st (low ++ [v]) back [])
    (hflag : st.depthLimitReached = false) (hnew : v ∉ st.visited) : ¬ graph.Overtaken nodes v := by
  have hback : v ∉ back := fun hv => hnew (h.taken v hv)
  rw [h.starts, List.append_assoc, List.singleton_append, overtaken_iff hback]
  refine fun hreach => hnew (reach_induct (P := (· ∈ st.visited)) h.taken (fun a b ha hab => ?_)
    hreach)
  refine (h.closed hflag a ha b hab).resolve_right ?_
  rintro ⟨f, hf, -⟩
  cases hf

/-- A start that is met over an edge was reached from one behind it. -/
theorem overtaken (h : graph.Stacked nodes st low back upper) (hv : v ∈ nodes)
    (hnew : v ∉ st.visited) (hreach : v ∈ graph.reach back) : graph.Overtaken nodes v := by
  have hback : v ∉ back := fun hv => hnew (h.taken v hv)
  have hlow : v ∈ low := by
    rw [h.starts] at hv
    exact (List.mem_append.mp hv).resolve_right hback
  -- the last place of the start among those not taken
  obtain ⟨after, before, hsplit, hafter⟩ :=
    List.eq_append_cons_of_mem (List.mem_reverse.mpr hlow)
  rw [List.reverse_eq_iff, List.reverse_append, List.reverse_cons, List.append_assoc,
    List.singleton_append] at hsplit
  rw [h.starts, hsplit, List.append_assoc, List.cons_append, overtaken_iff]
  · exact reach_mono (fun n hn => List.mem_append_right _ hn) hreach
  · rw [List.mem_append, List.mem_reverse]
    exact fun hmem => hmem.elim hafter hback

end Stacked

/-! ## Both strategies -/

/-- What was noted about limits does not matter. -/
theorem Explored.flags (h : graph.Explored spec starts st) (depthLimitReached : Bool) :
    graph.Explored spec starts { st with depthLimitReached } :=
  ⟨h.way, h.bounded, h.passed, h.start, h.entry, h.once, h.reached, h.met, h.missing⟩

/-- What was noted about limits does not matter. -/
theorem Layered.flags (h : graph.Layered spec starts st) (depthLimitReached : Bool) :
    graph.Layered spec starts { st with depthLimitReached } :=
  ⟨h.explored.flags depthLimitReached, h.ordered, h.span, h.nearer, h.closed, h.distance, h.levels,
    h.emitted⟩

/-- What the rounds of a loop keep. -/
structure Tracked (graph : TraversalGraph) (spec : TraversalSpec) (nodes : List NodeId)
    (st : TraversalState) : Prop where
  explored : graph.Explored spec {n | n ∈ nodes} st
  /-- Nothing behind the nodes met is lost. -/
  closed : st.depthLimitReached = false → graph.Closed st
  /-- Breadth first, the frontier is in layers. -/
  layered : spec.strategy = .bfs → graph.Layered spec {n | n ∈ nodes} st
  /-- Depth first, it is a stack. -/
  stacked : spec.strategy = .dfs → ∃ low back upper, graph.Stacked nodes st low back upper
  /-- Depth first, the starts met. -/
  overtaken : spec.strategy = .dfs → graph.StartsOvertaken spec nodes st

namespace Tracked

theorem start_state (nodes missing : List NodeId) :
    graph.Tracked spec nodes (.start nodes missing) where
  explored := .start_state nodes missing
  closed _ := closed_start nodes missing
  layered _ := .start_state nodes missing
  stacked _ := ⟨nodes, [], [], .start_state nodes missing⟩
  overtaken _ _ _ _ hv := absurd hv Std.ExtTreeSet.not_mem_empty

/-- A frame of a node met before is left out. -/
theorem skip (h : graph.Tracked spec nodes st) (hpop : st.pop spec.strategy = some (frame, st'))
    (hseen : st'.visited.contains frame.node = true) : graph.Tracked spec nodes st' := by
  obtain ⟨rest, hst', -⟩ := pop_rest hpop
  refine ⟨h.explored.skip hpop hseen, fun hflag => (h.closed ?_).skip hpop hseen,
    fun hbfs => (h.layered hbfs).skip hbfs hpop hseen, fun hdfs => ?_, fun hdfs => ?_⟩
  · rw [hst'] at hflag
    exact hflag
  · obtain ⟨low, back, upper, hstacked⟩ := h.stacked hdfs
    exact hstacked.skip hdfs hpop hseen
  · have hovertaken := h.overtaken hdfs
    subst hst'
    exact hovertaken

variable {cut : Bool}

/-- The starts emitted by a round of a depth-first loop. -/
theorem overtaken_visit (hdfs : spec.strategy = .dfs) (h : graph.Tracked spec nodes st)
    {rest : List TraversalFrame} (hfrontier : st.frontier = rest ++ [frame])
    (hnew : frame.node ∉ st.visited) {frontier : List TraversalFrame} {missing : BTreeSet NodeId} :
    graph.StartsOvertaken spec nodes ⟨frontier, st.visited.insert frame.node,
      st.entries ++ graph.emission spec frame, missing, st.depthLimitReached || cut, false⟩ := by
  intro hflag hstart v hv hnode hpasses
  obtain ⟨hopen, -⟩ := Bool.or_eq_false_iff.mp hflag
  obtain ⟨low, back, upper, hstacked⟩ := h.stacked hdfs
  rcases mem_insert_visited.mp hv with rfl | hmet
  · rcases hstacked.last_cases hfrontier with ⟨upper', rfl, -⟩ | ⟨rfl, low', rfl, hdepth, -⟩
    · -- met over an edge
      obtain ⟨hdepth, hreach⟩ :=
        hstacked.pending frame (List.mem_append_right _ (List.mem_singleton.mpr rfl))
      refine iff_of_true ?_ (hstacked.overtaken hnode hnew hreach)
      rcases graph.emission_cases spec frame with ⟨-, hnot⟩ | ⟨e, hone⟩
      · exact absurd ⟨hpasses, by simp [TraversalSpec.emits, hdepth]⟩ hnot
      · have he : e ∈ graph.emission spec frame := hone ▸ List.mem_singleton.mpr rfl
        exact ⟨e, List.mem_append_right _ he, (mem_emission he).1⟩
    · -- met as a start
      refine iff_of_false ?_ (hstacked.not_overtaken hopen hnew)
      rintro ⟨e, he, heq⟩
      rcases List.mem_append.mp he with he | he
      · exact hnew (heq ▸ (h.explored.entry e he).1)
      · have hemits := (mem_emission he).2.2.2.2
        simp [TraversalSpec.emits, hdepth, hstart] at hemits
  · rw [← h.overtaken hdfs hopen hstart v hmet hnode hpasses]
    constructor
    · rintro ⟨e, he, rfl⟩
      refine ⟨e, (List.mem_append.mp he).resolve_right fun he => hnew ?_, rfl⟩
      rw [← (mem_emission he).1]
      exact hmet
    · rintro ⟨e, he, heq⟩
      exact ⟨e, List.mem_append_left _ he, heq⟩

/-- A round on a new node; when it notes no cut, it goes on. -/
theorem visit (h : graph.Tracked spec nodes st) (hpop : st.pop spec.strategy = some (frame, st'))
    (hnew : st'.visited.contains frame.node = false)
    (hcut : cut = false → graph.GoesOn spec frame (st'.visited.insert frame.node)) :
    graph.Tracked spec nodes (graph.afterVisit spec frame st' cut) := by
  have hunmet : frame.node ∉ st'.visited := by
    rw [Std.ExtTreeSet.mem_iff_contains]
    exact Bool.eq_false_iff.mp hnew
  refine ⟨(h.explored.visit hpop hnew).flags _, fun hflag => ?_,
    fun hbfs => ((h.layered hbfs).visit hbfs hpop hnew).flags _, fun hdfs => ?_, fun hdfs => ?_⟩
  · obtain ⟨hopen, rfl⟩ := Bool.or_eq_false_iff.mp hflag
    obtain ⟨rest, rfl, -⟩ := pop_rest hpop
    exact (h.closed hopen).visit hpop (hcut rfl)
  · obtain ⟨low, back, upper, hstacked⟩ := h.stacked hdfs
    obtain ⟨rest, hfrontier, rfl⟩ := pop_dfs hdfs hpop
    rcases hstacked.last_cases hfrontier with ⟨upper', rfl, hrest⟩ | ⟨rfl, low', rfl, -, hrest⟩
    · have hframe := hstacked.pending frame (List.mem_append_right _ List.mem_cons_self)
      refine ⟨low, back, _, hstacked.visit hstacked.starts hrest (List.Subset.refl _)
        (fun s hs => .inr hs) hframe.2 (List.subset_append_left _ _) (fun f hf => ?_) hcut⟩
      exact (List.mem_append.mp hf).imp_right List.mem_singleton.mp
    · exact ⟨low', frame.node :: back, [] ++ _, hstacked.visit
        (by rw [hstacked.starts, List.append_assoc, List.singleton_append])
        (hrest.trans (List.append_nil _).symm) (List.subset_cons_self _ _)
        (fun s hs => List.mem_cons.mp hs) (mem_reach_of_mem List.mem_cons_self)
        (List.nil_subset _) (fun f hf => .inr (by cases hf)) hcut⟩
  · obtain ⟨rest, hfrontier, rfl⟩ := pop_dfs hdfs hpop
    exact overtaken_visit hdfs h hfrontier hunmet

end Tracked

/-- The nodes shown by a traversal that leaves nothing out: those reachable that pass, without the
starts when they are not asked for, unless one is overtaken depth first. -/
def Shows (graph : TraversalGraph) (spec : TraversalSpec) (nodes : List NodeId) (v : NodeId) :
    Prop :=
  graph.Passes spec v ∧ v ∈ graph.reach nodes ∧
    (spec.includeStart = true ∨ v ∉ nodes ∨ spec.strategy = .dfs ∧ graph.Overtaken nodes v)

/-- At the end the nodes shown were emitted. -/
theorem Tracked.emitted_iff (h : graph.Tracked spec nodes st) (hend : st.frontier = [])
    (hflag : st.depthLimitReached = false) :
    (∃ e ∈ st.entries, e.nodeId = v) ↔ graph.Shows spec nodes v := by
  constructor
  · rintro ⟨e, he, rfl⟩
    obtain ⟨hmet, hpasses, hemits, -, hway⟩ := h.explored.entry e he
    refine ⟨hpasses, ⟨e.path, hway.way⟩, ?_⟩
    by_cases hstart : spec.includeStart = true
    · exact .inl hstart
    · by_cases hnode : e.nodeId ∈ nodes
      · refine .inr (.inr ?_)
        cases hstrategy : spec.strategy with
        | bfs =>
          -- a start lies at distance 0
          have hleast := ((h.layered hstrategy).distance e he).least [e.nodeId] (.start hnode)
          simp [TraversalSpec.emits, hstart] at hemits
          rw [List.length_singleton] at hleast
          omega
        | dfs =>
          refine ⟨rfl, (h.overtaken hstrategy hflag (Bool.eq_false_iff.mpr hstart) _ hmet hnode
            hpasses).mp ⟨e, he, rfl⟩⟩
      · exact .inr (.inl hnode)
  · rintro ⟨hpasses, hreach, hdue⟩
    have hmet := h.explored.visited_of_reach (h.closed hflag) hend hreach
    rcases h.explored.met v hmet hpasses with hentry | ⟨hnode, hstart⟩
    · exact hentry
    · rcases hdue with hinclude | hout | ⟨hdfs, hovertaken⟩
      · rw [hstart] at hinclude
        cases hinclude
      · exact absurd hnode hout
      · exact (h.overtaken hdfs hflag hstart v hmet hnode hpasses).mpr hovertaken

end TraversalGraph

/-- The nodes of a result. -/
def TraversalResult.found (result : TraversalResult) : Set NodeId :=
  {node | ∃ e ∈ result.entries, e.nodeId = node}

end Primadb

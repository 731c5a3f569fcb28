import Primadb.Db.Asking
import Primadb.Db.Unfolding

/-!
# Values of query candidates

A query tests its candidates at paths. It walks the graph along the segments of a path, without
materializing the candidate, and gives up where the walk does not settle the value; then the
candidate is materialized and the path is followed inside. Where the walk settles the value it is
the one inside the materialized candidate, except for the id of a node: the walk takes the id the
node is known by, and the materialized node shows its field of that name when it has one.
-/

namespace Primadb

/-- The path of a filter or an order. -/
inductive QueryValuePath where
  | full
  | key
  | segments (segments : List String)

/-- `QueryValuePath::new`. -/
def QueryValuePath.new (path : String) : QueryValuePath :=
  if path = "" ∨ path = "$value" then .full
  else if path = "$key" then .key
  else .segments ((path.toList.splitOn '.').map String.ofList)

/-- What a candidate stands for. -/
inductive QueryCandidateSource where
  | node (node : NodeId)
  | field (node : NodeId) (field : String)

/-- A candidate of a query. -/
structure QueryCandidate where
  key : String
  /-- What it stands for. -/
  source : QueryCandidateSource

/-- A walk over the set of nodes on the way and the state. -/
abbrev Lookup (σ : Type) := StateM (BTreeSet NodeId × Inner σ)

/-- The value a walk finds; an error stands for a value that is not settled. -/
abbrev Found := Except Unit (Option JsonValue)

section Calls

variable {σ : Type} [IncrementalStore σ] (scalar : String → JsonValue → JsonValue)

/-- `query_field_value`, given how the walk goes on behind a link. -/
def queryFieldValue (visit : NodeId → Lookup σ Found) (node : NodeId) (field : String)
    (segments : List String) : Lookup σ Found := do
  let (visited, inner) ← get
  let inner := (maybeLoadNode node inner).2
  set (visited, inner)
  match inner.fieldValue node field with
  | none => pure (.ok none)
  | some (.scalar value) => pure (.ok (jsonAt (scalar (node ++ "/" ++ field) value) segments))
  | some (.link target) => if segments.isEmpty then pure (.error ()) else visit target
  | some (.bytes _) | some (.blob _) | some (.set _) => pure (.error ())

/-- Walk on from a node that is found, with the node on the way. -/
def enterNode (node : NodeId) (body : Lookup σ Found) : Lookup σ Found := do
  let (visited, inner) ← get
  if visited.contains node then pure (.error ())
  else
    let loaded := maybeLoadNode node inner
    set (visited.insert node, loaded.2)
    let entered := match loaded.1 with
      | .ok true => body
      | .ok false | .error _ => pure (.error ())
    let result ← entered
    modify fun (visited, inner) => (visited.erase node, inner)
    pure result

/-- `query_node_value`. -/
def queryNodeValue : List String → NodeId → Lookup σ Found
  | [], node => enterNode node (pure (.error ()))
  | first :: rest, node =>
    enterNode node
      (if first = "$id" then pure (.ok (if rest.isEmpty then some (.string node) else none))
      else queryFieldValue scalar (queryNodeValue rest) node first rest)

/-- `query_candidate_value`. -/
def queryCandidateValue (candidate : QueryCandidate) (path : QueryValuePath) (inner : Inner σ) :
    Found × Inner σ :=
  match path with
  | .full => (.error (), inner)
  | .key => (.ok (some (.string candidate.key)), inner)
  | .segments segments =>
    let walk := match candidate.source with
      | .node node => queryNodeValue scalar segments node
      | .field node field =>
        queryFieldValue scalar (queryNodeValue scalar segments) node field segments
    let result := walk (∅, inner)
    (result.1, result.2.2)

/-- `materialize_query_candidate`. -/
def materializeQueryCandidate (fuel : ℕ) (candidate : QueryCandidate) (inner : Inner σ) :
    Option (JsonValue × Inner σ) :=
  let walk := match candidate.source with
    | .node node => Walk.materializeNode scalar fuel node
    | .field node field =>
      match inner.fieldValue node field with
      | none => pure .null
      | some value =>
        Walk.materializeField scalar (Walk.materializeNode scalar fuel) node field value
  (walk (∅, inner)).map fun result => (result.1, result.2.2)

/-- The value a candidate is tested at: that of the walk, and where it gives up that inside the
materialized candidate. -/
def projectedValue (fuel : ℕ) (candidate : QueryCandidate) (path : String) (inner : Inner σ) :
    Option (Option JsonValue) :=
  match queryCandidateValue scalar candidate (.new path) inner with
  | (.ok value, _) => some value
  | (.error _, inner) =>
    (materializeQueryCandidate scalar fuel candidate inner).map fun full =>
      queryValueParts candidate.key full.1 path

end Calls

/-! ## The walk -/

/-- From the part `v`, the walk returns with the part as it was, keeps the invariant of the rest,
and what it settles meets the condition. -/
def Settles {V T ε α : Type} (I : T → Prop) (v : V) (m : StateM (V × T) (Except ε α))
    (P : α → Prop) : Prop :=
  ∀ t, I t → ∃ r u, I u ∧ m (v, t) = (r, (v, u)) ∧ ∀ a, r = .ok a → P a

/-- The value at a path begins with the entry of its first segment. -/
theorem jsonAt_cons (value : JsonValue) (first : String) (rest : List String) :
    jsonAt value (first :: rest) = (value.entry first).bind fun value => jsonAt value rest := by
  cases value <;> rfl

section Walk

variable {σ : Type} [RecordStore σ] {scalar : String → JsonValue → JsonValue} {inner : Inner σ}

/-- The states of the invariant answer as a given one. -/
structure Answers (I : Inner σ → Prop) (inner : Inner σ) : Prop where
  /-- The answers. -/
  asking : ∀ t, I t → t.asking = inner.asking
  /-- Asking keeps the invariant. -/
  load : ∀ t node, I t → I (maybeLoadNode node t).2

variable {visited : BTreeSet NodeId} {I : Inner σ → Prop} {node : NodeId}
  {P : Option JsonValue → Prop}

private theorem Answers.serves (h : Answers I inner) :
    Serves I fun node => (inner.asking node).2 :=
  ⟨h.load, fun t node ht => congrArg (fun asking => (asking node).2) (h.asking t ht)⟩

/-- The states that answer alike and show a node as they answer with it. -/
theorem answers_showing (hkeyed : KeyedNodes σ) (inner : Inner σ) (nodes : Set NodeId) :
    Answers (fun t : Inner σ => t.asking = inner.asking ∧
      ∀ node ∈ nodes, t.nodes[node]? = (inner.asking node).2) inner := by
  refine ⟨fun t ht => ht.1, fun t loaded ht => ⟨?_, fun node hnode => ?_⟩⟩
  · rw [← ht.1]
    exact funext fun other => Inner.asking_load hkeyed t loaded other
  · by_cases heq : loaded = node
    · subst heq
      exact congrArg (fun asking => (asking loaded).2) ht.1
    · rw [Inner.nodes_load_of_ne hkeyed heq]
      exact ht.2 node hnode

/-- What a reader sees of the nodes a state answers with. -/
def Inner.answerViews (scalar : String → JsonValue → JsonValue) (inner : Inner σ) : Views :=
  scalarViews scalar fun node => (inner.asking node).2

private theorem Inner.field_answerViews (scalar : String → JsonValue → JsonValue) {t : Inner σ}
    (h : t.nodes[node]? = (inner.asking node).2) (field : String) :
    (inner.answerViews scalar).field node field =
      (t.fieldValue node field).map (·.shownAs scalar (node ++ "/" ++ field)) := by
  rw [Views.field, answerViews, scalarViews, fieldValue, h]
  cases (inner.asking node).2 with
  | none => rfl
  | some state =>
    simp only [Option.map_some, Option.bind_some, Std.ExtTreeMap.getElem?_map, Option.map_map]
    rfl

/-- The nodes found show the id they are known by. -/
def Inner.ShowsIds (scalar : String → JsonValue → JsonValue) (inner : Inner σ) : Prop :=
  ∀ node view, (inner.asking node).1 = .ok true → inner.answerViews scalar node = some view →
    (match view.fields["$id"]? with
    | some value => value = .scalar (.string node)
    | none => view.id = node)

omit [RecordStore σ] in
private theorem settles_error : Settles I visited (pure (.error ()) : Lookup σ Found) P :=
  fun t ht => ⟨.error (), t, ht, rfl, fun a ha => by cases ha⟩

omit [RecordStore σ] in
private theorem settles_ok {value : Option JsonValue} (h : P value) :
    Settles I visited (pure (.ok value) : Lookup σ Found) P := by
  refine fun t ht => ⟨.ok value, t, ht, rfl, fun a ha => ?_⟩
  obtain rfl := Except.ok.inj ha
  exact h

private theorem enterNode_of_visited (h : visited.contains node = true) (body : Lookup σ Found)
    (t : Inner σ) : enterNode node body (visited, t) = (.error (), (visited, t)) := by
  change (if visited.contains node then (pure (.error ()) : Lookup σ Found) else _) (visited, t) = _
  rw [h]
  rfl

/-- A new node is on the way while it is entered. -/
theorem enterNode_of_new (h : visited.contains node = false) (body : Lookup σ Found) (t : Inner σ) :
    enterNode node body (visited, t) =
      let result := (match (maybeLoadNode node t).1 with
        | .ok true => body
        | .ok false | .error _ => pure (.error ()))
          (visited.insert node, (maybeLoadNode node t).2)
      (result.1, (result.2.1.erase node, result.2.2)) := by
  change (if visited.contains node then (pure (.error ()) : Lookup σ Found) else _) (visited, t) = _
  rw [h]
  rfl

private theorem settles_enterNode (hanswers : Answers I inner) {body : Lookup σ Found}
    (hbody : visited.contains node = false → (inner.asking node).1 = .ok true →
      Settles I (visited.insert node) body P) :
    Settles I visited (enterNode node body) P := by
  intro t ht
  cases hvisited : visited.contains node with
  | true => exact ⟨.error (), t, ht, enterNode_of_visited hvisited body t, fun a ha => by cases ha⟩
  | false =>
    have hload := hanswers.load t node ht
    have hanswer : (maybeLoadNode node t).1 = (inner.asking node).1 :=
      congrArg (fun asking => (asking node).1) (hanswers.asking t ht)
    have hentered : Settles I (visited.insert node)
        (match (maybeLoadNode node t).1 with
        | .ok true => body
        | .ok false | .error _ => pure (.error ())) P := by
      split
      · rename_i hfound
        exact hbody hvisited (hanswer ▸ hfound)
      · exact settles_error
      · exact settles_error
    obtain ⟨r, u, hu, hrun, hr⟩ := hentered _ hload
    refine ⟨r, u, hu, ?_, hr⟩
    rw [enterNode_of_new hvisited, hrun]
    exact congrArg (fun visited => (r, (visited, u))) (erase_insert_visited hvisited)

/-- The walk over a field finds what is shown of it, when it finds what is shown behind links. -/
theorem settles_queryFieldValue {visit : NodeId → Lookup σ Found} {behind : NodeId → JsonValue}
    (field : String) {segments : List String}
    (hvisit : ∀ target, (inner.answerViews scalar).field node field = some (.link target) →
      Settles I visited (visit target) (· = jsonAt (behind target) segments)) {t : Inner σ}
    (ht : t.asking = inner.asking) (hload : I (maybeLoadNode node t).2) :
    ∃ r u, I u ∧ queryFieldValue scalar visit node field segments (visited, t) = (r, (visited, u)) ∧
      ∀ a, r = .ok a → a = ((inner.answerViews scalar).field node field).bind fun value =>
        jsonAt (Views.shownField behind value) segments := by
  have hfield := Inner.field_answerViews scalar
    (congrArg (fun asking => (asking node).2) ht :
      (maybeLoadNode node t).2.nodes[node]? = (inner.asking node).2) field
  have hrest : Settles I visited
      (match (maybeLoadNode node t).2.fieldValue node field with
      | none => pure (.ok none)
      | some (.scalar value) => pure (.ok (jsonAt (scalar (node ++ "/" ++ field) value) segments))
      | some (.link target) => if segments.isEmpty then pure (.error ()) else visit target
      | some (.bytes _) | some (.blob _) | some (.set _) => pure (.error ()) : Lookup σ Found)
      fun value => value = ((inner.answerViews scalar).field node field).bind fun value =>
        jsonAt (Views.shownField behind value) segments := by
    rw [hfield] at hvisit ⊢
    cases hvalue : (maybeLoadNode node t).2.fieldValue node field with
    | none => exact settles_ok rfl
    | some value =>
      rw [hvalue] at hvisit
      cases value with
      | scalar value => exact settles_ok rfl
      | link target =>
        dsimp only
        split
        · exact settles_error
        · exact hvisit target rfl
      | bytes bytes => exact settles_error
      | blob reference => exact settles_error
      | set set => exact settles_error
  exact hrest _ hload

/-- The walk finds what stands in the tree of a node. -/
theorem settles_queryNodeValue (hkeyed : KeyedNodes σ) (hanswers : Answers I inner)
    (hids : inner.ShowsIds scalar) (segments : List String) {tree : JsonValue}
    (htree : (inner.answerViews scalar).Unfolds {n | n ∈ visited} node tree) :
    Settles I visited (queryNodeValue scalar segments node) (· = jsonAt tree segments) := by
  induction segments generalizing visited node tree with
  | nil => exact settles_enterNode hanswers fun _ _ => settles_error
  | cons first rest ih =>
    refine settles_enterNode hanswers fun hnew hfound => ?_
    have hoff : node ∉ {n | n ∈ visited} := by
      rw [Set.mem_ofPred_eq, Std.ExtTreeSet.mem_iff_contains, hnew]
      exact Bool.false_ne_true
    obtain ⟨state, hstate⟩ := Option.isSome_iff_exists.mp (Inner.isSome_of_asking hkeyed hfound)
    obtain ⟨view, hview⟩ : ∃ view, inner.answerViews scalar node = some view :=
      ⟨_, congrArg (Option.map _) hstate⟩
    obtain ⟨behind, rfl, hbehind⟩ := htree.of_view hview hoff
    rw [jsonAt_cons, NodeView.entry_opened]
    split
    · rename_i hid
      subst hid
      refine settles_ok ?_
      have hshown := hids node view hfound hview
      cases hvalue : view.fields["$id"]? with
      | none =>
        rw [hvalue] at hshown
        dsimp only at hshown ⊢
        rw [getEntry_cons, if_pos rfl, hshown]
        cases rest <;> rfl
      | some value =>
        rw [hvalue] at hshown
        dsimp only at hshown ⊢
        rw [hshown]
        cases rest <;> rfl
    · rename_i hid
      have hfield : (inner.answerViews scalar).field node first = view.fields[first]? := by
        rw [Views.field, hview]
        rfl
      have hsettles : Settles I (visited.insert node)
          (queryFieldValue scalar (queryNodeValue scalar rest) node first rest) _ :=
        fun t ht => settles_queryFieldValue first
          (fun target htarget => ih (Views.setOf_mem_insert visited node ▸ hbehind target
            (Views.mem_targets (hfield.symm.trans htarget) (List.mem_singleton.mpr rfl))))
          (hanswers.asking t ht) (hanswers.load t node ht)
      rw [hfield] at hsettles
      cases hvalue : view.fields[first]? with
      | none =>
        rw [hvalue] at hsettles
        dsimp only
        rw [getEntry_cons, if_neg (Ne.symm hid)]
        exact hsettles
      | some value =>
        rw [hvalue] at hsettles
        exact hsettles

end Walk

/-! ## Candidates -/

section Candidates

variable {σ : Type} [RecordStore σ] {scalar : String → JsonValue → JsonValue} {inner : Inner σ}
  {keys : List NodeId} {fuel : ℕ}

/-- The materialized candidate. -/
def Views.candidate (views : Views) (fuel : ℕ) : QueryCandidateSource → JsonValue
  | .node node => shownNode views fuel ∅ node
  | .field node field =>
    ((views.field node field).map (shownField (shownNode views fuel ∅))).getD .null

private theorem materializeQueryCandidate_some (hkeyed : KeyedNodes σ)
    (scalar : String → JsonValue → JsonValue) (hkeys : ∀ n, n ∉ keys → (inner.asking n).2 = none)
    (hfuel : keys.length < fuel)
    (candidate : QueryCandidate) {t : Inner σ} (ht : t.asking = inner.asking) :
    ∃ full after, materializeQueryCandidate scalar fuel candidate t = some (full, after) ∧
      ((∀ node field, candidate.source = .field node field →
        t.nodes[node]? = (inner.asking node).2) →
          full = (inner.answerViews scalar).candidate fuel candidate.source) := by
  have hserves := (answers_showing hkeyed inner ∅).serves
  have hunvisited : (keys.filter fun key => !(∅ : BTreeSet NodeId).contains key).length < fuel :=
    (List.length_filter_le _ _).trans_lt hfuel
  have hnode : ∀ node, Restores _ ∅ (Walk.materializeNode scalar fuel node) _ :=
    fun node => restores_materializeNode hserves hkeys hunvisited node
  obtain ⟨key, source⟩ := candidate
  cases source with
  | node node =>
    obtain ⟨after, -, hrun⟩ := hnode node t ⟨ht, fun _ h => absurd h (Set.notMem_empty _)⟩
    refine ⟨_, after, ?_, fun _ => rfl⟩
    exact congrArg (Option.map fun result => (result.1, result.2.2)) hrun
  | field node field =>
    cases hvalue : t.fieldValue node field with
    | none =>
      refine ⟨.null, t, ?_, fun hshows => ?_⟩
      · rw [materializeQueryCandidate]
        dsimp only
        rw [hvalue]
        rfl
      · rw [Views.candidate, Inner.field_answerViews scalar (hshows node field rfl), hvalue]
        rfl
    | some value =>
      obtain ⟨after, -, hrun⟩ := restores_materializeField hnode node field value t
        ⟨ht, fun _ h => absurd h (Set.notMem_empty _)⟩
      refine ⟨Views.shownField (Views.shownNode (inner.answerViews scalar) fuel ∅)
        (value.shownAs scalar (node ++ "/" ++ field)), after, ?_, fun hshows => ?_⟩
      · rw [materializeQueryCandidate]
        dsimp only
        rw [hvalue]
        exact congrArg (Option.map fun result => (result.1, result.2.2)) hrun
      · rw [Views.candidate, Inner.field_answerViews scalar (hshows node field rfl), hvalue]
        rfl

private theorem queryCandidateValue_segments (hkeyed : KeyedNodes σ)
    (hkeys : ∀ n, n ∉ keys → (inner.asking n).2 = none) (hfuel : keys.length < fuel)
    (hids : inner.ShowsIds scalar) (candidate : QueryCandidate) (segments : List String)
    (hsegments : segments ≠ []) :
    ∃ r t, queryCandidateValue scalar candidate (.segments segments) inner = (r, t) ∧
      t.asking = inner.asking ∧
      (∀ node field, candidate.source = .field node field →
        t.nodes[node]? = (inner.asking node).2) ∧
      ∀ value, r = .ok value →
        value = jsonAt ((inner.answerViews scalar).candidate fuel candidate.source) segments := by
  have hunvisited : (keys.filter fun key => !(∅ : BTreeSet NodeId).contains key).length < fuel :=
    (List.length_filter_le _ _).trans_lt hfuel
  have htree := Views.unfolds_shownNode
    (fun n hn => congrArg (Option.map _) (hkeys n hn) : ∀ n, _ → inner.answerViews scalar n = none)
    hunvisited
  obtain ⟨key, source⟩ := candidate
  cases source with
  | node node =>
    obtain ⟨r, t, ht, hrun, hr⟩ := settles_queryNodeValue hkeyed (answers_showing hkeyed inner ∅)
      hids segments (htree node) inner ⟨rfl, fun _ h => absurd h (Set.notMem_empty _)⟩
    refine ⟨r, t, congrArg (fun result => (result.1, result.2.2)) hrun, ht.1, ?_, hr⟩
    rintro _ _ ⟨⟩
  | field node field =>
    have hanswers := answers_showing hkeyed inner {node}
    have hload : (maybeLoadNode node inner).2.asking = inner.asking ∧ ∀ n ∈ ({node} : Set NodeId),
        (maybeLoadNode node inner).2.nodes[n]? = (inner.asking n).2 := by
      refine ⟨funext fun other => Inner.asking_load hkeyed inner node other, ?_⟩
      rintro n rfl
      rfl
    obtain ⟨r, t, ht, hrun, hr⟩ := settles_queryFieldValue field
      (fun target _ => settles_queryNodeValue hkeyed hanswers hids segments (htree target))
      rfl hload
    refine ⟨r, t, congrArg (fun result => (result.1, result.2.2)) hrun, ht.1, ?_, ?_⟩
    · rintro _ _ ⟨⟩
      exact ht.2 node rfl
    · intro value hvalue
      rw [hr value hvalue, Views.candidate]
      cases (inner.answerViews scalar).field node field with
      | some value => rfl
      | none =>
        cases segments with
        | nil => exact absurd rfl hsegments
        | cons first rest => rfl

private theorem shownNode_ne_string (views : Views) (fuel : ℕ) (visited : BTreeSet NodeId)
    (node : NodeId) (text : String) : Views.shownNode views fuel visited node ≠ .string text := by
  cases fuel with
  | zero => exact fun h => by cases h
  | succ fuel =>
    rw [Views.shownNode]
    split
    · exact fun h => by cases h
    · cases views node <;> exact fun h => by cases h

private theorem eq_scalar_of_shownField {views : Views} {fuel : ℕ} {visited : BTreeSet NodeId}
    {value : VisibleValue} {text : String}
    (h : Views.shownField (Views.shownNode views fuel visited) value = .string text) :
    value = .scalar (.string text) := by
  cases value with
  | scalar value => exact congrArg VisibleValue.scalar h
  | link target => exact absurd h (shownNode_ne_string _ _ _ _ _)
  | bytes bytes => cases h
  | blob reference => cases h
  | set members => cases h

/-- Every candidate is materialized, and at every path it is tested at the value inside. -/
def Inner.ProjectsFaithfully (scalar : String → JsonValue → JsonValue) (fuel : ℕ)
    (inner : Inner σ) : Prop :=
  ∀ candidate path, ∃ full after,
    materializeQueryCandidate scalar fuel candidate
      (queryCandidateValue scalar candidate (.new path) inner).2 = some (full, after) ∧
    projectedValue scalar fuel candidate path inner =
      some (queryValueParts candidate.key full path)

private theorem splitOn_ne_nil (path : List Char) : (path.splitOn '.').map String.ofList ≠ [] := by
  rw [Ne, List.map_eq_nil_iff]
  exact List.splitOn_ne_nil _ _

/-- When the nodes show their ids, candidates are tested at the values inside. -/
theorem projectsFaithfully_of_showsIds (hkeyed : KeyedNodes σ)
    (hkeys : ∀ n, n ∉ keys → (inner.asking n).2 = none) (hfuel : keys.length < fuel)
    (hids : inner.ShowsIds scalar) : inner.ProjectsFaithfully scalar fuel := by
  intro candidate path
  rw [projectedValue, QueryValuePath.new]
  split
  · -- the walk gives up at once
    obtain ⟨full, after, hfull, -⟩ := materializeQueryCandidate_some hkeyed scalar hkeys hfuel
      candidate (rfl : inner.asking = inner.asking)
    refine ⟨full, after, hfull, ?_⟩
    rw [queryCandidateValue]
    dsimp only
    rw [hfull]
    rfl
  · rename_i hpath
    split
    · rename_i hkey
      obtain ⟨full, after, hfull, -⟩ := materializeQueryCandidate_some hkeyed scalar hkeys
        hfuel candidate (rfl : inner.asking = inner.asking)
      refine ⟨full, after, hfull, ?_⟩
      rw [queryValueParts, if_neg hpath, if_pos hkey]
      rfl
    · rename_i hkey
      obtain ⟨r, t, hwalk, ht, hshows, hr⟩ := queryCandidateValue_segments hkeyed hkeys hfuel hids
        candidate _ (splitOn_ne_nil path.toList)
      obtain ⟨full, after, hfull, hcandidate⟩ := materializeQueryCandidate_some hkeyed
        scalar hkeys hfuel candidate ht
      rw [hwalk]
      refine ⟨full, after, hfull, ?_⟩
      cases r with
      | error e =>
        dsimp only
        rw [hfull]
        rfl
      | ok value =>
        rw [queryValueParts, if_neg hpath, if_neg hkey, hr value rfl, hcandidate hshows]

/-- When candidates are tested at the values inside, the nodes show their ids. -/
theorem showsIds_of_projectsFaithfully (hkeyed : KeyedNodes σ)
    (hkeys : ∀ n, n ∉ keys → (inner.asking n).2 = none) (hfuel : keys.length < fuel)
    (h : inner.ProjectsFaithfully scalar fuel) : inner.ShowsIds scalar := by
  intro node view hfound hview
  have hnew : (∅ : BTreeSet NodeId).contains node = false :=
    Bool.eq_false_iff.mpr fun h =>
      Std.ExtTreeSet.not_mem_empty (Std.ExtTreeSet.mem_iff_contains.mpr h)
  have hpath : QueryValuePath.new "$id" = .segments ["$id"] := rfl
  have hwalk : queryCandidateValue scalar ⟨"", .node node⟩ (.new "$id") inner =
      (.ok (some (.string node)), (maybeLoadNode node inner).2) := by
    rw [hpath, queryCandidateValue]
    dsimp only
    rw [queryNodeValue, enterNode_of_new hnew,
      show (maybeLoadNode node inner).1 = .ok true from hfound]
    rfl
  obtain ⟨full, after, hfull, hprojected⟩ := h ⟨"", .node node⟩ "$id"
  rw [projectedValue, hwalk] at hprojected
  obtain ⟨full', after', hfull', hcandidate⟩ := materializeQueryCandidate_some hkeyed scalar hkeys
    hfuel ⟨"", .node node⟩ (funext fun other => Inner.asking_load hkeyed inner node other)
  rw [hwalk, hfull'] at hfull
  cases hfull
  have hshown : full = Views.shownNode (inner.answerViews scalar) fuel ∅ node := by
    refine hcandidate ?_
    rintro _ _ ⟨⟩
  obtain ⟨fuel, rfl⟩ : ∃ n, fuel = n + 1 := ⟨fuel - 1, by omega⟩
  have hentry : queryValueParts "" full "$id" = full.entry "$id" := by
    change jsonAt full ["$id"] = _
    rw [jsonAt_cons]
    cases full.entry "$id" <;> rfl
  rw [hentry, hshown, Views.entry_shownNode hview hnew] at hprojected
  split
  · rename_i value hvalue
    rw [hvalue] at hprojected
    exact eq_scalar_of_shownField (Option.some.inj (Option.some.inj hprojected)).symm
  · rename_i hvalue
    rw [hvalue] at hprojected
    have hid := Option.some.inj hprojected
    dsimp only at hid
    rw [getEntry_cons, if_pos rfl, Option.some.injEq, JsonValue.string.injEq] at hid
    exact hid.symm

/-- Candidates are tested at the values inside exactly when the nodes found show their ids. -/
theorem projection_faithful_iff (hkeyed : KeyedNodes σ) (scalar : String → JsonValue → JsonValue)
    {inner : Inner σ} (hfinite : {node | (inner.asking node).2 ≠ none}.Finite) :
    ∃ enough, ∀ fuel ≥ enough, inner.ProjectsFaithfully scalar fuel ↔ inner.ShowsIds scalar := by
  have hkeys : ∀ n, n ∉ hfinite.toFinset.toList → (inner.asking n).2 = none := by
    intro n hn
    by_contra hsome
    exact hn (Finset.mem_toList.mpr (hfinite.mem_toFinset.mpr hsome))
  refine ⟨hfinite.toFinset.toList.length + 1, fun fuel hfuel => ⟨?_, ?_⟩⟩
  · exact showsIds_of_projectsFaithfully hkeyed hkeys hfuel
  · exact projectsFaithfully_of_showsIds hkeyed hkeys hfuel

end Candidates

/-- A database with two nodes in memory that link to each other, and a link to an absent node. -/
def mutualDb : Inner RecordTable :=
  let fields := fun (links : List (String × NodeId)) => links.foldl
    (fun (fields : BTreeMap String FieldState) link =>
      fields.insert link.1 ⟨.link link.2, zeroMarker⟩)
    ((∅ : BTreeMap String FieldState).insert "size" ⟨.scalar (.bool true), zeroMarker⟩)
  { Inner.withReplicaId "r" ⟨fun _ => 0, 0⟩ with
    nodes := ((∅ : BTreeMap NodeId NodeState).insert "n"
      ⟨"n", fields [("next", "m"), ("lost", "gone")], ∅⟩).insert "m"
        ⟨"m", fields [("back", "n")], ∅⟩ }

/-- Candidates of nodes without an own id field are tested at the values inside. -/
theorem projection_faithful_iff_mutualDb :
    KeyedNodes RecordTable ∧ ∃ enough, ∀ fuel ≥ enough,
      mutualDb.ProjectsFaithfully (fun _ value => value) fuel := by
  have hasked : ∀ node, (mutualDb.asking node).2 = mutualDb.nodes[node]? := by
    intro node
    rw [Inner.asking, Inner.maybeLoadNode_of_none rfl]
  have hnodes : ∀ node, mutualDb.nodes[node]? ≠ none → node = "m" ∨ node = "n" := by
    intro node hnode
    by_contra hneither
    rw [not_or] at hneither
    refine hnode ?_
    rw [mutualDb, BTreeMap.get_insert, if_neg (Ne.symm hneither.1), BTreeMap.get_insert,
      if_neg (Ne.symm hneither.2)]
    exact Std.ExtTreeMap.getElem?_empty
  have hfinite : {node | (mutualDb.asking node).2 ≠ none}.Finite := by
    refine (Set.toFinite {"m", "n"}).subset fun node hnode => ?_
    rw [Set.mem_ofPred_eq, hasked] at hnode
    exact hnodes node hnode
  have hids : mutualDb.ShowsIds fun _ value => value := by
    intro node view _ hview
    rw [Inner.answerViews, scalarViews, hasked] at hview
    have hnode : mutualDb.nodes[node]? ≠ none := fun hnone => by
      rw [hnone] at hview
      cases hview
    rcases hnodes node hnode with rfl | rfl <;> cases hview <;> rfl
  obtain ⟨enough, h⟩ :=
    projection_faithful_iff keyedNodes_recordTable (fun _ value => value) hfinite
  exact ⟨keyedNodes_recordTable, enough, fun fuel hfuel => (h fuel hfuel).mpr hids⟩

/-- A field that is named as the id is written to a node. -/
def writesId : IndexEvent RecordTable :=
  .mutation (.write (.chain (.put "n" [] (.object [("$id", .string "m")]))))

/-- A candidate with a field named as the id is tested at the id it is known by, and the
materialized candidate shows the field. -/
theorem projection_differs_at_id :
    let inner := (([writesId] : List (IndexEvent RecordTable)).foldl
      (@Database.indexStep _ _ plainHash) (.new "r" ⟨fun _ => 0, 0⟩ ∅ .default)).inner
    projectedValue (fun _ value => value) 3 ⟨"n", .node "n"⟩ "$id" inner =
        some (some (.string "n")) ∧
      ((materializeQueryCandidate (fun _ value => value) 3 ⟨"n", .node "n"⟩ inner).map
        fun full => queryValueParts "n" full.1 "$id") = some (some (.string "m")) := by
  decide +kernel

end Primadb

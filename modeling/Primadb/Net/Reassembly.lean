import Primadb.Net.ClientFrame
import Primadb.Net.RemoteResult

/-!
# Reassembly of remote results

The responses to a request are packed into routes, travel in order among other routes, and are
unpacked and gathered by the client that asked. Only responses with the request's id touch what it
has gathered, and the result is handed on with the response that counts as final.
-/

namespace Primadb

/-- The responses a payload carries. -/
def RoutePayload.pullResponses {ρ β : Type} : RoutePayload ρ β → List (PullResponse β)
  | .pullResponse response => [response]
  | .batch items => items.filterMap fun
    | .pullResponse response => some response
    | _ => none
  | _ => []

/-- Whether a payload carries a response to the request. -/
def RoutePayload.answers {ρ β : Type} (requestId : String) (payload : RoutePayload ρ β) : Bool :=
  payload.pullResponses.any (·.requestId = requestId)

variable {ρ β : Type}

private theorem pullResponses_ofChunk (responses : List (PullResponse β)) :
    (RoutePayload.ofChunk
      (responses.map .pullResponse : List (RouteBatchItem ρ β))).pullResponses = responses := by
  rcases responses with _ | ⟨response, _ | ⟨other, responses⟩⟩
  · rfl
  · rfl
  · simp only [List.map_cons, RoutePayload.ofChunk, RoutePayload.pullResponses]
    simp

/-- How many rounds unpacking needs for a payload. -/
def RoutePayload.rounds {ρ β : Type} : RoutePayload ρ β → ℕ
  | .batch items => items.length + 1
  | _ => 1

/-- Push the items of a batch in reverse. -/
def RoutePayload.pushItems {ρ β : Type} (items : List (RouteBatchItem ρ β))
    (pending : List (RoutePayload ρ β)) : List (RoutePayload ρ β) :=
  items.reverse.foldl (fun pending item => .fromBatchItem item :: pending) pending

private theorem RoutePayload.pushItems_eq (items : List (RouteBatchItem ρ β))
    (pending : List (RoutePayload ρ β)) :
    pushItems items pending = items.map fromBatchItem ++ pending := by
  rw [pushItems]
  induction items generalizing pending with
  | nil => rfl
  | cons item items ih =>
    rw [List.reverse_cons, List.foldl_concat, ih]
    rfl

private theorem RoutePayload.rounds_pos (payload : RoutePayload ρ β) : 0 < payload.rounds := by
  cases payload <;> exact Nat.succ_pos _

private theorem RoutePayload.sum_rounds_items (items : List (RouteBatchItem ρ β)) :
    ((items.map RoutePayload.fromBatchItem).map rounds).sum = items.length := by
  induction items with
  | nil => rfl
  | cons item items ih =>
    rw [List.map_cons, List.map_cons, List.sum_cons, ih, List.length_cons, Nat.add_comm]
    cases item <;> rfl

namespace RelayClient

section Frame

variable {δ ρ β ω ψ : Type}

/-- Neither the remote reads without an answer nor the answers change. -/
def SameReads (before after : RelayClient δ ρ β ω ψ) : Prop :=
  after.pendingRequests = before.pendingRequests ∧ after.pulled = before.pulled

private theorem SameReads.handlePayload [ContentHash ρ β] [ClientHost δ ρ β ω ψ] [ErrorBody β]
    [SignatureScheme AuthTranscript] (now : ℕ) (route : RouteEnvelope ρ β)
    {payload : RoutePayload ρ β} (hpayload : ∀ response, payload ≠ .pullResponse response) :
    Effect.Keeps SameReads (handlePayload now route payload : Step δ ρ β ω ψ Unit) := by
  by_cases hevent : ∃ event, payload = .watchEvent event
  · obtain ⟨event, rfl⟩ := hevent
    exact fun _ => ⟨rfl, rfl⟩
  · intro client
    have hsame := SameTables.handlePayload now route hpayload
      (fun event heq => hevent ⟨event, heq⟩) client
    exact ⟨hsame.1, hsame.2.1⟩

end Frame

/-! ## What a client has gathered -/

section Reading

variable {δ ρ β ω ψ : Type}

/-- What was gathered for a request that waits, and the answers handed on for it. -/
def reading (client : RelayClient δ ρ β ω ψ) (requestId : String) :
    Option ψ × List (Except String ω) :=
  (client.pendingRequests[requestId]?,
    (client.pulled.filter (·.1 = requestId)).map (·.2))

variable [ClientHost δ ρ β ω ψ]

variable (δ) in
/-- Take a response to the request. -/
def takeResponse (reading : Option ψ × List (Except String ω)) (response : PullResponse β) :
    Option ψ × List (Except String ω) :=
  match reading.1 with
  | none => reading
  | some accumulator =>
    let applied := ClientHost.applyResponseBody (δ := δ) accumulator response.result
    match applied.2 with
    | some message => (none, reading.2 ++ [.error message])
    | none =>
      if response.done || response.chunk.index + 1 ≥ response.chunk.total then
        match ClientHost.intoResult (δ := δ) applied.1 with
        | .ok result => (none, reading.2 ++ [.ok result])
        | .error _ => (none, reading.2)
      else (some applied.1, reading.2)

/-- The client with other remote reads. -/
def withReads (client : RelayClient δ ρ β ω ψ) (requests : BTreeMap String ψ)
    (answers : List (String × Except String ω)) : RelayClient δ ρ β ω ψ :=
  { client with pendingRequests := requests, pulled := answers }

/-- A response takes its request from what waits or gathers for it. -/
theorem acceptPullResponse_eq {client : RelayClient δ ρ β ω ψ} {response : PullResponse β}
    {accumulator : ψ} (hpending : client.pendingRequests[response.requestId]? = some accumulator) :
    acceptPullResponse response client =
      let applied := ClientHost.applyResponseBody (δ := δ) accumulator response.result
      let removed := client.pendingRequests.erase response.requestId
      match applied.2 with
      | some message =>
        (.ok (), client.withReads removed
          (client.pulled ++ [(response.requestId, .error message)]))
      | none =>
        if response.done || response.chunk.index + 1 ≥ response.chunk.total then
          match ClientHost.intoResult (δ := δ) applied.1 with
          | .ok result =>
            (.ok (), client.withReads removed
              (client.pulled ++ [(response.requestId, .ok result)]))
          | .error error => (.error error, client.withReads removed client.pulled)
        else
          (.ok (), client.withReads
            (client.pendingRequests.insert response.requestId applied.1) client.pulled) := by
  rw [acceptPullResponse, Effect.get_bind, hpending]
  dsimp only
  rcases ClientHost.applyResponseBody (δ := δ) accumulator response.result with ⟨gathered, _ | _⟩
  · dsimp only
    split
    · cases hresult : ClientHost.intoResult (δ := δ) gathered <;> rfl
    · rfl
  · rfl

omit [ClientHost δ ρ β ω ψ] in
/-- What was gathered for a request, after a change of the remote reads. -/
theorem reading_withReads (client : RelayClient δ ρ β ω ψ) (requests : BTreeMap String ψ)
    (answers : List (String × Except String ω)) (requestId : String) :
    (client.withReads requests answers).reading requestId =
      (requests[requestId]?, (answers.filter (·.1 = requestId)).map (·.2)) := rfl

/-- A response changes what was gathered for its request, and nothing else. -/
theorem reading_acceptPullResponse (client : RelayClient δ ρ β ω ψ) (response : PullResponse β)
    (requestId : String) :
    (acceptPullResponse response client).2.reading requestId =
      if response.requestId = requestId then
        takeResponse δ (client.reading requestId) response
      else client.reading requestId := by
  cases hpending : client.pendingRequests[response.requestId]? with
  | none =>
    have hsame : (acceptPullResponse response client).2 = client := by
      rw [acceptPullResponse, Effect.get_bind, hpending]
      rfl
    rw [hsame]
    split
    · rename_i heq
      rw [takeResponse, reading, ← heq, hpending]
    · rfl
  | some accumulator =>
    rw [acceptPullResponse_eq hpending]
    dsimp only
    by_cases heq : response.requestId = requestId
    · subst heq
      rw [if_pos rfl, takeResponse]
      have hfirst : (client.reading response.requestId).1 = some accumulator := hpending
      rw [hfirst]
      dsimp only
      split
      · rw [reading_withReads, BTreeMap.get_erase, if_pos rfl, List.filter_append, List.map_append]
        simp [reading]
      · split
        · split
          · rw [reading_withReads, BTreeMap.get_erase, if_pos rfl, List.filter_append,
              List.map_append]
            simp [reading]
          · rw [reading_withReads, BTreeMap.get_erase, if_pos rfl]
            rfl
        · rw [reading_withReads, BTreeMap.get_insert, if_pos rfl]
          rfl
    · rw [if_neg heq]
      have hother : ∀ answer : Except String ω,
          (client.pulled ++ [(response.requestId, answer)]).filter (·.1 = requestId) =
            client.pulled.filter (·.1 = requestId) := by
        intro answer
        simp [List.filter_append, heq]
      split
      · rw [reading_withReads, BTreeMap.get_erase, if_neg heq, hother]
        rfl
      · split
        · split
          · rw [reading_withReads, BTreeMap.get_erase, if_neg heq, hother]
            rfl
          · rw [reading_withReads, BTreeMap.get_erase, if_neg heq]
            rfl
        · rw [reading_withReads, BTreeMap.get_insert, if_neg heq]
          rfl

/-- A response that ends in an error leaves nothing to gather. -/
theorem reading_of_error {client after : RelayClient δ ρ β ω ψ} {response : PullResponse β}
    {error : PrimadbError} (h : acceptPullResponse response client = (.error error, after)) :
    (after.reading response.requestId).1 = none := by
  cases hpending : client.pendingRequests[response.requestId]? with
  | none =>
    rw [acceptPullResponse, Effect.get_bind, hpending] at h
    cases h
  | some accumulator =>
    rw [acceptPullResponse_eq hpending] at h
    dsimp only at h
    split at h
    · cases h
    · split at h
      · split at h
        · cases h
        · cases h
          rw [reading_withReads, BTreeMap.get_erase, if_pos rfl]
      · cases h

/-- After the answer, responses are dropped. -/
theorem foldl_takeResponse_none (answers : List (Except String ω))
    (responses : List (PullResponse β)) :
    responses.foldl (takeResponse δ) ((none : Option ψ), answers) = (none, answers) := by
  induction responses with
  | nil => rfl
  | cons response responses ih => exact ih

end Reading

/-! ## Unpacking -/

section Unpacking

variable {δ ρ β ω ψ : Type} [ContentHash ρ β] [ClientHost δ ρ β ω ψ] [ErrorBody β]
  [SignatureScheme AuthTranscript]

/-- The loop of `handle_route_payload` over the payloads that wait, the last pushed first: the
items of a batch are pushed in reverse. -/
def drainPayloads (now : ℕ) (route : RouteEnvelope ρ β) :
    List (RoutePayload ρ β) → Step δ ρ β ω ψ Unit
  | [] => pure ()
  | .batch items :: pending =>
    drainPayloads now route (RoutePayload.pushItems items pending)
  | payload :: pending => do
    handlePayload now route payload
    drainPayloads now route pending
termination_by pending => (pending.map RoutePayload.rounds).sum
decreasing_by
  · rw [RoutePayload.pushItems_eq, List.map_append, List.sum_append, RoutePayload.sum_rounds_items,
      List.map_cons, List.sum_cons, RoutePayload.rounds]
    omega
  · rw [List.map_cons, List.sum_cons]
    exact Nat.lt_add_of_pos_left payload.rounds_pos

private theorem drainPayloads_cons (now : ℕ) (route : RouteEnvelope ρ β)
    {payload : RoutePayload ρ β}
    (hpayload : ∀ items, payload ≠ .batch items) (pending : List (RoutePayload ρ β)) :
    (drainPayloads now route (payload :: pending) : Step δ ρ β ω ψ Unit) =
      (do
        handlePayload now route payload
        drainPayloads now route pending) := by
  rw [drainPayloads]
  exact hpayload

/-- Unpacking handles the items of a batch in order. -/
theorem drainPayloads_payload (now : ℕ) (route : RouteEnvelope ρ β) :
    (drainPayloads now route [route.payload] : Step δ ρ β ω ψ Unit) =
      handleRoutePayload now route := by
  have hitems : ∀ items : List (RouteBatchItem ρ β),
      (drainPayloads now route (items.map RoutePayload.fromBatchItem) : Step δ ρ β ω ψ Unit) =
        items.forM fun item => handlePayload now route (.fromBatchItem item) := by
    intro items
    induction items with
    | nil =>
      rw [List.map_nil, drainPayloads]
      rfl
    | cons item items ih =>
      have hitem : ∀ items, RoutePayload.fromBatchItem item ≠ .batch items := by
        cases item <;> simp [RoutePayload.fromBatchItem]
      rw [List.map_cons, drainPayloads_cons now route hitem, ih]
      rfl
  cases hpayload : route.payload
  case batch items =>
    rw [drainPayloads, RoutePayload.pushItems_eq, List.append_nil, hitems, handleRoutePayload,
      hpayload]
  all_goals
    rw [drainPayloads_cons now route (by simp), drainPayloads, handleRoutePayload, hpayload]
    exact Effect.bind_pure_unit _

variable {requestId : String}

/-- A payload without a response to the request leaves it alone. -/
theorem reading_handlePayload {payload : RoutePayload ρ β}
    (hpayload : ∀ response, payload = .pullResponse response → response.requestId ≠ requestId)
    (now : ℕ) (route : RouteEnvelope ρ β) (client : RelayClient δ ρ β ω ψ) :
    (handlePayload now route payload client).2.reading requestId = client.reading requestId := by
  by_cases hresponse : ∃ response, payload = .pullResponse response
  · obtain ⟨response, rfl⟩ := hresponse
    exact (reading_acceptPullResponse client response requestId).trans
      (if_neg (hpayload response rfl))
  · obtain ⟨hrequests, hpulled⟩ := SameReads.handlePayload now route
      (fun response heq => hresponse ⟨response, heq⟩) client
    rw [reading, reading, hrequests, hpulled]

/-- A route without a response to the request leaves it alone. -/
theorem reading_of_not_answers {route : RouteEnvelope ρ β}
    (hroute : route.payload.answers requestId = false) (now : ℕ) (client : RelayClient δ ρ β ω ψ) :
    (handleRoutePayload now route client).2.reading requestId = client.reading requestId := by
  have hkeeps : Effect.Composes fun before after : RelayClient δ ρ β ω ψ =>
      after.reading requestId = before.reading requestId := ⟨fun _ => rfl, fun h h' => h'.trans h⟩
  have hresponses : ∀ response ∈ route.payload.pullResponses, response.requestId ≠ requestId := by
    intro response hresponse heq
    rw [RoutePayload.answers, List.any_eq_false] at hroute
    exact hroute response hresponse (by simpa using heq)
  have hitems : ∀ items : List (RouteBatchItem ρ β),
      (∀ response, .pullResponse response ∈ items → response.requestId ≠ requestId) →
      Effect.Keeps (fun before after => after.reading requestId = before.reading requestId)
        (items.forM fun item => handlePayload now route (.fromBatchItem item) :
          Step δ ρ β ω ψ Unit) := by
    intro items
    induction items with
    | nil => exact fun _ => hkeeps.pure _
    | cons item items ih =>
      intro hmem
      refine hkeeps.bind (fun client => reading_handlePayload (fun response heq => ?_) now route _)
        fun _ => ih fun response hresponse => hmem response (List.mem_cons_of_mem _ hresponse)
      have hitem : item = .pullResponse response := by
        cases item <;> cases heq
        rfl
      exact hmem response (hitem ▸ List.mem_cons_self)
  cases hpayload : route.payload
  case batch items =>
    rw [handleRoutePayload, hpayload]
    refine hitems items (fun response hmem => hresponses response ?_) client
    rw [hpayload, RoutePayload.pullResponses, List.mem_filterMap]
    exact ⟨_, hmem, rfl⟩
  all_goals
    rw [handleRoutePayload, hpayload]
    refine reading_handlePayload (fun response heq => hresponses response ?_) now route client
    rw [hpayload, heq]
    exact List.mem_singleton_self response

omit [ContentHash ρ β] [ErrorBody β] [SignatureScheme AuthTranscript] in
/-- Responses are accepted one after the other, up to the first error. -/
theorem reading_forM_acceptPullResponse {responses : List (PullResponse β)}
    (hresponses : ∀ response ∈ responses, response.requestId = requestId)
    (client : RelayClient δ ρ β ω ψ) :
    ((responses.forM acceptPullResponse : Step δ ρ β ω ψ Unit) client).2.reading requestId =
      responses.foldl (takeResponse δ) (client.reading requestId) := by
  induction responses generalizing client with
  | nil => rfl
  | cons response responses ih =>
    have hid := hresponses response List.mem_cons_self
    have hreading := reading_acceptPullResponse client response requestId
    rw [if_pos hid] at hreading
    rw [List.foldl_cons, ← hreading, Effect.forM_cons]
    rcases hrun : acceptPullResponse response client with ⟨_ | _, after⟩
    · -- an error drops the rest, which would not be gathered either
      rw [Effect.bind_error hrun]
      have hnone := reading_of_error hrun
      rw [hid] at hnone
      rcases hafter : after.reading requestId with ⟨gathered, answers⟩
      obtain rfl : gathered = none := by rw [← hnone, hafter]
      exact (foldl_takeResponse_none answers responses).symm
    · rw [Effect.bind_ok hrun]
      exact ih (fun response hmem => hresponses response (List.mem_cons_of_mem _ hmem)) after

private theorem reading_of_responses {route : RouteEnvelope ρ β} {responses : List (PullResponse β)}
    (hroute : route.payload = .ofChunk (responses.map .pullResponse))
    (hresponses : ∀ response ∈ responses, response.requestId = requestId) (now : ℕ)
    (client : RelayClient δ ρ β ω ψ) :
    (handleRoutePayload now route client).2.reading requestId =
      responses.foldl (takeResponse δ) (client.reading requestId) := by
  have hitems : ∀ responses : List (PullResponse β),
      ((responses.map .pullResponse).forM fun item =>
        handlePayload now route (.fromBatchItem item) : Step δ ρ β ω ψ Unit) =
          responses.forM acceptPullResponse := by
    intro responses
    induction responses with
    | nil => rfl
    | cons response responses ih =>
      rw [List.map_cons, Effect.forM_cons, Effect.forM_cons, ih]
      rfl
  have haccept : (handleRoutePayload now route : Step δ ρ β ω ψ Unit) =
      responses.forM acceptPullResponse := by
    rw [handleRoutePayload, hroute]
    rcases responses with _ | ⟨response, _ | ⟨next, responses⟩⟩
    · rfl
    · exact (Effect.forM_singleton _ _).symm
    · exact hitems (response :: next :: responses)
  rw [haccept]
  exact reading_forM_acceptPullResponse hresponses client

end Unpacking

/-! ## Numbered responses -/

section Numbered

/-- Before the place that the total number gives in 32 bits no response is final. -/
theorem not_final {index total : ℕ} (h : index < asU32 total - 1) :
    ((index + 1 == total) || decide (asU32 index + 1 ≥ asU32 total)) = false := by
  have hindex : asU32 index = index := Nat.mod_eq_of_lt (by rw [asU32] at h; omega)
  have htotal : asU32 total ≤ total := Nat.mod_le _ _
  rw [hindex, Bool.or_eq_false_iff, beq_eq_false_iff_ne, decide_eq_false_iff_not]
  omega

private theorem final_at (total : ℕ) :
    (((asU32 total - 1) + 1 == total) ||
      decide (asU32 (asU32 total - 1) + 1 ≥ asU32 total)) = true := by
  have hindex : asU32 (asU32 total - 1) = asU32 total - 1 :=
    Nat.mod_eq_of_lt ((Nat.sub_le _ _).trans_lt (Nat.mod_lt _ (by decide)))
  rw [hindex, Bool.or_eq_true, decide_eq_true_iff]
  omega

variable {δ ν τ κ : Type}
  [ClientHost δ PullRequestKind (PullResponseBody ν τ κ) (RemoteResult ν τ κ)
    (PullAccumulator ν τ κ)]

variable (δ) in
/-- The client gathers remote results in accumulators. -/
structure GathersResults : Prop where
  /-- A request starts with the accumulator of its kind. -/
  newAccumulator : ∀ kind,
    ClientHost.newAccumulator (δ := δ) kind = (PullAccumulator.new kind : PullAccumulator ν τ κ)
  /-- Bodies are gathered. -/
  applyResponseBody : ∀ (accumulator : PullAccumulator ν τ κ) body,
    ClientHost.applyResponseBody (δ := δ) accumulator body = accumulator.applyResponseBody body
  /-- The result is taken from the accumulator. -/
  intoResult : ∀ accumulator : PullAccumulator ν τ κ,
    ClientHost.intoResult (δ := δ) accumulator = accumulator.intoResult

/-- What is handed on of an attempt to take the result. -/
def handedOn {ω : Type} : Except PrimadbError ω → List (Except String ω)
  | .ok result => [.ok result]
  | .error _ => []

/-- A body that is no error is gathered, and ends the read if it is final. -/
theorem takeResponse_of_body (hgathers : GathersResults (ν := ν) (τ := τ) (κ := κ) δ)
    {accumulator : PullAccumulator ν τ κ} {response : PullResponse (PullResponseBody ν τ κ)}
    (hbody : (accumulator.applyResponseBody response.result).2 = none) :
    takeResponse δ (some accumulator, []) response =
      if response.done || response.chunk.index + 1 ≥ response.chunk.total then
        (none, handedOn (accumulator.applyResponseBody response.result).1.intoResult)
      else (some (accumulator.applyResponseBody response.result).1, []) := by
  rw [takeResponse]
  dsimp only
  rw [hgathers.applyResponseBody, hbody]
  dsimp only
  rw [hgathers.intoResult]
  split
  · cases (accumulator.applyResponseBody response.result).1.intoResult <;> rfl
  · rfl

/-- The responses are gathered up to the first final one, which hands on what was gathered. -/
theorem foldl_numbered (hgathers : GathersResults (ν := ν) (τ := τ) (κ := κ) δ)
    {bodies : List (PullResponseBody ν τ κ)}
    (hbodies : ∀ body ∈ bodies, ∀ accumulator : PullAccumulator ν τ κ,
      (accumulator.applyResponseBody body).2 = none)
    (requestId : String) (accumulator : PullAccumulator ν τ κ) {k : ℕ} (hk : k ≤ bodies.length) :
    ((numbered requestId bodies).take k).foldl (takeResponse δ) (some accumulator, []) =
      if k ≤ asU32 bodies.length - 1 then (some (accumulator.gather (bodies.take k)), [])
      else (none, handedOn
        (accumulator.gather (bodies.take (asU32 bodies.length - 1 + 1))).intoResult) := by
  induction k with
  | zero => rfl
  | succ k ih =>
    have hget : bodies[k]? = some bodies[k] := List.getElem?_eq_getElem hk
    have hresponse : (numbered requestId bodies)[k]? =
        some (chunkResponse requestId k bodies.length bodies[k]) := by
      rw [numbered, List.getElem?_mapIdx, hget]
      rfl
    have hnext : bodies.take (k + 1) = bodies.take k ++ [bodies[k]] := by
      rw [List.take_add_one, hget]
      rfl
    rw [List.take_add_one, hresponse, Option.toList_some, List.foldl_concat, ih (by omega)]
    have hbody := hbodies bodies[k] (List.getElem_mem hk)
    by_cases hwaits : k ≤ asU32 bodies.length - 1
    · rw [if_pos hwaits, takeResponse_of_body hgathers (hbody _)]
      rcases hwaits.lt_or_eq with hlt | heq
      · rw [if_neg (by rw [chunkResponse]; exact Bool.eq_false_iff.mp (not_final hlt)),
          if_pos (Nat.succ_le_of_lt hlt), hnext, PullAccumulator.gather_concat]
        rfl
      · rw [if_pos (by rw [chunkResponse]; subst heq; exact final_at _), if_neg (by omega),
          ← heq, hnext, PullAccumulator.gather_concat]
        rfl
    · rw [if_neg hwaits, if_neg (by omega)]
      rfl

end Numbered

/-! ## Deliveries -/

section Deliveries

variable {δ ρ β ω ψ : Type}

/-- The routes with responses to the request are these, in this order. -/
def Interleaves (requestId : String) (routes : List (RouteEnvelope ρ β))
    (arrivals : List (ℕ × RouteEnvelope ρ β)) : Prop :=
  (arrivals.filter fun arrival => arrival.2.payload.answers requestId).map (·.2) = routes

variable [ContentHash ρ β] [ClientHost δ ρ β ω ψ] [ErrorBody β] [SignatureScheme AuthTranscript]

/-- Unpack a route that arrives. -/
def deliver (client : RelayClient δ ρ β ω ψ) (arrival : ℕ × RouteEnvelope ρ β) :
    RelayClient δ ρ β ω ψ :=
  (drainPayloads arrival.1 arrival.2 [arrival.2.payload] client).2

variable {requestId : String}

/-- Only the responses to the request count. -/
theorem reading_foldl_deliver {routes : List (RouteEnvelope ρ β)}
    {parts : List (List (PullResponse β))}
    (hroutes : routes.map (·.payload) = parts.map fun part => .ofChunk (part.map .pullResponse))
    (hparts : ∀ part ∈ parts, ∀ response ∈ part, response.requestId = requestId)
    {arrivals : List (ℕ × RouteEnvelope ρ β)} (harrivals : Interleaves requestId routes arrivals)
    (client : RelayClient δ ρ β ω ψ) :
    (arrivals.foldl deliver client).reading requestId =
      parts.flatten.foldl (takeResponse δ) (client.reading requestId) := by
  induction arrivals generalizing routes parts client with
  | nil =>
    obtain rfl : [] = routes := harrivals
    obtain rfl := List.map_eq_nil_iff.mp hroutes.symm
    rfl
  | cons arrival arrivals ih =>
    rw [List.foldl_cons]
    have hdeliver : deliver client arrival = (handleRoutePayload arrival.1 arrival.2 client).2 := by
      rw [deliver, drainPayloads_payload]
    rw [Interleaves, List.filter_cons] at harrivals
    by_cases hanswers : arrival.2.payload.answers requestId = true
    · rw [if_pos hanswers, List.map_cons] at harrivals
      subst harrivals
      cases parts with
      | nil => cases hroutes
      | cons part parts =>
        rw [List.map_cons, List.map_cons, List.cons.injEq] at hroutes
        rw [ih hroutes.2 (fun part hpart => hparts part (List.mem_cons_of_mem _ hpart)) rfl,
          hdeliver, reading_of_responses hroutes.1 (hparts part List.mem_cons_self),
          List.flatten_cons, List.foldl_append]
    · rw [if_neg hanswers] at harrivals
      rw [ih hroutes hparts harrivals, hdeliver,
        reading_of_not_answers (Bool.eq_false_iff.mpr hanswers)]

private theorem reading_of_packed {responses : List (PullResponse β)}
    (hresponses : ∀ response ∈ responses, response.requestId = requestId) {config : RouterConfig}
    {now batchSize : ℕ} {router : RouterInner} {target : RouteTarget} {replyTo : Option String}
    {arrivals : List (ℕ × RouteEnvelope ρ β)}
    (harrivals : Interleaves requestId (config.packBatchRoutes now router target replyTo
      (responses.map .pullResponse) batchSize).1 arrivals) (client : RelayClient δ ρ β ω ψ) :
    (arrivals.foldl deliver client).reading requestId =
      responses.foldl (takeResponse δ) (client.reading requestId) := by
  have hpayloads := config.map_payload_packBatchRoutes now router target replyTo
    (responses.map .pullResponse : List (RouteBatchItem ρ β)) batchSize
  rw [toChunks_map (by omega), List.map_map] at hpayloads
  rw [reading_foldl_deliver hpayloads (fun part hpart response hresponse => ?_) harrivals,
    flatten_toChunks]
  refine hresponses response ?_
  rw [← flatten_toChunks (max batchSize 1) responses]
  exact List.mem_flatten_of_mem hpart hresponse

omit [ClientHost δ ρ β ω ψ] [ErrorBody β] [SignatureScheme AuthTranscript] in
private theorem interleaves_packed {responses : List (PullResponse β)}
    (hresponses : ∀ response ∈ responses, response.requestId = requestId) (config : RouterConfig)
    (now batchSize : ℕ) (router : RouterInner) (target : RouteTarget) (replyTo : Option String) :
    let routes := (config.packBatchRoutes now router target replyTo
      (responses.map .pullResponse : List (RouteBatchItem ρ β)) batchSize).1
    Interleaves requestId routes (routes.map fun route => (now, route)) := by
  intro routes
  have hpayloads := config.map_payload_packBatchRoutes now router target replyTo
    (responses.map .pullResponse : List (RouteBatchItem ρ β)) batchSize
  rw [toChunks_map (by omega), List.map_map] at hpayloads
  have hanswers : ∀ route ∈ routes, route.payload.answers requestId = true := by
    intro route hroute
    have hmem : route.payload ∈ routes.map (·.payload) := List.mem_map_of_mem hroute
    rw [hpayloads] at hmem
    obtain ⟨part, hpart, heq⟩ := List.mem_map.mp hmem
    obtain ⟨response, hresponse⟩ := List.exists_mem_of_ne_nil part
      (ne_nil_of_mem_toChunks (by omega) hpart)
    rw [RoutePayload.answers, ← heq, Function.comp_apply, pullResponses_ofChunk, List.any_eq_true]
    refine ⟨response, hresponse, decide_eq_true (hresponses response ?_)⟩
    rw [← flatten_toChunks (max batchSize 1) responses]
    exact List.mem_flatten_of_mem hpart hresponse
  rw [Interleaves, List.filter_eq_self.mpr, List.map_map]
  · exact List.map_id routes
  · intro arrival harrival
    obtain ⟨route, hroute, rfl⟩ := List.mem_map.mp harrival
    exact hanswers route hroute

end Deliveries

/-! ## Results -/

section Results

variable {δ ν τ κ : Type}
  [ClientHost δ PullRequestKind (PullResponseBody ν τ κ) (RemoteResult ν τ κ)
    (PullAccumulator ν τ κ)]
  [ContentHash PullRequestKind (PullResponseBody ν τ κ)] [ErrorBody (PullResponseBody ν τ κ)]
  [SignatureScheme AuthTranscript]

/-- A client of remote results. -/
abbrev Reader (δ ν τ κ : Type) : Type :=
  RelayClient δ PullRequestKind (PullResponseBody ν τ κ) (RemoteResult ν τ κ)
    (PullAccumulator ν τ κ)

/-- However the responses are packed and whatever arrives in between, the client hands on the
result once, when all responses have arrived, and nothing as long as only the first `k` have. -/
def Reassembles (client : Reader δ ν τ κ) (requestId : String) (result : RemoteResult ν τ κ)
    (limits : ChunkLimits) : Prop :=
  let responses := buildPullResponses requestId result limits
  ∀ (config : RouterConfig) (now batchSize : ℕ) (router : RouterInner) (target : RouteTarget)
      (replyTo : Option String) (k : ℕ) (arrivals : List (ℕ × RouteEnvelope _ _)),
    Interleaves requestId (config.packBatchRoutes now router target replyTo
        ((responses.take k).map .pullResponse) batchSize).1 arrivals →
      ((arrivals.foldl deliver client).reading requestId).2 =
        if k < responses.length then [] else [.ok result]

omit [ClientHost δ PullRequestKind (PullResponseBody ν τ κ) (RemoteResult ν τ κ)
    (PullAccumulator ν τ κ)] [ContentHash PullRequestKind (PullResponseBody ν τ κ)]
  [ErrorBody (PullResponseBody ν τ κ)] [SignatureScheme AuthTranscript] in
private theorem requestId_of_mem (requestId : String) (result : RemoteResult ν τ κ)
    (limits : ChunkLimits) (k : ℕ) {response : PullResponse (PullResponseBody ν τ κ)}
    (h : response ∈ (buildPullResponses requestId result limits).take k) :
    response.requestId = requestId := by
  have hmem := List.mem_of_mem_take h
  rw [buildPullResponses_eq, numbered] at hmem
  obtain ⟨index, hindex, rfl⟩ := List.mem_mapIdx.mp hmem
  rfl

/-- What is handed on after the first `k` responses. -/
theorem answers_of_packed (hgathers : GathersResults (ν := ν) (τ := τ) (κ := κ) δ)
    {client : Reader δ ν τ κ} {requestId : String} {kind : PullRequestKind}
    (hpending : client.reading requestId =
      (some (ClientHost.newAccumulator (δ := δ) kind), []))
    {result : RemoteResult ν τ κ} {limits : ChunkLimits} {config : RouterConfig}
    {now batchSize k : ℕ} {router : RouterInner} {target : RouteTarget} {replyTo : Option String}
    {arrivals : List (ℕ × RouteEnvelope PullRequestKind (PullResponseBody ν τ κ))}
    (harrivals : Interleaves requestId (config.packBatchRoutes now router target replyTo
      (((buildPullResponses requestId result limits).take k).map .pullResponse) batchSize).1
        arrivals)
    (hk : k ≤ result.chunkCount limits) :
    ((arrivals.foldl deliver client).reading requestId).2 =
      if k ≤ asU32 (result.chunkCount limits) - 1 then []
      else handedOn ((PullAccumulator.new kind).gather ((result.bodies limits).take
        (asU32 (result.chunkCount limits) - 1 + 1))).intoResult := by
  rw [reading_of_packed (fun _ => requestId_of_mem requestId result limits k) harrivals, hpending,
    hgathers.newAccumulator, buildPullResponses_eq,
    foldl_numbered hgathers (fun body hbody => RemoteResult.applyResponseBody_snd hbody) _ _
      (by rwa [RemoteResult.length_bodies]), RemoteResult.length_bodies]
  split <;> rfl

/-- A request that waits gets back the result exactly when its accumulator takes results of that
kind and fewer than `2 ^ 32` responses are needed. -/
theorem reassembles_iff (hgathers : GathersResults (ν := ν) (τ := τ) (κ := κ) δ)
    {client : Reader δ ν τ κ} {requestId : String} {kind : PullRequestKind}
    (hpending : client.reading requestId =
      (some (ClientHost.newAccumulator (δ := δ) kind), []))
    (result : RemoteResult ν τ κ) (limits : ChunkLimits) :
    client.Reassembles requestId result limits ↔
      PullAccumulator.takes kind result = true ∧ result.chunkCount limits < 2 ^ 32 := by
  have hlength := length_buildPullResponses requestId result limits
  have hcount : 0 < result.chunkCount limits := by
    cases result <;> simp [RemoteResult.chunkCount]
  have hall : ∀ n, result.chunkCount limits ≤ n →
      (result.bodies limits).take n = result.bodies limits := by
    intro n hn
    rw [List.take_of_length_le]
    rwa [RemoteResult.length_bodies]
  constructor
  · intro hreassembles
    have hanswers : ∀ k ≤ result.chunkCount limits,
        (if k ≤ asU32 (result.chunkCount limits) - 1 then []
          else handedOn ((PullAccumulator.new kind).gather ((result.bodies limits).take
            (asU32 (result.chunkCount limits) - 1 + 1))).intoResult) =
          if k < result.chunkCount limits then [] else [.ok result] := by
      intro k hk
      have hpacked := interleaves_packed (ρ := PullRequestKind)
        (fun _ => requestId_of_mem requestId result limits k) ⟨"", "", 0, 0⟩ 0 0 .new .broadcast
        none
      rw [← answers_of_packed hgathers hpending hpacked hk,
        hreassembles ⟨"", "", 0, 0⟩ 0 0 .new .broadcast none k _ hpacked, hlength]
    have hle : asU32 (result.chunkCount limits) ≤ result.chunkCount limits := Nat.mod_le _ _
    have hlast := hanswers _ le_rfl
    rw [if_neg (by omega), if_neg (lt_irrefl _)] at hlast
    have hfinal : asU32 (result.chunkCount limits) - 1 + 1 = result.chunkCount limits := by
      by_contra hne
      have hearly := hanswers (asU32 (result.chunkCount limits) - 1 + 1) (by omega)
      rw [if_neg (by omega), if_pos (by omega), hlast] at hearly
      cases hearly
    rw [hfinal, hall _ le_rfl] at hlast
    refine ⟨PullAccumulator.takes_of_gather_bodies limits ?_, ?_⟩
    · cases hresult : ((PullAccumulator.new kind).gather (result.bodies limits)).intoResult with
      | ok other =>
        rw [hresult] at hlast
        cases hlast
        rfl
      | error error =>
        rw [hresult] at hlast
        cases hlast
    · rcases Nat.eq_zero_or_pos (asU32 (result.chunkCount limits)) with hzero | hpos
      · rw [hzero] at hfinal
        omega
      · have heq : asU32 (result.chunkCount limits) = result.chunkCount limits := by omega
        rw [← heq]
        exact Nat.mod_lt _ (by decide)
  · rintro ⟨htakes, hlt⟩ config now batchSize router target replyTo k arrivals harrivals
    have hu32 : asU32 (result.chunkCount limits) = result.chunkCount limits := Nat.mod_eq_of_lt hlt
    rw [hlength]
    by_cases hk : k < result.chunkCount limits
    · rw [answers_of_packed hgathers hpending harrivals hk.le, if_pos hk, hu32, if_pos (by omega)]
    · have htake : (buildPullResponses requestId result limits).take k =
          (buildPullResponses requestId result limits).take (result.chunkCount limits) := by
        rw [List.take_of_length_le (by omega), List.take_of_length_le hlength.le]
      rw [htake] at harrivals
      rw [answers_of_packed hgathers hpending harrivals le_rfl, if_neg hk, hu32,
        if_neg (by omega), hall _ (by omega), PullAccumulator.gather_bodies limits htakes]
      rfl

end Results

end RelayClient

/-! ## Samples -/

/-- A database that serves nothing of its own. -/
structure BareDb where

/-- Bodies of bare databases. -/
abbrev BareBody := PullResponseBody Unit Unit Unit

instance : ErrorBody BareBody := ⟨.error⟩

instance : ContentHash PullRequestKind BareBody := ⟨fun _ => none⟩

/-- Results are gathered as they are, and nothing else is done. -/
instance : ClientHost BareDb PullRequestKind BareBody (RemoteResult Unit Unit Unit)
    (PullAccumulator Unit Unit Unit) where
  replicaId _ := "replica"
  allowPeerConnection _ _ _ _ := true
  servePullRequest _ _ _ _ := fun db => (.ok (.error "denied"), db)
  snapshotKind := .snapshot
  snapshotOf
    | .snapshot whole => some whole
    | _ => none
  chunkRemoteResult _ requestId result := buildPullResponses requestId result ⟨64, 64, 256⟩
  authorizeWatchRequest _ _ _ request _ := .ok request
  serveWatchResult _ _ _ _ _ _ := .ok (.error "denied")
  resultHash _ := none
  chunkWatchResult _ _ _ _ _ := []
  loadSnapshot _ := fun db => (.ok (), db)
  applySyncEnvelope _ ops := fun db => (.ok ops.length, db)
  drainSyncEnvelope := fun db => (.ok ("replica", []), db)
  requeuePendingOperations _ := fun db => (.ok (), db)
  signSessionAuthResponse _ _ _ _ _ := .ok none
  encodeSyncPayload _ _ := .error .serde
  decodeSyncPayload _ _ _ := .error .serde
  routeFits _ _ := .ok ()
  maxOpsPerMessage _ := 8
  maxBatchItemsPerRoute _ := 8
  maxActiveRemoteWatches _ := 8
  maxPeerRecommendations _ := 8
  newAccumulator := PullAccumulator.new
  applyResponseBody := PullAccumulator.applyResponseBody
  intoResult := PullAccumulator.intoResult

/-- No transcript is signed. -/
abbrev noneSigned : SignatureScheme AuthTranscript := ⟨fun _ _ _ => .error .serde⟩

/-- A client that waits for the fields of a node. -/
def bareReader : RelayClient.Reader BareDb Unit Unit Unit where
  db := ⟨⟩
  config := { peerId := "p" }
  router := .new
  sessionAuth := {}
  sessionId := "session"
  transport := .webSocket
  connected := true
  nextMessageSeq := 0
  verifiedIdentities := ∅
  pendingAuthChallenges := ∅
  pendingAuthPeers := ∅
  recommendations := ∅
  inflight := ∅
  pendingRequests := (∅ : BTreeMap String _).insert "read" (.map [])
  incomingWatches := ∅
  outgoingWatches := ∅
  random := lowerHex
  drawn := 0
  outbound := []
  applications := []
  pulled := []
  watched := []

private theorem gathersResults_bareDb :
    RelayClient.GathersResults (ν := Unit) (τ := Unit) (κ := Unit) BareDb :=
  ⟨fun _ => rfl, fun _ _ => rfl, fun _ => rfl⟩

private theorem reading_bareReader (path : RemotePath) : bareReader.reading "read" =
    (some (ClientHost.newAccumulator (δ := BareDb) (.map path)), []) := by
  rw [RelayClient.reading, bareReader, BTreeMap.get_insert, if_pos rfl]
  rfl

/-- Two fields in two responses come back. -/
theorem reassembles_iff_bareReader :
    letI := noneSigned
    bareReader.Reassembles "read" (.map [⟨"a", .null⟩, ⟨"b", .null⟩]) ⟨1, 1, 1⟩ := by
  let _ := noneSigned
  refine (RelayClient.reassembles_iff gathersResults_bareDb (reading_bareReader ⟨"n", []⟩) _ _).mpr
    ⟨rfl, ?_⟩
  norm_num [RemoteResult.chunkCount, Nat.ceilDiv_eq_add_pred_div]

/-- A result in `2 ^ 32` responses is taken for complete with the first. -/
theorem first_response_completes :
    letI := noneSigned
    let result : RemoteResult Unit Unit Unit := .map (List.replicate (2 ^ 32) ⟨"a", .null⟩)
    let responses := buildPullResponses "read" result ⟨1, 1, 1⟩
    responses.length = 2 ^ 32 ∧
      ∃ arrivals, RelayClient.Interleaves "read" (RouterConfig.packBatchRoutes { peerId := "q" } 0
          .new .broadcast none ((responses.take 1).map .pullResponse) 32).1 arrivals ∧
        ((arrivals.foldl RelayClient.deliver bareReader).reading "read").2 =
          [.ok (.map [⟨"a", .null⟩])] := by
  let _ := noneSigned
  intro result responses
  have hcount : result.chunkCount ⟨1, 1, 1⟩ = 2 ^ 32 := by
    norm_num [result, RemoteResult.chunkCount, Nat.ceilDiv_eq_add_pred_div]
  have hpacked := RelayClient.interleaves_packed (ρ := PullRequestKind)
    (fun _ => RelayClient.requestId_of_mem "read" result ⟨1, 1, 1⟩ 1) { peerId := "q" } 0 32 .new
    .broadcast none
  refine ⟨(length_buildPullResponses _ _ _).trans hcount, _, hpacked, ?_⟩
  have hfirst : (result.bodies ⟨1, 1, 1⟩).take 1 = [.map [⟨"a", .null⟩]] := by
    obtain ⟨n, hn⟩ : ∃ n, 2 ^ 32 = n + 1 + 1 := ⟨2 ^ 32 - 2, by norm_num⟩
    have hentries : List.replicate (2 ^ 32) (⟨"a", .null⟩ : MapEntry) =
        [⟨"a", .null⟩] ++ ([⟨"a", .null⟩] ++ List.replicate n ⟨"a", .null⟩) := by
      rw [hn, List.replicate_succ, List.replicate_succ]
      rfl
    simp only [result, RemoteResult.bodies, hentries, max_self]
    rw [toChunks_append one_ne_zero rfl, toChunks_append one_ne_zero rfl]
    rfl
  have hu32 : asU32 (2 ^ 32) - 1 = 0 := by norm_num [asU32]
  rw [RelayClient.answers_of_packed gathersResults_bareDb (reading_bareReader ⟨"n", []⟩) hpacked
    (by rw [hcount]; norm_num), hcount, hu32, if_neg (by norm_num), hfirst]
  rfl

end Primadb

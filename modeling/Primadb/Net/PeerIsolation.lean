import Primadb.Core.Run
import Primadb.Net.Reassembly

/-!
# What peers can do to each other's requests

Watches that a client serves are kept in one table under the ids the watching peers chose, and
answers to its own requests are matched by the id of the request alone. Peers are kept apart as
long as they do not use each other's ids.
-/

namespace Primadb.RelayClient

variable {δ ρ β ω ψ : Type}

/-! ## Watches served to several peers -/

section Served

/-- The watches of a peer, with what they watch and their counters, are the same. -/
def SameWatchesOf (peerId : String) (before after : RelayClient δ ρ β ω ψ) : Prop :=
  ∀ (watchId : String) (watch : IncomingWatch ρ), watch.targetPeerId = peerId →
    (after.incomingWatches[watchId]? = some watch ↔ before.incomingWatches[watchId]? = some watch)

/-- No watch changes but the one named, which stays with its peer or ends. -/
def ChangesOnly (watchId : String) (before after : RelayClient δ ρ β ω ψ) : Prop :=
  (∀ other, other ≠ watchId → after.incomingWatches[other]? = before.incomingWatches[other]?) ∧
    ∀ watch, after.incomingWatches[watchId]? = some watch →
      ∃ earlier, before.incomingWatches[watchId]? = some earlier ∧
        earlier.targetPeerId = watch.targetPeerId

variable {watchId : String}

private theorem composes_changesOnly :
    Effect.Composes (ChangesOnly (δ := δ) (ρ := ρ) (β := β) (ω := ω) (ψ := ψ) watchId) where
  refl _ := ⟨fun _ _ => rfl, fun watch h => ⟨watch, h, rfl⟩⟩
  trans := by
    rintro first second third ⟨hothers, hnamed⟩ ⟨hothers', hnamed'⟩
    refine ⟨fun other hne => (hothers' other hne).trans (hothers other hne), fun watch hwatch => ?_⟩
    obtain ⟨middle, hmiddle, hsame⟩ := hnamed' watch hwatch
    obtain ⟨earlier, hearlier, hsame'⟩ := hnamed middle hmiddle
    exact ⟨earlier, hearlier, hsame'.trans hsame⟩

private theorem ChangesOnly.of_eq {before after : RelayClient δ ρ β ω ψ}
    (h : after.incomingWatches = before.incomingWatches) : ChangesOnly watchId before after := by
  rw [ChangesOnly, h]
  exact composes_changesOnly.refl before

variable [ContentHash ρ β] [ClientHost δ ρ β ω ψ]

omit [ContentHash ρ β] in
private theorem incomingWatches_sendRoute (route : RouteEnvelope ρ β)
    (client : RelayClient δ ρ β ω ψ) :
    (sendRoute route client).2.incomingWatches = client.incomingWatches := by
  rw [sendRoute_apply]
  split
  · rfl
  · split <;> rfl

variable [ErrorBody β]

private theorem incomingWatches_sendWatchError (now : ℕ) (named peerId : String) (sequence : ℕ)
    (initial : Bool) (message : String) (client : RelayClient δ ρ β ω ψ) :
    (sendWatchError now named peerId sequence initial message client).2.incomingWatches =
      client.incomingWatches :=
  incomingWatches_sendRoute _ _

omit [ErrorBody β] in
private theorem changesOnly_sendBatches (now : ℕ) (target : RouteTarget) (replyTo : Option String)
    (items : List (RouteBatchItem ρ β)) :
    Effect.Keeps (ChangesOnly watchId) (sendBatches now target replyTo items :
      Step δ ρ β ω ψ Unit) :=
  composes_changesOnly.bind (fun _ => .of_eq rfl) fun _ =>
    composes_changesOnly.forM
      (fun route client => .of_eq (incomingWatches_sendRoute route client)) _

private theorem changesOnly_emitSingle (now : ℕ) (watchId : String) (initial : Bool) :
    Effect.Keeps (ChangesOnly watchId) (emitSingleIncomingWatchUpdate now watchId initial :
      Step δ ρ β ω ψ Bool) := by
  refine composes_changesOnly.bind composes_changesOnly.get fun client => ?_
  cases client.incomingWatches[watchId]? with
  | none => exact composes_changesOnly.pure false
  | some watch =>
    refine composes_changesOnly.bind (composes_changesOnly.ofExcept _) fun answer => ?_
    cases answer with
    | refused message =>
      refine composes_changesOnly.bind
        (fun client => .of_eq (incomingWatches_sendWatchError now _ _ _ _ _ client)) fun _ => ?_
      refine composes_changesOnly.bind (fun client => ⟨fun other hne => ?_, fun watch h => ?_⟩)
        fun _ => composes_changesOnly.pure true
      · exact (BTreeMap.get_erase ..).trans (if_neg (Ne.symm hne))
      · exact absurd ((BTreeMap.get_erase ..).symm.trans h) (by simp)
    | unchanged => exact composes_changesOnly.pure false
    | updated events contentHash =>
      refine composes_changesOnly.bind (changesOnly_sendBatches now _ _ _) fun _ => ?_
      refine composes_changesOnly.bind (fun client => ?_) fun _ => composes_changesOnly.pure true
      cases hentry : client.incomingWatches[watchId]? with
      | none =>
        refine .of_eq ?_
        simp only [Effect.modify, hentry]
      | some entry =>
        simp only [Effect.modify, ChangesOnly, hentry, BTreeMap.get_insert]
        refine ⟨fun other hne => if_neg (Ne.symm hne), fun watch h => ⟨entry, rfl, ?_⟩⟩
        rw [if_pos trivial, Option.some.injEq] at h
        rw [← h, IncomingWatch.sent]

/-- The client turns a subscription away: the peer is not authenticated, or not allowed to
watch. -/
def TurnsAway (client : RelayClient δ ρ β ω ψ) (sender : String) (request : WatchRequest ρ) :
    Prop :=
  match request.request with
  | .subscribe incoming =>
    client.refuses sender = true ∨
      ∃ message, ClientHost.authorizeWatchRequest client.db sender request.watchId incoming
        (client.verifiedIdentityForPeer sender) = .error message
  | .cancel => False

/-- A request is turned away, or its watch is then nobody's but the sender's. -/
theorem handleWatchRequest_cases (now : ℕ) (sender : String) (request : WatchRequest ρ)
    (client : RelayClient δ ρ β ω ψ) :
    let after := (handleWatchRequest now sender request client).2
    ((client.TurnsAway sender request ∨ client.incomingWatches[request.watchId]? = none) ∧
        after.incomingWatches = client.incomingWatches) ∨
      (¬client.TurnsAway sender request ∧
        (∀ other, other ≠ request.watchId →
          after.incomingWatches[other]? = client.incomingWatches[other]?) ∧
        ∀ watch, after.incomingWatches[request.watchId]? = some watch →
          watch.targetPeerId = sender) := by
  rcases request with ⟨named, incoming | _⟩
  all_goals
    rw [handleWatchRequest, Effect.get_bind]
    dsimp only [TurnsAway]
  · split
    · rename_i hrefuses
      exact .inl ⟨.inl (.inl hrefuses), incomingWatches_sendWatchError now _ _ _ _ _ client⟩
    · rename_i hserves
      cases hauthorize : ClientHost.authorizeWatchRequest client.db sender named incoming
        (client.verifiedIdentityForPeer sender) with
      | error message =>
        exact .inl ⟨.inl (.inr ⟨message, rfl⟩),
          incomingWatches_sendWatchError now _ _ _ _ _ client⟩
      | ok requestKind =>
        dsimp only
        split
        · rename_i hlimit
          exact .inl ⟨.inr (Std.ExtTreeMap.getElem?_eq_none hlimit.2), rfl⟩
        · have hemit : ChangesOnly named
              { client with
                incomingWatches := client.incomingWatches.insert named
                  ⟨sender, requestKind, 0, none⟩ } _ :=
            composes_changesOnly.bind (changesOnly_emitSingle now named true)
              (fun _ => composes_changesOnly.pure ()) _
          refine .inr ⟨fun h => ?_, fun other hne => ?_, fun watch hwatch => ?_⟩
          · rcases h with hrefuses | ⟨message, hmessage⟩
            · exact hserves hrefuses
            · cases hmessage
          · exact (hemit.1 other hne).trans
              ((BTreeMap.get_insert ..).trans (if_neg (Ne.symm hne)))
          · obtain ⟨earlier, hearlier, hsame⟩ := hemit.2 watch hwatch
            rw [BTreeMap.get_insert, if_pos rfl] at hearlier
            rw [← hsame, ← Option.some.inj hearlier]
  · refine .inr ⟨id, fun other hne => (BTreeMap.get_erase ..).trans (if_neg (Ne.symm hne)),
      fun watch hwatch => ?_⟩
    exact absurd ((BTreeMap.get_erase ..).symm.trans hwatch) (by simp)

/-- A request of one peer leaves the watches of another alone if and only if it does not name one
of them, or is a subscription that is turned away. -/
theorem watches_apart_iff {p q : String} (hne : p ≠ q) (now : ℕ) (request : WatchRequest ρ)
    (client : RelayClient δ ρ β ω ψ) :
    SameWatchesOf q client (handleWatchRequest now p request client).2 ↔
      ∀ watch, client.incomingWatches[request.watchId]? = some watch → watch.targetPeerId = q →
        client.TurnsAway p request := by
  have hcases := handleWatchRequest_cases now p request client
  dsimp only at hcases
  constructor
  · intro hsame watch hwatch howner
    rcases hcases with ⟨hturned | hnone, -⟩ | ⟨-, -, hsender⟩
    · exact hturned
    · rw [hwatch] at hnone
      cases hnone
    · have hkept := (hsame request.watchId watch howner).mpr hwatch
      exact absurd ((hsender watch hkept).symm.trans howner) hne
  · intro hfree watchId watch howner
    rcases hcases with ⟨-, hsame⟩ | ⟨hserved, hothers, hsender⟩
    · rw [hsame]
    · by_cases hnamed : watchId = request.watchId
      · subst hnamed
        constructor
        · intro hafter
          exact absurd ((hsender watch hafter).symm.trans howner) hne
        · intro hbefore
          exact absurd (hfree watch hbefore howner) hserved
      · rw [hothers watchId hnamed]

end Served

/-! ## Answers to requests -/

section Asking

variable [ContentHash ρ β] [ClientHost δ ρ β ω ψ]

/-- `request_remote_result` up to its wait for the answer: the id of the request. -/
def requestRemoteResult (now : ℕ) (targetPeerId : String) (requestKind : ρ) :
    Step δ ρ β ω ψ String := do
  let client ← Effect.get
  if client.connected then do
    let seq := client.nextMessageSeq + 1
    let requestId := ClientHost.replicaId client.db ++ "/pull/" ++ lowerHex seq
    Effect.modify fun client =>
      { client with
        nextMessageSeq := seq
        pendingRequests := client.pendingRequests.insert requestId
          (ClientHost.newAccumulator (δ := δ) requestKind) }
    let route ← wrap now (.pullRequest ⟨requestId, requestKind⟩) (.peer targetPeerId) none
    fun client =>
      match sendRoute route client with
      | (.ok (), client) => (.ok requestId, client)
      | (.error error, client) =>
        (.error error, { client with pendingRequests := client.pendingRequests.erase requestId })
  else Effect.fail (.message "native websocket is not connected")

end Asking

/-! ### One watch -/

section Watching

/-- A watch held elsewhere, and the results handed on for it. -/
def watching (client : RelayClient δ ρ β ω ψ) (watchId : String) :
    Option (OutgoingWatch ρ ψ) × List (Except String (Bool × ω)) :=
  (client.outgoingWatches[watchId]?, (client.watched.filter (·.1 = watchId)).map (·.2))

variable [ClientHost δ ρ β ω ψ]

/-- Take an event of the watch. -/
def takeEvent (d : δ) (watching : Option (OutgoingWatch ρ ψ) × List (Except String (Bool × ω)))
    (event : WatchEvent β) : Option (OutgoingWatch ρ ψ) × List (Except String (Bool × ω)) :=
  match watching.1 with
  | none => watching
  | some watch =>
    let taken := takeWatchEvent d ((∅ : BTreeMap String _).insert event.watchId watch) event
    (taken.2.1[event.watchId]?, watching.2 ++ taken.2.2.map (·.2))

/-- What an event does to its watch, and what is handed on, depends on the watch alone. -/
theorem takeWatchEvent_local (d : δ) (watch : OutgoingWatch ρ ψ) (event : WatchEvent β) :
    ∃ (next : Option (OutgoingWatch ρ ψ)) (handed : List (Except String (Bool × ω))),
      ∀ (db : δ) (watches : BTreeMap String (OutgoingWatch ρ ψ)),
        watches[event.watchId]? = some watch →
        (∀ watchId, (takeWatchEvent db watches event).2.1[watchId]? =
          if event.watchId = watchId then next else watches[watchId]?) ∧
        (takeWatchEvent db watches event).2.2 = handed.map (event.watchId, ·) := by
  have hpending : ∀ db, watch.pendingFor db event = watch.pendingFor d event := fun _ => rfl
  by_cases hold : watch.lastDeliveredSequence.any (event.sequence ≤ ·) ∨
      watch.pendingSequence.any (event.sequence < ·.sequence)
  · refine ⟨some watch, [], fun db watches hwatch => ?_⟩
    simp only [takeWatchEvent, hwatch, if_pos hold, List.map_nil, and_true]
    intro watchId
    split
    · rename_i heq
      rw [← heq, hwatch]
    · rfl
  rcases hbody : ClientHost.applyResponseBody δ (watch.pendingFor d event).accumulator
    event.result with ⟨accumulator, _ | message⟩
  · by_cases hdone : event.done = true ∨ event.chunk.total ≤ event.chunk.index + 1
    · cases hresult : ClientHost.intoResult δ accumulator with
      | error error =>
        refine ⟨some { watch with pendingSequence := none }, [], fun db watches hwatch => ?_⟩
        simp only [takeWatchEvent, hwatch, if_neg hold, hpending db, hbody, if_pos hdone, hresult]
        exact ⟨fun _ => BTreeMap.get_insert .., rfl⟩
      | ok result =>
        refine ⟨some { watch with
            lastDeliveredSequence := some event.sequence
            pendingSequence := none },
          [.ok ((watch.pendingFor d event).initial, result)], fun db watches hwatch => ?_⟩
        simp only [takeWatchEvent, hwatch, if_neg hold, hpending db, hbody, if_pos hdone, hresult]
        exact ⟨fun _ => BTreeMap.get_insert .., rfl⟩
    · refine ⟨some { watch with
          pendingSequence := some { watch.pendingFor d event with accumulator := accumulator } },
        [], fun db watches hwatch => ?_⟩
      simp only [takeWatchEvent, hwatch, if_neg hold, hpending db, hbody, if_neg hdone]
      exact ⟨fun _ => BTreeMap.get_insert .., rfl⟩
  · refine ⟨none, [.error message], fun db watches hwatch => ?_⟩
    simp only [takeWatchEvent, hwatch, if_neg hold, hpending db, hbody]
    exact ⟨fun _ => BTreeMap.get_erase .., rfl⟩

private theorem watching_acceptWatchEvent (d : δ) (client : RelayClient δ ρ β ω ψ)
    (event : WatchEvent β) (watchId : String) :
    (acceptWatchEvent event client).2.watching watchId =
      if event.watchId = watchId then takeEvent d (client.watching watchId) event
      else client.watching watchId := by
  rw [acceptWatchEvent, watching]
  cases hwatch : client.outgoingWatches[event.watchId]? with
  | none =>
    simp only [takeWatchEvent, hwatch, List.append_nil]
    split
    · rename_i heq
      rw [watching, ← heq, hwatch, takeEvent]
    · rfl
  | some watch =>
    obtain ⟨next, handed, hlocal⟩ := takeWatchEvent_local (ω := ω) d watch event
    obtain ⟨htable, hhanded⟩ := hlocal client.db _ hwatch
    obtain ⟨htable', hhanded'⟩ := hlocal d ((∅ : BTreeMap String _).insert event.watchId watch)
      (by rw [BTreeMap.get_insert, if_pos rfl])
    dsimp only
    rw [htable, hhanded, List.filter_append, List.map_append]
    by_cases heq : event.watchId = watchId
    · subst heq
      have hown : ((handed.map (event.watchId, ·)).filter fun entry =>
          entry.1 = event.watchId) = handed.map (event.watchId, ·) :=
        List.filter_eq_self.mpr (by simp)
      rw [hown]
      simp only [if_true, takeEvent, watching, hwatch, htable', hhanded']
    · simp [heq, watching]

end Watching

/-! ### Runs of routes -/

section Routes

variable [ContentHash ρ β] [ClientHost δ ρ β ω ψ] [ErrorBody β] [SignatureScheme AuthTranscript]

/-- What a route carries. -/
def carried (route : RouteEnvelope ρ β) : List (RoutePayload ρ β) :=
  match route.payload with
  | .batch items => items.map .fromBatchItem
  | payload => [payload]

/-- A route arrives at a time. -/
def receive (client : RelayClient δ ρ β ω ψ) (arrival : ℕ × RouteEnvelope ρ β) :
    RelayClient δ ρ β ω ψ := (handleRouteEnvelope arrival.1 arrival.2 client).2

/-- A part of the client's state that moves only with some of the payloads. -/
structure Follows {τ ι : Type} (π : RelayClient δ ρ β ω ψ → τ)
    (pick : RoutePayload ρ β → Option ι) (take : τ → ι → τ) : Prop where
  /-- The router does not show. -/
  router : ∀ client router, π { client with router := router } = π client
  /-- A payload that is picked is taken, others leave the part alone. -/
  payload : ∀ now route payload client, π (handlePayload now route payload client).2 =
    ((pick payload).map (take (π client))).getD (π client)

namespace Follows

variable {τ ι : Type} {π : RelayClient δ ρ β ω ψ → τ} {pick : RoutePayload ρ β → Option ι}
  {take : τ → ι → τ}

private theorem forM (h : Follows π pick take) (now : ℕ) (route : RouteEnvelope ρ β)
    (payloads : List (RoutePayload ρ β)) (client : RelayClient δ ρ β ω ψ) :
    ∃ n, π ((payloads.forM (handlePayload now route) : Step δ ρ β ω ψ Unit) client).2 =
      ((payloads.take n).filterMap pick).foldl take (π client) := by
  have hfold : ∀ (payload : RoutePayload ρ β) (rest : List (RoutePayload ρ β)) (value : τ),
      ((payload :: rest).filterMap pick).foldl take value =
        (rest.filterMap pick).foldl take (((pick payload).map (take value)).getD value) := by
    intro payload rest value
    cases hpick : pick payload <;> simp [hpick]
  induction payloads generalizing client with
  | nil => exact ⟨0, rfl⟩
  | cons payload payloads ih =>
    have hfirst := h.payload now route payload client
    rw [Effect.forM_cons]
    rcases hrun : handlePayload now route payload client with ⟨_ | _, after⟩
    all_goals rw [hrun] at hfirst
    · refine ⟨1, ?_⟩
      rw [Effect.bind_error hrun, List.take_succ_cons, List.take_zero, hfold]
      exact hfirst
    · obtain ⟨n, hn⟩ := ih after
      refine ⟨n + 1, ?_⟩
      rw [Effect.bind_ok hrun, List.take_succ_cons, hfold, ← hfirst]
      exact hn

/-- A route moves the part by a first portion of what it carries. -/
theorem receive (h : Follows π pick take) (client : RelayClient δ ρ β ω ψ)
    (arrival : ℕ × RouteEnvelope ρ β) :
    ∃ n, π (receive client arrival) =
      (((carried arrival.2).take n).filterMap pick).foldl take (π client) := by
  obtain ⟨now, route⟩ := arrival
  have hitems : ∀ items : List (RouteBatchItem ρ β),
      ((items.map .fromBatchItem).forM (handlePayload now route) : Step δ ρ β ω ψ Unit) =
        items.forM fun item => handlePayload now route (.fromBatchItem item) := by
    intro items
    induction items with
    | nil => rfl
    | cons item items ih => rw [List.map_cons, Effect.forM_cons, Effect.forM_cons, ih]
  have hpayload : ((carried route).forM (handlePayload now route) : Step δ ρ β ω ψ Unit) =
      handleRoutePayload now route := by
    rw [carried, handleRoutePayload]
    cases route.payload
    case batch items => exact hitems items
    all_goals exact Effect.forM_singleton _ _
  rw [RelayClient.receive, handleRouteEnvelope]
  cases hdeliver : (client.config.accept now client.router route).1.deliver with
  | false =>
    refine ⟨0, ?_⟩
    simp only [Effect.bind_apply, Effect.lift, hdeliver]
    exact h.router client _
  | true =>
    obtain ⟨n, hn⟩ := h.forM now route (carried route)
      { client with router := (client.config.accept now client.router route).2 }
    rw [hpayload] at hn
    have hrouter := h.router client (client.config.accept now client.router route).2
    refine ⟨n, ?_⟩
    simp only [Effect.bind_apply, Effect.lift, hdeliver, if_true]
    exact hn.trans (by rw [hrouter])

/-- Where only one peer sends what is picked, the part is put together from its routes alone. -/
theorem run (h : Follows π pick take) {peerId : String} {arrivals : List (ℕ × RouteEnvelope ρ β)}
    (honest : ∀ arrival ∈ arrivals, arrival.2.sender ≠ peerId →
      ∀ payload ∈ carried arrival.2, pick payload = none) (client : RelayClient δ ρ β ω ψ) :
    ∃ taken : List ι, taken.Sublist ((arrivals.filter (·.2.sender = peerId)).flatMap fun arrival =>
        (carried arrival.2).filterMap pick) ∧
      π (arrivals.foldl RelayClient.receive client) = taken.foldl take (π client) := by
  induction arrivals generalizing client with
  | nil => exact ⟨[], List.Sublist.slnil, rfl⟩
  | cons arrival arrivals ih =>
    obtain ⟨n, hn⟩ := h.receive client arrival
    obtain ⟨taken, hsub, htaken⟩ := ih (fun other hother =>
      honest other (List.mem_cons_of_mem _ hother)) (RelayClient.receive client arrival)
    rw [List.foldl_cons, htaken, hn, ← List.foldl_append]
    refine ⟨_, ?_, rfl⟩
    by_cases hsender : arrival.2.sender = peerId
    · rw [List.filter_cons_of_pos (by simpa using hsender), List.flatMap_cons]
      exact ((List.take_sublist _ _).filterMap _).append hsub
    · rw [List.filter_cons_of_neg (by simpa using hsender), List.filterMap_eq_nil_iff.mpr]
      · exact hsub
      · exact fun payload hpayload => honest arrival List.mem_cons_self hsender payload
          (List.mem_of_mem_take hpayload)

end Follows

omit [ContentHash ρ β] [ErrorBody β] [SignatureScheme AuthTranscript] in
/-- A response leaves the watches alone. -/
theorem watching_acceptPullResponse (response : PullResponse β) (client : RelayClient δ ρ β ω ψ)
    (watchId : String) :
    (acceptPullResponse response client).2.watching watchId = client.watching watchId := by
  cases hpending : client.pendingRequests[response.requestId]? with
  | none =>
    rw [acceptPullResponse, Effect.get_bind, hpending]
    rfl
  | some accumulator =>
    rw [acceptPullResponse_eq hpending]
    dsimp only [withReads]
    split
    · rfl
    · split
      · split <;> rfl
      · rfl

/-- The response to a request, if the payload is one. -/
def responseTo (requestId : String) : RoutePayload ρ β → Option (PullResponse β)
  | .pullResponse response => if response.requestId = requestId then some response else none
  | _ => none

/-- The event of a watch, if the payload is one. -/
def eventOf (watchId : String) : RoutePayload ρ β → Option (WatchEvent β)
  | .watchEvent event => if event.watchId = watchId then some event else none
  | _ => none

/-- What was gathered for a request moves only with its responses. -/
theorem follows_reading (requestId : String) :
    Follows (δ := δ) (ρ := ρ) (β := β) (ω := ω) (ψ := ψ) (reading · requestId)
      (responseTo requestId) (takeResponse δ) where
  router _ _ := rfl
  payload now route payload client := by
    by_cases hresponse : ∃ response, payload = .pullResponse response
    · obtain ⟨response, rfl⟩ := hresponse
      refine (reading_acceptPullResponse client response requestId).trans ?_
      rw [responseTo]
      split <;> rfl
    · rw [reading_handlePayload (fun response heq => absurd ⟨response, heq⟩ hresponse)]
      cases payload
      case pullResponse response => exact absurd ⟨response, rfl⟩ hresponse
      all_goals rfl

/-- A watch moves only with its events. -/
theorem follows_watching (d : δ) (watchId : String) :
    Follows (δ := δ) (ρ := ρ) (β := β) (ω := ω) (ψ := ψ) (watching · watchId)
      (eventOf watchId) (takeEvent d) where
  router _ _ := rfl
  payload now route payload client := by
    by_cases hevent : ∃ event, payload = .watchEvent event
    · obtain ⟨event, rfl⟩ := hevent
      refine (watching_acceptWatchEvent d client event watchId).trans ?_
      rw [eventOf]
      split <;> rfl
    · by_cases hresponse : ∃ response, payload = .pullResponse response
      · obtain ⟨response, rfl⟩ := hresponse
        exact watching_acceptPullResponse response client watchId
      · obtain ⟨-, -, hwatches, hwatched⟩ := SameTables.handlePayload now route
          (fun response heq => hresponse ⟨response, heq⟩)
          (fun event heq => hevent ⟨event, heq⟩) client
        rw [watching, hwatches, hwatched]
        cases payload
        case watchEvent event => exact absurd ⟨event, rfl⟩ hevent
        all_goals rfl

/-- Only `peerId` answers the request of an id and sends events of the watch of the id. -/
def AnsweredBy (peerId askedId : String) (arrivals : List (ℕ × RouteEnvelope ρ β)) : Prop :=
  ∀ arrival ∈ arrivals, arrival.2.sender ≠ peerId → ∀ payload ∈ carried arrival.2,
    responseTo askedId payload = none ∧ eventOf askedId payload = none

/-- Where only the peer that was asked answers, what is gathered and handed on for a request is
assembled from its responses, and for a watch from its events. -/
theorem handed_from_asked {peerId askedId : String} {arrivals : List (ℕ × RouteEnvelope ρ β)}
    (answered : AnsweredBy peerId askedId arrivals) (client : RelayClient δ ρ β ω ψ) :
    (∃ responses : List (PullResponse β),
      responses.Sublist ((arrivals.filter (·.2.sender = peerId)).flatMap fun arrival =>
        (carried arrival.2).filterMap (responseTo askedId)) ∧
      (arrivals.foldl receive client).reading askedId =
        responses.foldl (takeResponse δ) (client.reading askedId)) ∧
    ∃ events : List (WatchEvent β),
      events.Sublist ((arrivals.filter (·.2.sender = peerId)).flatMap fun arrival =>
        (carried arrival.2).filterMap (eventOf askedId)) ∧
      (arrivals.foldl receive client).watching askedId =
        events.foldl (takeEvent client.db) (client.watching askedId) :=
  ⟨(follows_reading askedId).run (fun arrival harrival hsender payload hpayload =>
      (answered arrival harrival hsender payload hpayload).1) client,
    (follows_watching client.db askedId).run (fun arrival harrival hsender payload hpayload =>
      (answered arrival harrival hsender payload hpayload).2) client⟩

end Routes

end Primadb.RelayClient

namespace Primadb

/-- A client that serves a watch of peer `q`. -/
def servingClient : CountingClient :=
  { countingClient "server" {} with
    incomingWatches := (∅ : BTreeMap String (IncomingWatch CountRequest)).insert "w"
      ⟨"q", .count, 3, none⟩ }

/-- A request of peer `p` that names no watch of `q` leaves it alone. -/
theorem watches_apart_servingClient :
    RelayClient.SameWatchesOf "q" servingClient
      (RelayClient.handleWatchRequest 0 "p" ⟨"v", .subscribe .count⟩ servingClient).2 := by
  have hnone : servingClient.incomingWatches["v"]? = none := by decide +kernel
  have hpeers : "p" ≠ "q" := by decide
  rw [RelayClient.watches_apart_iff hpeers]
  intro watch hwatch
  rw [hnone] at hwatch
  cases hwatch

/-- Peer `p` takes over the watch of `q` by subscribing under its id, and ends it by cancelling. -/
theorem watch_taken_over :
    servingClient.incomingWatches["w"]?.map (·.targetPeerId) = some "q" ∧
      (RelayClient.handleWatchRequest 0 "p" ⟨"w", .subscribe .count⟩
        servingClient).2.incomingWatches["w"]?.map (·.targetPeerId) = some "p" ∧
      (RelayClient.handleWatchRequest 0 "p" ⟨"w", .cancel⟩
        servingClient).2.incomingWatches["w"]? = none := by
  decide +kernel

/-- The client has asked peer `p` for the count. -/
def askingClient : CountingClient :=
  (RelayClient.requestRemoteResult 0 "p" .count (countingClient "client" {})).2

/-- A peer answers that the count is 7. -/
def answerOf (sender : String) : ℕ × RouteEnvelope CountRequest CountBody :=
  (0, ⟨"route", sender, "primadb", .peer "client", 6, 0, 0, none, none, [sender],
    .pullResponse ⟨"replica/pull/1", ⟨0, 1⟩, true, .value 7⟩⟩)

/-- What is handed on is the answer of peer `p`. -/
theorem handed_from_asked_peer :
    letI := noneSigned
    ∃ responses : List (PullResponse CountBody),
      responses.Sublist [⟨"replica/pull/1", ⟨0, 1⟩, true, .value 7⟩] ∧
      ([answerOf "p"].foldl RelayClient.receive askingClient).reading "replica/pull/1" =
        responses.foldl (RelayClient.takeResponse CountingDb)
          (askingClient.reading "replica/pull/1") := by
  let _ := noneSigned
  have hanswered : RelayClient.AnsweredBy "p" "replica/pull/1" [answerOf "p"] := by
    intro arrival harrival hsender
    rw [List.mem_singleton.mp harrival] at hsender
    exact absurd rfl hsender
  exact (RelayClient.handed_from_asked hanswered askingClient).1

/-- An answer of peer `q` to what peer `p` was asked is handed on. -/
theorem handed_from_another_peer :
    letI := noneSigned
    askingClient.pulled = [] ∧
      ([answerOf "q"].foldl RelayClient.receive askingClient).pulled.map
        (fun entry => (entry.1, entry.2.toOption)) = [("replica/pull/1", some 7)] := by
  decide +kernel

end Primadb

import Primadb.Net.Route

/-!
# The relay client

The client of a database on a relay handles the routes its router delivers: it publishes
application messages, serves remote reads and watches, applies sync frames and answers
challenges. What it asks of the database and of the encoding of remote reads is a class.
A route is handled at one clock reading; random tokens come from a stream in the state.
-/

namespace Primadb

/-- The transport of a route session. -/
inductive RouteTransportKind where
  | webSocket
  | moq
  | webRtc
  | broadcastChannel
  | inMemory
  deriving DecidableEq

/-- `ApplicationRouteAuthStatus`. -/
inductive ApplicationRouteAuthStatus where
  | unknown
  | notRequired
  | unauthenticated
  | authenticated
  | requiredButMissing
  deriving DecidableEq

/-- How an application message came. -/
structure ApplicationRouteContext where
  /-- Peer it is said to be from. -/
  sourcePeerId : String
  transport : RouteTransportKind
  /-- Whether it came over a channel of its own. -/
  direct : Bool := false
  /-- Whether it came through a relay. -/
  relayRouted : Bool := false
  /-- Whether the source is verified. -/
  authStatus : ApplicationRouteAuthStatus
  deriving DecidableEq

/-- `with_verified_identity`. -/
def ApplicationRouteContext.withVerifiedIdentity (sourcePeerId : String)
    (transport : RouteTransportKind) (identity : Option VerifiedIdentity)
    (requireAuthenticated : Bool) : ApplicationRouteContext where
  sourcePeerId := sourcePeerId
  transport := transport
  authStatus :=
    if identity.isSome then .authenticated
    else if requireAuthenticated then .requiredButMissing
    else .notRequired

/-- An application message as it is published. -/
structure ApplicationRouteEvent where
  /-- Name of the route. -/
  routeId : String
  /-- Sender of the route. -/
  sender : String
  channel : String
  /-- For whom it is. -/
  target : RouteTarget
  /-- When it was issued. -/
  issuedAtMillis : ℕ
  /-- When it was received. -/
  receivedAtMillis : ℕ
  transport : RouteTransportKind
  /-- The verified identity it is published under. -/
  verifiedIdentity : Option VerifiedIdentity
  /-- How it came. -/
  context : ApplicationRouteContext
  message : ApplicationRouteMessage
  deriving DecidableEq

/-- A sync frame that waits for its acknowledgement. -/
structure OutboundSync where
  encoding : String
  /-- The encoded frame. -/
  payload : JsonValue
  /-- For whom it is. -/
  target : RouteTarget
  deriving DecidableEq

/-- A watch the client serves. -/
structure IncomingWatch (ρ : Type) where
  /-- The peer that watches. -/
  targetPeerId : String
  /-- What it watches. -/
  requestKind : ρ
  /-- Number of the next result. -/
  nextSequence : ℕ
  /-- Hash of the last result. -/
  lastHash : Option String
  deriving DecidableEq

/-- A result of a watch that came in part. -/
structure PendingWatchSequence (ψ : Type) where
  /-- Its number. -/
  sequence : ℕ
  /-- Whether it is the first since the subscription. -/
  initial : Bool
  /-- What came. -/
  accumulator : ψ
  deriving DecidableEq

/-- A watch the client holds at another peer. -/
structure OutgoingWatch (ρ ψ : Type) where
  /-- The peer that serves it. -/
  targetPeerId : String
  /-- What is watched. -/
  requestKind : ρ
  /-- Number of the last result handed on. -/
  lastDeliveredSequence : Option ℕ
  /-- The result that is coming. -/
  pendingSequence : Option (PendingWatchSequence ψ)
  deriving DecidableEq

/-- What a client asks of its database, of type `δ`, and of the encoding of remote reads, with
requests `ρ`, bodies `β`, results `ω` and accumulators `ψ`. -/
class ClientHost (δ : Type) (ρ β ω ψ : outParam Type) where
  replicaId : δ → String
  allowPeerConnection : δ → PeerPresence → Option String → Option VerifiedIdentity → Bool
  /-- `serve_pull_request_for_peer`: a result, or the message of a refusal. -/
  servePullRequest : String → String → ρ → Option VerifiedIdentity →
    Effect δ PrimadbError (Except String ω)
  /-- The request for a snapshot. -/
  snapshotKind : Option String → ρ
  /-- The snapshot of a result. -/
  snapshotOf : ω → Option DatabaseSnapshot
  chunkRemoteResult : δ → String → ω → List (PullResponse β)
  /-- `authorize_watch_request_for_peer`. -/
  authorizeWatchRequest : δ → String → String → ρ → Option VerifiedIdentity → Except String ρ
  /-- `serve_watch_result_for_peer`. -/
  serveWatchResult : δ → String → String → ρ → Bool → Option VerifiedIdentity →
    Except PrimadbError (Except String ω)
  /-- `stable_content_hash` of a result. -/
  resultHash : ω → Option String
  chunkWatchResult : δ → String → ℕ → Bool → ω → List (WatchEvent β)
  loadSnapshot : DatabaseSnapshot → Effect δ PrimadbError Unit
  applySyncEnvelope : String → List Operation → Effect δ PrimadbError ℕ
  drainSyncEnvelope : Effect δ PrimadbError (String × List Operation)
  requeuePendingOperations : List Operation → Effect δ PrimadbError Unit
  signSessionAuthResponse : δ → AuthChallenge → String → String → SessionAuthConfig →
    Except PrimadbError (Option AuthResponse)
  encodeSyncPayload : δ → SyncFrame → Except PrimadbError (String × JsonValue)
  decodeSyncPayload : δ → String → JsonValue → Except PrimadbError SyncFrame
  /-- Whether a route can be written within the greatest length. -/
  routeFits : δ → RouteEnvelope ρ β → Except PrimadbError Unit
  maxOpsPerMessage : δ → ℕ
  maxBatchItemsPerRoute : δ → ℕ
  maxActiveRemoteWatches : δ → ℕ
  maxPeerRecommendations : δ → ℕ
  /-- `PullAccumulator::new`. -/
  newAccumulator : ρ → ψ
  /-- `apply_response_body`: the new accumulator and the message of a failure. -/
  applyResponseBody : ψ → β → ψ × Option String
  intoResult : ψ → Except PrimadbError ω

/-- The state of a client. The last fields are what it handed out: routes, application events,
pulled results, watched results. -/
structure RelayClient (δ ρ β ω ψ : Type) where
  /-- The database. -/
  db : δ
  /-- The router's configuration. -/
  config : RouterConfig
  router : RouterInner
  sessionAuth : SessionAuthConfig
  /-- The client's session. -/
  sessionId : String
  transport : RouteTransportKind
  /-- Whether the socket is connected. -/
  connected : Bool
  /-- Number of the last message. -/
  nextMessageSeq : ℕ
  /-- The verified identity of each peer. -/
  verifiedIdentities : BTreeMap String VerifiedIdentity
  /-- Challenges without an answer. -/
  pendingAuthChallenges : BTreeMap String AuthChallenge
  /-- The presences they were sent for. -/
  pendingAuthPeers : BTreeMap String PeerPresence
  /-- Known peers. -/
  recommendations : BTreeMap String PeerRecommendation
  /-- Sync frames without an acknowledgement. -/
  inflight : BTreeMap String OutboundSync
  /-- Remote reads without an answer. -/
  pendingRequests : BTreeMap String ψ
  /-- Watches served. -/
  incomingWatches : BTreeMap String (IncomingWatch ρ)
  /-- Watches held elsewhere. -/
  outgoingWatches : BTreeMap String (OutgoingWatch ρ ψ)
  /-- The stream of random tokens. -/
  random : ℕ → String
  /-- How many were drawn. -/
  drawn : ℕ
  /-- Routes sent. -/
  outbound : List (RouteEnvelope ρ β)
  /-- Application events published. -/
  applications : List ApplicationRouteEvent
  /-- Results of remote reads. -/
  pulled : List (String × Except String ω)
  /-- Results of watches. -/
  watched : List (String × Except String (Bool × ω))

/-- A body that carries the message of an error. -/
class ErrorBody (β : Type) where
  /-- `PullResponseBody::Error`. -/
  error : String → β

/-- `error_pull_response`. -/
def errorPullResponse {β : Type} [ErrorBody β] (requestId message : String) : PullResponse β :=
  ⟨requestId, ⟨0, 1⟩, true, ErrorBody.error message⟩

/-- `error_watch_event`. -/
def errorWatchEvent {β : Type} [ErrorBody β] (watchId : String) (sequence : ℕ) (initial : Bool)
    (message : String) : WatchEvent β :=
  ⟨watchId, sequence, initial, ⟨0, 1⟩, true, ErrorBody.error message⟩

/-- `peer_recommendation_from_presence`. -/
def peerRecommendationFromPresence (now : ℕ) (peer : PeerPresence) : PeerRecommendation where
  peer := peer
  relayUrls := peer.relayUrls
  score := 100 + min peer.capabilities.length 8 * 5 + min peer.topics.length 8 * 5
  discoveredAtMillis := now

/-- The payload of a batch; a single item is sent as it is. -/
def RoutePayload.ofChunk {ρ β : Type} : List (RouteBatchItem ρ β) → RoutePayload ρ β
  | [item] => .fromBatchItem item
  | chunk => .batch chunk

/-- `pack_batch_routes`. -/
def RouterConfig.packBatchRoutes {ρ β : Type} [ContentHash ρ β] (config : RouterConfig) (now : ℕ)
    (router : RouterInner) (target : RouteTarget) (replyTo : Option String)
    (items : List (RouteBatchItem ρ β)) (batchSize : ℕ) : List (RouteEnvelope ρ β) × RouterInner :=
  (items.toChunks (max batchSize 1)).foldl
    (fun (routes, router) chunk =>
      let (route, router) := config.wrapPayload now router (.ofChunk chunk) target replyTo
      (routes ++ [route], router))
    ([], router)

/-- The routes carry the parts of the items in order. -/
theorem RouterConfig.map_payload_packBatchRoutes {ρ β : Type} [ContentHash ρ β]
    (config : RouterConfig) (now : ℕ) (router : RouterInner) (target : RouteTarget)
    (replyTo : Option String) (items : List (RouteBatchItem ρ β)) (batchSize : ℕ) :
    (config.packBatchRoutes now router target replyTo items batchSize).1.map (·.payload) =
      (items.toChunks (max batchSize 1)).map .ofChunk := by
  have hfold : ∀ (chunks : List (List (RouteBatchItem ρ β))) (routes : List (RouteEnvelope ρ β))
      (router : RouterInner),
      ((chunks.foldl (fun (routes, router) chunk =>
        let (route, router) := config.wrapPayload now router (.ofChunk chunk) target replyTo
        (routes ++ [route], router)) (routes, router)).1).map (·.payload) =
        routes.map (·.payload) ++ chunks.map .ofChunk := by
    intro chunks
    induction chunks with
    | nil => simp
    | cons chunk chunks ih =>
      intro routes router
      rw [List.foldl_cons, ih]
      simp [RouterConfig.wrapPayload]
  exact hfold _ [] router

/-- What a served watch gives: an error that ends it, nothing new, or a result with its hash. -/
inductive WatchAnswer (β : Type) where
  | refused (message : String)
  | unchanged
  | updated (events : List (WatchEvent β)) (contentHash : Option String)

/-- The answer to a watch: `refuses` says that its peer is not served. -/
def IncomingWatch.answer {δ ρ β ω ψ : Type} [ClientHost δ ρ β ω ψ] (db : δ) (watchId : String)
    (watch : IncomingWatch ρ) (initial refuses : Bool) (identity : Option VerifiedIdentity) :
    Except PrimadbError (WatchAnswer β) :=
  if refuses then .ok (.refused "peer is not authenticated")
  else do
    match ← ClientHost.serveWatchResult db watch.targetPeerId watchId watch.requestKind initial
      identity with
    | .error message => pure (.refused message)
    | .ok result =>
      let contentHash := ClientHost.resultHash (δ := δ) result
      if !initial && contentHash == watch.lastHash then pure .unchanged
      else
        pure (.updated
          (ClientHost.chunkWatchResult db watchId watch.nextSequence initial result) contentHash)

/-- The watch after a result was sent. -/
def IncomingWatch.sent {ρ : Type} (watch : IncomingWatch ρ) (contentHash : Option String) :
    IncomingWatch ρ :=
  { watch with lastHash := contentHash, nextSequence := saturatingAdd watch.nextSequence 1 }

/-- The result an event belongs to: the one that is coming, or a new one. -/
def OutgoingWatch.pendingFor {δ ρ β ω ψ : Type} [ClientHost δ ρ β ω ψ] (_ : δ)
    (watch : OutgoingWatch ρ ψ) (event : WatchEvent β) : PendingWatchSequence ψ :=
  match watch.pendingSequence with
  | some pending =>
    if pending.sequence = event.sequence then pending
    else ⟨event.sequence, event.initial, ClientHost.newAccumulator (δ := δ) watch.requestKind⟩
  | none => ⟨event.sequence, event.initial, ClientHost.newAccumulator (δ := δ) watch.requestKind⟩

/-- `accept_watch_event` on the table of watches: the outcome, the table after it and what is
handed on. An event of a result that was handed on, or older than the one that is coming, is
dropped. -/
def takeWatchEvent {δ ρ β ω ψ : Type} [ClientHost δ ρ β ω ψ] (db : δ)
    (watches : BTreeMap String (OutgoingWatch ρ ψ)) (event : WatchEvent β) :
    Except PrimadbError Unit × BTreeMap String (OutgoingWatch ρ ψ) ×
      List (String × Except String (Bool × ω)) :=
  match watches[event.watchId]? with
  | none => (.ok (), watches, [])
  | some watch =>
    if watch.lastDeliveredSequence.any (event.sequence ≤ ·) ∨
        watch.pendingSequence.any (event.sequence < ·.sequence) then
      (.ok (), watches, [])
    else
      let pending := watch.pendingFor db event
      let (accumulator, failure) :=
        ClientHost.applyResponseBody (δ := δ) pending.accumulator event.result
      match failure with
      | some message =>
        (.ok (), watches.erase event.watchId, [(event.watchId, .error message)])
      | none =>
        if event.done ∨ event.chunk.index + 1 ≥ event.chunk.total then
          match ClientHost.intoResult (δ := δ) accumulator with
          | .error error =>
            (.error error, watches.insert event.watchId { watch with pendingSequence := none }, [])
          | .ok result =>
            (.ok (),
              watches.insert event.watchId
                { watch with
                  pendingSequence := none
                  lastDeliveredSequence := some event.sequence },
              [(event.watchId, .ok (pending.initial, result))])
        else
          (.ok (),
            watches.insert event.watchId
              { watch with pendingSequence := some { pending with accumulator := accumulator } },
            [])

namespace RelayClient

variable {δ ρ β ω ψ : Type}

/-- A step of the client. -/
abbrev Step (δ ρ β ω ψ α : Type) : Type := Effect (RelayClient δ ρ β ω ψ) PrimadbError α

/-- A call on the database. -/
def onDb {α : Type} (call : Effect δ PrimadbError α) : Step δ ρ β ω ψ α := fun client =>
  ((call client.db).1, { client with db := (call client.db).2 })

/-- A step whose failure is ignored. -/
def ignoring {α : Type} (m : Step δ ρ β ω ψ α) : Step δ ρ β ω ψ Unit := fun client =>
  (.ok (), (m client).2)

/-- The next random token. -/
def draw : Step δ ρ β ω ψ String :=
  Effect.lift fun client =>
    (client.random client.drawn, { client with drawn := client.drawn + 1 })

/-- `verified_identity_for_peer`: the stored identity, whatever its expiry. -/
def verifiedIdentityForPeer (client : RelayClient δ ρ β ω ψ) (peerId : String) :
    Option VerifiedIdentity := client.verifiedIdentities[peerId]?

/-- The check before a peer is served. -/
def refuses (client : RelayClient δ ρ β ω ψ) (peerId : String) : Bool :=
  client.sessionAuth.requireAuthenticatedPeers && (client.verifiedIdentityForPeer peerId).isNone

/-- `remove_relay_peer_state`. -/
def removeRelayPeerState (peerId : String) (client : RelayClient δ ρ β ω ψ) :
    RelayClient δ ρ β ω ψ :=
  { client with
    router := { client.router with peers := client.router.peers.erase peerId }
    recommendations := client.recommendations.erase peerId
    verifiedIdentities := client.verifiedIdentities.erase peerId }

variable [ContentHash ρ β]

/-- `wrap_payload` of the client's router. -/
def wrap (now : ℕ) (payload : RoutePayload ρ β) (target : RouteTarget)
    (replyTo : Option String) : Step δ ρ β ω ψ (RouteEnvelope ρ β) :=
  Effect.lift fun client =>
    let (route, router) := client.config.wrapPayload now client.router payload target replyTo
    (route, { client with router := router })

/-- `wrap_watch_request` and `wrap_watch_event`: a route without a content hash. -/
def wrapUnhashed (now : ℕ) (payload : RoutePayload ρ β) (target : RouteTarget) :
    Step δ ρ β ω ψ (RouteEnvelope ρ β) := do
  let route ← wrap now payload target none
  pure { route with contentHash := none }

variable [ClientHost δ ρ β ω ψ]

/-- `send_route`. -/
def sendRoute (route : RouteEnvelope ρ β) : Step δ ρ β ω ψ Unit := do
  let client ← Effect.get
  Effect.ofExcept (ClientHost.routeFits client.db route)
  if client.connected then
    Effect.modify fun client => { client with outbound := client.outbound ++ [route] }
  else Effect.fail (.message "native websocket is not connected")

/-- `send_sync_frame`. -/
def sendSyncFrame (now : ℕ) (frame : SyncFrame) (target : RouteTarget) :
    Step δ ρ β ω ψ Unit := do
  let client ← Effect.get
  let (encoding, payload) ← Effect.ofExcept (ClientHost.encodeSyncPayload client.db frame)
  let route ← wrap now (.sync encoding payload) target none
  sendRoute route

/-- Send the items in batches. -/
def sendBatches (now : ℕ) (target : RouteTarget) (replyTo : Option String)
    (items : List (RouteBatchItem ρ β)) : Step δ ρ β ω ψ Unit := do
  let routes ← Effect.lift fun client =>
    let (routes, router) := client.config.packBatchRoutes now client.router target replyTo items
      (max (ClientHost.maxBatchItemsPerRoute client.db) 1)
    (routes, { client with router := router })
  routes.forM sendRoute

/-! ## Peers -/

/-- `replay_outgoing_watches_for_peer`. -/
def replayOutgoingWatchesForPeer (now : ℕ) (peerId : String) : Step δ ρ β ω ψ Unit := do
  let client ← Effect.get
  let requests := client.outgoingWatches.toList.filter fun entry => entry.2.targetPeerId = peerId
  requests.forM fun (watchId, watch) => do
    let route ← wrapUnhashed now (.watchRequest ⟨watchId, .subscribe watch.requestKind⟩)
      (.peer peerId)
    sendRoute route

/-- `store_peer_recommendations` of one peer. -/
def storePeerRecommendation (recommendation : PeerRecommendation)
    (client : RelayClient δ ρ β ω ψ) : RelayClient δ ρ β ω ψ :=
  let stored := client.recommendations.insert recommendation.peer.peerId recommendation
  { client with
    recommendations :=
      removeOldest (stored.size - max (ClientHost.maxPeerRecommendations client.db) 1) stored }

/-- `accept_relay_recommendation`, and `accept_relay_peer` after it made the recommendation. -/
def acceptRelayRecommendation (now : ℕ) (recommendation : PeerRecommendation)
    (relayUrl : Option String) (identity : Option VerifiedIdentity) : Step δ ρ β ω ψ Bool := do
  let client ← Effect.get
  if ClientHost.allowPeerConnection client.db recommendation.peer relayUrl identity then
    Effect.modify (storePeerRecommendation recommendation)
    ignoring (replayOutgoingWatchesForPeer now recommendation.peer.peerId)
    pure true
  else
    Effect.modify (removeRelayPeerState recommendation.peer.peerId)
    pure false

/-- `accept_relay_peer`. -/
def acceptRelayPeer (now : ℕ) (peer : PeerPresence) (identity : Option VerifiedIdentity) :
    Step δ ρ β ω ψ Bool :=
  acceptRelayRecommendation now (peerRecommendationFromPresence now peer)
    peer.metadata["relay_url"]? identity

/-- `maybe_send_relay_auth_challenge`: no challenge while an identity is stored. -/
def maybeSendRelayAuthChallenge (now : ℕ) (peer : PeerPresence) : Step δ ρ β ω ψ Unit := do
  let client ← Effect.get
  if peer.peerId = client.config.peerId ∨
      (client.verifiedIdentityForPeer peer.peerId).isSome then pure ()
  else
    match peer.identity with
    | none =>
      if client.sessionAuth.allowUnauthenticatedPresence then pure ()
      else Effect.modify (removeRelayPeerState peer.peerId)
    | some identity => do
      let token ← draw
      let nonce ← draw
      let challenge := createAuthChallenge token nonce now client.config.peerId
        (ClientHost.replicaId client.db) client.sessionId peer.peerId peer.replicaId identity
        "relay" client.sessionAuth
      let route ← wrap now (.authChallenge challenge) (.peer peer.peerId) none
      sendRoute route
      Effect.modify fun client =>
        { client with
          pendingAuthChallenges :=
            client.pendingAuthChallenges.insert challenge.challengeId challenge
          pendingAuthPeers := client.pendingAuthPeers.insert challenge.challengeId peer }

/-- `handle_relay_auth_challenge`. -/
def handleRelayAuthChallenge (now : ℕ) (challenge : AuthChallenge) : Step δ ρ β ω ψ Unit := do
  let client ← Effect.get
  if challenge.targetPeerId ≠ client.config.peerId then pure ()
  else
    let response ← Effect.ofExcept (ClientHost.signSessionAuthResponse client.db challenge
      client.config.peerId client.sessionId client.sessionAuth)
    match response with
    | none => pure ()
    | some response => do
      let route ← wrap now (.authResponse response) (.peer challenge.issuerPeerId) none
      sendRoute route

/-- `handle_relay_auth_response`. -/
def handleRelayAuthResponse [SignatureScheme AuthTranscript] (now : ℕ) (response : AuthResponse) :
    Step δ ρ β ω ψ Unit := do
  let client ← Effect.get
  match client.pendingAuthChallenges[response.challengeId]? with
  | none => pure ()
  | some challenge => do
    let peer := client.pendingAuthPeers[response.challengeId]?.getD
      ⟨response.responderPeerId, response.responderReplicaId, challenge.transport,
        some response.responderIdentity, [], [], ∅⟩
    Effect.modify fun client =>
      { client with
        pendingAuthChallenges := client.pendingAuthChallenges.erase response.challengeId
        pendingAuthPeers := client.pendingAuthPeers.erase response.challengeId }
    let verified ← Effect.ofExcept
      (verifyAuthResponse now now challenge response client.sessionAuth)
    Effect.modify fun client =>
      { client with
        verifiedIdentities := client.verifiedIdentities.insert verified.peerId verified }
    let accepted ← acceptRelayPeer now peer (some verified)
    if accepted then pure ()
    else Effect.modify fun client =>
      { client with verifiedIdentities := client.verifiedIdentities.erase verified.peerId }

/-! ## Remote reads and watches -/

/-- `accept_pull_response`. -/
def acceptPullResponse (response : PullResponse β) : Step δ ρ β ω ψ Unit := do
  let client ← Effect.get
  match client.pendingRequests[response.requestId]? with
  | none => pure ()
  | some accumulator =>
    let (accumulator, failure) := ClientHost.applyResponseBody (δ := δ) accumulator response.result
    match failure with
    | some message =>
      Effect.modify fun client =>
        { client with
          pendingRequests := client.pendingRequests.erase response.requestId
          pulled := client.pulled ++ [(response.requestId, .error message)] }
    | none =>
      if response.done || response.chunk.index + 1 ≥ response.chunk.total then do
        Effect.modify fun client =>
          { client with pendingRequests := client.pendingRequests.erase response.requestId }
        let result ← Effect.ofExcept (ClientHost.intoResult (δ := δ) accumulator)
        Effect.modify fun client =>
          { client with pulled := client.pulled ++ [(response.requestId, .ok result)] }
      else
        Effect.modify fun client =>
          { client with
            pendingRequests := client.pendingRequests.insert response.requestId accumulator }

variable [ErrorBody β]

/-- Send an error to the watching peer. -/
def sendWatchError (now : ℕ) (watchId peerId : String) (sequence : ℕ) (initial : Bool)
    (message : String) : Step δ ρ β ω ψ Unit := do
  let route ← wrapUnhashed now (.watchEvent (errorWatchEvent watchId sequence initial message))
    (.peer peerId)
  sendRoute route

/-- Stop serving a watch. -/
def dropIncomingWatch (watchId : String) : Step δ ρ β ω ψ Unit :=
  Effect.modify fun client =>
    { client with incomingWatches := client.incomingWatches.erase watchId }

/-- `emit_single_incoming_watch_update`. -/
def emitSingleIncomingWatchUpdate (now : ℕ) (watchId : String) (initial : Bool) :
    Step δ ρ β ω ψ Bool := do
  let client ← Effect.get
  match client.incomingWatches[watchId]? with
  | none => pure false
  | some watch => do
    let answer ← Effect.ofExcept (watch.answer client.db watchId initial
      (client.refuses watch.targetPeerId) (client.verifiedIdentityForPeer watch.targetPeerId))
    match answer with
    | .refused message => do
      sendWatchError now watchId watch.targetPeerId watch.nextSequence initial message
      dropIncomingWatch watchId
      pure true
    | .unchanged => pure false
    | .updated events contentHash => do
      sendBatches now (.peer watch.targetPeerId) none (events.map .watchEvent)
      -- the counter is read again under the lock, not from the copy taken above
      Effect.modify fun client =>
        { client with
          incomingWatches :=
            match client.incomingWatches[watchId]? with
            | none => client.incomingWatches
            | some entry => client.incomingWatches.insert watchId (entry.sent contentHash) }
      pure true

/-- `handle_watch_request`. -/
def handleWatchRequest (now : ℕ) (sender : String) (request : WatchRequest ρ) :
    Step δ ρ β ω ψ Unit := do
  let client ← Effect.get
  match request.request with
  | .subscribe incoming =>
    if client.refuses sender then
      sendWatchError now request.watchId sender 0 true "peer is not authenticated"
    else
      match ClientHost.authorizeWatchRequest client.db sender request.watchId incoming
        (client.verifiedIdentityForPeer sender) with
      | .error message => sendWatchError now request.watchId sender 0 true message
      | .ok requestKind =>
        let limit := max (ClientHost.maxActiveRemoteWatches client.db) 1
        if client.incomingWatches.size ≥ limit ∧
            request.watchId ∉ client.incomingWatches then
          Effect.fail (.tooManyRemoteWatches limit)
        else do
          Effect.modify fun client =>
            { client with
              incomingWatches := client.incomingWatches.insert request.watchId
                ⟨sender, requestKind, 0, none⟩ }
          let _ ← emitSingleIncomingWatchUpdate now request.watchId true
          pure ()
  | .cancel => dropIncomingWatch request.watchId

/-- `accept_watch_event`. -/
def acceptWatchEvent (event : WatchEvent β) : Step δ ρ β ω ψ Unit := fun client =>
  let (outcome, watches, handed) := takeWatchEvent client.db client.outgoingWatches event
  (outcome, { client with outgoingWatches := watches, watched := client.watched ++ handed })

/-- Serve a remote read. -/
def handlePullRequest (now : ℕ) (sender routeId : String) (request : PullRequest ρ) :
    Step δ ρ β ω ψ Unit := do
  let client ← Effect.get
  let items : List (RouteBatchItem ρ β) ←
    if client.refuses sender then
      pure [.pullResponse (errorPullResponse request.requestId "peer is not authenticated")]
    else do
      let decision ← onDb (ClientHost.servePullRequest sender request.requestId request.request
        (client.verifiedIdentityForPeer sender))
      match decision with
      | .ok value => do
        let client ← Effect.get
        pure ((ClientHost.chunkRemoteResult client.db request.requestId value).map .pullResponse)
      | .error message => pure [.pullResponse (errorPullResponse request.requestId message)]
  sendBatches now (.peer sender) (some routeId) items

/-- Serve a snapshot. -/
def handleSnapshotRequest (now : ℕ) (sender routeId : String) (root : Option String) :
    Step δ ρ β ω ψ Unit := do
  let client ← Effect.get
  if client.refuses sender then pure ()
  else
    let decision ← onDb (ClientHost.servePullRequest sender ("snapshot:" ++ routeId)
      (ClientHost.snapshotKind δ root) (client.verifiedIdentityForPeer sender))
    match decision with
    | .ok value =>
      match ClientHost.snapshotOf (δ := δ) value with
      | some snapshot => do
        let route ← wrap now (.snapshotResponse root snapshot) (.peer sender) none
        sendRoute route
      | none => pure ()
    | .error _ => pure ()

/-! ## Sync frames -/

omit [ErrorBody β] in
/-- The end of `flush_pending_state`: a message is numbered, encoded and sent, and then entered into
the inflight table. -/
def sendOperations (now : ℕ) (sender : String) (ops : List Operation) : Step δ ρ β ω ψ ℕ := do
  let client ← Effect.get
  let seq := client.nextMessageSeq + 1
  let messageId := ClientHost.replicaId client.db ++ "/native/" ++ lowerHex seq
  Effect.modify fun client => { client with nextMessageSeq := seq }
  let (encoding, payload) ← Effect.ofExcept
    (ClientHost.encodeSyncPayload client.db (.sync sender messageId ops))
  let route ← wrap now (.sync encoding payload) .broadcast none
  -- a route that cannot be sent gives its operations back
  fun client =>
    match sendRoute route client with
    | (.ok (), client) =>
      (.ok ops.length,
        { client with
          inflight := client.inflight.insert messageId ⟨encoding, payload, .broadcast⟩ })
    | (.error error, client) =>
      (.error error, (onDb (ClientHost.requeuePendingOperations ops) client).2)

omit [ErrorBody β] in
/-- `flush_pending_state`. -/
def flushPending (now : ℕ) : Step δ ρ β ω ψ ℕ := do
  let client ← Effect.get
  if !client.connected then pure 0
  else
    let (sender, drained) ← onDb ClientHost.drainSyncEnvelope
    if drained.isEmpty then pure 0
    else do
      let maxOps := max (ClientHost.maxOpsPerMessage client.db) 1
      if drained.length > maxOps then
        onDb (ClientHost.requeuePendingOperations (drained.drop maxOps))
      sendOperations now sender (drained.take maxOps)

omit [ErrorBody β] in
/-- `handle_sync_frame`. -/
def handleSyncFrame (now : ℕ) (frame : SyncFrame) (replyPeer : Option String) :
    Step δ ρ β ω ψ Unit := do
  match frame with
  | .sync sender messageId ops =>
    let client ← Effect.get
    if client.sessionAuth.requireAuthenticatedPeers ∧
        (replyPeer.bind client.verifiedIdentityForPeer).isNone then pure ()
    else
      let applied ← onDb (ClientHost.applySyncEnvelope sender ops)
      let client ← Effect.get
      sendSyncFrame now (.ack (ClientHost.replicaId client.db) messageId applied)
        (replyPeer.elim .broadcast .peer)
  | .ack _ messageId _ => do
    Effect.modify fun client => { client with inflight := client.inflight.erase messageId }
    ignoring (flushPending now)

/-! ## Routes -/

/-- Publish an application message. -/
def publishApplication (now : ℕ) (route : RouteEnvelope ρ β) (message : ApplicationRouteMessage) :
    Step δ ρ β ω ψ Unit :=
  Effect.modify fun client =>
    let identity := client.verifiedIdentityForPeer route.sender
    let context := ApplicationRouteContext.withVerifiedIdentity route.sender client.transport
      identity client.sessionAuth.requireAuthenticatedPeers
    { client with
      applications := client.applications ++
        [{ routeId := route.routeId
           sender := route.sender
           channel := route.channel
           target := route.target
           issuedAtMillis := route.issuedAtMillis
           receivedAtMillis := now
           transport := client.transport
           verifiedIdentity := identity
           context := { context with relayRouted := true }
           message := message }] }

variable [SignatureScheme AuthTranscript]

/-- One payload of a route; the items of a batch are handled one by one. -/
def handlePayload (now : ℕ) (route : RouteEnvelope ρ β) : RoutePayload ρ β → Step δ ρ β ω ψ Unit
  | .application message => do
    let client ← Effect.get
    if client.refuses route.sender then pure () else publishApplication now route message
  | .presence peer => do
    maybeSendRelayAuthChallenge now peer
    let client ← Effect.get
    if client.refuses peer.peerId then pure ()
    else do
      let _ ← acceptRelayPeer now peer (client.verifiedIdentityForPeer peer.peerId)
      pure ()
  | .signal _ _ => pure ()
  | .snapshotRequest root => handleSnapshotRequest now route.sender route.routeId root
  | .snapshotResponse _ snapshot => onDb (ClientHost.loadSnapshot snapshot)
  | .sync encoding payload => do
    let client ← Effect.get
    if client.refuses route.sender then pure ()
    else
      let frame ← Effect.ofExcept (ClientHost.decodeSyncPayload client.db encoding payload)
      handleSyncFrame now frame (some route.sender)
  | .pullRequest request => handlePullRequest now route.sender route.routeId request
  | .pullResponse response => acceptPullResponse response
  | .watchRequest request => handleWatchRequest now route.sender request
  | .watchEvent event => acceptWatchEvent event
  | .peerExchange peers =>
    peers.forM fun recommendation => do
      maybeSendRelayAuthChallenge now recommendation.peer
      let client ← Effect.get
      if client.refuses recommendation.peer.peerId then pure ()
      else do
        let _ ← acceptRelayRecommendation now recommendation recommendation.relayUrls.head?
          (client.verifiedIdentityForPeer recommendation.peer.peerId)
        pure ()
  | .authChallenge challenge => handleRelayAuthChallenge now challenge
  | .authResponse response => handleRelayAuthResponse now response
  | .batch _ => pure ()

/-- `handle_route_payload`. -/
def handleRoutePayload (now : ℕ) (route : RouteEnvelope ρ β) : Step δ ρ β ω ψ Unit :=
  match route.payload with
  | .batch items => items.forM fun item => handlePayload now route (.fromBatchItem item)
  | payload => handlePayload now route payload

/-- `handle_route_envelope`. -/
def handleRouteEnvelope (now : ℕ) (route : RouteEnvelope ρ β) : Step δ ρ β ω ψ Unit := do
  let decision ← Effect.lift fun client =>
    let (decision, router) := client.config.accept now client.router route
    (decision, { client with router := router })
  if decision.deliver then handleRoutePayload now route else pure ()

/-! ## Sending -/

omit [ContentHash ρ β] [ErrorBody β] [SignatureScheme AuthTranscript] in
/-- What sending a route does. -/
theorem sendRoute_apply (route : RouteEnvelope ρ β) (client : RelayClient δ ρ β ω ψ) :
    sendRoute route client =
      match ClientHost.routeFits client.db route with
      | .error error => (.error error, client)
      | .ok () =>
        if client.connected then
          (.ok (), { client with outbound := client.outbound ++ [route] })
        else (.error (.message "native websocket is not connected"), client) := by
  cases hfits : ClientHost.routeFits client.db route with
  | error error => simp only [sendRoute, Effect.bind_apply, Effect.get, Effect.ofExcept, hfits]
  | ok =>
    simp only [sendRoute, Effect.bind_apply, Effect.get, Effect.ofExcept, hfits]
    split <;> rfl

omit [ContentHash ρ β] [ErrorBody β] [SignatureScheme AuthTranscript] in
/-- A frame that was sent is handed to the transport, and nothing else changes. -/
theorem sendRoute_ok {route : RouteEnvelope ρ β} {client after : RelayClient δ ρ β ω ψ}
    (h : sendRoute route client = (.ok (), after)) :
    after = { client with outbound := client.outbound ++ [route] } := by
  rw [sendRoute_apply] at h
  split at h
  · cases h
  · split at h
    · exact (Prod.mk.inj h).2.symm
    · cases h

omit [ErrorBody β] [SignatureScheme AuthTranscript] in
theorem sendBatches_singleton (now : ℕ) (target : RouteTarget) (replyTo : Option String)
    (item : RouteBatchItem ρ β) (client : RelayClient δ ρ β ω ψ) :
    sendBatches now target replyTo [item] client =
      (do
        let route ← wrap now (.fromBatchItem item) target replyTo
        sendRoute route : Step δ ρ β ω ψ Unit) client := by
  have hchunks : ∀ n, [item].toChunks (n + 1) = [[item]] := fun n => by
    simp [List.toChunks, List.toChunks.go]
  have hpack : ∀ size, client.config.packBatchRoutes now client.router target replyTo [item] size =
      ([(client.config.wrapPayload now client.router (.fromBatchItem item) target replyTo).1],
        (client.config.wrapPayload now client.router (.fromBatchItem item : RoutePayload ρ β) target
          replyTo).2) := by
    intro size
    obtain ⟨n, hn⟩ : ∃ n, max size 1 = n + 1 := ⟨max size 1 - 1, by omega⟩
    rw [RouterConfig.packBatchRoutes, hn, hchunks]
    rfl
  simp only [sendBatches, Effect.bind_apply, Effect.lift, hpack, wrap]
  rw [List.forM_eq_forM, List.forM_cons, Effect.bind_apply]
  split
  · rename_i hsend
    exact hsend.symm
  · rename_i hsend
    exact hsend.symm

end RelayClient

/-! ## A database that counts -/

/-- A database that counts what it applies. -/
structure CountingDb where
  /-- How much was applied. -/
  count : ℕ
  deriving DecidableEq

/-- The requests it serves. -/
inductive CountRequest where
  | count
  | snapshot (root : Option String)
  deriving DecidableEq

/-- The bodies it sends. -/
inductive CountBody where
  | value (count : ℕ)
  | error (message : String)
  deriving DecidableEq

instance : ErrorBody CountBody := ⟨.error⟩

/-- Hashes of the payloads it uses. -/
instance : ContentHash CountRequest CountBody where
  stableContentHash
    | .sync _ (.string messageId) => some ("sync:" ++ messageId)
    | .presence peer => some ("presence:" ++ peer.peerId ++ ":" ++ peer.replicaId)
    | .watchEvent event => some ("event:" ++ lowerHex event.sequence ++ ":" ++
        match event.result with
        | .value count => lowerHex count
        | .error message => message)
    | _ => none

/-- One replica is blocked; a frame is written as its message id, and every frame read carries
no operations. -/
instance : ClientHost CountingDb CountRequest CountBody ℕ (Option ℕ) where
  replicaId _ := "replica"
  allowPeerConnection _ peer _ _ := peer.replicaId != "blocked"
  servePullRequest _ _ _ _ := fun db => (.ok (.ok db.count), db)
  snapshotKind := .snapshot
  snapshotOf _ := none
  chunkRemoteResult _ requestId count := [⟨requestId, ⟨0, 1⟩, true, .value count⟩]
  authorizeWatchRequest _ _ _ request _ := .ok request
  serveWatchResult db _ _ _ _ _ := .ok (.ok db.count)
  resultHash count := some (lowerHex count)
  chunkWatchResult _ watchId sequence initial count :=
    [⟨watchId, sequence, initial, ⟨0, 1⟩, true, .value count⟩]
  loadSnapshot _ := fun db => (.ok (), ⟨db.count + 1⟩)
  applySyncEnvelope _ ops := fun db => (.ok ops.length, ⟨db.count + 1⟩)
  drainSyncEnvelope := fun db => (.ok ("replica", []), db)
  requeuePendingOperations _ := fun db => (.ok (), db)
  signSessionAuthResponse _ _ _ _ _ := .ok none
  encodeSyncPayload _
    | .sync _ messageId _ | .ack _ messageId _ => .ok ("sync_frame", .string messageId)
  decodeSyncPayload _ _
    | .string messageId => .ok (.sync "replica" messageId [])
    | _ => .error .serde
  routeFits _ _ := .ok ()
  maxOpsPerMessage _ := 8
  maxBatchItemsPerRoute _ := 8
  maxActiveRemoteWatches _ := 8
  maxPeerRecommendations _ := 8
  newAccumulator _ := none
  applyResponseBody accumulator
    | .value count => (some count, none)
    | .error message => (accumulator, some message)
  intoResult
    | some count => .ok count
    | none => .error .serde

/-- A client of a counting database. -/
abbrev CountingClient := RelayClient CountingDb CountRequest CountBody ℕ (Option ℕ)

/-- A fresh client of a peer. -/
def countingClient (peerId : String) (sessionAuth : SessionAuthConfig) : CountingClient where
  db := ⟨0⟩
  config := { peerId := peerId }
  router := .new
  sessionAuth := sessionAuth
  sessionId := "session"
  transport := .webSocket
  connected := true
  nextMessageSeq := 0
  verifiedIdentities := ∅
  pendingAuthChallenges := ∅
  pendingAuthPeers := ∅
  recommendations := ∅
  inflight := ∅
  pendingRequests := ∅
  incomingWatches := ∅
  outgoingWatches := ∅
  random := lowerHex
  drawn := 0
  outbound := []
  applications := []
  pulled := []
  watched := []

end Primadb

import Primadb.Net.RelayClient

/-!
# The mesh client

The peers of a mesh are connected to each other by data channels. A message arrives on the
channel of one peer and carries a route, whose envelope names a sender that need not be that
peer. The client keeps every payload it takes past its authentication check, with the identity
it relied on, beside its state.
-/

namespace Primadb

/-- The data channel of a peer. -/
inductive MeshChannel where
  | unavailable
  | closed
  | failing
  | opened
  deriving DecidableEq

/-- A sync frame with the peers that have not acknowledged it. -/
structure MeshOutbound where
  encoding : String
  /-- The encoded frame. -/
  payload : JsonValue
  /-- The peers it waits for. -/
  awaiting : BTreeMap String Bool
  deriving DecidableEq

/-- A message on a channel: a route, or a sync frame without one. -/
inductive MeshMessage (ρ β : Type) where
  | route (route : RouteEnvelope ρ β)
  | frame (frame : SyncFrame)

/-- What is taken: a payload of a route, or a sync frame that came without one. -/
inductive MeshTaken (ρ β : Type) where
  | payload (payload : RoutePayload ρ β)
  | frame (frame : SyncFrame)

/-- Whether a peer may join the room of the mesh. -/
class RoomHost (δ : Type) where
  allowRoomJoin : δ → PeerPresence → String → Option VerifiedIdentity → Bool

/-- The state of a mesh client. The last fields are history: routes sent and on which channel,
application events, results of watches, and what was taken with the identity relied on. -/
structure MeshClient (δ ρ β ω ψ : Type) where
  /-- The database. -/
  db : δ
  /-- The router's configuration. -/
  config : RouterConfig
  router : RouterInner
  sessionAuth : SessionAuthConfig
  /-- The client's session. -/
  sessionId : String
  room : String
  /-- The relay of the room. -/
  relayUrl : String
  /-- Number of the last message. -/
  nextMessageSeq : ℕ
  /-- The peers and their channels. -/
  peers : BTreeMap String MeshChannel
  /-- The verified identity of each peer. -/
  verifiedIdentities : BTreeMap String VerifiedIdentity
  /-- Challenges without an answer. -/
  pendingAuthChallenges : BTreeMap String AuthChallenge
  /-- The presences they were sent for. -/
  pendingAuthPeers : BTreeMap String PeerPresence
  /-- Known peers. -/
  recommendations : BTreeMap String PeerRecommendation
  /-- Sync frames without all acknowledgements. -/
  inflight : BTreeMap String MeshOutbound
  /-- Watches served. -/
  incomingWatches : BTreeMap String (IncomingWatch ρ)
  /-- Watches held elsewhere. -/
  outgoingWatches : BTreeMap String (OutgoingWatch ρ ψ)
  /-- The stream of random tokens. -/
  random : ℕ → String
  /-- How many were drawn. -/
  drawn : ℕ
  /-- Routes sent. -/
  sent : List (String × RouteEnvelope ρ β)
  /-- Application events published. -/
  applications : List ApplicationRouteEvent
  /-- Results of watches. -/
  watched : List (String × Except String (Bool × ω))
  /-- What was taken, with the identity relied on. -/
  taken : List (MeshTaken ρ β × Option VerifiedIdentity)

namespace MeshClient

variable {δ ρ β ω ψ : Type}

/-- A step of the client. -/
abbrev Step (δ ρ β ω ψ α : Type) : Type := Effect (MeshClient δ ρ β ω ψ) PrimadbError α

/-- A call on the database. -/
def onDb {α : Type} (call : Effect δ PrimadbError α) : Step δ ρ β ω ψ α := fun client =>
  ((call client.db).1, { client with db := (call client.db).2 })

/-- The next random token. -/
def draw : Step δ ρ β ω ψ String :=
  Effect.lift fun client =>
    (client.random client.drawn, { client with drawn := client.drawn + 1 })

/-- `verified_mesh_identity_for_peer`. -/
def verifiedIdentityForPeer (client : MeshClient δ ρ β ω ψ) (peerId : String) :
    Option VerifiedIdentity := client.verifiedIdentities[peerId]?

/-- The check before a peer is served. -/
def refuses (client : MeshClient δ ρ β ω ψ) (peerId : String) : Bool :=
  client.sessionAuth.requireAuthenticatedPeers && (client.verifiedIdentityForPeer peerId).isNone

/-- Keep what is taken. -/
def take (entry : MeshTaken ρ β) (identity : Option VerifiedIdentity) : Step δ ρ β ω ψ Unit :=
  Effect.modify fun client => { client with taken := client.taken ++ [(entry, identity)] }

/-- `remove_mesh_peer_identity_state`. -/
def removeIdentityState (peerId : String) (client : MeshClient δ ρ β ω ψ) :
    MeshClient δ ρ β ω ψ :=
  { client with
    router := { client.router with peers := client.router.peers.erase peerId }
    recommendations := client.recommendations.erase peerId
    verifiedIdentities := client.verifiedIdentities.erase peerId }

variable [ContentHash ρ β]

/-- `wrap_payload` of the client's router. -/
def wrap (now : ℕ) (payload : RoutePayload ρ β) (target : RouteTarget)
    (replyTo : Option String) : Step δ ρ β ω ψ (RouteEnvelope ρ β) :=
  Effect.lift fun client =>
    let (route, router) := client.config.wrapPayload now client.router payload target replyTo
    (route, { client with router := router })

variable [ClientHost δ ρ β ω ψ]

/-- `send_mesh_route_to_peer`. -/
def sendToPeer (peerId : String) (route : RouteEnvelope ρ β) : Step δ ρ β ω ψ Unit := do
  let client ← Effect.get
  Effect.ofExcept (ClientHost.routeFits client.db route)
  match client.peers[peerId]? with
  | none | some .unavailable => Effect.fail (.message "mesh peer channel is unavailable")
  | some .closed => Effect.fail (.message "mesh peer channel is not open")
  | some .failing => Effect.fail (.message "send")
  | some .opened =>
    Effect.modify fun client => { client with sent := client.sent ++ [(peerId, route)] }

/-- `accept_mesh_recommendation`: whether the peer is accepted, and whether it is to be joined. -/
def acceptMeshRecommendation [RoomHost δ] (recommendation : PeerRecommendation)
    (identity : Option VerifiedIdentity) : Step δ ρ β ω ψ (Bool × Option String) := do
  let client ← Effect.get
  let peer := recommendation.peer
  if ClientHost.allowPeerConnection client.db peer recommendation.relayUrls.head? identity then
    Effect.modify fun client =>
      { client with
        recommendations := client.recommendations.insert peer.peerId recommendation }
    let inRoom := peer.topics.contains ("mesh:" ++ client.room) ||
      peer.metadata["mesh_room"]? == some client.room
    if inRoom && RoomHost.allowRoomJoin client.db peer client.room identity then
      pure (true, some peer.peerId)
    else pure (true, none)
  else
    Effect.modify (removeIdentityState peer.peerId)
    pure (false, none)

/-- `peer_recommendation_from_presence` of the mesh. -/
def recommendationFromPresence (now : ℕ) (relayUrl : String) (peer : PeerPresence) :
    PeerRecommendation := ⟨peer, [relayUrl], 100, now⟩

/-- `maybe_send_mesh_auth_challenge_to_peer`. -/
def maybeSendChallengeToPeer (now : ℕ) (remotePeer : String) (peer : PeerPresence) :
    Step δ ρ β ω ψ Unit := do
  let client ← Effect.get
  if peer.peerId = client.config.peerId ∨
      (client.verifiedIdentityForPeer peer.peerId).isSome then pure ()
  else
    match peer.identity with
    | none =>
      if client.sessionAuth.allowUnauthenticatedPresence then pure ()
      else Effect.modify (removeIdentityState peer.peerId)
    | some identity => do
      let token ← draw
      let nonce ← draw
      let challenge := createAuthChallenge token nonce now client.config.peerId
        (ClientHost.replicaId client.db) client.sessionId peer.peerId peer.replicaId identity
        "mesh" client.sessionAuth
      let route ← wrap now (.authChallenge challenge) (.peer peer.peerId) none
      sendToPeer remotePeer route
      Effect.modify fun client =>
        { client with
          pendingAuthChallenges :=
            client.pendingAuthChallenges.insert challenge.challengeId challenge
          pendingAuthPeers := client.pendingAuthPeers.insert challenge.challengeId peer }

/-- `handle_mesh_auth_challenge_to_peer`. -/
def handleChallengeToPeer (now : ℕ) (remotePeer : String) (challenge : AuthChallenge) :
    Step δ ρ β ω ψ Unit := do
  let client ← Effect.get
  if challenge.targetPeerId ≠ client.config.peerId then pure ()
  else
    match ← Effect.ofExcept (ClientHost.signSessionAuthResponse client.db challenge
      client.config.peerId client.sessionId client.sessionAuth) with
    | none => pure ()
    | some response => do
      let route ← wrap now (.authResponse response) (.peer challenge.issuerPeerId) none
      sendToPeer remotePeer route

/-- `handle_mesh_auth_response`. -/
def handleMeshAuthResponse [RoomHost δ] [SignatureScheme AuthTranscript] (now : ℕ)
    (response : AuthResponse) : Step δ ρ β ω ψ (Option String) := do
  let client ← Effect.get
  match client.pendingAuthChallenges[response.challengeId]? with
  | none => pure none
  | some challenge => do
    let peer := client.pendingAuthPeers[response.challengeId]?.getD
      ⟨response.responderPeerId, response.responderReplicaId, challenge.transport,
        some response.responderIdentity, [], [], ∅⟩
    Effect.modify fun client =>
      { client with
        pendingAuthChallenges := client.pendingAuthChallenges.erase response.challengeId
        pendingAuthPeers := client.pendingAuthPeers.erase response.challengeId }
    let verified ← Effect.ofExcept
      (verifyAuthResponse now now challenge response client.sessionAuth)
    Effect.modify fun client =>
      { client with
        verifiedIdentities := client.verifiedIdentities.insert verified.peerId verified }
    let (accepted, peerToJoin) ← acceptMeshRecommendation
      (recommendationFromPresence now client.relayUrl peer) (some verified)
    if accepted then pure peerToJoin
    else do
      Effect.modify fun client =>
        { client with verifiedIdentities := client.verifiedIdentities.erase verified.peerId }
      pure peerToJoin

/-! ## Watches -/

section Watches

variable [ErrorBody β]

/-- Send an error to the watching peer. -/
def sendWatchError (now : ℕ) (watchId peerId : String) (sequence : ℕ) (initial : Bool)
    (message : String) : Step δ ρ β ω ψ Unit := do
  let route ← wrap now (.watchEvent (errorWatchEvent watchId sequence initial message))
    (.peer peerId) none
  sendToPeer peerId { route with contentHash := none }

/-- Stop serving a watch. -/
def dropIncomingWatch (watchId : String) : Step δ ρ β ω ψ Unit :=
  Effect.modify fun client =>
    { client with incomingWatches := client.incomingWatches.erase watchId }

/-- `emit_single_incoming_mesh_watch_update`. -/
def emitSingleIncomingMeshWatchUpdate (now : ℕ) (watchId : String) (initial : Bool) :
    Step δ ρ β ω ψ Bool := do
  let client ← Effect.get
  match client.incomingWatches[watchId]? with
  | none => pure false
  | some watch => do
    let answer ← Effect.ofExcept (watch.answer client.db watchId initial
      (client.refuses watch.targetPeerId) (client.verifiedIdentityForPeer watch.targetPeerId))
    match answer with
    | .refused message => do
      sendWatchError now watchId watch.targetPeerId watch.nextSequence initial message
      dropIncomingWatch watchId
      pure true
    | .unchanged => pure false
    | .updated events contentHash => do
      let routes ← Effect.lift fun client =>
        let (routes, router) := client.config.packBatchRoutes now client.router
          (.peer watch.targetPeerId) none
          (events.map .watchEvent : List (RouteBatchItem ρ β))
          (max (ClientHost.maxBatchItemsPerRoute client.db) 1)
        (routes, { client with router := router })
      routes.forM (sendToPeer watch.targetPeerId)
      Effect.modify fun client =>
        { client with
          incomingWatches :=
            match client.incomingWatches[watchId]? with
            | none => client.incomingWatches
            | some entry => client.incomingWatches.insert watchId (entry.sent contentHash) }
      pure true

/-- `handle_mesh_watch_request`. -/
def handleMeshWatchRequest (now : ℕ) (remotePeer : String) (request : WatchRequest ρ) :
    Step δ ρ β ω ψ Unit := do
  let client ← Effect.get
  match request.request with
  | .subscribe incoming =>
    if client.refuses remotePeer then
      sendWatchError now request.watchId remotePeer 0 true "peer is not authenticated"
    else do
      take (.payload (.watchRequest request)) (client.verifiedIdentityForPeer remotePeer)
      match ClientHost.authorizeWatchRequest client.db remotePeer request.watchId incoming
        (client.verifiedIdentityForPeer remotePeer) with
      | .error message => sendWatchError now request.watchId remotePeer 0 true message
      | .ok requestKind =>
        let limit := max (ClientHost.maxActiveRemoteWatches client.db) 1
        if client.incomingWatches.size ≥ limit ∧
            request.watchId ∉ client.incomingWatches then
          Effect.fail (.tooManyRemoteWatches limit)
        else do
          Effect.modify fun client =>
            { client with
              incomingWatches := client.incomingWatches.insert request.watchId
                ⟨remotePeer, requestKind, 0, none⟩ }
          let _ ← emitSingleIncomingMeshWatchUpdate now request.watchId true
          pure ()
  | .cancel => do
    take (.payload (.watchRequest request)) none
    dropIncomingWatch request.watchId

end Watches

/-- `accept_mesh_watch_event`. -/
def acceptMeshWatchEvent (event : WatchEvent β) : Step δ ρ β ω ψ Unit := fun client =>
  let (outcome, watches, handed) := takeWatchEvent client.db client.outgoingWatches event
  (outcome, { client with outgoingWatches := watches, watched := client.watched ++ handed })

/-! ## Sync frames -/

/-- `handle_mesh_sync_frame`, with what the frame came in. An acknowledgement is taken without a
look-up. -/
def handleMeshSyncFrame (now : ℕ) (remotePeer : String) (frame : SyncFrame)
    (entry : MeshTaken ρ β) : Step δ ρ β ω ψ Unit := do
  match frame with
  | .sync sender messageId ops =>
    let client ← Effect.get
    if client.refuses remotePeer then pure ()
    else do
      take entry (client.verifiedIdentityForPeer remotePeer)
      let applied ← onDb (ClientHost.applySyncEnvelope sender ops)
      let client ← Effect.get
      let (encoding, encoded) ← Effect.ofExcept (ClientHost.encodeSyncPayload client.db
        (.ack (ClientHost.replicaId client.db) messageId applied))
      let route ← wrap now (.sync encoding encoded) (.peer remotePeer) none
      sendToPeer remotePeer route
  | .ack _ messageId _ =>
    take entry none
    Effect.modify fun client =>
      { client with
        inflight :=
          match client.inflight[messageId]? with
          | none => client.inflight
          | some outbound =>
            let awaiting := outbound.awaiting.erase remotePeer
            if awaiting.isEmpty then client.inflight.erase messageId
            else client.inflight.insert messageId { outbound with awaiting := awaiting } }

/-! ## Routes -/

section Routes

variable [RoomHost δ] [ErrorBody β] [SignatureScheme AuthTranscript]

omit [ContentHash ρ β] [RoomHost δ] [ErrorBody β] [SignatureScheme AuthTranscript] in
/-- `enqueue_mesh_application_route`: the identity is that of the envelope's sender. -/
def enqueueMeshApplicationRoute (now : ℕ) (route : RouteEnvelope ρ β)
    (message : ApplicationRouteMessage) : Step δ ρ β ω ψ Unit := do
  let client ← Effect.get
  if client.refuses route.sender then pure ()
  else do
    let identity := client.verifiedIdentityForPeer route.sender
    take (.payload (.application message)) identity
    let context := ApplicationRouteContext.withVerifiedIdentity route.sender .webRtc identity
      client.sessionAuth.requireAuthenticatedPeers
    Effect.modify fun client =>
      { client with
        applications := client.applications ++
          [{ routeId := route.routeId
             sender := route.sender
             channel := route.channel
             target := route.target
             issuedAtMillis := route.issuedAtMillis
             receivedAtMillis := now
             transport := .webRtc
             verifiedIdentity := identity
             context := { context with direct := true }
             message := message }] }

/-- A peer another one tells of: it is challenged on the channel of that other one, and looked
up under its own name. -/
def introduce (now : ℕ) (remotePeer : String) (payload : RoutePayload ρ β)
    (recommendation : PeerRecommendation) : Step δ ρ β ω ψ Unit := do
  maybeSendChallengeToPeer now remotePeer recommendation.peer
  let client ← Effect.get
  if client.refuses recommendation.peer.peerId then pure ()
  else do
    take (.payload payload) (client.verifiedIdentityForPeer recommendation.peer.peerId)
    let _ ← acceptMeshRecommendation recommendation
      (client.verifiedIdentityForPeer recommendation.peer.peerId)
    pure ()

/-- One payload of a route that came on the channel of a peer. -/
def handlePayload (now : ℕ) (remotePeer : String) (route : RouteEnvelope ρ β) :
    RoutePayload ρ β → Step δ ρ β ω ψ Unit
  | .application message => enqueueMeshApplicationRoute now route message
  | .presence peer => do
    let client ← Effect.get
    introduce now remotePeer (.presence peer)
      (recommendationFromPresence now client.relayUrl peer)
  | .signal _ _ => pure ()
  | .snapshotRequest root => do
    let client ← Effect.get
    if client.refuses remotePeer then pure ()
    else do
      take (.payload (.snapshotRequest root)) (client.verifiedIdentityForPeer remotePeer)
      let decision ← onDb (ClientHost.servePullRequest remotePeer ("snapshot:" ++ remotePeer)
        (ClientHost.snapshotKind δ root) (client.verifiedIdentityForPeer remotePeer))
      match decision with
      | .ok value =>
        match ClientHost.snapshotOf (δ := δ) value with
        | some snapshot => do
          let response ← wrap now (.snapshotResponse root snapshot) (.peer remotePeer) none
          sendToPeer remotePeer response
        | none => pure ()
      | .error _ => pure ()
  | .snapshotResponse root snapshot => do
    take (.payload (.snapshotResponse root snapshot)) none
    onDb (ClientHost.loadSnapshot snapshot)
  | .sync encoding payload => do
    let client ← Effect.get
    if client.refuses remotePeer then pure ()
    else
      let frame ← Effect.ofExcept (ClientHost.decodeSyncPayload client.db encoding payload)
      handleMeshSyncFrame now remotePeer frame (.payload (.sync encoding payload))
  | .peerExchange peers => peers.forM (introduce now remotePeer (.peerExchange peers))
  | .authChallenge challenge => handleChallengeToPeer now remotePeer challenge
  | .authResponse response => do
    let _ ← handleMeshAuthResponse now response
    pure ()
  | .watchRequest request => handleMeshWatchRequest now remotePeer request
  | .watchEvent event => do
    take (.payload (.watchEvent event)) none
    acceptMeshWatchEvent event
  | .pullRequest _ | .pullResponse _ | .batch _ => pure ()

/-- `handle_mesh_route_message`; the items of a batch are handled one by one. -/
def handleMeshRouteMessage (now : ℕ) (remotePeer : String) (route : RouteEnvelope ρ β) :
    Step δ ρ β ω ψ Unit := do
  let decision ← Effect.lift fun client =>
    let (decision, router) := client.config.accept now client.router route
    (decision, { client with router := router })
  if decision.deliver then
    match route.payload with
    | .batch items =>
      items.forM fun item => handlePayload now remotePeer route (.fromBatchItem item)
    | payload => handlePayload now remotePeer route payload
  else pure ()

/-- `handle_mesh_data_message` on a message that was parsed. -/
def handleMeshDataMessage (now : ℕ) (remotePeer : String) :
    MeshMessage ρ β → Step δ ρ β ω ψ Unit
  | .route route => handleMeshRouteMessage now remotePeer route
  | .frame frame => handleMeshSyncFrame now remotePeer frame (.frame frame)

end Routes

end MeshClient

end Primadb

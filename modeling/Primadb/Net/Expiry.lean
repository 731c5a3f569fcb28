import Primadb.Core.Run
import Primadb.Net.RelayClient

/-!
# The end of an authenticated session

An identity is stored for a peer when its answer to a challenge is verified, with the time
at which it ends. A client that requires authenticated peers looks for a stored identity
before it serves a message. What it does for a peer without one is to refuse, to challenge
and to answer challenges.
-/

namespace Primadb

variable {δ ρ β ω ψ : Type}

/-- Payloads that serve nothing: challenges, their answers, and refusals. -/
def RoutePayload.Refusal [ErrorBody β] : RoutePayload ρ β → Prop
  | .authChallenge _ | .authResponse _ => True
  | .pullResponse response =>
    ∃ requestId, response = errorPullResponse requestId "peer is not authenticated"
  | .watchEvent event =>
    ∃ watchId sequence initial,
      event = errorWatchEvent watchId sequence initial "peer is not authenticated"
  | _ => False

/-- The peers whose stored identities decide whether the payload is served; none is given for
the payloads the client takes without looking. -/
def RoutePayload.gates (sender : String) : RoutePayload ρ β → Option (List String)
  | .application _ | .snapshotRequest _ | .sync _ _ | .pullRequest _ => some [sender]
  | .watchRequest request =>
    match request.request with
    | .subscribe _ => some [sender]
    | .cancel => none
  | .presence peer => some [peer.peerId]
  | .peerExchange peers => some (peers.map (·.peer.peerId))
  | .signal _ _ | .authChallenge _ | .batch _ => some []
  | .snapshotResponse _ _ | .pullResponse _ | .watchEvent _ | .authResponse _ => none

namespace RelayClient

/-- Nothing was served or applied between two states: the database and everything handed out
are the same, no identity was added, and only refusals were sent. -/
structure Idle [ErrorBody β] (before after : RelayClient δ ρ β ω ψ) : Prop where
  /-- The database. -/
  db : after.db = before.db
  /-- The rules of authentication. -/
  sessionAuth : after.sessionAuth = before.sessionAuth
  identities : ∀ peerId : String, before.verifiedIdentities[peerId]? = none →
    after.verifiedIdentities[peerId]? = none
  /-- Application events. -/
  applications : after.applications = before.applications
  /-- Pulled results. -/
  pulled : after.pulled = before.pulled
  /-- Watched results. -/
  watched : after.watched = before.watched
  /-- Remote reads and watches elsewhere. -/
  requests : after.pendingRequests = before.pendingRequests ∧
    after.outgoingWatches = before.outgoingWatches
  /-- Frames in flight. -/
  inflight : after.inflight = before.inflight
  /-- Watches served: none was added. -/
  watches : ∀ (watchId : String) (watch : IncomingWatch ρ),
    after.incomingWatches[watchId]? = some watch → before.incomingWatches[watchId]? = some watch
  /-- Routes. -/
  outbound : ∃ sent, after.outbound = before.outbound ++ sent ∧
    ∀ route ∈ sent, route.payload.Refusal

section Idle

variable [ErrorBody β]

private theorem composes_idle :
    Effect.Composes (Idle (δ := δ) (ρ := ρ) (β := β) (ω := ω) (ψ := ψ)) where
  refl client :=
    ⟨rfl, rfl, fun _ h => h, rfl, rfl, rfl, ⟨rfl, rfl⟩, rfl, fun _ _ h => h, [], by simp, by simp⟩
  trans {first second third} h h' := by
    obtain ⟨sent, hsent, hrefusal⟩ := h.outbound
    obtain ⟨sent', hsent', hrefusal'⟩ := h'.outbound
    refine ⟨h'.db.trans h.db, h'.sessionAuth.trans h.sessionAuth,
      fun peerId hnone => h'.identities peerId (h.identities peerId hnone),
      h'.applications.trans h.applications, h'.pulled.trans h.pulled, h'.watched.trans h.watched,
      ⟨h'.requests.1.trans h.requests.1, h'.requests.2.trans h.requests.2⟩,
      h'.inflight.trans h.inflight, fun watchId watch hwatch =>
        h.watches watchId watch (h'.watches watchId watch hwatch),
      sent ++ sent', by rw [hsent', hsent, List.append_assoc], fun route hroute => ?_⟩
    rcases List.mem_append.mp hroute with hroute | hroute
    · exact hrefusal route hroute
    · exact hrefusal' route hroute

variable {client : RelayClient δ ρ β ω ψ}

private theorem Idle.bind {α γ : Type} {m : Step δ ρ β ω ψ α} {f : α → Step δ ρ β ω ψ γ}
    (hm : Idle client (m client).2)
    (hf : ∀ a after, m client = (.ok a, after) → Idle after (f a after).2) :
    Idle client ((m >>= f) client).2 := by
  rcases hrun : m client with ⟨result, after⟩
  rw [hrun] at hm
  cases result with
  | ok a =>
    rw [Effect.bind_ok hrun]
    exact composes_idle.trans hm (hf a after hrun)
  | error error =>
    rw [Effect.bind_error hrun]
    exact hm

/-- A change of router, identities, challenges and known peers serves nothing. -/
theorem idle_of_same {before after : RelayClient δ ρ β ω ψ} (hdb : after.db = before.db)
    (hauth : after.sessionAuth = before.sessionAuth)
    (hidentities : ∀ peerId : String, before.verifiedIdentities[peerId]? = none →
      after.verifiedIdentities[peerId]? = none)
    (hout : after.applications = before.applications ∧ after.pulled = before.pulled ∧
      after.watched = before.watched)
    (hrequests : after.pendingRequests = before.pendingRequests ∧
      after.outgoingWatches = before.outgoingWatches)
    (hinflight : after.inflight = before.inflight)
    (hwatches : after.incomingWatches = before.incomingWatches)
    (houtbound : after.outbound = before.outbound) : Idle before after :=
  ⟨hdb, hauth, hidentities, hout.1, hout.2.1, hout.2.2, hrequests, hinflight,
    fun _ _ h => hwatches ▸ h, [], by rw [houtbound, List.append_nil], by simp⟩

variable [ContentHash ρ β]

private theorem idle_wrap (now : ℕ) (payload : RoutePayload ρ β) (target : RouteTarget)
    (replyTo : Option String) (client : RelayClient δ ρ β ω ψ) :
    Idle client (wrap now payload target replyTo client).2 :=
  idle_of_same rfl rfl (fun _ h => h) ⟨rfl, rfl, rfl⟩ ⟨rfl, rfl⟩ rfl rfl rfl

variable [ClientHost δ ρ β ω ψ]

omit [ContentHash ρ β] in
private theorem idle_sendRoute {route : RouteEnvelope ρ β} (hrefusal : route.payload.Refusal)
    (client : RelayClient δ ρ β ω ψ) : Idle client (sendRoute route client).2 := by
  rw [sendRoute_apply]
  split
  · exact composes_idle.refl client
  · split
    · exact ⟨rfl, rfl, fun _ h => h, rfl, rfl, rfl, ⟨rfl, rfl⟩, rfl, fun _ _ h => h, [route], rfl,
        by simpa⟩
    · exact composes_idle.refl client

private theorem idle_send (payload : RoutePayload ρ β) (hrefusal : payload.Refusal) (now : ℕ)
    (target : RouteTarget) (replyTo : Option String) (client : RelayClient δ ρ β ω ψ) :
    Idle client ((do
      let route ← wrap now payload target replyTo
      sendRoute route : Step δ ρ β ω ψ Unit) client).2 :=
  composes_idle.trans (idle_wrap now payload target replyTo client)
    (idle_sendRoute (by exact hrefusal) _)

private theorem idle_challenge (now : ℕ) (peer : PeerPresence) (client : RelayClient δ ρ β ω ψ) :
    Idle client (maybeSendRelayAuthChallenge now peer client).2 := by
  simp only [maybeSendRelayAuthChallenge, Effect.bind_apply, Effect.get]
  split
  · exact composes_idle.refl client
  · cases peer.identity with
    | none =>
      dsimp only
      split
      · exact composes_idle.refl client
      · refine idle_of_same rfl rfl (fun peerId hnone => ?_) ⟨rfl, rfl, rfl⟩ ⟨rfl, rfl⟩ rfl rfl rfl
        simp only [Effect.modify, removeRelayPeerState, BTreeMap.get_erase, hnone, ite_self]
    | some identity =>
      have hdraw : ∀ client : RelayClient δ ρ β ω ψ, Idle client (draw client).2 := fun client =>
        idle_of_same rfl rfl (fun _ h => h) ⟨rfl, rfl, rfl⟩ ⟨rfl, rfl⟩ rfl rfl rfl
      refine Idle.bind (hdraw client) fun token client _ => ?_
      refine Idle.bind (hdraw client) fun nonce client _ => ?_
      refine Idle.bind (idle_wrap now _ (.peer peer.peerId) none client)
        fun route client hroute => ?_
      have hrefusal : route.payload.Refusal := by
        cases hroute
        trivial
      refine Idle.bind (idle_sendRoute hrefusal client) fun _ client _ => ?_
      exact idle_of_same rfl rfl (fun _ h => h) ⟨rfl, rfl, rfl⟩ ⟨rfl, rfl⟩ rfl rfl rfl

omit [ErrorBody β] [ContentHash ρ β] [ClientHost δ ρ β ω ψ] in
private theorem refuses_of_none {peerId : String}
    (hrequire : client.sessionAuth.requireAuthenticatedPeers = true)
    (hnone : client.verifiedIdentities[peerId]? = none) : client.refuses peerId = true := by
  rw [refuses, hrequire, verifiedIdentityForPeer, hnone]
  rfl

/-- A presence or a recommendation of a peer without a stored identity serves nothing. -/
theorem idle_introduced (now : ℕ) {peer : PeerPresence}
    (hrequire : client.sessionAuth.requireAuthenticatedPeers = true)
    (hnone : client.verifiedIdentities[peer.peerId]? = none)
    (accepting : Option VerifiedIdentity → Step δ ρ β ω ψ Bool) :
    Idle client ((do
      maybeSendRelayAuthChallenge now peer
      let client ← Effect.get
      if client.refuses peer.peerId then pure ()
      else do
        let _ ← accepting (client.verifiedIdentityForPeer peer.peerId)
        pure () : Step δ ρ β ω ψ Unit) client).2 := by
  have hchallenge := idle_challenge now peer client
  refine Idle.bind hchallenge fun _ after hafter => ?_
  rw [hafter] at hchallenge
  rw [Effect.bind_apply, Effect.get]
  dsimp only
  rw [if_pos (refuses_of_none (hchallenge.sessionAuth ▸ hrequire)
    (hchallenge.identities _ hnone))]
  exact composes_idle.refl after

/-- Recommendations of peers without stored identities serve nothing. -/
theorem idle_exchange (now : ℕ) {recommendations : List PeerRecommendation}
    (hrequire : client.sessionAuth.requireAuthenticatedPeers = true)
    (hnone : ∀ recommendation ∈ recommendations,
      client.verifiedIdentities[recommendation.peer.peerId]? = none) :
    Idle client ((recommendations.forM fun recommendation => do
      maybeSendRelayAuthChallenge now recommendation.peer
      let client ← Effect.get
      if client.refuses recommendation.peer.peerId then pure ()
      else do
        let _ ← acceptRelayRecommendation now recommendation recommendation.relayUrls.head?
          (client.verifiedIdentityForPeer recommendation.peer.peerId)
        pure () : Step δ ρ β ω ψ Unit) client).2 := by
  induction recommendations generalizing client with
  | nil => exact composes_idle.refl client
  | cons recommendation recommendations ih =>
    have hfirst : Idle client _ := idle_introduced now hrequire
      (hnone _ List.mem_cons_self)
      (acceptRelayRecommendation now recommendation recommendation.relayUrls.head?)
    refine Idle.bind hfirst fun _ after hafter => ?_
    have hkept : Idle client after := Eq.mp (congrArg (fun run => Idle client run.2) hafter) hfirst
    exact ih (hkept.sessionAuth ▸ hrequire) fun other hother =>
      hkept.identities _ (hnone other (List.mem_cons_of_mem _ hother))

/-- The answer to a challenge serves nothing. -/
theorem idle_handleRelayAuthChallenge (now : ℕ) (challenge : AuthChallenge)
    (client : RelayClient δ ρ β ω ψ) :
    Idle client (handleRelayAuthChallenge now challenge client).2 := by
  simp only [handleRelayAuthChallenge, Effect.bind_apply, Effect.get]
  split
  · exact composes_idle.refl client
  · refine Idle.bind (composes_idle.refl client) fun response after _ => ?_
    cases response with
    | none => exact composes_idle.refl after
    | some response => exact idle_send (.authResponse response) trivial now _ _ after

private theorem idle_sendWatchError (now : ℕ) (watchId peerId : String) (sequence : ℕ)
    (initial : Bool) (client : RelayClient δ ρ β ω ψ) :
    Idle client (sendWatchError now watchId peerId sequence initial "peer is not authenticated"
      client).2 := by
  have hwrap : Idle client (wrapUnhashed now
      (.watchEvent (errorWatchEvent watchId sequence initial "peer is not authenticated"))
      (.peer peerId) client).2 := idle_wrap now _ (.peer peerId) none client
  refine Idle.bind hwrap fun route after hroute => idle_sendRoute ?_ after
  cases hroute
  exact ⟨_, _, _, rfl⟩

variable [SignatureScheme AuthTranscript]

/-- A payload whose gates have no stored identity serves nothing. -/
theorem idle_handlePayload {now : ℕ} {route : RouteEnvelope ρ β} {payload : RoutePayload ρ β}
    {peers : List String} (hrequire : client.sessionAuth.requireAuthenticatedPeers = true)
    (hgates : payload.gates route.sender = some peers)
    (hnone : ∀ peerId ∈ peers, client.verifiedIdentities[peerId]? = none) :
    Idle client (handlePayload now route payload client).2 := by
  have hrefused : [route.sender] = peers → client.refuses route.sender = true := by
    rintro rfl
    exact refuses_of_none hrequire (hnone _ (by simp))
  have hidle := composes_idle.refl client
  cases payload with
  | application message =>
    simp only [handlePayload, Effect.bind_apply, Effect.get]
    rwa [if_pos (hrefused (Option.some.inj hgates))]
  | snapshotRequest root =>
    simp only [handlePayload, handleSnapshotRequest, Effect.bind_apply, Effect.get]
    rwa [if_pos (hrefused (Option.some.inj hgates))]
  | sync encoding frame =>
    simp only [handlePayload, Effect.bind_apply, Effect.get]
    rwa [if_pos (hrefused (Option.some.inj hgates))]
  | pullRequest request =>
    simp only [handlePayload, handlePullRequest, Effect.bind_apply, Effect.get]
    rw [if_pos (hrefused (Option.some.inj hgates))]
    change Idle client (sendBatches now _ _ [_] client).2
    rw [sendBatches_singleton]
    exact idle_send (.pullResponse (errorPullResponse _ _)) ⟨_, rfl⟩ now _ _ client
  | watchRequest request =>
    rcases request with ⟨watchId, kind⟩
    cases kind with
    | cancel => cases hgates
    | subscribe kind =>
      simp only [handlePayload, handleWatchRequest, Effect.bind_apply, Effect.get]
      rw [if_pos (hrefused (Option.some.inj hgates))]
      exact idle_sendWatchError now watchId route.sender 0 true client
  | presence peer =>
    obtain rfl := Option.some.inj hgates
    exact idle_introduced now hrequire (hnone _ (by simp)) _
  | peerExchange recommendations =>
    obtain rfl := Option.some.inj hgates
    exact idle_exchange now hrequire fun recommendation hmem =>
      hnone _ (List.mem_map_of_mem hmem)
  | signal room payload => exact hidle
  | batch items => exact hidle
  | authChallenge challenge => exact idle_handleRelayAuthChallenge now challenge client
  | snapshotResponse root snapshot => cases hgates
  | pullResponse response => cases hgates
  | watchEvent event => cases hgates
  | authResponse response => cases hgates

omit [SignatureScheme AuthTranscript] in
/-- An update of a watch whose peer has no stored identity serves nothing and ends the watch. -/
theorem idle_update {now : ℕ} {watchId : String}
    (hrequire : client.sessionAuth.requireAuthenticatedPeers = true)
    (hnone : ∀ watch, client.incomingWatches[watchId]? = some watch →
      client.verifiedIdentities[watch.targetPeerId]? = none) :
    Idle client (emitSingleIncomingWatchUpdate now watchId false client).2 := by
  simp only [emitSingleIncomingWatchUpdate, Effect.bind_apply, Effect.get]
  cases hwatch : client.incomingWatches[watchId]? with
  | none => exact composes_idle.refl client
  | some watch =>
    have hanswer : watch.answer client.db watchId false (client.refuses watch.targetPeerId)
        (client.verifiedIdentityForPeer watch.targetPeerId) =
          .ok (.refused "peer is not authenticated") := by
      rw [refuses_of_none hrequire (hnone watch hwatch)]
      rfl
    dsimp only
    rw [hanswer]
    refine Idle.bind (composes_idle.refl client) fun answer after hrun => ?_
    cases hrun
    refine Idle.bind (idle_sendWatchError now watchId watch.targetPeerId watch.nextSequence false
      client) fun _ after _ => ?_
    refine ⟨rfl, rfl, fun _ h => h, rfl, rfl, rfl, ⟨rfl, rfl⟩, rfl, fun other kept hkept => ?_, [],
      by simp [dropIncomingWatch, Effect.modify, Effect.bind_apply], by simp⟩
    simp only [dropIncomingWatch, Effect.modify, Effect.bind_apply, Effect.pure_apply,
      BTreeMap.get_erase] at hkept
    split at hkept
    · cases hkept
    · exact hkept

end Idle

/-! ## Runs of a client -/

section Runs

variable [ErrorBody β] [ContentHash ρ β] [ClientHost δ ρ β ω ψ] [SignatureScheme AuthTranscript]

/-- What happens to a client. -/
inductive SessionEvent (ρ β : Type) where
  /-- A route reaches the router. -/
  | arrive (now : ℕ) (route : RouteEnvelope ρ β)
  /-- One payload of a delivered route is handled. -/
  | message (now : ℕ) (route : RouteEnvelope ρ β) (payload : RoutePayload ρ β)
  /-- A watch the client serves has an update. -/
  | update (now : ℕ) (watchId : String)

/-- A client with the time at which the identity last verified for each peer ends. -/
structure SessionRun (δ ρ β ω ψ : Type) where
  client : RelayClient δ ρ β ω ψ
  ended : BTreeMap String ℕ

/-- The identity a payload verifies. -/
def verifiedBy (client : RelayClient δ ρ β ω ψ) (now : ℕ) :
    RoutePayload ρ β → Option VerifiedIdentity
  | .authResponse response =>
    client.pendingAuthChallenges[response.challengeId]?.bind fun challenge =>
      (verifyAuthResponse now now challenge response client.sessionAuth).toOption
  | _ => none

namespace SessionRun

/-- One event. -/
def step (run : SessionRun δ ρ β ω ψ) : SessionEvent ρ β → SessionRun δ ρ β ω ψ
  | .message now route payload =>
    ⟨(handlePayload now route payload run.client).2,
      match run.client.verifiedBy now payload with
      | none => run.ended
      | some verified =>
        match verified.expiresAtMillis with
        | none => run.ended.erase verified.peerId
        | some ended => run.ended.insert verified.peerId ended⟩
  | .update now watchId =>
    ⟨(emitSingleIncomingWatchUpdate now watchId false run.client).2, run.ended⟩
  | .arrive now route =>
    let router := (run.client.config.accept now run.client.router route).2
    ⟨{ run.client with router := router }, run.ended⟩

/-- The payloads of a route. -/
def payloads (route : RouteEnvelope ρ β) : List (RoutePayload ρ β) :=
  match route.payload with
  | .batch items => items.map .fromBatchItem
  | payload => [payload]

/-- Payloads handled one after the other, up to the first that fails. -/
theorem handle_all (now : ℕ) (route : RouteEnvelope ρ β) (items : List (RoutePayload ρ β))
    (run : SessionRun δ ρ β ω ψ) :
    ∃ n, (items.forM (handlePayload now route) run.client).2 =
      (((items.take n).map (.message now route)).foldl step run).client := by
  induction items generalizing run with
  | nil => exact ⟨0, rfl⟩
  | cons payload items ih =>
    rw [Effect.forM_cons, Effect.bind_apply]
    rcases hhandle : handlePayload now route payload run.client with ⟨e | _, after⟩
    · refine ⟨1, ?_⟩
      simp [step, hhandle]
    · obtain ⟨n, hn⟩ := ih (run.step (.message now route payload))
      refine ⟨n + 1, ?_⟩
      rw [List.take_succ_cons, List.map_cons, List.foldl_cons, ← hn]
      simp only [step, hhandle]

/-- Handling a route is a run: it reaches the router and, when it is delivered, its payloads are
handled up to the first that fails. -/
theorem handleRouteEnvelope_steps (now : ℕ) (route : RouteEnvelope ρ β)
    (run : SessionRun δ ρ β ω ψ) :
    ∃ n, (handleRouteEnvelope now route run.client).2 =
      ((.arrive now route :: ((payloads route).take n).map (.message now route)).foldl step
        run).client := by
  have hpayload : (handleRoutePayload now route : Step δ ρ β ω ψ Unit) =
      (payloads route).forM (handlePayload now route) := by
    rw [handleRoutePayload, payloads]
    cases route.payload with
    | batch items =>
      dsimp only
      induction items with
      | nil => rfl
      | cons item items ih => rw [List.map_cons, Effect.forM_cons, Effect.forM_cons, ih]
    | _ => exact (Effect.forM_singleton _ _).symm
  simp only [handleRouteEnvelope, Effect.bind_apply, Effect.lift, List.foldl_cons]
  split
  · rw [hpayload]
    exact handle_all now route (payloads route) (run.step (.arrive now route))
  · exact ⟨0, rfl⟩

omit [ErrorBody β] [ContentHash ρ β] [ClientHost δ ρ β ω ψ] [SignatureScheme AuthTranscript] in
/-- The identity last verified for the peer has ended. -/
def Late (run : SessionRun δ ρ β ω ψ) (now : ℕ) (peerId : String) : Prop :=
  ∃ ended, run.ended[peerId]? = some ended ∧ ended < now

/-- A message of a peer whose identity has ended is an answer to a challenge, or of a kind that
is checked, with no identity stored for the peers that are looked up; and no identity is stored
for a watching peer whose identity has ended. -/
def Guarded (run : SessionRun δ ρ β ω ψ) : SessionEvent ρ β → Prop
  | .message now route payload => run.Late now route.sender →
      (∃ response, payload = .authResponse response) ∨
        ∃ peers, payload.gates route.sender = some peers ∧
          ∀ peerId ∈ peers, run.client.verifiedIdentities[peerId]? = none
  | .arrive _ _ => True
  | .update now watchId => ∀ watch, run.client.incomingWatches[watchId]? = some watch →
      run.Late now watch.targetPeerId →
        run.client.verifiedIdentities[watch.targetPeerId]? = none

/-- The event is for a peer whose identity has ended, and does not answer a challenge. -/
def Overdue (run : SessionRun δ ρ β ω ψ) : SessionEvent ρ β → Prop
  | .message now route payload =>
    run.Late now route.sender ∧ ∀ response, payload ≠ .authResponse response
  | .arrive _ _ => False
  | .update now watchId => ∃ watch, run.client.incomingWatches[watchId]? = some watch ∧
      run.Late now watch.targetPeerId

/-- In every guarded run of a client that requires authenticated peers nothing is served or
applied after the end of the identity last verified for the peer. -/
theorem overdue_idle {start : RelayClient δ ρ β ω ψ} {events : List (SessionEvent ρ β)}
    {event : SessionEvent ρ β}
    (hguarded : Run.Along step Guarded ⟨start, ∅⟩ (events ++ [event])) :
    let run := events.foldl step ⟨start, ∅⟩
    run.client.sessionAuth.requireAuthenticatedPeers = true → run.Overdue event →
      Idle run.client (run.step event).client := by
  intro run hrequire hoverdue
  have hevent := (Run.along_concat.mp hguarded).2
  cases event with
  | arrive now route => exact hoverdue.elim
  | message now route payload =>
    obtain ⟨hlate, hnot⟩ := hoverdue
    rcases hevent hlate with ⟨response, rfl⟩ | ⟨peers, hgates, hnone⟩
    · exact absurd rfl (hnot response)
    · exact idle_handlePayload hrequire hgates hnone
  | update now watchId =>
    obtain ⟨watch, hwatch, hlate⟩ := hoverdue
    refine idle_update hrequire fun other hother => ?_
    obtain rfl := Option.some.inj (hwatch.symm.trans hother)
    exact hevent watch hwatch hlate

end SessionRun

end Runs

end RelayClient

/-- The route of a payload from peer `p` to client `q`. -/
def routeToClient (routeId : String) (payload : RoutePayload CountRequest CountBody) :
    RouteEnvelope CountRequest CountBody :=
  ⟨routeId, "p", "primadb", .peer "q", 6, 0, 0, none, none, ["p"], payload⟩

/-- The presence of peer `p`. -/
def announcedPresence (replicaId : String) : RoutePayload CountRequest CountBody :=
  .presence ⟨"p", replicaId, "websocket", some (announcedIdentity "alice" "s"), [], [], ∅⟩

/-- Its answer to the first challenge of `q`, which ends at time 100. -/
def firstAnswer (replicaId : String) : RoutePayload CountRequest CountBody :=
  .authResponse
    ⟨"q/challenge/0", "p", replicaId, announcedIdentity "alice" "s", "m",
      ⟨1, "q/challenge/0", "q", "replica", "p", replicaId, "session", "s", "1", "m", "relay",
        "alice", none, ∅, 0, 100⟩, "alice", "signature"⟩

/-- A client that requires authenticated peers. -/
def strictClient : CountingClient := countingClient "q" { requireAuthenticatedPeers := true }

/-- A frame of a verified peer is applied long after its identity has ended. -/
theorem applied_after_expiry :
    let handle := fun (now : ℕ) (route : RouteEnvelope CountRequest CountBody)
        (client : CountingClient) =>
      (@RelayClient.handleRouteEnvelope _ _ _ _ _ _ _ _ (signedByAll _) now route client).2
    let verified := handle 0 (routeToClient "p/route/2" (firstAnswer "rp"))
      (handle 0 (routeToClient "p/route/1" (announcedPresence "rp")) strictClient)
    verified.verifiedIdentities["p"]?.bind (·.expiresAtMillis) = some 100 ∧
      verified.db = ⟨0⟩ ∧
      (handle 1000 (routeToClient "p/route/3" (.sync "sync_frame" (.string "m")))
        verified).db = ⟨1⟩ := by
  decide +kernel

/-- A blocked peer answers a challenge and sends a frame after its identity has ended. -/
def blockedEvents : List (RelayClient.SessionEvent CountRequest CountBody) :=
  [.message 0 (routeToClient "p/route/1" (announcedPresence "blocked"))
      (announcedPresence "blocked"),
    .message 0 (routeToClient "p/route/2" (firstAnswer "blocked")) (firstAnswer "blocked")]

/-- The frame it sends. -/
def lateFrame : RelayClient.SessionEvent CountRequest CountBody :=
  .message 1000 (routeToClient "p/route/3" (.sync "sync_frame" (.string "m")))
    (.sync "sync_frame" (.string "m"))

/-- The frame is not applied. -/
theorem overdue_idle_blockedEvents :
    let step := @RelayClient.SessionRun.step _ _ _ _ _ _ _ _ (signedByAll _)
    let run := blockedEvents.foldl step ⟨strictClient, ∅⟩
    RelayClient.Idle run.client (step run lateFrame).client := by
  have hnever : ∀ (run : RelayClient.SessionRun CountingDb CountRequest CountBody ℕ (Option ℕ))
      (peerId : String) (now : ℕ), run.ended = ∅ → ¬run.Late now peerId := by
    rintro run peerId now hended ⟨ended, hended', -⟩
    rw [hended] at hended'
    simp at hended'
  refine @RelayClient.SessionRun.overdue_idle _ _ _ _ _ _ _ _ (signedByAll _) strictClient
    blockedEvents lateFrame ⟨?_, ?_, ?_, trivial⟩ (by decide +kernel)
    ⟨⟨100, by decide +kernel, by decide⟩, by simp⟩
  · exact fun hlate => absurd hlate (hnever _ _ _ rfl)
  · exact fun hlate => absurd hlate (hnever _ _ _ rfl)
  · refine fun _ => .inr ⟨["p"], rfl, ?_⟩
    decide +kernel

end Primadb

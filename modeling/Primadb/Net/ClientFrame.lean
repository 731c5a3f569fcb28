import Primadb.Net.RelayClient

/-!
# What leaves the client's own requests alone

Only responses and events touch the tables of remote reads and watches that wait for answers.
-/

namespace Primadb.RelayClient

variable {δ ρ β ω ψ : Type}

/-- Neither the remote reads and watches that wait for answers nor the answers change. -/
def SameTables (before after : RelayClient δ ρ β ω ψ) : Prop :=
  after.pendingRequests = before.pendingRequests ∧ after.pulled = before.pulled ∧
    after.outgoingWatches = before.outgoingWatches ∧ after.watched = before.watched

private theorem composes_sameTables :
    Effect.Composes (SameTables (δ := δ) (ρ := ρ) (β := β) (ω := ω) (ψ := ψ)) where
  refl _ := ⟨rfl, rfl, rfl, rfl⟩
  trans h h' := ⟨h'.1.trans h.1, h'.2.1.trans h.2.1, h'.2.2.1.trans h.2.2.1,
    h'.2.2.2.trans h.2.2.2⟩

namespace SameTables

private theorem modify {f : RelayClient δ ρ β ω ψ → RelayClient δ ρ β ω ψ}
    (h : ∀ client, SameTables client (f client)) :
    Effect.Keeps SameTables (Effect.modify f : Step δ ρ β ω ψ Unit) := h

private theorem ignoring {α : Type} {m : Step δ ρ β ω ψ α} (h : Effect.Keeps SameTables m) :
    Effect.Keeps SameTables (ignoring m) := h

private theorem onDb {α : Type} (call : Effect δ PrimadbError α) :
    Effect.Keeps SameTables (onDb call : Step δ ρ β ω ψ α) := fun _ => ⟨rfl, rfl, rfl, rfl⟩

variable [ContentHash ρ β]

private theorem wrap (now : ℕ) (payload : RoutePayload ρ β) (target : RouteTarget)
    (replyTo : Option String) :
    Effect.Keeps SameTables (wrap now payload target replyTo : Step δ ρ β ω ψ _) :=
  fun _ => ⟨rfl, rfl, rfl, rfl⟩

private theorem wrapUnhashed (now : ℕ) (payload : RoutePayload ρ β) (target : RouteTarget) :
    Effect.Keeps SameTables (wrapUnhashed now payload target : Step δ ρ β ω ψ _) :=
  fun _ => ⟨rfl, rfl, rfl, rfl⟩

variable [ClientHost δ ρ β ω ψ]

omit [ContentHash ρ β] in
private theorem sendRoute (route : RouteEnvelope ρ β) :
    Effect.Keeps SameTables (sendRoute route : Step δ ρ β ω ψ Unit) := by
  refine composes_sameTables.bind composes_sameTables.get fun client => ?_
  refine composes_sameTables.bind (composes_sameTables.ofExcept _) fun _ => ?_
  split
  · exact modify fun _ => ⟨rfl, rfl, rfl, rfl⟩
  · exact composes_sameTables.fail _

private theorem sendBatches (now : ℕ) (target : RouteTarget) (replyTo : Option String)
    (items : List (RouteBatchItem ρ β)) :
    Effect.Keeps SameTables (sendBatches now target replyTo items : Step δ ρ β ω ψ Unit) := by
  refine composes_sameTables.bind (fun _ => ⟨rfl, rfl, rfl, rfl⟩) fun routes => ?_
  exact composes_sameTables.forM sendRoute routes

private theorem acceptRelayRecommendation (now : ℕ) (recommendation : PeerRecommendation)
    (relayUrl : Option String) (identity : Option VerifiedIdentity) :
    Effect.Keeps SameTables (acceptRelayRecommendation now recommendation relayUrl identity :
      Step δ ρ β ω ψ Bool) := by
  refine composes_sameTables.bind composes_sameTables.get fun client => ?_
  split
  · refine composes_sameTables.bind (modify fun _ => ⟨rfl, rfl, rfl, rfl⟩) fun _ => ?_
    refine composes_sameTables.bind (ignoring ?_) fun _ => composes_sameTables.pure true
    refine composes_sameTables.bind composes_sameTables.get fun client => ?_
    refine composes_sameTables.forM (fun ⟨watchId, watch⟩ => ?_) _
    exact composes_sameTables.bind (wrapUnhashed now _ _) sendRoute
  · exact composes_sameTables.bind (modify fun _ => ⟨rfl, rfl, rfl, rfl⟩) fun _ =>
      composes_sameTables.pure false

private theorem maybeSendRelayAuthChallenge (now : ℕ) (peer : PeerPresence) :
    Effect.Keeps SameTables (maybeSendRelayAuthChallenge now peer : Step δ ρ β ω ψ Unit) := by
  refine composes_sameTables.bind composes_sameTables.get fun client => ?_
  split
  · exact composes_sameTables.pure ()
  · cases peer.identity with
    | none =>
      dsimp only
      split
      · exact composes_sameTables.pure ()
      · exact modify fun _ => ⟨rfl, rfl, rfl, rfl⟩
    | some identity =>
      refine composes_sameTables.bind (fun _ => ⟨rfl, rfl, rfl, rfl⟩) fun token => ?_
      refine composes_sameTables.bind (fun _ => ⟨rfl, rfl, rfl, rfl⟩) fun nonce => ?_
      refine composes_sameTables.bind (wrap now _ _ none) fun route => ?_
      exact composes_sameTables.bind (sendRoute route) fun _ => modify fun _ => ⟨rfl, rfl, rfl, rfl⟩

private theorem handleRelayAuthChallenge (now : ℕ) (challenge : AuthChallenge) :
    Effect.Keeps SameTables (handleRelayAuthChallenge now challenge : Step δ ρ β ω ψ Unit) := by
  refine composes_sameTables.bind composes_sameTables.get fun client => ?_
  split
  · exact composes_sameTables.pure ()
  · refine composes_sameTables.bind (composes_sameTables.ofExcept _) fun response => ?_
    cases response with
    | none => exact composes_sameTables.pure ()
    | some response => exact composes_sameTables.bind (wrap now _ _ none) sendRoute

private theorem handleRelayAuthResponse [SignatureScheme AuthTranscript] (now : ℕ)
    (response : AuthResponse) :
    Effect.Keeps SameTables (handleRelayAuthResponse now response : Step δ ρ β ω ψ Unit) := by
  refine composes_sameTables.bind composes_sameTables.get fun client => ?_
  cases client.pendingAuthChallenges[response.challengeId]? with
  | none => exact composes_sameTables.pure ()
  | some challenge =>
    refine composes_sameTables.bind (modify fun _ => ⟨rfl, rfl, rfl, rfl⟩) fun _ => ?_
    refine composes_sameTables.bind (composes_sameTables.ofExcept _) fun verified => ?_
    refine composes_sameTables.bind (modify fun _ => ⟨rfl, rfl, rfl, rfl⟩) fun _ => ?_
    refine composes_sameTables.bind (acceptRelayRecommendation now _ _ _) fun accepted => ?_
    split
    · exact composes_sameTables.pure ()
    · exact modify fun _ => ⟨rfl, rfl, rfl, rfl⟩

private theorem sendOperations (now : ℕ) (sender : String) (ops : List Operation) :
    Effect.Keeps SameTables (sendOperations now sender ops : Step δ ρ β ω ψ ℕ) := by
  refine composes_sameTables.bind composes_sameTables.get fun client => ?_
  refine composes_sameTables.bind (modify fun _ => ⟨rfl, rfl, rfl, rfl⟩) fun _ => ?_
  refine composes_sameTables.bind (composes_sameTables.ofExcept _) ?_
  rintro ⟨encoding, payload⟩
  refine composes_sameTables.bind (wrap now _ _ none) fun route client => ?_
  have hsend := sendRoute route client
  rcases hrun : RelayClient.sendRoute route client with ⟨_ | _, after⟩
  all_goals
    rw [hrun] at hsend
    exact hsend

private theorem flushPending (now : ℕ) :
    Effect.Keeps SameTables (flushPending now : Step δ ρ β ω ψ ℕ) := by
  refine composes_sameTables.bind composes_sameTables.get fun client => ?_
  split
  · exact composes_sameTables.pure 0
  · refine composes_sameTables.bind (onDb _) ?_
    rintro ⟨sender, drained⟩
    dsimp only
    split
    · exact composes_sameTables.pure 0
    · split
      · exact composes_sameTables.bind (onDb _) fun _ => sendOperations now sender _
      · exact sendOperations now sender _

private theorem handleSyncFrame (now : ℕ) (frame : SyncFrame) (replyPeer : Option String) :
    Effect.Keeps SameTables (handleSyncFrame now frame replyPeer : Step δ ρ β ω ψ Unit) := by
  cases frame with
  | sync sender messageId ops =>
    refine composes_sameTables.bind composes_sameTables.get fun client => ?_
    split
    · exact composes_sameTables.pure ()
    · refine composes_sameTables.bind (onDb _) fun applied => ?_
      refine composes_sameTables.bind composes_sameTables.get fun client => ?_
      refine composes_sameTables.bind composes_sameTables.get fun client => ?_
      refine composes_sameTables.bind (composes_sameTables.ofExcept _) fun ⟨encoding, payload⟩ => ?_
      exact composes_sameTables.bind (wrap now _ _ none) sendRoute
  | ack sender messageId applied =>
    exact composes_sameTables.bind (modify fun _ => ⟨rfl, rfl, rfl, rfl⟩) fun _ =>
      ignoring (flushPending now)

variable [ErrorBody β]

private theorem sendWatchError (now : ℕ) (watchId peerId : String) (sequence : ℕ) (initial : Bool)
    (message : String) :
    Effect.Keeps SameTables (sendWatchError now watchId peerId sequence initial message :
      Step δ ρ β ω ψ Unit) :=
  composes_sameTables.bind (wrapUnhashed now _ _) sendRoute

private theorem emitSingleIncomingWatchUpdate (now : ℕ) (watchId : String) (initial : Bool) :
    Effect.Keeps SameTables (emitSingleIncomingWatchUpdate now watchId initial :
      Step δ ρ β ω ψ Bool) := by
  refine composes_sameTables.bind composes_sameTables.get fun client => ?_
  cases client.incomingWatches[watchId]? with
  | none => exact composes_sameTables.pure false
  | some watch =>
    refine composes_sameTables.bind (composes_sameTables.ofExcept _) fun answer => ?_
    cases answer with
    | refused message =>
      refine composes_sameTables.bind (sendWatchError now _ _ _ _ _) fun _ => ?_
      exact composes_sameTables.bind (modify fun _ => ⟨rfl, rfl, rfl, rfl⟩) fun _ =>
        composes_sameTables.pure true
    | unchanged => exact composes_sameTables.pure false
    | updated events contentHash =>
      refine composes_sameTables.bind (sendBatches now _ _ _) fun _ => ?_
      exact composes_sameTables.bind (modify fun _ => ⟨rfl, rfl, rfl, rfl⟩) fun _ =>
        composes_sameTables.pure true

private theorem handleWatchRequest (now : ℕ) (sender : String) (request : WatchRequest ρ) :
    Effect.Keeps SameTables (handleWatchRequest now sender request : Step δ ρ β ω ψ Unit) := by
  refine composes_sameTables.bind composes_sameTables.get fun client => ?_
  cases request.request with
  | cancel => exact modify fun _ => ⟨rfl, rfl, rfl, rfl⟩
  | subscribe incoming =>
    dsimp only
    split
    · exact sendWatchError now _ _ _ _ _
    · split
      · exact sendWatchError now _ _ _ _ _
      · split
        · exact composes_sameTables.fail _
        · refine composes_sameTables.bind (modify fun _ => ⟨rfl, rfl, rfl, rfl⟩) fun _ => ?_
          exact composes_sameTables.bind (emitSingleIncomingWatchUpdate now _ _) fun _ =>
            composes_sameTables.pure ()

private theorem handlePullRequest (now : ℕ) (sender routeId : String) (request : PullRequest ρ) :
    Effect.Keeps SameTables (handlePullRequest now sender routeId request :
      Step δ ρ β ω ψ Unit) := by
  refine composes_sameTables.bind composes_sameTables.get fun client => ?_
  dsimp only
  split
  · exact composes_sameTables.bind (composes_sameTables.pure _) fun items =>
      sendBatches now _ _ items
  · refine composes_sameTables.bind (onDb _) fun decision => ?_
    cases decision with
    | ok value =>
      refine composes_sameTables.bind composes_sameTables.get fun _ => ?_
      exact composes_sameTables.bind (composes_sameTables.pure _) fun items =>
        sendBatches now _ _ items
    | error message =>
      exact composes_sameTables.bind (composes_sameTables.pure _) fun items =>
        sendBatches now _ _ items

omit [ErrorBody β] in
private theorem handleSnapshotRequest (now : ℕ) (sender routeId : String) (root : Option String) :
    Effect.Keeps SameTables (handleSnapshotRequest now sender routeId root :
      Step δ ρ β ω ψ Unit) := by
  refine composes_sameTables.bind composes_sameTables.get fun client => ?_
  split
  · exact composes_sameTables.pure ()
  · refine composes_sameTables.bind (onDb _) fun decision => ?_
    cases decision with
    | error message => exact composes_sameTables.pure ()
    | ok value =>
      dsimp only
      split
      · exact composes_sameTables.bind (wrap now _ _ none) sendRoute
      · exact composes_sameTables.pure ()

variable [SignatureScheme AuthTranscript]

/-- Other payloads leave the tables of requests and watches. -/
theorem handlePayload (now : ℕ) (route : RouteEnvelope ρ β) {payload : RoutePayload ρ β}
    (hpayload : ∀ response, payload ≠ .pullResponse response)
    (hevent : ∀ event, payload ≠ .watchEvent event) :
    Effect.Keeps SameTables (handlePayload now route payload : Step δ ρ β ω ψ Unit) := by
  cases payload with
  | application message =>
    refine composes_sameTables.bind composes_sameTables.get fun client => ?_
    split
    · exact composes_sameTables.pure ()
    · exact modify fun _ => ⟨rfl, rfl, rfl, rfl⟩
  | presence peer =>
    refine composes_sameTables.bind (maybeSendRelayAuthChallenge now peer) fun _ => ?_
    refine composes_sameTables.bind composes_sameTables.get fun client => ?_
    split
    · exact composes_sameTables.pure ()
    · exact composes_sameTables.bind (acceptRelayRecommendation now _ _ _) fun _ =>
        composes_sameTables.pure ()
  | signal room payload => exact composes_sameTables.pure ()
  | snapshotRequest root => exact handleSnapshotRequest now _ _ root
  | snapshotResponse root snapshot => exact onDb _
  | sync encoding payload =>
    refine composes_sameTables.bind composes_sameTables.get fun client => ?_
    split
    · exact composes_sameTables.pure ()
    · exact composes_sameTables.bind (composes_sameTables.ofExcept _) fun frame =>
        handleSyncFrame now frame _
  | pullRequest request => exact handlePullRequest now _ _ request
  | pullResponse response => exact absurd rfl (hpayload response)
  | watchRequest request => exact handleWatchRequest now _ request
  | watchEvent event => exact absurd rfl (hevent event)
  | peerExchange peers =>
    refine composes_sameTables.forM (fun recommendation => ?_) peers
    refine composes_sameTables.bind (maybeSendRelayAuthChallenge now _) fun _ => ?_
    refine composes_sameTables.bind composes_sameTables.get fun client => ?_
    split
    · exact composes_sameTables.pure ()
    · exact composes_sameTables.bind (acceptRelayRecommendation now _ _ _) fun _ =>
        composes_sameTables.pure ()
  | authChallenge challenge => exact handleRelayAuthChallenge now challenge
  | authResponse response => exact handleRelayAuthResponse now response
  | batch items => exact composes_sameTables.pure ()

end SameTables


end Primadb.RelayClient

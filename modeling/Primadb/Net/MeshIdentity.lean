import Primadb.Net.Mesh

/-!
# Whose identity a mesh message is taken under

A message on the channel of a peer may name other peers: the sender of its envelope, and
the peers it tells of. The identity a payload is taken under is that of the channel's peer
exactly when the names lead to no other identity and the payload is one that is checked.
-/

namespace Primadb

namespace MeshClient

variable {δ ρ β ω ψ : Type}

/-- Nothing was published or taken between two states. -/
def Silent (before after : MeshClient δ ρ β ω ψ) : Prop :=
  after.applications = before.applications ∧ after.taken = before.taken

private theorem composes_silent :
    Effect.Composes (Silent (δ := δ) (ρ := ρ) (β := β) (ω := ω) (ψ := ψ)) where
  refl _ := ⟨rfl, rfl⟩
  trans h h' := ⟨h'.1.trans h.1, h'.2.trans h.2⟩

/-- The new entries of a step: the events it published and what it took. -/
structure Adds (before after : MeshClient δ ρ β ω ψ) (events : List ApplicationRouteEvent)
    (taken : List (MeshTaken ρ β × Option VerifiedIdentity)) : Prop where
  /-- The events. -/
  applications : after.applications = before.applications ++ events
  /-- What was taken. -/
  taken : after.taken = before.taken ++ taken

variable {taken : List (MeshTaken ρ β × Option VerifiedIdentity)}
  {before after : MeshClient δ ρ β ω ψ} {events : List ApplicationRouteEvent} {remotePeer : String}
  {entry : MeshTaken ρ β} {α : Type}

private theorem Silent.adds (h : Silent before after) :
    Adds before after [] [] := ⟨by simp [h.1], by simp [h.2]⟩

private theorem Adds.silent {before middle after : MeshClient δ ρ β ω ψ}
    (h : Adds before middle events taken) (h' : Silent middle after) :
    Adds before after events taken :=
  ⟨h'.1.trans h.applications, h'.2.trans h.taken⟩

/-- A step after a silent one adds what it adds alone. -/
theorem Silent.then_adds {before middle after : MeshClient δ ρ β ω ψ} (h : Silent before middle)
    (h' : Adds middle after events taken) :
    Adds before after events taken :=
  ⟨h'.applications.trans (by rw [h.1]), h'.taken.trans (by rw [h.2])⟩

/-- The identities of a step are those of one peer: the events it publishes carry no other, and
where authenticated peers are required, the payloads it takes are taken while the peer is
verified and rely on no other identity. -/
def Bound (remotePeer : String) (before after : MeshClient δ ρ β ω ψ) : Prop :=
  (∃ events, after.applications = before.applications ++ events ∧
    ∀ event ∈ events, ∀ identity, event.verifiedIdentity = some identity →
      before.verifiedIdentities[remotePeer]? = some identity) ∧
  (before.sessionAuth.requireAuthenticatedPeers = true →
    ∃ taken, after.taken = before.taken ++ taken ∧
      ∀ entry ∈ taken, (before.verifiedIdentities[remotePeer]?).isSome = true ∧
        ∀ identity, entry.2 = some identity →
          before.verifiedIdentities[remotePeer]? = some identity)

/-- What is bound, from the entries that were added. -/
theorem Adds.bound_iff (h : Adds before after events taken) :
    Bound remotePeer before after ↔
      (∀ event ∈ events, ∀ identity, event.verifiedIdentity = some identity →
        before.verifiedIdentities[remotePeer]? = some identity) ∧
      (before.sessionAuth.requireAuthenticatedPeers = true →
        ∀ entry ∈ taken, (before.verifiedIdentities[remotePeer]?).isSome = true ∧
          ∀ identity, entry.2 = some identity →
            before.verifiedIdentities[remotePeer]? = some identity) := by
  simp only [Bound, h.applications, h.taken, List.append_cancel_left_eq]
  constructor
  · rintro ⟨⟨_, rfl, hevents⟩, htaken⟩
    refine ⟨hevents, fun hrequire => ?_⟩
    obtain ⟨_, rfl, hentries⟩ := htaken hrequire
    exact hentries
  · rintro ⟨hevents, htaken⟩
    exact ⟨⟨_, rfl, hevents⟩, fun hrequire => ⟨_, rfl, htaken hrequire⟩⟩

private theorem Silent.bound (h : Silent before after) (remotePeer : String) :
    Bound remotePeer before after :=
  h.adds.bound_iff.mpr ⟨by simp, by simp⟩

/-- What is bound when one payload is taken. -/
theorem Adds.bound_one_iff {entry : MeshTaken ρ β × Option VerifiedIdentity}
    (h : Adds before after [] [entry]) :
    Bound remotePeer before after ↔
      (before.sessionAuth.requireAuthenticatedPeers = true →
        (before.verifiedIdentities[remotePeer]?).isSome = true ∧
          ∀ identity, entry.2 = some identity →
            before.verifiedIdentities[remotePeer]? = some identity) := by
  rw [h.bound_iff]
  simp

private theorem adds_take {identity : Option VerifiedIdentity} {f : Unit → Step δ ρ β ω ψ α}
    (hf : ∀ a, Effect.Keeps Silent (f a)) (client : MeshClient δ ρ β ω ψ) :
    Adds client ((take entry identity >>= f) client).2 [] [(entry, identity)] := by
  have htaken : Adds client (take entry identity client).2 [] [(entry, identity)] :=
    ⟨(List.append_nil _).symm, rfl⟩
  exact htaken.silent (hf () _)

private theorem bound_take_own {f : Unit → Step δ ρ β ω ψ α} (hf : ∀ a, Effect.Keeps Silent (f a))
    {client : MeshClient δ ρ β ω ψ} (hserved : client.refuses remotePeer = false) :
    Bound remotePeer client
      ((take entry (client.verifiedIdentityForPeer remotePeer) >>= f) client).2 := by
  rw [(adds_take hf client).bound_one_iff]
  intro hrequire
  rw [refuses, hrequire, Bool.true_and, verifiedIdentityForPeer] at hserved
  refine ⟨?_, fun identity h => h⟩
  cases hidentity : client.verifiedIdentities[remotePeer]? with
  | none =>
    rw [hidentity] at hserved
    cases hserved
  | some identity => rfl

private theorem bound_take_unchecked_iff {f : Unit → Step δ ρ β ω ψ α}
    (hf : ∀ a, Effect.Keeps Silent (f a)) {client : MeshClient δ ρ β ω ψ} :
    Bound remotePeer client ((take entry none >>= f) client).2 ↔
      (client.sessionAuth.requireAuthenticatedPeers = true →
        (client.verifiedIdentities[remotePeer]?).isSome = true) := by
  rw [(adds_take hf client).bound_one_iff]
  simp

/-! ## Silent steps -/

private theorem silent_modify {f : MeshClient δ ρ β ω ψ → MeshClient δ ρ β ω ψ}
    (h : ∀ client, Silent client (f client)) :
    Effect.Keeps Silent (Effect.modify f : Step δ ρ β ω ψ Unit) := h

private theorem silent_onDb (call : Effect δ PrimadbError α) :
    Effect.Keeps Silent (onDb call : Step δ ρ β ω ψ α) := fun _ => ⟨rfl, rfl⟩

/-- A relation that allows every change of the client's bookkeeping. -/
structure Bookkeeping (R : MeshClient δ ρ β ω ψ → MeshClient δ ρ β ω ψ → Prop) : Prop
    extends Effect.Composes R where
  /-- Numbers, tokens, challenges and routes sent. -/
  book : ∀ client router drawn challenges peers sent, R client
    { client with
      router := router
      drawn := drawn
      pendingAuthChallenges := challenges
      pendingAuthPeers := peers
      sent := sent }
  /-- A peer that is forgotten. -/
  remove : ∀ client peerId, R client (removeIdentityState peerId client)

private theorem bookkeeping_silent :
    Bookkeeping (Silent (δ := δ) (ρ := ρ) (β := β) (ω := ω) (ψ := ψ)) where
  toComposes := composes_silent
  book _ _ _ _ _ _ := ⟨rfl, rfl⟩
  remove _ _ := ⟨rfl, rfl⟩

/-- No peer became verified, and the configuration is the same. -/
def Narrowed (before after : MeshClient δ ρ β ω ψ) : Prop :=
  after.sessionAuth = before.sessionAuth ∧ ∀ peerId : String,
    before.verifiedIdentities[peerId]? = none → after.verifiedIdentities[peerId]? = none

private theorem bookkeeping_narrowed :
    Bookkeeping (Narrowed (δ := δ) (ρ := ρ) (β := β) (ω := ω) (ψ := ψ)) where
  refl _ := ⟨rfl, fun _ h => h⟩
  trans h h' := ⟨h'.1.trans h.1, fun peerId hnone => h'.2 peerId (h.2 peerId hnone)⟩
  book _ _ _ _ _ _ := ⟨rfl, fun _ h => h⟩
  remove client peerId := by
    refine ⟨rfl, fun other hnone => ?_⟩
    rw [removeIdentityState, BTreeMap.get_erase, hnone]
    exact ite_self _

variable [ContentHash ρ β]

namespace Bookkeeping

variable {R : MeshClient δ ρ β ω ψ → MeshClient δ ρ β ω ψ → Prop} (h : Bookkeeping R)
include h

omit [ContentHash ρ β] in
private theorem draw : Effect.Keeps R (draw : Step δ ρ β ω ψ String) := fun client =>
  h.book client client.router (client.drawn + 1) client.pendingAuthChallenges
    client.pendingAuthPeers client.sent

private theorem wrap (now : ℕ) (payload : RoutePayload ρ β) (target : RouteTarget)
    (replyTo : Option String) :
    Effect.Keeps R (wrap now payload target replyTo : Step δ ρ β ω ψ _) := fun client =>
  h.book client _ client.drawn client.pendingAuthChallenges client.pendingAuthPeers client.sent

variable [ClientHost δ ρ β ω ψ]

omit [ContentHash ρ β] in
private theorem sendToPeer (peerId : String) (route : RouteEnvelope ρ β) :
    Effect.Keeps R (sendToPeer peerId route : Step δ ρ β ω ψ Unit) := by
  refine h.bind h.get fun client => ?_
  refine h.bind (h.ofExcept _) fun _ => ?_
  split
  case h_5 =>
    exact fun client => h.book client client.router client.drawn client.pendingAuthChallenges
      client.pendingAuthPeers _
  all_goals exact h.fail _

private theorem send (now : ℕ) (payload : RoutePayload ρ β) (target : RouteTarget)
    (peerId : String) :
    Effect.Keeps R (do
      let route ← MeshClient.wrap now payload target none
      MeshClient.sendToPeer peerId route : Step δ ρ β ω ψ Unit) :=
  h.bind (h.wrap now payload target none) fun _ => h.sendToPeer _ _

private theorem challenge (now : ℕ) (remotePeer : String) (peer : PeerPresence) :
    Effect.Keeps R (maybeSendChallengeToPeer now remotePeer peer : Step δ ρ β ω ψ Unit) := by
  refine h.bind h.get fun client => ?_
  split
  · exact h.pure _
  · cases peer.identity with
    | none =>
      dsimp only
      split
      · exact h.pure _
      · exact fun client => h.remove client peer.peerId
    | some identity =>
      refine h.bind h.draw fun token => ?_
      refine h.bind h.draw fun nonce => ?_
      refine h.bind (h.wrap now _ _ none) fun route => ?_
      refine h.bind (h.sendToPeer _ _) fun _ client => ?_
      exact h.book client client.router client.drawn _ _ client.sent

end Bookkeeping

variable [ClientHost δ ρ β ω ψ]

private theorem silent_handleChallenge (now : ℕ) (remotePeer : String) (challenge : AuthChallenge) :
    Effect.Keeps Silent (handleChallengeToPeer now remotePeer challenge : Step δ ρ β ω ψ Unit) := by
  refine composes_silent.bind composes_silent.get fun client => ?_
  split
  · exact composes_silent.pure _
  · refine composes_silent.bind (composes_silent.ofExcept _) fun response => ?_
    cases response with
    | none => exact composes_silent.pure _
    | some response => exact bookkeeping_silent.send now _ _ remotePeer

omit [ContentHash ρ β] in
private theorem silent_accept [RoomHost δ] (recommendation : PeerRecommendation)
    (identity : Option VerifiedIdentity) :
    Effect.Keeps Silent
      (acceptMeshRecommendation recommendation identity : Step δ ρ β ω ψ _) := by
  refine composes_silent.bind composes_silent.get fun client => ?_
  dsimp only
  split
  · refine composes_silent.bind (silent_modify fun _ => ⟨rfl, rfl⟩) fun _ => ?_
    split <;> exact composes_silent.pure _
  · exact composes_silent.bind (silent_modify fun _ => ⟨rfl, rfl⟩) fun _ => composes_silent.pure _

omit [ContentHash ρ β] in
private theorem silent_authResponse [RoomHost δ] [SignatureScheme AuthTranscript] (now : ℕ)
    (response : AuthResponse) :
    Effect.Keeps Silent (handleMeshAuthResponse now response : Step δ ρ β ω ψ _) := by
  refine composes_silent.bind composes_silent.get fun client => ?_
  cases client.pendingAuthChallenges[response.challengeId]? with
  | none => exact composes_silent.pure _
  | some challenge =>
    refine composes_silent.bind (silent_modify fun _ => ⟨rfl, rfl⟩) fun _ => ?_
    refine composes_silent.bind (composes_silent.ofExcept _) fun verified => ?_
    refine composes_silent.bind (silent_modify fun _ => ⟨rfl, rfl⟩) fun _ => ?_
    refine composes_silent.bind (silent_accept _ _) fun (accepted, peerToJoin) => ?_
    dsimp only
    split
    · exact composes_silent.pure _
    · exact composes_silent.bind (silent_modify fun _ => ⟨rfl, rfl⟩) fun _ =>
        composes_silent.pure _

private theorem silent_sendWatchError [ErrorBody β] (now : ℕ) (watchId peerId : String)
    (sequence : ℕ) (initial : Bool) (message : String) :
    Effect.Keeps Silent
      (sendWatchError now watchId peerId sequence initial message : Step δ ρ β ω ψ Unit) :=
  bookkeeping_silent.bind (bookkeeping_silent.wrap now _ _ none) fun _ =>
    bookkeeping_silent.sendToPeer _ _

private theorem silent_emit [ErrorBody β] (now : ℕ) (watchId : String) (initial : Bool) :
    Effect.Keeps Silent
      (emitSingleIncomingMeshWatchUpdate now watchId initial : Step δ ρ β ω ψ Bool) := by
  refine composes_silent.bind composes_silent.get fun client => ?_
  cases client.incomingWatches[watchId]? with
  | none => exact composes_silent.pure _
  | some watch =>
    refine composes_silent.bind (composes_silent.ofExcept _) fun answer => ?_
    cases answer with
    | refused message =>
      refine composes_silent.bind (silent_sendWatchError _ _ _ _ _ _) fun _ => ?_
      exact composes_silent.bind (silent_modify fun _ => ⟨rfl, rfl⟩) fun _ => composes_silent.pure _
    | unchanged => exact composes_silent.pure _
    | updated events contentHash =>
      refine composes_silent.bind (fun _ => ⟨rfl, rfl⟩) fun routes => ?_
      refine composes_silent.bind ?_ fun _ => ?_
      · exact composes_silent.forM (fun _ => bookkeeping_silent.sendToPeer _ _) routes
      · exact composes_silent.bind (silent_modify fun _ => ⟨rfl, rfl⟩) fun _ =>
          composes_silent.pure _

/-! ## The steps of a message -/

/-- The steps of messages: a frame, a payload of a route, or one of the peers a payload tells of. -/
inductive MeshAtom (ρ β : Type) where
  | frame (frame : SyncFrame)
  | payload (route : RouteEnvelope ρ β) (payload : RoutePayload ρ β)
  | introduction (payload : RoutePayload ρ β) (recommendation : PeerRecommendation)

/-- The steps of a payload. -/
def payloadAtoms (route : RouteEnvelope ρ β) : RoutePayload ρ β → List (MeshAtom ρ β)
  | .peerExchange peers => peers.map (.introduction (.peerExchange peers))
  | payload => [.payload route payload]

/-- The steps of a route. -/
def routeAtoms (route : RouteEnvelope ρ β) : List (MeshAtom ρ β) :=
  match route.payload with
  | .batch items => items.flatMap fun item => payloadAtoms route (.fromBatchItem item)
  | payload => payloadAtoms route payload

section Steps

variable [RoomHost δ] [ErrorBody β] [SignatureScheme AuthTranscript]

/-- One step. -/
def handleAtom (now : ℕ) (remotePeer : String) : MeshAtom ρ β → Step δ ρ β ω ψ Unit
  | .frame frame => handleMeshSyncFrame now remotePeer frame (.frame frame)
  | .payload _ (.peerExchange _) => pure ()
  | .payload route payload => handlePayload now remotePeer route payload
  | .introduction payload recommendation => introduce now remotePeer payload recommendation

omit [ContentHash ρ β] [ClientHost δ ρ β ω ψ] [RoomHost δ] [ErrorBody β]
  [SignatureScheme AuthTranscript] in
/-- The state after the router has looked at a message, and the steps that are left. -/
def entered (now : ℕ) (client : MeshClient δ ρ β ω ψ) :
    MeshMessage ρ β → MeshClient δ ρ β ω ψ × List (MeshAtom ρ β)
  | .frame frame => (client, [.frame frame])
  | .route route =>
    let (decision, router) := client.config.accept now client.router route
    ({ client with router := router }, if decision.deliver then routeAtoms route else [])

/-- The steps taken one after the other, each with the state it finds, up to the first failure. -/
def visited (now : ℕ) (remotePeer : String) :
    List (MeshAtom ρ β) → MeshClient δ ρ β ω ψ → List (MeshClient δ ρ β ω ψ × MeshAtom ρ β)
  | [], _ => []
  | atom :: atoms, client =>
    (client, atom) ::
      match handleAtom now remotePeer atom client with
      | (.ok (), client) => visited now remotePeer atoms client
      | (.error _, _) => []

/-- The steps of a message on the channel of a peer. -/
def messageSteps (now : ℕ) (remotePeer : String) (message : MeshMessage ρ β)
    (client : MeshClient δ ρ β ω ψ) : List (MeshClient δ ρ β ω ψ × MeshAtom ρ β) :=
  visited now remotePeer (entered now client message).2 (entered now client message).1

/-- The state that steps lead to. -/
def leftBy (now : ℕ) (remotePeer : String) (client : MeshClient δ ρ β ω ψ)
    (steps : List (MeshClient δ ρ β ω ψ × MeshAtom ρ β)) : MeshClient δ ρ β ω ψ :=
  (steps.getLast?.map fun step => (handleAtom now remotePeer step.2 step.1).2).getD client

/-- Handling steps one after the other leaves what the last of the steps taken leaves. -/
theorem forM_handleAtom (now : ℕ) (remotePeer : String) (atoms : List (MeshAtom ρ β))
    (client : MeshClient δ ρ β ω ψ) :
    (atoms.forM (handleAtom now remotePeer) client).2 =
      leftBy now remotePeer client (visited now remotePeer atoms client) := by
  induction atoms generalizing client with
  | nil => rfl
  | cons atom atoms ih =>
    rw [Effect.forM_cons, visited]
    rcases hatom : handleAtom now remotePeer atom client with ⟨e | u, after⟩
    · rw [Effect.bind_error hatom]
      exact (congrArg Prod.snd hatom).symm
    · rw [Effect.bind_ok hatom, ih after, leftBy, leftBy, List.getLast?_cons]
      cases hlast : (visited now remotePeer atoms after).getLast? with
      | none => exact (congrArg Prod.snd hatom).symm
      | some step => rfl

/-- A payload is handled step by step. -/
theorem handlePayload_eq (now : ℕ) (remotePeer : String) (route : RouteEnvelope ρ β)
    (payload : RoutePayload ρ β) :
    handlePayload now remotePeer route payload =
      ((payloadAtoms route payload).forM (handleAtom now remotePeer) :
        Step δ ρ β ω ψ Unit) := by
  have hpeers : ∀ (told : RoutePayload ρ β) (peers : List PeerRecommendation),
      (peers.map (.introduction told)).forM (handleAtom now remotePeer) =
        (peers.forM (introduce now remotePeer told) : Step δ ρ β ω ψ Unit) := by
    intro told peers
    induction peers with
    | nil => rfl
    | cons peer peers ih => rw [List.map_cons, Effect.forM_cons, Effect.forM_cons, ih, handleAtom]
  cases payload with
  | peerExchange peers => exact (hpeers _ peers).symm
  | _ => exact (Effect.forM_singleton _ _).symm

/-- A message is handled step by step. -/
theorem handleMeshDataMessage_eq (now : ℕ) (remotePeer : String) (message : MeshMessage ρ β)
    (client : MeshClient δ ρ β ω ψ) :
    handleMeshDataMessage now remotePeer message client =
      (entered now client message).2.forM (handleAtom now remotePeer)
        (entered now client message).1 := by
  cases message with
  | frame frame =>
    rw [entered, Effect.forM_singleton]
    rfl
  | route route =>
    rw [handleMeshDataMessage, handleMeshRouteMessage, entered]
    rcases haccept : client.config.accept now client.router route with ⟨decision, router⟩
    rw [Effect.bind_apply, Effect.lift, haccept]
    dsimp only
    split
    · rw [routeAtoms]
      cases route.payload with
      | batch items =>
        dsimp only
        rw [Effect.forM_flatMap]
        simp only [handlePayload_eq]
      | _ =>
        dsimp only
        rw [handlePayload_eq]
    · rfl

omit [ContentHash ρ β] [ClientHost δ ρ β ω ψ] [RoomHost δ] [ErrorBody β]
  [SignatureScheme AuthTranscript] in
/-- The names in a step lead to no other identity than that of the channel's peer, and what is
taken without a check comes from a verified peer if that is required. -/
def Own (remotePeer : String) (client : MeshClient δ ρ β ω ψ) : MeshAtom ρ β → Prop
  | .payload route (.application _) =>
    client.verifiedIdentities[route.sender]? = none ∨
      client.verifiedIdentities[route.sender]? = client.verifiedIdentities[remotePeer]?
  | .payload _ (.presence peer) =>
    client.sessionAuth.requireAuthenticatedPeers = true →
      client.verifiedIdentities[peer.peerId]? = none ∨
        client.verifiedIdentities[peer.peerId]? = client.verifiedIdentities[remotePeer]?
  | .introduction _ recommendation =>
    client.sessionAuth.requireAuthenticatedPeers = true →
      client.verifiedIdentities[recommendation.peer.peerId]? = none ∨
        client.verifiedIdentities[recommendation.peer.peerId]? =
          client.verifiedIdentities[remotePeer]?
  | .payload _ (.snapshotResponse _ _) | .payload _ (.watchEvent _)
  | .payload _ (.watchRequest ⟨_, .cancel⟩) | .frame (.ack _ _ _) =>
    client.sessionAuth.requireAuthenticatedPeers = true →
      (client.verifiedIdentities[remotePeer]?).isSome = true
  | .payload _ _ | .frame (.sync _ _ _) => True

variable {remotePeer : String} {client : MeshClient δ ρ β ω ψ} {payload : RoutePayload ρ β}
  {now : ℕ}

omit [SignatureScheme AuthTranscript] [ErrorBody β] in
/-- A peer told of is taken under the identity of the channel's peer exactly when its name leads
to no other one. -/
theorem introduce_bound_iff {recommendation : PeerRecommendation} :
    Bound remotePeer client (introduce now remotePeer payload recommendation client).2 ↔
      (client.sessionAuth.requireAuthenticatedPeers = true →
        client.verifiedIdentities[recommendation.peer.peerId]? = none ∨
          client.verifiedIdentities[recommendation.peer.peerId]? =
            client.verifiedIdentities[remotePeer]?) := by
  have haccept : ∀ (identity : Option VerifiedIdentity) (a : Unit), Effect.Keeps Silent
      ((do
        let _ ← acceptMeshRecommendation recommendation identity
        pure ()) : Step δ ρ β ω ψ Unit) := fun identity _ =>
    composes_silent.bind (silent_accept recommendation identity) fun _ => composes_silent.pure _
  cases hidentity : client.verifiedIdentities[recommendation.peer.peerId]? with
  | some identity =>
    -- a stored identity: no challenge, and the payload is taken under it
    have hchallenge : maybeSendChallengeToPeer now remotePeer recommendation.peer client =
        (.ok (), client) := by
      simp only [maybeSendChallengeToPeer, Effect.bind_apply, Effect.get]
      rw [if_pos (.inr (by rw [verifiedIdentityForPeer, hidentity]; rfl))]
      rfl
    have hserved : client.refuses recommendation.peer.peerId = false := by
      rw [refuses, verifiedIdentityForPeer, hidentity]
      exact Bool.and_false _
    have hrun : introduce now remotePeer payload recommendation client =
        (take (.payload payload) (some identity) >>= fun _ => do
          let _ ← acceptMeshRecommendation recommendation (some identity)
          pure () : Step δ ρ β ω ψ Unit) client := by
      rw [introduce, Effect.bind_ok hchallenge]
      simp only [Effect.bind_apply, Effect.get, hserved, Bool.false_eq_true, if_false,
        verifiedIdentityForPeer, hidentity]
    rw [hrun, (adds_take (haccept (some identity)) client).bound_one_iff]
    refine imp_congr_right fun _ => ?_
    constructor
    · rintro ⟨-, hsame⟩
      exact .inr (hsame identity rfl).symm
    · rintro (hnone | hsame)
      · cases hnone
      · rw [← hsame]
        exact ⟨rfl, fun _ h => h⟩
  | none =>
    -- no stored identity: the challenge stores none, so the peer is refused where it matters
    have hsilent := bookkeeping_silent.challenge now remotePeer recommendation.peer client
    have hnarrowed := bookkeeping_narrowed.challenge now remotePeer recommendation.peer client
    refine iff_of_true ?_ fun _ => .inl rfl
    rcases hrun : maybeSendChallengeToPeer now remotePeer recommendation.peer client with
      ⟨outcome, challenged⟩
    rw [hrun] at hsilent hnarrowed
    cases outcome with
    | error e =>
      rw [introduce, Effect.bind_error hrun]
      exact hsilent.bound remotePeer
    | ok u =>
      have hnone : challenged.verifiedIdentityForPeer recommendation.peer.peerId = none :=
        hnarrowed.2 _ hidentity
      rw [introduce, Effect.bind_ok hrun, Effect.get_bind]
      cases hrefused : challenged.refuses recommendation.peer.peerId with
      | true =>
        rw [if_pos rfl]
        exact hsilent.bound remotePeer
      | false =>
        have hopen : challenged.sessionAuth.requireAuthenticatedPeers = false := by
          rwa [refuses, hnone, Option.isNone_none, Bool.and_true] at hrefused
        rw [if_neg Bool.false_ne_true,
          (hsilent.then_adds (adds_take (haccept _) challenged)).bound_one_iff]
        intro hrequire
        rw [← hnarrowed.1, hopen] at hrequire
        cases hrequire

omit [ContentHash ρ β] [RoomHost δ] [ErrorBody β] [SignatureScheme AuthTranscript]
  [ClientHost δ ρ β ω ψ] in
/-- A published application message adds one event and one payload, both with the identity of
the sender named in the envelope. -/
theorem adds_application (now : ℕ) (route : RouteEnvelope ρ β) (message : ApplicationRouteMessage)
    (client : MeshClient δ ρ β ω ψ) (hserved : client.refuses route.sender = false) :
    ∃ event : ApplicationRouteEvent,
      event.verifiedIdentity = client.verifiedIdentities[route.sender]? ∧
        Adds client (enqueueMeshApplicationRoute now route message client).2 [event]
          [(.payload (.application message), client.verifiedIdentities[route.sender]?)] := by
  rw [enqueueMeshApplicationRoute, Effect.get_bind, hserved, if_neg Bool.false_ne_true]
  exact ⟨_, rfl, ⟨rfl, rfl⟩⟩

omit [ContentHash ρ β] [RoomHost δ] [ErrorBody β] [SignatureScheme AuthTranscript]
  [ClientHost δ ρ β ω ψ] in
/-- An application message carries the identity of the channel's peer exactly when the sender
named in the envelope leads to no other one. -/
theorem application_bound_iff {route : RouteEnvelope ρ β} {message : ApplicationRouteMessage} :
    Bound remotePeer client (enqueueMeshApplicationRoute now route message client).2 ↔
      client.verifiedIdentities[route.sender]? = none ∨
        client.verifiedIdentities[route.sender]? = client.verifiedIdentities[remotePeer]? := by
  cases hrefused : client.refuses route.sender with
  | true =>
    rw [enqueueMeshApplicationRoute, Effect.get_bind, hrefused, if_pos rfl]
    rw [refuses, Bool.and_eq_true, verifiedIdentityForPeer, Option.isNone_iff_eq_none] at hrefused
    exact iff_of_true (Silent.bound ⟨rfl, rfl⟩ remotePeer) (.inl hrefused.2)
  | false =>
    obtain ⟨event, hevent, hadds⟩ := adds_application now route message client hrefused
    rw [hadds.bound_iff]
    simp only [List.mem_singleton, forall_eq, hevent]
    rw [refuses, verifiedIdentityForPeer] at hrefused
    cases hsender : client.verifiedIdentities[route.sender]? with
    | none =>
      rw [hsender, Option.isNone_none, Bool.and_true] at hrefused
      refine iff_of_true ⟨fun _ h => (by cases h), fun hrequire => ?_⟩ (.inl rfl)
      rw [hrefused] at hrequire
      cases hrequire
    | some identity =>
      constructor
      · rintro ⟨hsame, -⟩
        exact .inr (hsame identity rfl).symm
      · rintro (hnone | hsame)
        · cases hnone
        · rw [← hsame]
          exact ⟨fun _ h => h, fun _ => ⟨rfl, fun _ h => h⟩⟩

omit [ContentHash ρ β] [RoomHost δ] [ErrorBody β] [SignatureScheme AuthTranscript]
  [ClientHost δ ρ β ω ψ] in
/-- What an unrefused peer gets is taken under its own identity. -/
theorem bound_gate {α : Type} {a : α} {entry : MeshTaken ρ β} {m : Step δ ρ β ω ψ α}
    (hm : Effect.Keeps Silent m)
    (client : MeshClient δ ρ β ω ψ) : Bound remotePeer client
      ((if client.refuses remotePeer then pure a
        else do
          take entry (client.verifiedIdentityForPeer remotePeer)
          m : Step δ ρ β ω ψ α) client).2 := by
  cases hrefused : client.refuses remotePeer with
  | true => exact Silent.bound ⟨rfl, rfl⟩ remotePeer
  | false => exact bound_take_own (fun _ => hm) hrefused

omit [RoomHost δ] [SignatureScheme AuthTranscript] in
/-- A subscription is taken under the identity of the channel's peer. -/
theorem subscribe_bound {remotePeer watchId : String} {incoming : ρ}
    (client : MeshClient δ ρ β ω ψ) : Bound remotePeer client
      (handleMeshWatchRequest now remotePeer ⟨watchId, .subscribe incoming⟩ client).2 := by
  rw [handleMeshWatchRequest, Effect.get_bind]
  dsimp only
  cases hrefused : client.refuses remotePeer with
  | true =>
    rw [if_pos rfl]
    exact (silent_sendWatchError now watchId remotePeer 0 true _ client).bound remotePeer
  | false =>
    rw [if_neg Bool.false_ne_true]
    refine bound_take_own (fun _ => ?_) hrefused
    cases ClientHost.authorizeWatchRequest client.db remotePeer watchId incoming
      (client.verifiedIdentityForPeer remotePeer) with
    | error message => exact silent_sendWatchError _ _ _ _ _ _
    | ok requestKind =>
      dsimp only
      split
      · exact composes_silent.fail _
      · refine composes_silent.bind (silent_modify fun _ => ⟨rfl, rfl⟩) fun _ => ?_
        exact composes_silent.bind (silent_emit _ _ _) fun _ => composes_silent.pure _

omit [RoomHost δ] [ErrorBody β] [SignatureScheme AuthTranscript] in
/-- Operations are taken under the identity of the channel's peer. -/
theorem syncFrame_bound {sender messageId : String} {ops : List Operation}
    {entry : MeshTaken ρ β} (client : MeshClient δ ρ β ω ψ) :
    Bound remotePeer client
      (handleMeshSyncFrame now remotePeer (.sync sender messageId ops) entry client).2 := by
  rw [handleMeshSyncFrame, Effect.get_bind]
  refine bound_gate ?_ client
  refine composes_silent.bind (silent_onDb _) fun applied => ?_
  refine composes_silent.bind composes_silent.get fun client => ?_
  refine composes_silent.bind (composes_silent.ofExcept _) fun (encoding, encoded) => ?_
  exact bookkeeping_silent.send now _ _ remotePeer

omit [RoomHost δ] [ErrorBody β] [SignatureScheme AuthTranscript] in
/-- An acknowledgement is taken from any peer. -/
theorem ackFrame_bound_iff (now : ℕ) (sender messageId : String) (applied : ℕ)
    {entry : MeshTaken ρ β} :
    Bound remotePeer client
        (handleMeshSyncFrame now remotePeer (.ack sender messageId applied) entry client).2 ↔
      (client.sessionAuth.requireAuthenticatedPeers = true →
        (client.verifiedIdentities[remotePeer]?).isSome = true) := by
  rw [handleMeshSyncFrame]
  refine bound_take_unchecked_iff fun _ => ?_
  exact silent_modify fun _ => ⟨rfl, rfl⟩

/-- A sync payload is taken under the identity of the channel's peer: it is looked at only when
the peer is served. -/
theorem sync_bound {remotePeer encoding : String} {payload : JsonValue} (route : RouteEnvelope ρ β)
    (client : MeshClient δ ρ β ω ψ) : Bound remotePeer client
      (handlePayload now remotePeer route (.sync encoding payload) client).2 := by
  rw [handlePayload, Effect.get_bind]
  cases hrefused : client.refuses remotePeer with
  | true => exact Silent.bound ⟨rfl, rfl⟩ remotePeer
  | false =>
    rw [if_neg Bool.false_ne_true]
    cases hframe : ClientHost.decodeSyncPayload client.db encoding payload with
    | error e => exact Silent.bound ⟨rfl, rfl⟩ remotePeer
    | ok frame =>
      cases frame with
      | sync sender messageId ops => exact syncFrame_bound client
      | ack sender messageId applied =>
        refine (ackFrame_bound_iff now sender messageId applied).mpr fun hrequire => ?_
        rw [refuses, hrequire, Bool.true_and, verifiedIdentityForPeer] at hrefused
        rw [← Option.not_isNone, hrefused]
        rfl

/-- A step is bound to the channel's peer exactly when its names lead to no other identity and
what it takes without a check comes from a verified peer. -/
theorem handleAtom_bound_iff {atom : MeshAtom ρ β} :
    Bound remotePeer client (handleAtom now remotePeer atom client).2 ↔
      Own remotePeer client atom := by
  cases atom with
  | frame frame =>
    cases frame with
    | sync sender messageId ops => exact iff_of_true (syncFrame_bound client) trivial
    | ack sender messageId applied => exact ackFrame_bound_iff now sender messageId applied
  | introduction payload recommendation => exact introduce_bound_iff
  | payload route payload =>
    cases payload with
    | application message => exact application_bound_iff
    | presence peer => exact introduce_bound_iff
    | signal source signal => exact iff_of_true (Silent.bound ⟨rfl, rfl⟩ remotePeer) trivial
    | snapshotRequest root =>
      refine iff_of_true ?_ trivial
      change Bound remotePeer client (handlePayload now remotePeer route _ client).2
      rw [handlePayload, Effect.get_bind]
      refine bound_gate ?_ client
      refine composes_silent.bind (silent_onDb _) fun decision => ?_
      split
      · split
        · exact bookkeeping_silent.send now _ _ remotePeer
        · exact composes_silent.pure _
      · exact composes_silent.pure _
    | snapshotResponse root snapshot => exact bound_take_unchecked_iff fun _ => silent_onDb _
    | sync encoding payload => exact iff_of_true (sync_bound route client) trivial
    | peerExchange peers => exact iff_of_true (Silent.bound ⟨rfl, rfl⟩ remotePeer) trivial
    | authChallenge challenge =>
      exact iff_of_true ((silent_handleChallenge now remotePeer challenge client).bound _) trivial
    | authResponse response =>
      have hsilent : Effect.Keeps Silent (handlePayload now remotePeer route
          (.authResponse response) : Step δ ρ β ω ψ Unit) :=
        composes_silent.bind (silent_authResponse now response) fun _ => composes_silent.pure _
      exact iff_of_true ((hsilent client).bound remotePeer) trivial
    | watchRequest request =>
      obtain ⟨watchId, kind⟩ := request
      cases kind with
      | subscribe incoming => exact iff_of_true (subscribe_bound client) trivial
      | cancel =>
        exact bound_take_unchecked_iff (f := fun _ => dropIncomingWatch watchId) fun _ _ =>
          ⟨rfl, rfl⟩
    | watchEvent event => exact bound_take_unchecked_iff fun _ _ => ⟨rfl, rfl⟩
    | pullRequest request => exact iff_of_true (Silent.bound ⟨rfl, rfl⟩ remotePeer) trivial
    | pullResponse response => exact iff_of_true (Silent.bound ⟨rfl, rfl⟩ remotePeer) trivial
    | batch items => exact iff_of_true (Silent.bound ⟨rfl, rfl⟩ remotePeer) trivial

end Steps

end MeshClient

/-- Every peer may join a room of the counting database. -/
instance : RoomHost CountingDb := ⟨fun _ _ _ _ => true⟩

/-- A mesh client of a counting database. -/
abbrev CountingMesh := MeshClient CountingDb CountRequest CountBody ℕ (Option ℕ)

/-- A fresh mesh client with open channels to some peers. -/
def countingMesh (peerId : String) (sessionAuth : SessionAuthConfig) (peers : List String) :
    CountingMesh where
  db := ⟨0⟩
  config := { peerId := peerId }
  router := .new
  sessionAuth := sessionAuth
  sessionId := "session"
  room := "room"
  relayUrl := "relay"
  nextMessageSeq := 0
  peers := .ofList (peers.map fun peer => (peer, MeshChannel.opened))
  verifiedIdentities := ∅
  pendingAuthChallenges := ∅
  pendingAuthPeers := ∅
  recommendations := ∅
  inflight := ∅
  incomingWatches := ∅
  outgoingWatches := ∅
  random := lowerHex
  drawn := 0
  sent := []
  applications := []
  watched := []
  taken := []

/-- A route to `q` whose envelope names `p`. -/
def routeOfP (routeId : String) (payload : RoutePayload CountRequest CountBody) :
    RouteEnvelope CountRequest CountBody :=
  ⟨routeId, "p", "primadb", .peer "q", 6, 0, 0, none, none, ["p"], payload⟩

/-- The answer of `p` to the first challenge of `q` in the mesh. -/
def meshAnswer : RoutePayload CountRequest CountBody :=
  .authResponse
    ⟨"q/challenge/0", "p", "rp", announcedIdentity "alice" "s", "m",
      ⟨1, "q/challenge/0", "q", "replica", "p", "rp", "session", "s", "1", "m", "mesh",
        "alice", none, ∅, 0, 100⟩, "alice", "signature"⟩

end Primadb

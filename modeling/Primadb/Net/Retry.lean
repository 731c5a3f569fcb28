import Primadb.Net.Relay
import Primadb.Net.RelayClient

/-!
# Retried sync frames

A sync frame without an acknowledgement is wrapped again and sent through the relay. The
new route has a new id and the old content, and it meets two filters that may have seen
that content: the relay's and that of the receiving router. The retry gets through exactly
when both have forgotten it.
-/

namespace Primadb

/-- A cache knows neither the id nor the content key of the route. -/
def SeenCache.Forgot {ρ β : Type} (cache : SeenCache) (route : RouteEnvelope ρ β) : Prop :=
  route.routeId ∉ cache.seenRoutes ∧ ∀ key, dedupeKey route = some key → key ∉ cache.seenContent

/-- A route is new to those it did not go through and that forgot it. -/
theorem SeenCache.duplicate_eq_false {ρ β : Type} {cache : SeenCache} {peerId : String}
    {route : RouteEnvelope ρ β} :
    cache.duplicate peerId route = false ↔ peerId ∉ route.seenBy ∧ cache.Forgot route := by
  rw [SeenCache.duplicate, Bool.or_eq_false_iff, Bool.or_eq_false_iff, SeenCache.Forgot, and_assoc]
  refine and_congr (by simp) (and_congr ?_ ?_)
  · rw [Std.ExtTreeMap.mem_iff_contains, Bool.not_eq_true]
  · cases dedupeKey route with
    | none => simp
    | some key =>
      simp only [Option.any_some, Option.some.injEq, forall_eq']
      rw [Std.ExtTreeMap.mem_iff_contains, Bool.not_eq_true]

namespace RelayClient

variable {δ ρ β ω ψ : Type} [ContentHash ρ β]

/-- The route a retry wraps around a frame, at a state of the router. -/
def retried (client : RelayClient δ ρ β ω ψ) (now : ℕ) (router : RouterInner)
    (item : OutboundSync) : RouteEnvelope ρ β :=
  (client.config.wrapPayload now router (.sync item.encoding item.payload) item.target none).1

/-- A relay's stamp on a retried route adds the relay to those it went through. -/
theorem stamp_retried {T : Type} (relay : RouteRelayCore T ρ β) (client : RelayClient δ ρ β ω ψ)
    (now : ℕ) (router : RouterInner) (item : OutboundSync) :
    relay.stamp (client.retried now router item) =
      (client.retried now router item).markSeen relay.relayPeerId := by
  set route := client.retried now router item
  have hhash : (route.markSeen relay.relayPeerId).contentHash =
      stableContentHash route.payload := by
    rw [RouteEnvelope.markSeen]
    split <;> rfl
  have hkept : ((route.markSeen relay.relayPeerId).contentHash.orElse
      fun _ => stableContentHash route.payload) =
        (route.markSeen relay.relayPeerId).contentHash := by
    rw [hhash]
    cases stableContentHash route.payload <;> rfl
  rw [RouteRelayCore.stamp, hkept]

variable [ClientHost δ ρ β ω ψ]

/-- Wrap a frame again and send it. -/
def resend (now : ℕ) (item : OutboundSync) : Step δ ρ β ω ψ Unit := do
  let route ← wrap now (.sync item.encoding item.payload) item.target none
  sendRoute route

/-- `retry_inflight_state`. -/
def retryInflight (now : ℕ) : Step δ ρ β ω ψ ℕ := do
  let client ← Effect.get
  if !client.connected then pure 0
  else
    let outbound := client.inflight.toList.map Prod.snd
    outbound.forM (resend now)
    pure outbound.length

/-- Frames that are all sent again go out in their order, each in the route of a retry. -/
theorem resend_all {now : ℕ} {items : List OutboundSync} {client after : RelayClient δ ρ β ω ψ}
    (h : items.forM (resend now) client = (.ok (), after)) :
    ∃ routers : List RouterInner, routers.length = items.length ∧
      after.outbound = client.outbound ++ List.zipWith (client.retried now) routers items := by
  induction items generalizing client with
  | nil =>
    cases h
    exact ⟨[], rfl, (List.append_nil _).symm⟩
  | cons item items ih =>
    obtain ⟨_, next, hsent, hrest⟩ := Effect.bind_eq_ok h
    obtain ⟨routers, hlength, hout⟩ := ih hrest
    -- one frame: the router counts the route, and the route is sent
    have hnext : next.outbound = client.outbound ++ [client.retried now client.router item] ∧
        next.config = client.config := by
      obtain ⟨route, wrapped, hwrap, hsend⟩ := Effect.bind_eq_ok hsent
      cases hwrap
      rw [sendRoute_apply] at hsend
      split at hsend
      · cases hsend
      · split at hsend
        · cases hsend
          exact ⟨rfl, rfl⟩
        · cases hsend
    refine ⟨client.router :: routers, congrArg Nat.succ hlength, ?_⟩
    rw [hout, hnext.1, List.append_assoc, List.zipWith_cons_cons, List.singleton_append]
    have hsame : next.retried now = client.retried now := by
      funext router item
      rw [retried, retried, hnext.2]
    rw [hsame]

/-- A retry that succeeds sends every frame in flight again, each in the route of a retry at some
state of the router. -/
theorem retryInflight_sends {now count : ℕ} {client after : RelayClient δ ρ β ω ψ}
    (hconnected : client.connected = true) (h : retryInflight now client = (.ok count, after)) :
    count = client.inflight.toList.length ∧
      ∃ routers : List RouterInner, routers.length = count ∧ after.outbound =
        client.outbound ++ List.zipWith (client.retried now) routers
          (client.inflight.toList.map Prod.snd) := by
  rw [retryInflight, Effect.get_bind, hconnected, if_neg (by simp)] at h
  obtain ⟨_, sent, hall, hcount⟩ := Effect.bind_eq_ok h
  cases hcount
  rw [List.length_map]
  obtain ⟨routers, hlength, hout⟩ := resend_all hall
  exact ⟨rfl, routers, by rw [hlength, List.length_map], hout⟩

/-- The route an acknowledgement goes out in. -/
def ackRoute (client : RelayClient δ ρ β ω ψ) (now : ℕ) (peerId : String)
    (encoded : String × JsonValue) : RouteEnvelope ρ β :=
  (client.config.wrapPayload now client.router (.sync encoded.1 encoded.2) (.peer peerId) none).1

/-- What an acknowledgement of the frame needs: the sender is not refused, the operations are
applied, and the acknowledgement can be encoded and sent. -/
def CanAcknowledge (client : RelayClient δ ρ β ω ψ) (now : ℕ) (peerId sender messageId : String)
    (ops : List Operation) : Prop :=
  client.refuses peerId = false ∧ client.connected = true ∧
    ∃ applied encoded, (ClientHost.applySyncEnvelope sender ops client.db).1 = .ok applied ∧
      let db := (ClientHost.applySyncEnvelope sender ops client.db).2
      ClientHost.encodeSyncPayload db (.ack (ClientHost.replicaId db) messageId applied) =
          .ok encoded ∧
        ClientHost.routeFits db (client.ackRoute now peerId encoded) = .ok ()

/-- The client sends one route, with an acknowledgement of the message. -/
def Acknowledges [ErrorBody β] [SignatureScheme AuthTranscript]
    (client : RelayClient δ ρ β ω ψ) (now : ℕ) (route : RouteEnvelope ρ β) (messageId : String) :
    Prop :=
  let after := (handleRouteEnvelope now route client).2
  ∃ applied encoded sent, after.outbound = client.outbound ++ [sent] ∧
    ClientHost.encodeSyncPayload after.db
      (.ack (ClientHost.replicaId after.db) messageId applied) = .ok encoded ∧
    sent.payload = .sync encoded.1 encoded.2 ∧ sent.target = .peer route.sender

private theorem sendSyncFrame_apply (now : ℕ) (frame : SyncFrame) (peerId : String)
    (client : RelayClient δ ρ β ω ψ) :
    sendSyncFrame now frame (.peer peerId) client =
      match ClientHost.encodeSyncPayload client.db frame with
      | .error error => (.error error, client)
      | .ok encoded =>
        sendRoute (client.ackRoute now peerId encoded)
          { client with
            router := { client.router with
              nextRouteSeq := saturatingAdd client.router.nextRouteSeq 1 } } := by
  cases hencode : ClientHost.encodeSyncPayload client.db frame with
  | error error =>
    simp only [sendSyncFrame, Effect.bind_apply, Effect.get, Effect.ofExcept, hencode]
  | ok encoded =>
    simp only [sendSyncFrame, Effect.bind_apply, Effect.get, Effect.ofExcept, hencode, wrap,
      Effect.lift]
    rfl

variable {client : RelayClient δ ρ β ω ψ} {now : ℕ}

private theorem handleSyncFrame_acknowledges {peerId sender messageId : String}
    {ops : List Operation} (hserved : client.refuses peerId = false) :
    let after := (handleSyncFrame now (.sync sender messageId ops) (some peerId) client).2
    (∃ applied encoded sent, after.outbound = client.outbound ++ [sent] ∧
      ClientHost.encodeSyncPayload after.db
        (.ack (ClientHost.replicaId after.db) messageId applied) = .ok encoded ∧
      sent.payload = .sync encoded.1 encoded.2 ∧ sent.target = .peer peerId) ↔
    client.CanAcknowledge now peerId sender messageId ops := by
  have hnot : ¬(client.sessionAuth.requireAuthenticatedPeers = true ∧
      ((some peerId).bind client.verifiedIdentityForPeer).isNone = true) := by
    rintro ⟨hrequire, hnone⟩
    rw [Option.bind_some] at hnone
    rw [refuses, hrequire, hnone] at hserved
    cases hserved
  simp only [handleSyncFrame, Effect.bind_apply, Effect.get, if_neg hnot, onDb]
  rw [CanAcknowledge]
  rcases happly : ClientHost.applySyncEnvelope sender ops client.db with ⟨result, db⟩
  cases result with
  | error error => simp
  | ok applied =>
    simp only [sendSyncFrame_apply, Option.elim_some]
    cases hencode : ClientHost.encodeSyncPayload db
        (.ack (ClientHost.replicaId db) messageId applied) with
    | error error => simp [hencode]
    | ok encoded =>
      simp only [sendRoute_apply]
      have hroute : ({ client with db := db } : RelayClient δ ρ β ω ψ).ackRoute now peerId encoded =
          client.ackRoute now peerId encoded := rfl
      rw [hroute]
      cases hfits : ClientHost.routeFits db (client.ackRoute now peerId encoded) with
      | error error =>
        constructor
        · rintro ⟨_, _, _, hout, -⟩
          simp at hout
        · rintro ⟨-, -, _, _, happlied, hencoded, hfit⟩
          cases happlied
          cases hencode.symm.trans hencoded
          cases hfits.symm.trans hfit
      | ok =>
        cases hconnected : client.connected with
        | false => simp
        | true =>
          refine ⟨fun _ => ⟨hserved, rfl, applied, encoded, rfl, hencode, hfits⟩, fun _ => ?_⟩
          exact ⟨applied, encoded, _, rfl, hencode, rfl, rfl⟩

omit [ClientHost δ ρ β ω ψ] in
/-- The route a relay passes on is as well known as the retried one. -/
theorem forgot_stamp_retried {T : Type} {relay : RouteRelayCore T ρ β} {router : RouterInner}
    {item : OutboundSync} {cache : SeenCache} :
    cache.Forgot (relay.stamp (client.retried now router item)) ↔
      cache.Forgot (client.retried now router item) := by
  rw [stamp_retried, RouteEnvelope.markSeen]
  split <;> rfl

omit [ClientHost δ ρ β ω ψ] in
private theorem handle_mem_recipients {T : Type} {relay : RouteRelayCore T ρ β}
    {now serial senderSession receiverSession : ℕ} {router : RouterInner} {item : OutboundSync}
    {session : RouteRelaySession T ρ β}
    (hnew : relay.seen.duplicate relay.relayPeerId (client.retried now router item) = false)
    (hitem : item.target = .broadcast) (hsession : relay.sessions[receiverSession]? = some session)
    (hother : receiverSession ≠ senderSession)
    (hchannel : ∀ presence, session.presence = some presence →
      presence.route.channel = client.config.defaultChannel) :
    session.handle ∈ (relay.forwardRoute now serial senderSession
      (client.retried now router item)).1.recipients := by
  have hsessions : (relay.forwardRoute now serial senderSession
      (client.retried now router item)).2.sessions = relay.sessions := by
    rcases relay.forwardRoute_core now serial senderSession (client.retried now router item) with
      ⟨peer, hpeer, -⟩ | ⟨-, hsame, -⟩
    · cases hpeer
    · exact hsame
  have htarget : (relay.stamp (client.retried now router item)).target = .broadcast :=
    (relay.stamp_same _).2.trans hitem
  have hstamped : (relay.stamp (client.retried now router item)).channel =
      client.config.defaultChannel := by
    rw [stamp_retried, RouteEnvelope.markSeen]
    split <;> rfl
  rw [RouteRelayCore.forwardRoute_recipients hnew, RouteRelayCore.collectRouteRecipients, htarget]
  simp only [hsessions, List.mem_filterMap]
  refine ⟨(receiverSession, session),
    Std.ExtTreeMap.mem_toList_iff_getElem?_eq_some.mpr hsession, ?_⟩
  rw [if_neg hother]
  cases hpresence : session.presence with
  | none => rfl
  | some presence => simp only [hstamped, hchannel presence hpresence, if_true]

variable [ErrorBody β] [SignatureScheme AuthTranscript]

/-- A delivered sync route is acknowledged exactly when the client can; one that is not
delivered is not. -/
theorem acknowledges_iff {route : RouteEnvelope ρ β} {encoding sender messageId : String}
    {payload : JsonValue} {ops : List Operation} (hpayload : route.payload = .sync encoding payload)
    (hframe : ClientHost.decodeSyncPayload client.db encoding payload =
      .ok (.sync sender messageId ops)) :
    client.Acknowledges now route messageId ↔
      (client.config.accept now client.router route).1.deliver = true ∧
        client.CanAcknowledge now route.sender sender messageId ops := by
  have hseq : (client.config.accept now client.router route).2.nextRouteSeq =
      client.router.nextRouteSeq := by
    rw [RouterConfig.accept]
    split <;> rfl
  simp only [Acknowledges, handleRouteEnvelope, Effect.bind_apply, Effect.lift]
  rcases haccept : client.config.accept now client.router route with ⟨decision, router⟩
  rw [haccept] at hseq
  dsimp only at hseq
  cases hdeliver : decision.deliver with
  | false => simp [Effect.pure_apply]
  | true =>
    set accepted : RelayClient δ ρ β ω ψ := { client with router := router } with haccepted
    have hcan : accepted.CanAcknowledge now route.sender sender messageId ops ↔
        client.CanAcknowledge now route.sender sender messageId ops := by
      have hack : ∀ encoded, accepted.ackRoute now route.sender encoded =
          client.ackRoute now route.sender encoded := by
        intro encoded
        simp only [ackRoute, RouterConfig.wrapPayload, haccepted, hseq]
      simp only [CanAcknowledge, hack]
      rfl
    simp only [handleRoutePayload, hpayload, handlePayload, Effect.bind_apply, Effect.get, true_and,
      ← hcan, if_true]
    cases hserved : accepted.refuses route.sender with
    | true =>
      simp only [if_true, Effect.pure_apply, CanAcknowledge, hserved]
      simp [haccepted]
    | false =>
      simp only [haccepted, hframe]
      exact handleSyncFrame_acknowledges hserved

/-- A retry through a relay to a connected peer on the same channel is passed on and
acknowledged exactly when sender, relay and receiver have different names, relay and receiver
forgot the route, and the receiver can acknowledge the frame. -/
theorem retry_acknowledged_iff {T : Type} {sender receiver : RelayClient δ ρ β ω ψ}
    {relay : RouteRelayCore T ρ β} {now later serial senderSession receiverSession : ℕ}
    {router : RouterInner} {item : OutboundSync} {session : RouteRelaySession T ρ β}
    {replica messageId : String} {ops : List Operation}
    (hitem : item.target = .broadcast)
    (hframe : ClientHost.decodeSyncPayload receiver.db item.encoding item.payload =
      .ok (.sync replica messageId ops))
    (hsession : relay.sessions[receiverSession]? = some session)
    (hother : receiverSession ≠ senderSession)
    (hchannel : ∀ presence, session.presence = some presence →
      presence.route.channel = sender.config.defaultChannel)
    (hlocal : receiver.config.defaultChannel = sender.config.defaultChannel) :
    let route := sender.retried now router item
    let forward := (relay.forwardRoute now serial senderSession route).1
    (forward.route = some (relay.stamp route) ∧ session.handle ∈ forward.recipients ∧
        receiver.Acknowledges later (relay.stamp route) messageId) ↔
      relay.relayPeerId ≠ sender.config.peerId ∧ relay.seen.Forgot route ∧
        receiver.config.peerId ≠ sender.config.peerId ∧
        receiver.config.peerId ≠ relay.relayPeerId ∧ receiver.router.seen.Forgot route ∧
        receiver.CanAcknowledge later sender.config.peerId replica messageId ops := by
  intro route forward
  have hsame := relay.stamp_same route
  have hstamp : relay.stamp route = route.markSeen relay.relayPeerId :=
    stamp_retried relay sender now router item
  have hname : (relay.stamp route).sender = sender.config.peerId := by
    rw [hstamp, RouteEnvelope.markSeen]
    split <;> rfl
  have hrelay : relay.seen.duplicate relay.relayPeerId route = false ↔
      relay.relayPeerId ≠ sender.config.peerId ∧ relay.seen.Forgot route := by
    rw [SeenCache.duplicate_eq_false]
    simp [route, retried, RouterConfig.wrapPayload]
  have hdeliver : (receiver.config.accept later receiver.router (relay.stamp route)).1.deliver =
      true ↔ receiver.router.seen.duplicate receiver.config.peerId (relay.stamp route) = false := by
    have hmatches : matchesTarget receiver.config.peerId receiver.config.defaultChannel
        (relay.stamp route) = true := by
      have hchannel : (relay.stamp route).channel = sender.config.defaultChannel := by
        rw [hstamp, RouteEnvelope.markSeen]
        split <;> rfl
      rw [matchesTarget, hsame.2, show route.target = .broadcast from hitem]
      simp [hchannel, hlocal]
    rw [RouterConfig.accept]
    split <;> simp_all
  have hreceiver : receiver.router.seen.duplicate receiver.config.peerId (relay.stamp route) =
      false ↔ receiver.config.peerId ∉ (relay.stamp route).seenBy ∧
        receiver.router.seen.Forgot route := by
    rw [SeenCache.duplicate_eq_false, forgot_stamp_retried]
  have hacknowledges : receiver.Acknowledges later (relay.stamp route) messageId ↔ _ :=
    acknowledges_iff hsame.1 hframe
  have hseen : relay.relayPeerId ≠ sender.config.peerId →
      (relay.stamp route).seenBy = [sender.config.peerId, relay.relayPeerId] := by
    intro hdiff
    rw [hstamp, RouteEnvelope.markSeen, if_neg]
    · rfl
    · simpa [route, retried, RouterConfig.wrapPayload] using hdiff
  have hpassed : relay.seen.duplicate relay.relayPeerId route = false →
      forward.route = some (relay.stamp route) := by
    intro hnew
    simp only [forward, RouteRelayCore.forwardRoute, hnew]
    rw [if_neg Bool.false_ne_true]
    split <;> rfl
  rw [hacknowledges, hdeliver, hreceiver, hname]
  constructor
  · rintro ⟨hroute, -, ⟨hunseen, hforgot⟩, hcan⟩
    have hnew : relay.seen.duplicate relay.relayPeerId route = false := by
      by_contra hdup
      simp only [forward, RouteRelayCore.forwardRoute, Bool.not_eq_false] at hroute hdup
      rw [hdup] at hroute
      cases hroute
    obtain ⟨hdiff, hrelayForgot⟩ := hrelay.mp hnew
    simp only [hseen hdiff, List.mem_cons, List.not_mem_nil, or_false, not_or] at hunseen
    exact ⟨hdiff, hrelayForgot, hunseen.1, hunseen.2, hforgot, hcan⟩
  · rintro ⟨hdiff, hrelayForgot, hsender, hrelayed, hforgot, hcan⟩
    have hnew := hrelay.mpr ⟨hdiff, hrelayForgot⟩
    refine ⟨hpassed hnew, handle_mem_recipients hnew hitem hsession hother hchannel, ⟨?_, hforgot⟩,
      hcan⟩
    simp only [hseen hdiff, List.mem_cons, List.not_mem_nil, or_false, not_or]
    exact ⟨hsender, hrelayed⟩

end RelayClient

/-- A frame in flight. -/
def waitingFrame : OutboundSync := ⟨"sync_frame", .string "m", .broadcast⟩

/-- A frame that found no other session is sent again when one is connected, and the relay
drops it. -/
theorem retry_dropped :
    let sender := countingClient "a" {}
    let first := sender.retried 0 .new waitingFrame
    let relay : RouteRelayCore ℕ CountRequest CountBody :=
      ((((RouteRelayCore.new "relay" 8).insertSession 1 1).forwardRoute 0 0 1
        first).2).insertSession 2 2
    let again := sender.retried 1 { nextRouteSeq := 1 } waitingFrame
    first.routeId ≠ again.routeId ∧ (relay.forwardRoute 1 1 1 again).1.recipients = [] ∧
      (relay.forwardRoute 1 1 1 again).1.route = none := by
  decide +kernel

/-- A relay with two sessions. -/
def twoSessions : RouteRelayCore ℕ CountRequest CountBody :=
  ((RouteRelayCore.new "relay" 8).insertSession 1 1).insertSession 2 2

/-- A frame that no filter has seen is acknowledged. -/
theorem retry_acknowledged_fresh :
    let route := (countingClient "a" {}).retried 0 .new waitingFrame
    2 ∈ (twoSessions.forwardRoute 0 0 1 route).1.recipients ∧
      @RelayClient.Acknowledges _ _ _ _ _ _ _ _ (signedByAll _) (countingClient "b" {}) 0
        (twoSessions.stamp route) "m" := by
  refine ((@RelayClient.retry_acknowledged_iff _ _ _ _ _ _ _ _ (signedByAll _) _
    (countingClient "a" {}) (countingClient "b" {}) twoSessions 0 0 0 1 2 .new waitingFrame
    ⟨2, none⟩ "replica" "m" [] rfl rfl (by decide +kernel) (by decide) (by simp) rfl).mpr ?_).2
  refine ⟨by decide +kernel, ⟨by decide +kernel, fun key hkey => ?_⟩, by decide +kernel,
    by decide +kernel, ⟨by decide +kernel, fun key hkey => ?_⟩, by decide +kernel, rfl, 0,
    ("sync_frame", .string "m"), rfl, rfl, rfl⟩
  · exact Std.ExtTreeMap.not_mem_empty
  · exact Std.ExtTreeMap.not_mem_empty

end Primadb

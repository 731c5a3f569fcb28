import Primadb.Core.Run
import Primadb.Net.Route

/-!
# The relay

A relay keeps the sessions connected to it, what each announced last, and an index from
peer ids to sessions. It drops the routes it has seen and hands the others to the sessions
they are for. The number of the next route of the relay itself and the clock reading are
arguments.
-/

namespace Primadb

/-- The presence a session announced and the route it came with. -/
structure PresenceRecord (ρ β : Type) where
  peer : PeerPresence
  route : RouteEnvelope ρ β
  deriving DecidableEq

/-- A connected session. -/
structure RouteRelaySession (T ρ β : Type) where
  /-- Where its routes go. -/
  handle : T
  /-- What it announced last. -/
  presence : Option (PresenceRecord ρ β)
  deriving DecidableEq

/-- What the relay sends after a step. -/
structure RouteRelayForward (T ρ β : Type) where
  /-- To the session itself. -/
  bootstrap : Option (RouteEnvelope ρ β) := none
  /-- To whom the route goes. -/
  recipients : List T := []
  route : Option (RouteEnvelope ρ β) := none
  deriving DecidableEq

/-- `RouteRelayCore`. -/
structure RouteRelayCore (T ρ β : Type) where
  /-- Name of the relay. -/
  relayPeerId : String
  /-- How many routes it remembers. -/
  maxSeenRoutes : ℕ
  /-- The connected sessions. -/
  sessions : BTreeMap ℕ (RouteRelaySession T ρ β)
  /-- Which session a peer is reached through. -/
  peerIndex : BTreeMap String ℕ
  /-- What it has seen. -/
  seen : SeenCache

/-- `recommendation_score`. -/
def recommendationScore (peer : PeerPresence) : ℕ :=
  50 + min peer.capabilities.length 8 * 10 + min peer.topics.length 8 * 5

namespace RouteRelayCore

variable {T ρ β : Type}

/-- `RouteRelayCore::new`. -/
def new (relayPeerId : String) (maxSeenRoutes : ℕ) : RouteRelayCore T ρ β :=
  ⟨relayPeerId, max maxSeenRoutes 1, ∅, ∅, {}⟩

/-- `insert_session`. -/
def insertSession (core : RouteRelayCore T ρ β) (sessionId : ℕ) (handle : T) :
    RouteRelayCore T ρ β :=
  { core with sessions := core.sessions.insert sessionId ⟨handle, none⟩ }

/-- `collect_route_recipients`. -/
def collectRouteRecipients (core : RouteRelayCore T ρ β) (senderId : ℕ)
    (route : RouteEnvelope ρ β) : List T :=
  match route.target with
  | .peer peerId =>
    (core.peerIndex[peerId]?.bind fun sessionId =>
      if sessionId = senderId then none
      else core.sessions[sessionId]?.map (·.handle)).toList
  | .broadcast =>
    core.sessions.toList.filterMap fun (candidateId, session) =>
      if candidateId = senderId then none
      else
        match session.presence with
        | some presence =>
          if presence.route.channel = route.channel then some session.handle else none
        | none => some session.handle
  | .topic topic =>
    core.sessions.toList.filterMap fun (candidateId, session) =>
      if candidateId = senderId then none
      else
        match session.presence with
        | none => none
        | some presence =>
          if presence.peer.topics.contains topic || presence.route.channel == topic then
            some session.handle
          else none

/-- `collect_peer_recommendations`. -/
def collectPeerRecommendations (core : RouteRelayCore T ρ β) (now : ℕ) (excludeSessionId : ℕ) :
    List PeerRecommendation :=
  core.sessions.toList.filterMap fun (sessionId, session) =>
    if sessionId = excludeSessionId then none
    else session.presence.map fun presence =>
      { peer := presence.peer
        relayUrls := presence.peer.relayUrls
        score := recommendationScore presence.peer
        discoveredAtMillis := now }

variable [ContentHash ρ β]

/-- `build_bootstrap_route`. -/
def buildBootstrapRoute (now serial : ℕ) (relayPeerId channel targetPeerId : String)
    (existing : List (RouteEnvelope ρ β)) (recommendations : List PeerRecommendation) :
    Option (RouteEnvelope ρ β) :=
  let presences : List (RouteBatchItem ρ β) := existing.filterMap fun route =>
    match route.payload with
    | .presence peer => some (.presence peer)
    | _ => none
  let items :=
    if recommendations.isEmpty then presences
    else presences ++ [.peerExchange recommendations]
  if items.isEmpty then none
  else some
    { routeId := relayPeerId ++ "/bootstrap/" ++ lowerHex serial
      sender := relayPeerId
      channel := channel
      target := .peer targetPeerId
      ttl := 1
      hops := 0
      issuedAtMillis := now
      replyTo := none
      contentHash := stableContentHash (.batch items : RoutePayload ρ β)
      seenBy := [relayPeerId]
      payload := .batch items }

/-- The route as the relay passes it on. -/
def stamp (core : RouteRelayCore T ρ β) (route : RouteEnvelope ρ β) : RouteEnvelope ρ β :=
  let marked := route.markSeen core.relayPeerId
  { marked with contentHash := marked.contentHash.orElse fun _ => stableContentHash route.payload }

/-- The peer id a session announced last. -/
def peerIdOf (core : RouteRelayCore T ρ β) (sessionId : ℕ) : Option String :=
  (core.sessions[sessionId]?.bind (·.presence)).map (·.peer.peerId)

/-- The index and the session after a presence. -/
def announce (core : RouteRelayCore T ρ β) (sessionId : ℕ) (peer : PeerPresence)
    (route : RouteEnvelope ρ β) : RouteRelayCore T ρ β :=
  let cleared :=
    match core.peerIdOf sessionId with
    | some previousPeerId => core.peerIndex.erase previousPeerId
    | none => core.peerIndex
  { core with
    peerIndex := cleared.insert peer.peerId sessionId
    sessions :=
      match core.sessions[sessionId]? with
      | some session =>
        core.sessions.insert sessionId { session with presence := some ⟨peer, route⟩ }
      | none => core.sessions }

/-- The bootstrap route of a session that announces itself. -/
def bootstrap (core : RouteRelayCore T ρ β) (now serial sessionId : ℕ) (peer : PeerPresence)
    (channel : String) : Option (RouteEnvelope ρ β) :=
  let existing := core.sessions.toList.filterMap fun (candidateId, session) =>
    if candidateId = sessionId then none else session.presence.map (·.route)
  buildBootstrapRoute now serial core.relayPeerId channel peer.peerId existing
    (core.collectPeerRecommendations now sessionId)

/-- `forward_route`. -/
def forwardRoute (core : RouteRelayCore T ρ β) (now serial sessionId : ℕ)
    (route : RouteEnvelope ρ β) : RouteRelayForward T ρ β × RouteRelayCore T ρ β :=
  if core.seen.duplicate core.relayPeerId route then ({}, core)
  else
    let stamped := core.stamp route
    let core := { core with seen := core.seen.remember now core.maxSeenRoutes route }
    match stamped.payload with
    | .presence peer =>
      let announced := core.announce sessionId peer stamped
      ({ bootstrap := core.bootstrap now serial sessionId peer stamped.channel
         recipients := announced.collectRouteRecipients sessionId stamped
         route := some stamped }, announced)
    | _ =>
      ({ recipients := core.collectRouteRecipients sessionId stamped, route := some stamped },
        core)

/-- `disconnect_session`. -/
def disconnectSession (core : RouteRelayCore T ρ β) (now serial sessionId : ℕ) :
    Option (RouteRelayForward T ρ β) × RouteRelayCore T ρ β :=
  match core.sessions[sessionId]? with
  | none => (none, core)
  | some session =>
    let core := { core with sessions := core.sessions.erase sessionId }
    match session.presence with
    | none => (none, core)
    | some presence =>
      let core := { core with peerIndex := core.peerIndex.erase presence.peer.peerId }
      let offlinePeer :=
        { presence.peer with metadata := presence.peer.metadata.insert "state" "offline" }
      let route : RouteEnvelope ρ β :=
        { routeId := core.relayPeerId ++ "/disconnect/" ++ lowerHex serial
          sender := core.relayPeerId
          channel := presence.route.channel
          target := .broadcast
          ttl := 1
          hops := 0
          issuedAtMillis := now
          replyTo := none
          contentHash := stableContentHash (.presence offlinePeer : RoutePayload ρ β)
          seenBy := [core.relayPeerId]
          payload := .presence offlinePeer }
      (some { recipients := core.collectRouteRecipients sessionId route, route := some route },
        core)

omit [ContentHash ρ β] in
/-- A connected session has announced nothing yet. -/
theorem peerIdOf_insertSession (core : RouteRelayCore T ρ β) (sessionId other : ℕ) (handle : T) :
    (core.insertSession sessionId handle).peerIdOf other =
      if sessionId = other then none else core.peerIdOf other := by
  rw [peerIdOf, insertSession, BTreeMap.get_insert]
  split <;> rfl

omit [ContentHash ρ β] in
/-- An announcement names its session. -/
theorem peerIdOf_announce {core : RouteRelayCore T ρ β} {sessionId : ℕ}
    (hconnected : sessionId ∈ core.sessions) (peer : PeerPresence) (route : RouteEnvelope ρ β)
    (other : ℕ) :
    (core.announce sessionId peer route).peerIdOf other =
      if sessionId = other then some peer.peerId else core.peerIdOf other := by
  obtain ⟨session, hsession⟩ := Option.isSome_iff_exists.mp
    (Std.ExtTreeMap.mem_iff_isSome_getElem?.mp hconnected)
  simp only [peerIdOf, announce, hsession, BTreeMap.get_insert]
  split <;> rfl

omit [ContentHash ρ β] in
/-- A presence maps its id to the session and unmaps the id before it. -/
theorem peerIndex_announce (core : RouteRelayCore T ρ β) (sessionId : ℕ) (peer : PeerPresence)
    (route : RouteEnvelope ρ β) (peerId : String) :
    (core.announce sessionId peer route).peerIndex[peerId]? =
      if peer.peerId = peerId then some sessionId
      else if core.peerIdOf sessionId = some peerId then none else core.peerIndex[peerId]? := by
  rw [announce, BTreeMap.get_insert]
  congr 1
  cases core.peerIdOf sessionId with
  | none => rfl
  | some previous => simp

theorem stamp_same (core : RouteRelayCore T ρ β) (route : RouteEnvelope ρ β) :
    (core.stamp route).payload = route.payload ∧ (core.stamp route).target = route.target := by
  rw [stamp, RouteEnvelope.markSeen]
  dsimp only
  split <;> exact ⟨rfl, rfl⟩

/-- A new route goes to the sessions the relay then finds for it. -/
theorem forwardRoute_recipients {core : RouteRelayCore T ρ β} {route : RouteEnvelope ρ β}
    (hnew : core.seen.duplicate core.relayPeerId route = false) (now serial sessionId : ℕ) :
    (core.forwardRoute now serial sessionId route).1.recipients =
      (core.forwardRoute now serial sessionId route).2.collectRouteRecipients sessionId
        (core.stamp route) := by
  rw [forwardRoute, hnew]
  dsimp only
  split
  · rename_i h
    cases h
  · split <;> rfl

/-- The sessions and the index after a route: a new presence is announced, anything else
changes neither. -/
theorem forwardRoute_core (core : RouteRelayCore T ρ β) (now serial sessionId : ℕ)
    (route : RouteEnvelope ρ β) :
    let after := (core.forwardRoute now serial sessionId route).2
    (∃ peer, route.payload = .presence peer ∧
      core.seen.duplicate core.relayPeerId route = false ∧
      after.sessions = (core.announce sessionId peer (core.stamp route)).sessions ∧
      after.peerIndex = (core.announce sessionId peer (core.stamp route)).peerIndex) ∨
    ((core.seen.duplicate core.relayPeerId route = true ∨
        ∀ peer, route.payload ≠ .presence peer) ∧
      after.sessions = core.sessions ∧ after.peerIndex = core.peerIndex) := by
  have hpayload := (core.stamp_same route).1
  rw [forwardRoute]
  split
  · rename_i hdup
    exact .inr ⟨.inl hdup, rfl, rfl⟩
  · rename_i hnew
    dsimp only
    split
    · rename_i peer hpeer
      exact .inl ⟨peer, hpayload ▸ hpeer, by simpa using hnew, rfl, rfl⟩
    · rename_i hother
      exact .inr ⟨.inr fun peer hpeer => hother peer (hpayload.trans hpeer), rfl, rfl⟩

/-- The sessions and the index after a disconnect. -/
theorem disconnectSession_core (core : RouteRelayCore T ρ β) (now serial sessionId : ℕ) :
    let after := (core.disconnectSession now serial sessionId).2
    (∀ other, after.peerIdOf other =
        if sessionId = other then none else core.peerIdOf other) ∧
      ∀ peerId, after.peerIndex[peerId]? =
        if core.peerIdOf sessionId = some peerId then none else core.peerIndex[peerId]? := by
  have herased : ∀ other, ((core.sessions.erase sessionId)[other]?.bind (·.presence)).map
      (·.peer.peerId) = if sessionId = other then none else core.peerIdOf other := by
    intro other
    rw [BTreeMap.get_erase]
    split <;> rfl
  rw [disconnectSession]
  split
  · rename_i hnone
    have hid : core.peerIdOf sessionId = none := by rw [peerIdOf, hnone]; rfl
    refine ⟨fun other => ?_, fun peerId => by simp [hid]⟩
    split
    · rename_i heq
      exact heq ▸ hid
    · rfl
  · rename_i session hsession
    dsimp only
    split
    · rename_i hpresence
      have hid : core.peerIdOf sessionId = none := by
        rw [peerIdOf, hsession, Option.bind_some, hpresence]
        rfl
      exact ⟨herased, fun peerId => by simp [hid]⟩
    · rename_i presence hpresence
      have hid : core.peerIdOf sessionId = some presence.peer.peerId := by
        rw [peerIdOf, hsession, Option.bind_some, hpresence]
        rfl
      refine ⟨herased, fun peerId => ?_⟩
      simp only [hid, BTreeMap.get_erase, Option.some.injEq]

end RouteRelayCore

/-! ## Runs of a relay -/

/-- What happens at a relay. -/
inductive RelayEvent (T ρ β : Type) where
  | insert (sessionId : ℕ) (handle : T)
  | route (now serial sessionId : ℕ) (envelope : RouteEnvelope ρ β)
  | disconnect (now serial sessionId : ℕ)
  deriving DecidableEq

/-- A relay with the announcements of its connected sessions: for each the position and the
peer id of its latest presence route, passed on or not. -/
structure RelayRun (T ρ β : Type) where
  core : RouteRelayCore T ρ β
  /-- How many events there were. -/
  clock : ℕ
  /-- The latest announcement of each session. -/
  announced : BTreeMap ℕ (ℕ × String)

namespace RelayRun

variable {T ρ β : Type}

/-- A relay at its start. -/
def start (relayPeerId : String) (maxSeenRoutes : ℕ) : RelayRun T ρ β :=
  ⟨.new relayPeerId maxSeenRoutes, 0, ∅⟩

/-- The announcements after a route of a session. -/
def announcedBy (run : RelayRun T ρ β) (sessionId : ℕ) (envelope : RouteEnvelope ρ β) :
    BTreeMap ℕ (ℕ × String) :=
  match envelope.payload with
  | .presence peer =>
    if sessionId ∈ run.core.sessions then
      run.announced.insert sessionId (run.clock, peer.peerId)
    else run.announced
  | _ => run.announced

/-- One event. -/
def step [ContentHash ρ β] (run : RelayRun T ρ β) : RelayEvent T ρ β → RelayRun T ρ β
  | .insert sessionId handle =>
    ⟨run.core.insertSession sessionId handle, run.clock + 1, run.announced.erase sessionId⟩
  | .route now serial sessionId envelope =>
    ⟨(run.core.forwardRoute now serial sessionId envelope).2, run.clock + 1,
      run.announcedBy sessionId envelope⟩
  | .disconnect now serial sessionId =>
    ⟨(run.core.disconnectSession now serial sessionId).2, run.clock + 1,
      run.announced.erase sessionId⟩

/-- The session's latest announced id is this one, announced after every other connected
session whose latest announced id it is. -/
def Holds (run : RelayRun T ρ β) (sessionId : ℕ) (peerId : String) : Prop :=
  ∃ time, run.announced[sessionId]? = some (time, peerId) ∧
    ∀ other time', run.announced[other]? = some (time', peerId) → other ≠ sessionId → time' < time

/-- No other connected session announced this id last. -/
def Alone (run : RelayRun T ρ β) (sessionId : ℕ) (peerId : String) : Prop :=
  ∀ other ≠ sessionId, run.core.peerIdOf other ≠ some peerId

/-- What a step needs: session ids are not taken twice, a presence comes from a connected
session and is not dropped, and a session that leaves an id behind was alone with it. -/
def Orderly (run : RelayRun T ρ β) : RelayEvent T ρ β → Prop
  | .insert sessionId _ => sessionId ∉ run.core.sessions
  | .route _ _ sessionId envelope =>
    ∀ peer, envelope.payload = .presence peer →
      sessionId ∈ run.core.sessions ∧
        run.core.seen.duplicate run.core.relayPeerId envelope = false ∧
        ∀ previous, run.core.peerIdOf sessionId = some previous → previous ≠ peer.peerId →
          run.Alone sessionId previous
  | .disconnect _ _ sessionId =>
    ∀ previous, run.core.peerIdOf sessionId = some previous → run.Alone sessionId previous

/-- The index maps every held id to its holder, and the relay's records are the
announcements. -/
structure Indexed (run : RelayRun T ρ β) : Prop where
  /-- The records of the sessions. -/
  recorded : ∀ sessionId, run.core.peerIdOf sessionId = (run.announced[sessionId]?).map (·.2)
  /-- Announcements are of the past. -/
  past : ∀ (sessionId time : ℕ) (peerId : String), run.announced[sessionId]? = some (time, peerId) →
    time < run.clock
  index : ∀ sessionId peerId, run.Holds sessionId peerId →
    run.core.peerIndex[peerId]? = some sessionId

theorem indexed_start (relayPeerId : String) (maxSeenRoutes : ℕ) :
    (start relayPeerId maxSeenRoutes : RelayRun T ρ β).Indexed where
  recorded sessionId := by simp [start, RouteRelayCore.new, RouteRelayCore.peerIdOf]
  past sessionId time peerId h := by simp [start] at h
  index sessionId peerId h := by
    obtain ⟨time, htime, -⟩ := h
    simp [start] at htime

variable {run : RelayRun T ρ β} {peerId : String} {sessionId : ℕ}

/-- A session that is not connected has announced nothing. -/
theorem Indexed.announced_eq_none (h : run.Indexed) (hnone : run.core.peerIdOf sessionId = none) :
    run.announced[sessionId]? = none := by
  rw [h.recorded] at hnone
  simpa using hnone

/-- Leaving out the announcements of one session keeps the holders of the ids it did not
hold. -/
theorem Holds.of_erase {run after : RelayRun T ρ β} {gone sessionId : ℕ}
    (hafter : after.announced = run.announced.erase gone)
    (hgone : ∀ time, run.announced[gone]? ≠ some (time, peerId))
    (h : after.Holds sessionId peerId) :
    run.Holds sessionId peerId := by
  obtain ⟨time, htime, hlatest⟩ := h
  simp only [hafter, BTreeMap.get_erase] at htime hlatest
  refine ⟨time, ?_, fun other time' hother hne => hlatest other time' ?_ hne⟩
  · split at htime
    · cases htime
    · exact htime
  · rw [if_neg, hother]
    rintro rfl
    exact hgone time' hother

private theorem Indexed.not_announced (h : run.Indexed) {gone sessionId : ℕ}
    (halone : run.core.peerIdOf gone = some peerId → run.Alone gone peerId) {time : ℕ}
    (hheld : run.announced[sessionId]? = some (time, peerId)) (hne : sessionId ≠ gone) :
    run.core.peerIdOf gone ≠ some peerId := by
  intro hgone
  apply halone hgone sessionId hne
  rw [h.recorded, hheld]
  rfl

/-- A presence of a connected session that is not dropped keeps the relay indexed. -/
theorem Indexed.announce {run after : RelayRun T ρ β} (h : run.Indexed) {peer : PeerPresence}
    (route : RouteEnvelope ρ β) (hconnected : sessionId ∈ run.core.sessions)
    (halone : ∀ previous, run.core.peerIdOf sessionId = some previous →
      previous ≠ peer.peerId → run.Alone sessionId previous)
    (hids : ∀ other, after.core.peerIdOf other =
      (run.core.announce sessionId peer route).peerIdOf other)
    (hindex : after.core.peerIndex = (run.core.announce sessionId peer route).peerIndex)
    (hclock : after.clock = run.clock + 1)
    (hannounced : after.announced = run.announced.insert sessionId (run.clock, peer.peerId)) :
    after.Indexed where
  recorded other := by
    rw [hids, RouteRelayCore.peerIdOf_announce hconnected, hannounced, BTreeMap.get_insert]
    split
    · rfl
    · exact h.recorded other
  past other time peerId htime := by
    rw [hannounced, BTreeMap.get_insert] at htime
    rw [hclock]
    split at htime
    · cases htime
      omega
    · exact (h.past other time peerId htime).trans (Nat.lt_succ_self _)
  index holder peerId hholds := by
    obtain ⟨time, htime, hlatest⟩ := hholds
    simp only [hannounced, BTreeMap.get_insert] at htime hlatest
    rw [hindex, RouteRelayCore.peerIndex_announce]
    by_cases hpeer : peer.peerId = peerId
    · -- the id just announced is held by the session that announced it
      rw [if_pos hpeer]
      by_contra hne
      rw [if_neg fun heq => hne (by rw [heq])] at htime
      have hnewest := hlatest sessionId run.clock (by rw [if_pos rfl, hpeer])
        fun heq => hne (by rw [heq])
      exact absurd (h.past _ _ _ htime) (by omega)
    · rw [if_neg hpeer]
      have hne : sessionId ≠ holder := by
        rintro rfl
        rw [if_pos rfl] at htime
        exact hpeer (congrArg Prod.snd (Option.some.inj htime))
      rw [if_neg hne] at htime
      have hgone := h.not_announced (fun hid => halone peerId hid (Ne.symm hpeer)) htime hne.symm
      rw [if_neg hgone]
      refine h.index holder peerId ⟨time, htime, fun other time' hother hother_ne => ?_⟩
      refine hlatest other time' ?_ hother_ne
      rw [if_neg, hother]
      rintro rfl
      rw [h.recorded, hother] at hgone
      exact hgone rfl

private theorem Indexed.connected (h : run.Indexed) {sessionId time : ℕ}
    (hannounced : run.announced[sessionId]? = some (time, peerId)) :
    ∃ session, run.core.sessions[sessionId]? = some session := by
  have hid := h.recorded sessionId
  rw [hannounced, RouteRelayCore.peerIdOf] at hid
  cases hsession : run.core.sessions[sessionId]? with
  | none =>
    rw [hsession] at hid
    cases hid
  | some session => exact ⟨session, rfl⟩

variable [ContentHash ρ β]

/-- The records stay the announcements when presences come from connected sessions and those
dropped name the id recorded before. -/
theorem recorded_step
    (h : ∀ sessionId, run.core.peerIdOf sessionId = (run.announced[sessionId]?).map (·.2))
    (event : RelayEvent T ρ β) (hpresence : ∀ now serial sessionId envelope peer,
      event = .route now serial sessionId envelope → envelope.payload = .presence peer →
        sessionId ∈ run.core.sessions ∧
          (run.core.seen.duplicate run.core.relayPeerId envelope = true →
            run.core.peerIdOf sessionId = some peer.peerId)) (sessionId : ℕ) :
    (run.step event).core.peerIdOf sessionId =
      ((run.step event).announced[sessionId]?).map (·.2) := by
  cases event with
  | insert inserted handle =>
    simp only [RelayRun.step, RouteRelayCore.peerIdOf_insertSession, BTreeMap.get_erase]
    split
    · rfl
    · exact h sessionId
  | route now serial sender envelope =>
    rcases run.core.forwardRoute_core now serial sender envelope with
      ⟨peer, hpayload, -, hsessions, -⟩ | ⟨hunchanged, hsessions, -⟩
    · obtain ⟨hconnected, -⟩ := hpresence _ _ _ _ peer rfl hpayload
      have hid : (run.step (.route now serial sender envelope)).core.peerIdOf sessionId =
          (run.core.announce sender peer (run.core.stamp envelope)).peerIdOf sessionId := by
        simp only [RelayRun.step, RouteRelayCore.peerIdOf, hsessions]
      rw [hid, RouteRelayCore.peerIdOf_announce hconnected]
      simp only [RelayRun.step, announcedBy, hpayload, if_pos hconnected, BTreeMap.get_insert]
      split
      · rfl
      · exact h sessionId
    · have hid : (run.step (.route now serial sender envelope)).core.peerIdOf sessionId =
          run.core.peerIdOf sessionId := by
        simp only [RelayRun.step, RouteRelayCore.peerIdOf, hsessions]
      rw [hid, h sessionId, RelayRun.step, announcedBy]
      split
      · -- a dropped presence
        rename_i peer hpayload
        obtain ⟨hconnected, hsame⟩ := hpresence _ _ _ _ peer rfl hpayload
        have hdup := hunchanged.resolve_right fun hplain => hplain peer hpayload
        rw [if_pos hconnected, BTreeMap.get_insert]
        split
        · rename_i heq
          rw [← heq, ← h sender, hsame hdup]
          rfl
        · rfl
      · rfl
  | disconnect now serial gone =>
    obtain ⟨hids, -⟩ := run.core.disconnectSession_core now serial gone
    simp only [RelayRun.step, hids, BTreeMap.get_erase]
    split
    · rfl
    · exact h sessionId

private theorem Indexed.step (h : run.Indexed) {event : RelayEvent T ρ β}
    (horderly : run.Orderly event) : (run.step event).Indexed := by
  have hrecorded := recorded_step h.recorded event
    fun now serial sessionId envelope peer heq hpayload => by
    subst heq
    obtain ⟨hconnected, hnew, -⟩ := horderly peer hpayload
    exact ⟨hconnected, fun hdup => by rw [hnew] at hdup; cases hdup⟩
  cases event with
  | insert sessionId handle =>
    have hid : run.core.peerIdOf sessionId = none := by
      rw [RouteRelayCore.peerIdOf, Std.ExtTreeMap.getElem?_eq_none horderly]
      rfl
    have hnone := h.announced_eq_none hid
    refine ⟨hrecorded, fun other time peerId htime => ?_, fun holder peerId hholds => ?_⟩
    · simp only [RelayRun.step, BTreeMap.get_erase] at htime
      split at htime
      · cases htime
      · exact (h.past other time peerId htime).trans (Nat.lt_succ_self _)
    · refine h.index holder peerId (hholds.of_erase rfl fun time htime => ?_)
      rw [hnone] at htime
      cases htime
  | route now serial sessionId envelope =>
    rcases run.core.forwardRoute_core now serial sessionId envelope with
      ⟨peer, hpayload, -, hsessions, hindex⟩ | ⟨hunchanged, hsessions, hindex⟩
    · obtain ⟨hconnected, -, halone⟩ := horderly peer hpayload
      refine h.announce (run.core.stamp envelope) hconnected halone (fun other => ?_)
        hindex rfl ?_
      · simp only [RelayRun.step, RouteRelayCore.peerIdOf, hsessions]
      · simp only [RelayRun.step, announcedBy, hpayload, if_pos hconnected]
    · have hplain : ∀ peer, envelope.payload ≠ .presence peer := by
        rcases hunchanged with hdup | hplain
        · intro peer hpayload
          obtain ⟨-, hnew, -⟩ := horderly peer hpayload
          rw [hdup] at hnew
          cases hnew
        · exact hplain
      have hannounced : run.announcedBy sessionId envelope = run.announced := by
        rw [announcedBy]
        split
        · rename_i peer hpayload
          exact absurd hpayload (hplain peer)
        · rfl
      refine ⟨hrecorded, fun other time peerId htime => ?_, fun holder peerId hholds => ?_⟩
      · simp only [RelayRun.step, hannounced] at htime
        exact (h.past other time peerId htime).trans (Nat.lt_succ_self _)
      · simp only [RelayRun.step, hindex]
        simp only [Holds, RelayRun.step, hannounced] at hholds
        exact h.index holder peerId hholds
  | disconnect now serial sessionId =>
    obtain ⟨-, hindex⟩ := run.core.disconnectSession_core now serial sessionId
    refine ⟨hrecorded, fun other time peerId htime => ?_, fun holder peerId hholds => ?_⟩
    · simp only [RelayRun.step, BTreeMap.get_erase] at htime
      split at htime
      · cases htime
      · exact (h.past other time peerId htime).trans (Nat.lt_succ_self _)
    · obtain ⟨time, htime, -⟩ := id hholds
      simp only [RelayRun.step, BTreeMap.get_erase] at htime
      have hne : sessionId ≠ holder := by
        rintro rfl
        simp at htime
      rw [if_neg hne] at htime
      have hgone := h.not_announced (horderly peerId) htime hne.symm
      simp only [RelayRun.step, hindex, if_neg hgone]
      refine h.index holder peerId (hholds.of_erase rfl fun time htime => ?_)
      rw [h.recorded, htime] at hgone
      exact hgone rfl

/-- After a new orderly route of another session that does not announce the id itself, the
holder of an id is still mapped and has its handle. -/
theorem Indexed.route_kept (h : run.Indexed) (hholds : run.Holds sessionId peerId)
    {now serial sender : ℕ} {envelope : RouteEnvelope ρ β} (hsender : sender ≠ sessionId)
    (horderly : run.Orderly (.route now serial sender envelope))
    (hother : ∀ peer, envelope.payload = .presence peer → peer.peerId ≠ peerId) :
    let after := (run.core.forwardRoute now serial sender envelope).2
    after.peerIndex[peerId]? = some sessionId ∧
      after.sessions[sessionId]? = run.core.sessions[sessionId]? := by
  have hindex := h.index _ _ hholds
  obtain ⟨time, htime, -⟩ := hholds
  dsimp only
  rcases run.core.forwardRoute_core now serial sender envelope with
    ⟨peer, hpayload, -, hsessions, hmapped⟩ | ⟨-, hsessions, hmapped⟩
  · obtain ⟨hconnected, -, halone⟩ := horderly peer hpayload
    have hpeer := hother peer hpayload
    have hgone := h.not_announced (fun hid => halone peerId hid (Ne.symm hpeer)) htime hsender.symm
    rw [hmapped, hsessions]
    constructor
    · rw [RouteRelayCore.peerIndex_announce, if_neg hpeer, if_neg hgone, hindex]
    · rw [RouteRelayCore.announce]
      dsimp only
      split
      · rw [BTreeMap.get_insert, if_neg hsender]
      · rfl
  · rw [hmapped, hsessions]
    exact ⟨hindex, rfl⟩

/-- After every orderly run the holder of an id is mapped to it, and a new orderly route to
that id from another session that does not announce the id itself is handed to the holder. -/
theorem holder_reached {relayPeerId : String} {maxSeenRoutes : ℕ}
    {events : List (RelayEvent T ρ β)}
    (horderly : Run.Along step Orderly (start relayPeerId maxSeenRoutes) events) :
    let run := events.foldl step (start relayPeerId maxSeenRoutes)
    ∀ sessionId peerId, run.Holds sessionId peerId →
      run.core.peerIndex[peerId]? = some sessionId ∧
        ∃ session, run.core.sessions[sessionId]? = some session ∧
          ∀ now serial sender envelope, sender ≠ sessionId → envelope.target = .peer peerId →
            run.core.seen.duplicate run.core.relayPeerId envelope = false →
            run.Orderly (.route now serial sender envelope) →
            (∀ peer, envelope.payload = .presence peer → peer.peerId ≠ peerId) →
            (run.core.forwardRoute now serial sender envelope).1.recipients =
              [session.handle] := by
  intro run sessionId peerId hholds
  have hindexed : run.Indexed :=
    Run.Along.invariant (fun h hevent => h.step hevent)
      (indexed_start relayPeerId maxSeenRoutes) horderly
  obtain ⟨time, htime, -⟩ := id hholds
  obtain ⟨session, hsession⟩ := hindexed.connected htime
  refine ⟨hindexed.index _ _ hholds, session, hsession, ?_⟩
  intro now serial sender envelope hsender htarget hnew hroute hother
  obtain ⟨hmapped, hkept⟩ := hindexed.route_kept hholds hsender hroute hother
  rw [RouteRelayCore.forwardRoute_recipients hnew, RouteRelayCore.collectRouteRecipients,
    (run.core.stamp_same envelope).2, htarget]
  simp only [hmapped, Option.bind_some, if_neg (Ne.symm hsender), hkept, hsession,
    Option.map_some, Option.toList_some]

end RelayRun

/-- A hash that tells presences of different replicas apart. -/
abbrev replicaHash : ContentHash Unit Unit where
  stableContentHash
    | .presence peer => some ("presence:" ++ peer.replicaId)
    | _ => some "other"

/-- The presence route of a replica of a peer. -/
def presenceRoute (routeId peerId replicaId : String) : RouteEnvelope Unit Unit :=
  let peer : PeerPresence := ⟨peerId, replicaId, "websocket", none, [], [], ∅⟩
  ⟨routeId, peerId, "primadb", .broadcast, 6, 0, 0, none,
    some ("presence:" ++ replicaId), [peerId], .presence peer⟩

/-- Two sessions announce one id and the older disconnects; a peer reconnects and its second
presence is dropped. -/
def overtakenRuns : List (List (RelayEvent ℕ Unit Unit)) :=
  [[.insert 1 1, .insert 2 2, .route 0 0 1 (presenceRoute "p/route/1" "p" "a"),
      .route 0 1 2 (presenceRoute "p/route/2" "p" "b"), .disconnect 0 2 1],
    [.insert 1 1, .route 0 0 1 (presenceRoute "p/route/1" "p" "a"), .disconnect 0 1 1,
      .insert 2 2, .route 0 2 2 (presenceRoute "p/route/2" "p" "a")]]

/-- In both runs the second session holds the id and the id is mapped to no session. -/
theorem holder_unmapped :
    overtakenRuns.Forall fun events =>
      let run := events.foldl (@RelayRun.step ℕ Unit Unit replicaHash) (.start "relay" 8)
      run.Holds 2 "p" ∧ run.core.peerIndex["p"]? = none := by
  have honly : ∀ (run : RelayRun ℕ Unit Unit) (time : ℕ),
      run.announced = (∅ : BTreeMap ℕ (ℕ × String)).insert 2 (time, "p") → run.Holds 2 "p" := by
    intro run time hrun
    refine ⟨time, by simp [hrun], fun other time' hother hne => ?_⟩
    rw [hrun, BTreeMap.get_insert, if_neg (Ne.symm hne)] at hother
    simp at hother
  refine ⟨?_, ?_⟩
  · exact ⟨honly _ 3 (by decide +kernel), by decide +kernel⟩
  · exact ⟨honly _ 4 (by decide +kernel), by decide +kernel⟩

/-- A run with one announcement, and a route to the announced peer. -/
def announcedRun : List (RelayEvent ℕ Unit Unit) :=
  [.insert 1 1, .insert 2 2, .route 0 0 1 (presenceRoute "p/route/1" "p" "a")]

/-- The announced peer is reached. -/
theorem holder_reached_announcedRun :
    (announcedRun.foldl (@RelayRun.step ℕ Unit Unit replicaHash)
      (.start "relay" 8)).core.peerIndex["p"]? = some 1 := by
  refine (@RelayRun.holder_reached ℕ Unit Unit replicaHash "relay" 8 announcedRun ?_ 1 "p"
    ⟨2, by decide +kernel, ?_⟩).1
  · have hinsert : ∀ (run : RelayRun ℕ Unit Unit) (sessionId handle : ℕ),
        run.core.sessions.contains sessionId = false →
          run.Orderly (.insert sessionId handle) := by
      intro run sessionId handle hnew hmem
      rw [Std.ExtTreeMap.mem_iff_contains, hnew] at hmem
      cases hmem
    refine ⟨hinsert _ _ _ (by decide +kernel), hinsert _ _ _ (by decide +kernel), ?_, trivial⟩
    intro peer hpeer
    cases hpeer
    refine ⟨by decide +kernel, by decide +kernel, fun previous hprevious => ?_⟩
    cases hprevious
  · intro other time hother hne
    have hall : (announcedRun.foldl (@RelayRun.step ℕ Unit Unit replicaHash)
        (.start "relay" 8)).announced = (∅ : BTreeMap ℕ (ℕ × String)).insert 1 (2, "p") := by
      decide +kernel
    rw [hall, BTreeMap.get_insert, if_neg (Ne.symm hne)] at hother
    simp at hother

end Primadb

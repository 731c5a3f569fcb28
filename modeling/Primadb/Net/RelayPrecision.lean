import Primadb.Net.Relay

/-!
# Precise delivery

The index of a relay is changed apart from the sessions, and several sessions may announce one
peer. Still an id is only ever mapped to a connected session that is recorded with it. The record
is what the session announced last unless a presence was dropped as seen.
-/

namespace Primadb.RelayRun

variable {T ρ β : Type}

/-- What a step needs: session ids are not taken twice, routes come from connected sessions, and a
presence that is dropped names the id its session is recorded with. -/
def Faithful (run : RelayRun T ρ β) : RelayEvent T ρ β → Prop
  | .insert sessionId _ => sessionId ∉ run.core.sessions
  | .route _ _ sessionId envelope =>
    sessionId ∈ run.core.sessions ∧
      ∀ peer, envelope.payload = .presence peer →
        run.core.seen.duplicate run.core.relayPeerId envelope = true →
          run.core.peerIdOf sessionId = some peer.peerId
  | .disconnect _ _ _ => True

/-- The records are the announcements, and ids are mapped to sessions recorded with them. -/
structure Precise (run : RelayRun T ρ β) : Prop where
  /-- The records of the sessions. -/
  recorded : ∀ sessionId, run.core.peerIdOf sessionId = (run.announced[sessionId]?).map (·.2)
  index : ∀ peerId sessionId, run.core.peerIndex[peerId]? = some sessionId →
    run.core.peerIdOf sessionId = some peerId

private theorem precise_start (relayPeerId : String) (maxSeenRoutes : ℕ) :
    (start relayPeerId maxSeenRoutes : RelayRun T ρ β).Precise where
  recorded := (indexed_start relayPeerId maxSeenRoutes).recorded
  index peerId sessionId h := by simp [start, RouteRelayCore.new] at h

namespace Precise

variable {run : RelayRun T ρ β}

/-- A mapped session is connected and announced the id last. -/
theorem mapped (h : run.Precise) {peerId : String} {sessionId : ℕ}
    (hindex : run.core.peerIndex[peerId]? = some sessionId) :
    sessionId ∈ run.core.sessions ∧ ∃ time, run.announced[sessionId]? = some (time, peerId) := by
  have hid := h.index peerId sessionId hindex
  constructor
  · rw [RouteRelayCore.peerIdOf] at hid
    obtain ⟨record, hrecord, -⟩ := Option.map_eq_some_iff.mp hid
    obtain ⟨session, hsession, -⟩ := Option.bind_eq_some_iff.mp hrecord
    exact Std.ExtTreeMap.mem_iff_isSome_getElem?.mpr (Option.isSome_of_eq_some hsession)
  · rw [h.recorded] at hid
    obtain ⟨⟨time, other⟩, hannounced, rfl⟩ := Option.map_eq_some_iff.mp hid
    exact ⟨time, hannounced⟩

/-- A presence maps its id to its session and leaves no other id mapped to it. -/
theorem index_announce (h : run.Precise) {sender : ℕ} (hconnected : sender ∈ run.core.sessions)
    (peer : PeerPresence) (route : RouteEnvelope ρ β) {peerId : String} {sessionId : ℕ}
    (hindex : (run.core.announce sender peer route).peerIndex[peerId]? = some sessionId) :
    (run.core.announce sender peer route).peerIdOf sessionId = some peerId := by
  rw [RouteRelayCore.peerIndex_announce] at hindex
  rw [RouteRelayCore.peerIdOf_announce hconnected]
  split at hindex
  · rename_i hpeer
    rw [if_pos (Option.some.inj hindex), hpeer]
  · split at hindex
    · cases hindex
    · rename_i hother
      have hid := h.index peerId sessionId hindex
      rw [if_neg, hid]
      rintro rfl
      exact hother hid

variable [ContentHash ρ β]

private theorem step (h : run.Precise) {event : RelayEvent T ρ β} (hfaithful : run.Faithful event) :
    (run.step event).Precise := by
  refine ⟨recorded_step h.recorded event fun now serial sessionId envelope peer heq hpayload => ?_,
    fun peerId sessionId hindex => ?_⟩
  · subst heq
    exact ⟨hfaithful.1, hfaithful.2 peer hpayload⟩
  cases event with
  | insert inserted handle =>
    have hid := h.index peerId sessionId hindex
    have hne : inserted ≠ sessionId := by
      rintro rfl
      exact hfaithful (h.mapped hindex).1
    rw [RelayRun.step, RouteRelayCore.peerIdOf_insertSession, if_neg hne, hid]
  | route now serial sender envelope =>
    rcases run.core.forwardRoute_core now serial sender envelope with
      ⟨peer, -, -, hsessions, hmapped⟩ | ⟨-, hsessions, hmapped⟩
    · simp only [RelayRun.step, hmapped] at hindex
      have hid := h.index_announce hfaithful.1 peer (run.core.stamp envelope) hindex
      simpa only [RelayRun.step, RouteRelayCore.peerIdOf, hsessions] using hid
    · simp only [RelayRun.step, hmapped] at hindex
      have hid := h.index peerId sessionId hindex
      simpa only [RelayRun.step, RouteRelayCore.peerIdOf, hsessions] using hid
  | disconnect now serial gone =>
    obtain ⟨hids, hmapped⟩ := run.core.disconnectSession_core now serial gone
    simp only [RelayRun.step, hmapped] at hindex
    split at hindex
    · cases hindex
    · rename_i hother
      have hid := h.index peerId sessionId hindex
      rw [RelayRun.step, hids, if_neg, hid]
      rintro rfl
      exact hother hid

private theorem recipients (h : run.Precise) {now serial sender : ℕ} {envelope : RouteEnvelope ρ β}
    (hconnected : sender ∈ run.core.sessions) {peerId : String}
    (htarget : envelope.target = .peer peerId) {handle : T}
    (hhandle : handle ∈ (run.core.forwardRoute now serial sender envelope).1.recipients) :
    ∃ sessionId session time, sessionId ≠ sender ∧
      (run.step (.route now serial sender envelope)).core.sessions[sessionId]? = some session ∧
      session.handle = handle ∧
      (run.step (.route now serial sender envelope)).announced[sessionId]? =
        some (time, peerId) := by
  cases hdup : run.core.seen.duplicate run.core.relayPeerId envelope with
  | true =>
    rw [RouteRelayCore.forwardRoute, hdup] at hhandle
    cases hhandle
  | false =>
    have hfaithful : run.Faithful (.route now serial sender envelope) :=
      ⟨hconnected, fun peer _ hseen => by rw [hdup] at hseen; cases hseen⟩
    have hstep := h.step hfaithful
    rw [RouteRelayCore.forwardRoute_recipients hdup, RouteRelayCore.collectRouteRecipients,
      (run.core.stamp_same envelope).2, htarget, Option.mem_toList,
      Option.bind_eq_some_iff] at hhandle
    obtain ⟨sessionId, hindex, hsome⟩ := hhandle
    split at hsome
    · cases hsome
    · rename_i hne
      obtain ⟨session, hsession, rfl⟩ := Option.map_eq_some_iff.mp hsome
      obtain ⟨-, time, hannounced⟩ := hstep.mapped hindex
      exact ⟨sessionId, session, time, hne, hsession, rfl, hannounced⟩

end Precise

variable [ContentHash ρ β]

/-- After every faithful run each id is mapped to a connected session that announced it last, and
a route of a connected session to a peer is handed only to such a session other than the sender. -/
theorem delivery_precise {relayPeerId : String} {maxSeenRoutes : ℕ}
    {events : List (RelayEvent T ρ β)}
    (hfaithful : Run.Along step Faithful (start relayPeerId maxSeenRoutes) events) :
    let run := events.foldl step (start relayPeerId maxSeenRoutes)
    (∀ (peerId : String) (sessionId : ℕ), run.core.peerIndex[peerId]? = some sessionId →
      sessionId ∈ run.core.sessions ∧
        ∃ time, run.announced[sessionId]? = some (time, peerId)) ∧
    ∀ now serial sender envelope peerId, sender ∈ run.core.sessions →
      envelope.target = .peer peerId →
      ∀ handle ∈ (run.core.forwardRoute now serial sender envelope).1.recipients,
        ∃ sessionId session time, sessionId ≠ sender ∧
          (run.step (.route now serial sender envelope)).core.sessions[sessionId]? = some session ∧
          session.handle = handle ∧
          (run.step (.route now serial sender envelope)).announced[sessionId]? =
            some (time, peerId) := by
  intro run
  have hprecise : run.Precise := Run.Along.invariant (fun h hevent => h.step hevent)
    (precise_start relayPeerId maxSeenRoutes) hfaithful
  refine ⟨fun peerId sessionId hindex => hprecise.mapped hindex, ?_⟩
  intro now serial sender envelope peerId hconnected htarget handle hhandle
  exact hprecise.recipients hconnected htarget hhandle

/-- A session announces a peer and another session sends a route to it. -/
theorem delivery_precise_announcedRun :
    let run := announcedRun.foldl (@step ℕ Unit Unit replicaHash) (start "relay" 8)
    run.core.peerIndex["p"]? = some 1 ∧
      1 ∈ run.core.sessions ∧ ∃ time, run.announced[1]? = some (time, "p") := by
  intro run
  have hmapped : run.core.peerIndex["p"]? = some 1 := by decide +kernel
  refine ⟨hmapped, (@delivery_precise ℕ Unit Unit replicaHash "relay" 8 announcedRun ?_).1
    "p" 1 hmapped⟩
  refine ⟨?_, ?_, ⟨by decide +kernel, fun peer _ hdup => absurd hdup (by decide +kernel)⟩, trivial⟩
  · exact Std.ExtTreeMap.not_mem_empty
  · intro hmem
    exact absurd (Std.ExtTreeMap.mem_iff_contains.mp hmem) (by decide +kernel)

/-- A session announces "p", then "q" and then "p" again; the last presence is dropped, and a
route of another session to "q" goes to the session although "p" is what it announced last. -/
theorem delivery_after_dropped_presence :
    let events : List (RelayEvent ℕ Unit Unit) :=
      [.insert 1 1, .insert 2 2, .route 0 0 1 (presenceRoute "p/route/1" "p" "a"),
        .route 0 1 1 (presenceRoute "q/route/1" "q" "b"),
        .route 0 2 1 (presenceRoute "p/route/2" "p" "a")]
    let run := events.foldl (@step ℕ Unit Unit replicaHash) (start "relay" 8)
    run.core.peerIndex["q"]? = some 1 ∧ run.announced[1]? = some (4, "p") ∧
      (@RouteRelayCore.forwardRoute ℕ Unit Unit replicaHash run.core 0 3 2
        { presenceRoute "r/route/1" "r" "c" with
          target := .peer "q", payload := .signal "" .null }).1.recipients = [1] := by
  decide +kernel

end Primadb.RelayRun

import Primadb.Net.StreamAssembler

/-!
# Overlay sessions

An overlay session takes routes from several underlays. A route that its router has not seen is
dispatched: every application message in it is published on the application bus under an event id,
once for each id. The id is made of the route's id and of the message's namespace, protocol and
topic, so that of several messages of a batch that agree in these only the first is published.
-/

namespace Primadb

/-- `APPLICATION_STREAM_NAMESPACE`. -/
def applicationStreamNamespace : String := "primadb.applicationStream"

/-- `APPLICATION_STREAM_PROTOCOL_V1`. -/
def applicationStreamProtocolV1 : String := "primadb.applicationStream.v1"

/-- An underlay as it is seen by the events that came over it. -/
structure RouteOverlayUnderlayInfo where
  transport : RouteTransportKind
  /-- Whether it leads to the peer itself. -/
  direct : Bool
  /-- Whether it leads through a relay. -/
  relayRouted : Bool

/-- What an overlay session keeps, and what it has published. -/
structure RouteOverlaySession where
  config : RouterConfig
  router : RouterInner := .new
  /-- Ids of the events published. -/
  seenEventIds : BTreeSet String := ∅
  streams : ApplicationStreamAssembler := {}
  /-- Bodies of streams that wait to be taken. -/
  streamEvents : List ApplicationStreamEvent := []
  /-- The events handed to the application bus. -/
  published : List ApplicationRouteEvent := []

/-- `application_event_key`. -/
def applicationEventKey (message : ApplicationRouteMessage) : String :=
  message.namespaceName ++ ":" ++ message.protocol ++ ":" ++ message.topic.getD ""

/-- The id an application message of a route is published under. -/
def applicationEventId (routeId : String) (message : ApplicationRouteMessage) : String :=
  routeId ++ ":" ++ applicationEventKey message

/-- `accept_event`, given how frames are read from a body. -/
def ApplicationStreamAssembler.acceptEvent
    (decodeFrame : JsonValue → Option ApplicationStreamFrame) (parse : String → Option JsonValue)
    (event : ApplicationRouteEvent) (assembler : ApplicationStreamAssembler) :
    Option ApplicationStreamEvent × ApplicationStreamAssembler :=
  if event.message.namespaceName ≠ applicationStreamNamespace ∨
      event.message.protocol ≠ applicationStreamProtocolV1 then (none, assembler)
  else
    match decodeFrame event.message.body with
    | none => (none, assembler)
    | some frame => assembler.acceptFrame parse event frame

namespace RouteOverlaySession

variable {ρ β : Type} (decodeFrame : JsonValue → Option ApplicationStreamFrame)
  (parse : String → Option JsonValue)

/-- Publish an event unless its id was seen. -/
def publish (eventId : String) (event : ApplicationRouteEvent) (session : RouteOverlaySession) :
    Bool × RouteOverlaySession :=
  if session.seenEventIds.contains eventId then (false, session)
  else
    let accepted := session.streams.acceptEvent decodeFrame parse event
    (true, { session with
      seenEventIds := session.seenEventIds.insert eventId
      streams := accepted.2
      streamEvents := session.streamEvents ++ accepted.1.toList
      published := session.published ++ [event] })

/-- The event of an application message of a route. -/
def routeEvent (underlay : RouteOverlayUnderlayInfo) (now : ℕ) (route : RouteEnvelope ρ β)
    (message : ApplicationRouteMessage) : ApplicationRouteEvent :=
  ⟨route.routeId, route.sender, route.channel, route.target, route.issuedAtMillis, now,
    underlay.transport, none,
    ⟨route.sender, underlay.transport, underlay.direct, underlay.relayRouted, .unknown⟩, message⟩

/-- `dispatch_payload` of what is not a batch. -/
def dispatchItem (underlay : RouteOverlayUnderlayInfo) (now : ℕ) (route : RouteEnvelope ρ β)
    (payload : RoutePayload ρ β) (session : RouteOverlaySession) : Bool × RouteOverlaySession :=
  match payload with
  | .application message =>
    session.publish decodeFrame parse (applicationEventId route.routeId message)
      (routeEvent underlay now route message)
  | _ => (false, session)

/-- One round of the loop of `dispatch_payload` over the items of a batch. -/
def dispatchNext (underlay : RouteOverlayUnderlayInfo) (now : ℕ) (route : RouteEnvelope ρ β)
    (st : Bool × RouteOverlaySession) (item : RouteBatchItem ρ β) : Bool × RouteOverlaySession :=
  let dispatched := st.2.dispatchItem decodeFrame parse underlay now route (.fromBatchItem item)
  (st.1 || dispatched.1, dispatched.2)

/-- `dispatch_payload`; no item of a batch is a batch. -/
def dispatchPayload (underlay : RouteOverlayUnderlayInfo) (now : ℕ) (route : RouteEnvelope ρ β)
    (payload : RoutePayload ρ β) (session : RouteOverlaySession) : Bool × RouteOverlaySession :=
  match payload with
  | .batch items =>
    items.foldl (dispatchNext decodeFrame parse underlay now route) (false, session)
  | payload => session.dispatchItem decodeFrame parse underlay now route payload

/-- `accept_route_from_underlay`. -/
def acceptRouteFromUnderlay (underlay : RouteOverlayUnderlayInfo) (now : ℕ)
    (route : RouteEnvelope ρ β) (session : RouteOverlaySession) : Bool × RouteOverlaySession :=
  let accepted := session.config.accept now session.router route
  let session := { session with router := accepted.2 }
  if accepted.1.duplicate || !accepted.1.deliver then (false, session)
  else session.dispatchPayload decodeFrame parse underlay now route route.payload

/-- `accept_application_event_from_underlay`. -/
def acceptApplicationEventFromUnderlay (event : ApplicationRouteEvent)
    (session : RouteOverlaySession) : Bool × RouteOverlaySession :=
  session.publish decodeFrame parse (applicationEventId event.routeId event.message) event

/-- What comes from an underlay. -/
inductive Arrival (ρ β : Type) where
  | route (underlay : RouteOverlayUnderlayInfo) (now : ℕ) (route : RouteEnvelope ρ β)
  | event (event : ApplicationRouteEvent)

/-- Take what comes from an underlay. -/
def step (session : RouteOverlaySession) : Arrival ρ β → RouteOverlaySession
  | .route underlay now route =>
    (session.acceptRouteFromUnderlay decodeFrame parse underlay now route).2
  | .event event => (session.acceptApplicationEventFromUnderlay decodeFrame parse event).2

end RouteOverlaySession

/-! ## First of their key -/

section FirstOf

variable {α : Type} (key : α → String)

/-- The elements whose key was not seen before, neither at the start nor in the list. -/
def firstOf : BTreeSet String → List α → List α
  | _, [] => []
  | seen, a :: l =>
    if seen.contains (key a) then firstOf seen l else a :: firstOf (seen.insert (key a)) l

variable {key}

private theorem firstOf_sublist (key : α → String) (seen : BTreeSet String) (l : List α) :
    (firstOf key seen l).Sublist l := by
  induction l generalizing seen with
  | nil => exact .slnil
  | cons a l ih =>
    rw [firstOf]
    split
    · exact (ih seen).cons a
    · exact (ih _).cons_cons a

/-- All elements are the first of their key exactly when the keys differ and are new. -/
theorem firstOf_eq_self_iff {seen : BTreeSet String} {l : List α} :
    firstOf key seen l = l ↔ (l.map key).Nodup ∧ ∀ a ∈ l, key a ∉ seen := by
  induction l generalizing seen with
  | nil => simp [firstOf]
  | cons a l ih =>
    rw [firstOf, List.map_cons, List.nodup_cons]
    split
    · rename_i hseen
      refine iff_of_false (fun heq => ?_) fun h => ?_
      · have hlength := (firstOf_sublist key seen l).length_le
        rw [heq, List.length_cons] at hlength
        omega
      · exact h.2 a List.mem_cons_self (Std.ExtTreeSet.mem_iff_contains.mpr hseen)
    · rename_i hnew
      have hmem : ∀ b, key b ∈ seen.insert (key a) ↔ key a = key b ∨ key b ∈ seen := by
        intro b
        rw [Std.ExtTreeSet.mem_insert, Std.compare_eq_iff_eq]
      rw [List.cons_inj_right, ih, List.mem_map]
      constructor
      · rintro ⟨hnodup, hrest⟩
        refine ⟨⟨?_, hnodup⟩, fun b hb hin => ?_⟩
        · rintro ⟨b, hb, heq⟩
          exact hrest b hb ((hmem b).mpr (.inl heq.symm))
        · rcases List.mem_cons.mp hb with rfl | hb
          · exact hnew (Std.ExtTreeSet.mem_iff_contains.mp hin)
          · exact hrest b hb ((hmem b).mpr (.inr hin))
      · rintro ⟨⟨hother, hnodup⟩, hrest⟩
        refine ⟨hnodup, fun b hb hin => ?_⟩
        rcases (hmem b).mp hin with heq | hin
        · exact hother ⟨b, hb, heq.symm⟩
        · exact hrest b (List.mem_cons_of_mem _ hb) hin

/-- When all keys were seen, no element is left. -/
theorem firstOf_eq_nil {seen : BTreeSet String} {l : List α} (hseen : ∀ a ∈ l, key a ∈ seen) :
    firstOf key seen l = [] := by
  induction l with
  | nil => rfl
  | cons a l ih =>
    rw [firstOf, if_pos (Std.ExtTreeSet.mem_iff_contains.mp (hseen a List.mem_cons_self))]
    exact ih fun b hb => hseen b (List.mem_cons_of_mem _ hb)

end FirstOf

namespace RouteOverlaySession

variable {ρ β : Type} (decodeFrame : JsonValue → Option ApplicationStreamFrame)
  (parse : String → Option JsonValue) {session : RouteOverlaySession}
  {underlay : RouteOverlayUnderlayInfo} {now : ℕ} {route : RouteEnvelope ρ β}
  {messages : List ApplicationRouteMessage}

/-! ## What is published -/

private theorem publish_spec (session : RouteOverlaySession) (eventId : String)
    (event : ApplicationRouteEvent) :
    (session.publish decodeFrame parse eventId event).2.published =
        session.published ++ (if session.seenEventIds.contains eventId then [] else [event]) ∧
      ∀ id, id ∈ (session.publish decodeFrame parse eventId event).2.seenEventIds ↔
        id = eventId ∨ id ∈ session.seenEventIds := by
  rw [publish]
  split
  · rename_i hseen
    refine ⟨(List.append_nil _).symm, fun id => (or_iff_right_of_imp ?_).symm⟩
    rintro rfl
    exact Std.ExtTreeSet.mem_iff_contains.mpr hseen
  · refine ⟨rfl, fun id => ?_⟩
    rw [Std.ExtTreeSet.mem_insert, Std.compare_eq_iff_eq, eq_comm]

private theorem dispatchItems_spec (underlay : RouteOverlayUnderlayInfo) (now : ℕ)
    (route : RouteEnvelope ρ β) (messages : List ApplicationRouteMessage)
    (st : Bool × RouteOverlaySession) :
    ((messages.map .application).foldl (dispatchNext decodeFrame parse underlay now route)
        st).2.published = st.2.published ++
          (firstOf (applicationEventId route.routeId) st.2.seenEventIds messages).map
            (routeEvent underlay now route) ∧
      ∀ id, id ∈ ((messages.map .application).foldl
          (dispatchNext decodeFrame parse underlay now route) st).2.seenEventIds ↔
        (∃ m ∈ messages, applicationEventId route.routeId m = id) ∨ id ∈ st.2.seenEventIds := by
  induction messages generalizing st with
  | nil => simp [firstOf]
  | cons message messages ih =>
    obtain ⟨hpublished, hseen⟩ := publish_spec decodeFrame parse st.2
      (applicationEventId route.routeId message) (routeEvent underlay now route message)
    obtain ⟨hrest, hrestSeen⟩ := ih (dispatchNext decodeFrame parse underlay now route st
      (.application message))
    have hsets : (dispatchNext decodeFrame parse underlay now route st
        (.application message)).2 = (st.2.publish decodeFrame parse
          (applicationEventId route.routeId message) (routeEvent underlay now route message)).2 :=
      rfl
    rw [hsets] at hrest hrestSeen
    refine ⟨?_, fun id => ?_⟩
    · rw [List.map_cons, List.foldl_cons, hrest, hpublished, List.append_assoc]
      congr 1
      rw [publish, firstOf]
      split <;> rfl
    · rw [List.map_cons, List.foldl_cons, hrestSeen, hseen, or_left_comm, ← or_assoc]
      rw [List.exists_mem_cons_iff, eq_comm]

private theorem seen_publish {eventId id : String} {event : ApplicationRouteEvent}
    (hid : id ∈ session.seenEventIds) :
    id ∈ (session.publish decodeFrame parse eventId event).2.seenEventIds :=
  ((publish_spec decodeFrame parse session eventId event).2 id).mpr (.inr hid)

/-- Nothing seen is forgotten when an item is dispatched. -/
theorem seen_dispatchItem {payload : RoutePayload ρ β} {id : String}
    (hid : id ∈ session.seenEventIds) :
    id ∈ (session.dispatchItem decodeFrame parse underlay now route payload).2.seenEventIds := by
  cases payload with
  | application message => exact seen_publish decodeFrame parse hid
  | _ => exact hid

private theorem seen_dispatchPayload {payload : RoutePayload ρ β} {id : String}
    (hid : id ∈ session.seenEventIds) :
    id ∈ (session.dispatchPayload decodeFrame parse underlay now route payload).2.seenEventIds := by
  have hitems : ∀ (items : List (RouteBatchItem ρ β)) (st : Bool × RouteOverlaySession),
      id ∈ st.2.seenEventIds → id ∈ (items.foldl
        (dispatchNext decodeFrame parse underlay now route) st).2.seenEventIds := by
    intro items
    induction items with
    | nil => exact fun _ h => h
    | cons item items ih => exact fun st h => ih _ (seen_dispatchItem decodeFrame parse h)
  cases payload with
  | batch items => exact hitems items _ hid
  | _ => exact seen_dispatchItem decodeFrame parse hid

private theorem seen_step {arrival : Arrival ρ β} {id : String} (hid : id ∈ session.seenEventIds) :
    id ∈ (session.step decodeFrame parse arrival).seenEventIds := by
  cases arrival with
  | route underlay now route =>
    rw [step, acceptRouteFromUnderlay]
    split
    · exact hid
    · exact seen_dispatchPayload decodeFrame parse hid
  | event event => exact seen_publish decodeFrame parse hid

/-- Nothing seen is forgotten over any arrivals. -/
theorem seen_foldl_step {arrivals : List (Arrival ρ β)} {id : String}
    (hid : id ∈ session.seenEventIds) :
    id ∈ (arrivals.foldl (step decodeFrame parse) session).seenEventIds := by
  induction arrivals generalizing session with
  | nil => exact hid
  | cons arrival arrivals ih => exact ih (seen_step decodeFrame parse hid)

/-! ## Batches -/

/-- The route arrives as new and for this peer. -/
def Takes (session : RouteOverlaySession) (now : ℕ) (route : RouteEnvelope ρ β) : Prop :=
  (session.config.accept now session.router route).1.duplicate = false ∧
    (session.config.accept now session.router route).1.deliver = true

/-- Every message is published once when the route arrives, and none again when it arrives once
more, over any underlay and whatever came in between. -/
def DeliversWhole (session : RouteOverlaySession) (underlay : RouteOverlayUnderlayInfo) (now : ℕ)
    (route : RouteEnvelope ρ β) (messages : List ApplicationRouteMessage) : Prop :=
  let first := (session.acceptRouteFromUnderlay decodeFrame parse underlay now route).2
  (∃ events, first.published = session.published ++ events ∧
      events.Perm (messages.map (routeEvent underlay now route))) ∧
    ∀ (between : List (Arrival ρ β)) (underlay' : RouteOverlayUnderlayInfo) (now' : ℕ)
        (again : RouteEnvelope ρ β), again.routeId = route.routeId → again.payload = route.payload →
      let before := between.foldl (step decodeFrame parse) first
      (before.acceptRouteFromUnderlay decodeFrame parse underlay' now' again).2.published =
        before.published

private theorem acceptRoute_batch (htakes : session.Takes now route)
    (hbatch : route.payload = .batch (messages.map .application)) :
    (session.acceptRouteFromUnderlay decodeFrame parse underlay now route).2.published =
        session.published ++
          (firstOf (applicationEventId route.routeId) session.seenEventIds messages).map
            (routeEvent underlay now route) ∧
      ∀ m ∈ messages, applicationEventId route.routeId m ∈
        (session.acceptRouteFromUnderlay decodeFrame parse underlay now route).2.seenEventIds := by
  obtain ⟨hpublished, hseen⟩ := dispatchItems_spec decodeFrame parse underlay now route messages
    (false, { session with router := (session.config.accept now session.router route).2 })
  rw [acceptRouteFromUnderlay, htakes.1, htakes.2, hbatch]
  exact ⟨hpublished, fun m hm => (hseen _).mpr (.inl ⟨m, hm, rfl⟩)⟩

/-- A batch whose ids were all seen publishes nothing, taken or not. -/
theorem acceptRoute_batch_of_seen (hbatch : route.payload = .batch (messages.map .application))
    (hseen : ∀ m ∈ messages, applicationEventId route.routeId m ∈ session.seenEventIds) :
    (session.acceptRouteFromUnderlay decodeFrame parse underlay now route).2.published =
      session.published := by
  by_cases htakes : session.Takes now route
  · rw [(acceptRoute_batch decodeFrame parse htakes hbatch).1, firstOf_eq_nil hseen]
    exact List.append_nil _
  · rw [acceptRouteFromUnderlay, if_pos]
    rw [Takes, not_and_or, Bool.not_eq_false, Bool.not_eq_true] at htakes
    rw [Bool.or_eq_true, Bool.not_eq_true']
    exact htakes

private theorem nodup_eventIds_iff {routeId : String} :
    (messages.map (applicationEventId routeId)).Nodup ↔
      (messages.map applicationEventKey).Nodup := by
  have hinjective : Function.Injective (fun key => routeId ++ ":" ++ key) :=
    fun _ _ h => String.append_right_inj _ |>.mp h
  have hids : messages.map (applicationEventId routeId) =
      (messages.map applicationEventKey).map (fun key => routeId ++ ":" ++ key) := by
    rw [List.map_map]
    rfl
  rw [hids, List.nodup_map_iff hinjective]

/-- A batch that is taken is delivered whole exactly when no two messages agree in namespace,
protocol and topic, and none was published before. -/
theorem deliversWhole_iff (htakes : session.Takes now route)
    (hbatch : route.payload = .batch (messages.map .application)) :
    session.DeliversWhole decodeFrame parse underlay now route messages ↔
      (messages.map applicationEventKey).Nodup ∧
        ∀ m ∈ messages, applicationEventId route.routeId m ∉ session.seenEventIds := by
  obtain ⟨hpublished, hseen⟩ := acceptRoute_batch decodeFrame parse htakes hbatch
  rw [← nodup_eventIds_iff, ← firstOf_eq_self_iff]
  constructor
  · rintro ⟨⟨events, hevents, hperm⟩, -⟩
    rw [hpublished, List.append_cancel_left_eq] at hevents
    have hlength := hperm.length_eq
    rw [← hevents, List.length_map, List.length_map] at hlength
    exact (firstOf_sublist _ _ _).eq_of_length hlength
  · intro hall
    refine ⟨⟨_, hpublished, by rw [hall]⟩, ?_⟩
    intro between underlay' now' again hid hpayload
    refine acceptRoute_batch_of_seen decodeFrame parse (hpayload.trans hbatch) fun m hm => ?_
    rw [hid]
    exact seen_foldl_step decodeFrame parse (hseen m hm)

/-- A batch of messages for everyone on a channel. -/
def smallBatch (messages : List ApplicationRouteMessage) : RouteEnvelope Unit Unit :=
  ⟨"r", "p", "primadb", .broadcast, 6, 0, 0, none, none, ["p"],
    .batch (messages.map .application)⟩

/-- A message of an application with that topic and body. -/
def smallMessage (topic : Option String) (body : JsonValue) : ApplicationRouteMessage :=
  ⟨"app", "v1", topic, body, ∅⟩

/-- A session of another peer. -/
def smallSession : RouteOverlaySession := { config := { peerId := "q" } }

/-- An underlay that leads to the peer itself. -/
def smallUnderlay : RouteOverlayUnderlayInfo := ⟨.inMemory, true, false⟩

/-- Two messages with different topics are delivered whole. -/
theorem deliversWhole_iff_smallBatch :
    let messages := [smallMessage (some "a") .null, smallMessage (some "b") .null]
    smallSession.DeliversWhole (fun _ => none) (fun _ => none) smallUnderlay 0
      (smallBatch messages) messages := by
  refine (deliversWhole_iff _ _ ⟨?_, ?_⟩ rfl).mpr ⟨?_, ?_⟩
  · decide +kernel
  · decide +kernel
  · decide +kernel
  · exact fun _ _ => Std.ExtTreeSet.not_mem_empty

/-- Of two messages with the same topic only the first is published. -/
theorem batch_loses_message :
    let messages := [smallMessage none (.bool true), smallMessage none (.bool false)]
    let after := (smallSession.acceptRouteFromUnderlay (fun _ => none) (fun _ => none)
      smallUnderlay 0 (smallBatch messages)).2
    smallSession.Takes 0 (smallBatch messages) ∧
      after.published.map (·.message.body) = [.bool true] := by
  refine ⟨⟨?_, ?_⟩, ?_⟩ <;> decide +kernel

end RouteOverlaySession

end Primadb

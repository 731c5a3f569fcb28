import Primadb.Net.Relay

/-!
# Routes dropped as duplicates

Peers number the routes they wrap and start again from nothing when they restart. A relay
or a router drops a route whose id or content key it has seen. The routes it has seen are
routes it received, so a dropped route shares its id or its content key with an earlier
one. The two were sent alike when the id was not used again and the key tells senders,
payloads and targets apart.
-/

namespace Primadb

variable {T ρ β : Type}

/-! ## What a cache holds -/

/-- Removing oldest keys leaves only old keys. -/
theorem mem_of_mem_removeOldest {α : Type} {n : ℕ} {seen : BTreeMap String α} {key : String}
    (h : key ∈ removeOldest n seen) : key ∈ seen := by
  induction n generalizing seen with
  | zero => exact h
  | succ n ih =>
    rw [removeOldest] at h
    split at h
    · exact h
    · exact Std.ExtTreeMap.mem_of_mem_erase (ih h)

private theorem mem_of_mem_trimSeenCache {seen : BTreeMap String ℕ} {key new : String}
    {seenAt maxSeenRoutes : ℕ}
    (h : key ∈ trimSeenCache (seen.insert new seenAt) maxSeenRoutes) : key = new ∨ key ∈ seen := by
  have hmem := mem_of_mem_removeOldest h
  rw [Std.ExtTreeMap.mem_insert, Std.compare_eq_iff_eq] at hmem
  exact hmem.imp_left Eq.symm

/-- The cache holds ids and content keys of these routes only. -/
structure SeenCache.From (cache : SeenCache) (received : List (RouteEnvelope ρ β)) : Prop where
  /-- The ids. -/
  routes : ∀ id ∈ cache.seenRoutes, ∃ earlier ∈ received, earlier.routeId = id
  content : ∀ key ∈ cache.seenContent, ∃ earlier ∈ received, dedupeKey earlier = some key

namespace SeenCache.From

variable {cache : SeenCache} {received : List (RouteEnvelope ρ β)} {envelope : RouteEnvelope ρ β}

private theorem empty : From {} received where
  routes _ h := absurd h Std.ExtTreeMap.not_mem_empty
  content _ h := absurd h Std.ExtTreeMap.not_mem_empty

/-- Receiving more routes changes nothing. -/
theorem mono (h : cache.From received) : cache.From (received ++ [envelope]) where
  routes id hid := by
    obtain ⟨earlier, hmem, heq⟩ := h.routes id hid
    exact ⟨earlier, List.mem_append_left _ hmem, heq⟩
  content key hkey := by
    obtain ⟨earlier, hmem, heq⟩ := h.content key hkey
    exact ⟨earlier, List.mem_append_left _ hmem, heq⟩

private theorem remember (h : cache.From received) (seenAt maxSeenRoutes : ℕ) :
    (cache.remember seenAt maxSeenRoutes envelope).From (received ++ [envelope]) where
  routes id hid := by
    rcases mem_of_mem_trimSeenCache hid with rfl | hid
    · exact ⟨envelope, by simp, rfl⟩
    · exact h.mono.routes id hid
  content key hkey := by
    simp only [SeenCache.remember] at hkey
    split at hkey
    · exact h.mono.content key hkey
    · rename_i own hown
      rcases mem_of_mem_trimSeenCache hkey with rfl | hkey
      · exact ⟨envelope, by simp, hown⟩
      · exact h.mono.content key hkey

/-- A duplicate went through the receiver, or shares its id or content key with a received
route. -/
theorem of_duplicate (h : cache.From received) {peerId : String}
    (hdup : cache.duplicate peerId envelope = true) :
    peerId ∈ envelope.seenBy ∨ (∃ earlier ∈ received, earlier.routeId = envelope.routeId) ∨
      ∃ key, dedupeKey envelope = some key ∧
        ∃ earlier ∈ received, dedupeKey earlier = some key := by
  rw [SeenCache.duplicate, Bool.or_eq_true, Bool.or_eq_true, Option.any_eq_true] at hdup
  rcases hdup with (hseen | hroute) | ⟨key, hkey, hcontent⟩
  · exact .inl (by simpa using hseen)
  · exact .inr (.inl (h.routes _ (Std.ExtTreeMap.mem_iff_contains.mpr hroute)))
  · exact .inr (.inr ⟨key, hkey, h.content _ (Std.ExtTreeMap.mem_iff_contains.mpr hcontent)⟩)

end SeenCache.From

/-! ## Content keys -/

/-- Among the given payloads, different ones have different hashes, and hashes are of one length. -/
structure ContentHash.Lawful [ContentHash ρ β] (payloads : Set (RoutePayload ρ β)) : Prop where
  /-- Hashes do not collide. -/
  collisionFree : ∀ payload ∈ payloads, ∀ payload' ∈ payloads, ∀ hash,
    stableContentHash payload = some hash → stableContentHash payload' = some hash →
      payload = payload'
  /-- The length of a hash. -/
  fixedLength : ∃ length, ∀ payload ∈ payloads, ∀ hash,
    stableContentHash payload = some hash → hash.toList.length = length

/-- The hash of the route, if it has one, is that of its payload. -/
def RouteEnvelope.Sealed [ContentHash ρ β] (envelope : RouteEnvelope ρ β) : Prop :=
  ∀ hash, envelope.contentHash = some hash → stableContentHash envelope.payload = some hash

/-- Sealed routes of senders without colons share a content key only when they share sender,
answered route and payload. -/
theorem dedupeKey_inj [ContentHash ρ β] {payloads : Set (RoutePayload ρ β)}
    (hlawful : ContentHash.Lawful payloads) {envelope earlier : RouteEnvelope ρ β} {key : String}
    (hmem : envelope.payload ∈ payloads) (hmem' : earlier.payload ∈ payloads)
    (hkey : dedupeKey envelope = some key) (hearlier : dedupeKey earlier = some key)
    (hsealed : envelope.Sealed) (hsealed' : earlier.Sealed)
    (hplain : ':' ∉ envelope.sender.toList) (hplain' : ':' ∉ earlier.sender.toList) :
    earlier.sender = envelope.sender ∧ earlier.replyTo.getD "" = envelope.replyTo.getD "" ∧
      earlier.payload = envelope.payload := by
  obtain ⟨hash, hhash, rfl⟩ := Option.map_eq_some_iff.mp hkey
  obtain ⟨hash', hhash', hsame⟩ := Option.map_eq_some_iff.mp hearlier
  obtain ⟨length, hlength⟩ := hlawful.fixedLength
  have hof := hsealed hash hhash
  have hof' := hsealed' hash' hhash'
  have hlist := congrArg String.toList hsame
  simp only [String.toList_append] at hlist
  obtain ⟨hfront, hback⟩ := List.append_inj' hlist
    ((hlength _ hmem' _ hof').trans (hlength _ hmem _ hof).symm)
  obtain rfl := String.toList_injective hback
  obtain ⟨hfront, -⟩ := List.append_inj' hfront rfl
  simp only [List.append_assoc] at hfront
  obtain ⟨hsender, hreply⟩ := append_separator_inj hplain' hplain hfront
  exact ⟨String.toList_injective hsender, String.toList_injective hreply,
    hlawful.collisionFree _ hmem' _ hmem _ hof' hof⟩

/-! ## Receivers -/

/-- A relay, or the router of a peer. -/
inductive Receiver (T ρ β : Type) where
  | relay (core : RouteRelayCore T ρ β)
  | router (config : RouterConfig) (inner : RouterInner)

namespace Receiver

/-- The id under which it marks routes. -/
def name : Receiver T ρ β → String
  | relay core => core.relayPeerId
  | router config _ => config.peerId

/-- How many routes it remembers. -/
def maxSeenRoutes : Receiver T ρ β → ℕ
  | relay core => core.maxSeenRoutes
  | router config _ => config.maxSeenRoutes

/-- What it has seen. -/
def seen : Receiver T ρ β → SeenCache
  | relay core => core.seen
  | router _ inner => inner.seen

/-- A process that starts again has seen nothing. -/
def restart : Receiver T ρ β → Receiver T ρ β
  | relay core => .relay (.new core.relayPeerId core.maxSeenRoutes)
  | router config _ => .router config .new

/-- Take a route; the first part says whether it was dropped. -/
def receive [ContentHash ρ β] (receiver : Receiver T ρ β) (now serial sessionId : ℕ)
    (envelope : RouteEnvelope ρ β) : Bool × Receiver T ρ β :=
  match receiver with
  | relay core =>
    let (forward, core) := core.forwardRoute now serial sessionId envelope
    (forward.route.isNone, .relay core)
  | router config inner =>
    let (decision, inner) := config.accept now inner envelope
    (decision.duplicate, .router config inner)

/-- A restarted process has an empty cache. -/
theorem seen_restart (receiver : Receiver T ρ β) : receiver.restart.seen = {} := by
  cases receiver <;> rfl

variable [ContentHash ρ β]

/-- What is dropped, and what is remembered otherwise. -/
theorem receive_eq (receiver : Receiver T ρ β) (now serial sessionId : ℕ)
    (envelope : RouteEnvelope ρ β) :
    (receiver.receive now serial sessionId envelope).1 =
        receiver.seen.duplicate receiver.name envelope ∧
      (receiver.receive now serial sessionId envelope).2.seen =
        if receiver.seen.duplicate receiver.name envelope then receiver.seen
        else receiver.seen.remember now receiver.maxSeenRoutes envelope := by
  cases receiver with
  | relay core =>
    simp only [receive, RouteRelayCore.forwardRoute, seen, name, maxSeenRoutes]
    split
    · rename_i h
      simp [h]
    · rename_i h
      split <;> simp [h, RouteRelayCore.announce]
  | router config inner =>
    simp only [receive, RouterConfig.accept, seen, name, maxSeenRoutes]
    split
    · rename_i h
      simp [h]
    · rename_i h
      simp [h]

/-- The cache of a receiver holds what it received. -/
theorem from_receive {receiver : Receiver T ρ β} {received : List (RouteEnvelope ρ β)}
    (h : receiver.seen.From received) (now serial sessionId : ℕ) (envelope : RouteEnvelope ρ β) :
    (receiver.receive now serial sessionId envelope).2.seen.From (received ++ [envelope]) := by
  rw [(receiver.receive_eq now serial sessionId envelope).2]
  split
  · exact h.mono
  · exact h.remember now receiver.maxSeenRoutes

end Receiver

/-! ## Peers that wrap and restart -/

/-- A route with the number its peer gave it. -/
structure Numbered (ρ β : Type) where
  /-- The number. -/
  sequence : ℕ
  envelope : RouteEnvelope ρ β
  deriving DecidableEq

/-- The routers of the peers, the routes wrapped so far, a receiver and the routes it
received. -/
structure Network (T ρ β : Type) where
  routers : BTreeMap String RouterInner
  /-- The wrapped routes. -/
  sent : List (Numbered ρ β)
  receiver : Receiver T ρ β
  /-- What it received. -/
  received : List (Numbered ρ β)

/-- What happens in the network. A route is wrapped around one payload and may be sent with
another, and a watch route is sent without its hash. A route arrives as its last forwarder
left it. -/
inductive NetworkEvent (ρ β : Type) where
  | wrap (config : RouterConfig) (now : ℕ) (payload shown : RoutePayload ρ β)
      (target : RouteTarget) (replyTo : Option String) (hashed : Bool)
  | restart (peerId : String)
  | restartReceiver
  | receive (now serial sessionId position : ℕ) (arrived : RouteEnvelope ρ β)
  deriving DecidableEq

/-- A forwarder keeps all of a route that identifies it, and may fill in its hash. -/
structure Passed [ContentHash ρ β] (sent arrived : RouteEnvelope ρ β) : Prop where
  routeId : arrived.routeId = sent.routeId
  sender : arrived.sender = sent.sender
  target : arrived.target = sent.target
  /-- The answered route. -/
  replyTo : arrived.replyTo = sent.replyTo
  payload : arrived.payload = sent.payload
  contentHash : arrived.contentHash = sent.contentHash ∨
    arrived.contentHash = stableContentHash sent.payload

namespace Network

variable [ContentHash ρ β]

/-- A network at its start. -/
def start (receiver : Receiver T ρ β) : Network T ρ β := ⟨∅, [], receiver.restart, []⟩

/-- One event. -/
def step (net : Network T ρ β) : NetworkEvent ρ β → Network T ρ β
  | .wrap config now payload shown target replyTo hashed =>
    let (envelope, inner) :=
      config.wrapPayload now (net.routers.getD config.peerId .new) payload target replyTo
    let shownEnvelope :=
      { envelope with
        payload := shown
        contentHash := if hashed then envelope.contentHash else none }
    { net with
      routers := net.routers.insert config.peerId inner
      sent := net.sent ++ [⟨inner.nextRouteSeq, shownEnvelope⟩] }
  | .restart peerId => { net with routers := net.routers.insert peerId .new }
  | .restartReceiver => { net with receiver := net.receiver.restart }
  | .receive now serial sessionId position arrived =>
    match net.sent[position]? with
    | none => net
    | some origin =>
      { net with
        receiver := (net.receiver.receive now serial sessionId arrived).2
        received := net.received ++ [⟨origin.sequence, arrived⟩] }

/-- What arrives is a wrapped route as forwarders leave it. -/
def Legal (net : Network T ρ β) : NetworkEvent ρ β → Prop
  | .receive _ _ _ position arrived =>
    ∀ origin, net.sent[position]? = some origin → Passed origin.envelope arrived
  | _ => True

/-- Routes are named by sender and number, and the receiver remembers what it received. -/
structure Consistent (net : Network T ρ β) : Prop where
  /-- Names of wrapped routes. -/
  sent : ∀ route ∈ net.sent, route.envelope.routeId =
    routeName route.envelope.sender route.sequence
  /-- Names of received routes. -/
  received : ∀ route ∈ net.received, route.envelope.routeId =
    routeName route.envelope.sender route.sequence
  /-- The cache of the receiver. -/
  seen : net.receiver.seen.From (net.received.map (·.envelope))

omit [ContentHash ρ β] in
private theorem consistent_start (receiver : Receiver T ρ β) : (start receiver).Consistent where
  sent := by simp [start]
  received := by simp [start]
  seen := by
    rw [start, Receiver.seen_restart]
    exact .empty

private theorem Consistent.step {net : Network T ρ β} (h : net.Consistent)
    {event : NetworkEvent ρ β} (hlegal : net.Legal event) : (net.step event).Consistent := by
  cases event with
  | wrap config now payload shown target replyTo hashed =>
    refine ⟨fun route hroute => ?_, h.received, h.seen⟩
    simp only [Network.step, List.mem_append, List.mem_singleton] at hroute
    rcases hroute with hroute | rfl
    · exact h.sent route hroute
    · rfl
  | restart peerId => exact ⟨h.sent, h.received, h.seen⟩
  | restartReceiver =>
    refine ⟨h.sent, h.received, ?_⟩
    simp only [Network.step, Receiver.seen_restart]
    exact .empty
  | receive now serial sessionId position arrived =>
    rw [Network.step]
    split
    · exact h
    · rename_i origin horigin
      refine ⟨h.sent, fun route hroute => ?_, ?_⟩
      · simp only [List.mem_append, List.mem_singleton] at hroute
        rcases hroute with hroute | rfl
        · exact h.received route hroute
        · have hpassed := hlegal origin horigin
          rw [hpassed.routeId, hpassed.sender]
          exact h.sent origin (List.mem_of_getElem? horigin)
      · rw [List.map_append]
        exact Receiver.from_receive h.seen now serial sessionId arrived

/-- The arriving route is told apart from the received ones: it did not go through the
receiver, no received route of its sender has its number, hashes are those of the payloads and do
not collide, sender ids have no colon, and received routes of its sender that answer the same route
with the same payload have the same target. -/
structure Distinct (net : Network T ρ β) (sequence : ℕ) (arrived : RouteEnvelope ρ β) : Prop where
  /-- It did not go through the receiver. -/
  unseen : net.receiver.name ∉ arrived.seenBy
  /-- Its number was not used again. -/
  fresh : ∀ earlier ∈ net.received, earlier.envelope.sender = arrived.sender →
    earlier.sequence ≠ sequence
  /-- Its hash is that of its payload and its sender has no colon. -/
  covered : arrived.Sealed ∧ ':' ∉ arrived.sender.toList
  /-- The same for the received routes. -/
  coveredEarlier : ∀ earlier ∈ net.received,
    earlier.envelope.Sealed ∧ ':' ∉ earlier.envelope.sender.toList
  /-- The hashes of these payloads do not collide. -/
  lawful : ContentHash.Lawful (insert arrived.payload
    { payload | ∃ earlier ∈ net.received, earlier.envelope.payload = payload })
  /-- The same content goes to the same target. -/
  aimed : ∀ earlier ∈ net.received, earlier.envelope.sender = arrived.sender →
    earlier.envelope.replyTo.getD "" = arrived.replyTo.getD "" →
    earlier.envelope.payload = arrived.payload → earlier.envelope.target = arrived.target

/-- In every run, a wrapped route that is told apart from the received ones is dropped only
if a route with the same sender, target and payload was received before. -/
theorem dropped_only_repeated {receiver : Receiver T ρ β}
    {events : List (NetworkEvent ρ β)} (hlegal : Run.Along step Legal (start receiver) events)
    {now serial sessionId position : ℕ} {origin : Numbered ρ β} {arrived : RouteEnvelope ρ β} :
    let net := events.foldl step (start receiver)
    net.sent[position]? = some origin → Passed origin.envelope arrived →
    net.Distinct origin.sequence arrived →
    (net.receiver.receive now serial sessionId arrived).1 = true →
      ∃ earlier ∈ net.received, earlier.envelope.sender = arrived.sender ∧
        earlier.envelope.target = arrived.target ∧
        earlier.envelope.payload = arrived.payload := by
  intro net horigin hpassed hdistinct hdropped
  have h : net.Consistent :=
    Run.Along.invariant (fun h hevent => h.step hevent) (consistent_start receiver) hlegal
  rw [(net.receiver.receive_eq now serial sessionId arrived).1] at hdropped
  rcases h.seen.of_duplicate hdropped with hseen | ⟨_, hmem, hid⟩ | ⟨key, hkey, _, hmem, hearlier⟩
  · exact absurd hseen hdistinct.unseen
  · -- a shared id would be a number used twice
    obtain ⟨earlier, hreceived, rfl⟩ := List.mem_map.mp hmem
    rw [h.received earlier hreceived, hpassed.routeId,
      h.sent origin (List.mem_of_getElem? horigin), ← hpassed.sender] at hid
    obtain ⟨hsender, hnumber⟩ := routeName_inj hid
    exact absurd hnumber (hdistinct.fresh earlier hreceived hsender)
  · obtain ⟨earlier, hreceived, rfl⟩ := List.mem_map.mp hmem
    obtain ⟨hsealed, hplain⟩ := hdistinct.covered
    obtain ⟨hsealed', hplain'⟩ := hdistinct.coveredEarlier earlier hreceived
    obtain ⟨hsender, hreply, hpayload⟩ :=
      dedupeKey_inj hdistinct.lawful (Set.mem_insert _ _)
        (Set.mem_insert_of_mem _ ⟨earlier, hreceived, rfl⟩) hkey hearlier hsealed hsealed'
        hplain hplain'
    exact ⟨earlier, hreceived, hsender,
      hdistinct.aimed earlier hreceived hsender hreply hpayload, hpayload⟩

end Network

/-- A signal to a room. -/
def roomSignal (room : String) : RoutePayload Unit Unit := .signal room .null

/-- A hash that tells two signals apart. -/
abbrev roomHash : ContentHash Unit Unit where
  stableContentHash payload :=
    if payload = roomSignal "x" then some "blake3:x"
    else if payload = roomSignal "y" then some "blake3:y"
    else none

/-- The two hashes differ and are of one length. -/
theorem lawful_roomHash (payloads : Set (RoutePayload Unit Unit)) :
    @ContentHash.Lawful Unit Unit roomHash payloads := by
  have honly : ∀ payload hash, @stableContentHash Unit Unit roomHash payload = some hash →
      payload = roomSignal "x" ∧ hash = "blake3:x" ∨
        payload = roomSignal "y" ∧ hash = "blake3:y" := by
    intro payload hash h
    simp only [stableContentHash] at h
    split_ifs at h with hx hy
    · exact .inl ⟨hx, (Option.some.inj h).symm⟩
    · exact .inr ⟨hy, (Option.some.inj h).symm⟩
  refine @ContentHash.Lawful.mk _ _ roomHash _ (fun payload _ payload' _ hash h h' => ?_)
    ⟨8, fun payload _ hash h => ?_⟩
  · rcases honly _ _ h with ⟨rfl, rfl⟩ | ⟨rfl, rfl⟩ <;>
      rcases honly _ _ h' with ⟨rfl, hhash⟩ | ⟨rfl, hhash⟩
    · rfl
    · exact absurd hhash (by decide)
    · exact absurd hhash (by decide)
    · rfl
  · rcases honly _ _ h with ⟨-, rfl⟩ | ⟨-, rfl⟩ <;> rfl

/-- Peer `a` wraps a signal to a peer. -/
def wrapRoom (room target : String) : NetworkEvent Unit Unit :=
  .wrap ⟨"a", "primadb", 6, 8⟩ 0 (roomSignal room) (roomSignal room) (.peer target) none true

/-- The route peer `a` wraps around a signal under a number. -/
def roomRoute (sequence : ℕ) (room target : String) : RouteEnvelope Unit Unit :=
  ⟨routeName "a" sequence, "a", "primadb", .peer target, 6, 0, 0, none, some ("blake3:" ++ room),
    ["a"], roomSignal room⟩

/-- A relay. -/
def plainRelay : Receiver Unit Unit Unit := .relay (.new "relay" 8)

/-- Peer `a` sends a route, and then another room after a restart, or the same signal to
another peer. -/
def mistakenRuns : List (List (NetworkEvent Unit Unit) × RouteEnvelope Unit Unit) :=
  [([wrapRoom "x" "b", .receive 0 0 1 0 (roomRoute 1 "x" "b"), .restart "a", wrapRoom "y" "b"],
      roomRoute 1 "y" "b"),
    ([wrapRoom "x" "b", .receive 0 0 1 0 (roomRoute 1 "x" "b"), wrapRoom "x" "c"],
      roomRoute 2 "x" "c")]

/-- In both runs the relay drops the second route, and no route with its sender, target and
payload was received. -/
theorem dropped_though_new :
    mistakenRuns.Forall fun run =>
      let net := run.1.foldl (@Network.step Unit Unit Unit roomHash) (.start plainRelay)
      (net.sent.map (·.envelope)).contains run.2 = true ∧
        (@Receiver.receive Unit Unit Unit roomHash net.receiver 0 0 1 run.2).1 = true ∧
        ∀ earlier ∈ net.received, earlier.envelope.target ≠ run.2.target ∨
          earlier.envelope.payload ≠ run.2.payload := by
  rw [List.forall_iff_forall_mem]
  decide +kernel

/-- Peer `a` sends one signal twice. -/
def repeatedRun : List (NetworkEvent Unit Unit) :=
  [wrapRoom "x" "b", .receive 0 0 1 0 (roomRoute 1 "x" "b"), wrapRoom "x" "b"]

/-- The second route is dropped for the first. -/
theorem dropped_only_repeated_repeatedRun :
    let net := repeatedRun.foldl (@Network.step Unit Unit Unit roomHash) (.start plainRelay)
    ∃ earlier ∈ net.received, earlier.envelope.sender = "a" ∧
      earlier.envelope.target = .peer "b" ∧ earlier.envelope.payload = roomSignal "x" := by
  have hreceived : (repeatedRun.foldl (@Network.step Unit Unit Unit roomHash)
      (.start plainRelay)).received = [⟨1, roomRoute 1 "x" "b"⟩] := by decide +kernel
  have hsealed : ∀ sequence, @RouteEnvelope.Sealed _ _ roomHash (roomRoute sequence "x" "b") ∧
      ':' ∉ (roomRoute sequence "x" "b").sender.toList := by
    refine fun sequence => ⟨fun hash hhash => ?_, (by decide : ':' ∉ "a".toList)⟩
    rw [← hhash]
    rfl
  refine @Network.dropped_only_repeated Unit Unit Unit roomHash plainRelay
    repeatedRun ⟨trivial, ?_, trivial, trivial⟩ 0 0 1 1 ⟨2, roomRoute 2 "x" "b"⟩
    (roomRoute 2 "x" "b") (by decide +kernel)
    (@Passed.mk _ _ roomHash _ _ rfl rfl rfl rfl rfl (.inl rfl)) ?_ (by decide +kernel)
  · intro origin horigin
    obtain rfl : (⟨1, roomRoute 1 "x" "b"⟩ : Numbered Unit Unit) = origin :=
      Option.some.inj ((by decide +kernel :
        some (⟨1, roomRoute 1 "x" "b"⟩ : Numbered Unit Unit) = _).trans horigin)
    exact @Passed.mk _ _ roomHash _ _ rfl rfl rfl rfl rfl (.inl rfl)
  · refine @Network.Distinct.mk _ _ _ roomHash _ _ _ (by decide +kernel) ?_ (hsealed 2) ?_
      (lawful_roomHash _) ?_
    all_goals
      rw [hreceived]
      intro earlier hearlier
      obtain rfl := List.mem_singleton.mp hearlier
    · exact fun _ => by decide
    · exact hsealed 1
    · exact fun _ _ _ => rfl

end Primadb

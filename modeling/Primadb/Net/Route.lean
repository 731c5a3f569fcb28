import Primadb.Auth.Session
import Primadb.Engine.Interface

/-!
# Routes and the router of a peer

A route is an envelope around a payload: who sent it, for whom, through whom it went. A
router numbers the routes its peer sends and drops those it has seen. A route counts as
seen when the router stands among those it went through, when its id was seen, or when
the same content came from the same sender. Requests and results of remote reads are of
arbitrary types, and the content hash is a parameter.
-/

namespace Primadb

/-- For whom a route is. -/
inductive RouteTarget where
  | broadcast
  | peer (peerId : String)
  | topic (topic : String)
  deriving DecidableEq

/-- What a peer says about itself. -/
structure PeerPresence where
  peerId : String
  replicaId : String
  transport : String
  /-- The identity it announces. -/
  identity : Option PresenceIdentity
  /-- What it can do. -/
  capabilities : List String
  /-- What it listens to. -/
  topics : List String
  /-- Anything else. -/
  metadata : BTreeMap String String
  deriving DecidableEq

/-- `str::trim` removes these characters. -/
def whiteSpace (c : Char) : Bool :=
  (0x9 ≤ c.toNat && c.toNat ≤ 0xd) || (0x2000 ≤ c.toNat && c.toNat ≤ 0x200a) ||
    [0x20, 0x85, 0xa0, 0x1680, 0x2028, 0x2029, 0x202f, 0x205f, 0x3000].contains c.toNat

/-- `str::trim`. -/
def trimText (text : List Char) : List Char :=
  ((text.dropWhile whiteSpace).reverse.dropWhile whiteSpace).reverse

/-- The relays a presence names, separated by commas. -/
def PeerPresence.relayUrls (peer : PeerPresence) : List String :=
  match peer.metadata["relay_url"]? with
  | none => []
  | some value =>
    ((value.toList.splitOn ',').map trimText).filter (!·.isEmpty) |>.map String.ofList

/-- A peer known to another. -/
structure PeerRecommendation where
  peer : PeerPresence
  /-- Relays it is reached through. -/
  relayUrls : List String
  /-- How useful it is. -/
  score : ℕ
  /-- When it was found. -/
  discoveredAtMillis : ℕ
  deriving DecidableEq

/-- A message of an application. -/
structure ApplicationRouteMessage where
  /-- Namespace of the application. -/
  namespaceName : String
  protocol : String
  /-- Topic of the message. -/
  topic : Option String
  /-- The message. -/
  body : JsonValue
  /-- Anything else. -/
  metadata : BTreeMap String JsonValue
  deriving DecidableEq

/-- A part of a result that is sent in parts. -/
structure PullChunk where
  /-- Which part. -/
  index : ℕ
  /-- Of how many. -/
  total : ℕ
  deriving DecidableEq

/-- A remote read. -/
structure PullRequest (ρ : Type) where
  /-- Name of the request. -/
  requestId : String
  /-- What is read. -/
  request : ρ
  deriving DecidableEq

/-- A part of the answer to a remote read. -/
structure PullResponse (β : Type) where
  /-- Name of the request. -/
  requestId : String
  /-- Which part. -/
  chunk : PullChunk
  /-- Whether it is the last. -/
  done : Bool
  result : β
  deriving DecidableEq

/-- What a watch request asks. -/
inductive WatchRequestKind (ρ : Type) where
  | subscribe (request : ρ)
  | cancel
  deriving DecidableEq

/-- A request to watch a remote read, or to stop. -/
structure WatchRequest (ρ : Type) where
  /-- Name of the watch. -/
  watchId : String
  /-- What is asked. -/
  request : WatchRequestKind ρ
  deriving DecidableEq

/-- A part of a result of a watch. -/
structure WatchEvent (β : Type) where
  /-- Name of the watch. -/
  watchId : String
  /-- Number of the result. -/
  sequence : ℕ
  /-- Whether it is the first since the subscription. -/
  initial : Bool
  /-- Which part. -/
  chunk : PullChunk
  /-- Whether it is the last. -/
  done : Bool
  result : β
  deriving DecidableEq

/-- An item of a batch. -/
inductive RouteBatchItem (ρ β : Type) where
  | application (message : ApplicationRouteMessage)
  | sync (encoding : String) (payload : JsonValue)
  | presence (peer : PeerPresence)
  | signal (room : String) (payload : JsonValue)
  | snapshotRequest (root : Option String)
  | snapshotResponse (root : Option String) (snapshot : DatabaseSnapshot)
  | pullRequest (request : PullRequest ρ)
  | pullResponse (response : PullResponse β)
  | watchRequest (request : WatchRequest ρ)
  | watchEvent (event : WatchEvent β)
  | peerExchange (peers : List PeerRecommendation)
  | authChallenge (challenge : AuthChallenge)
  | authResponse (response : AuthResponse)
  deriving DecidableEq

/-- What a route carries. -/
inductive RoutePayload (ρ β : Type) where
  | application (message : ApplicationRouteMessage)
  | sync (encoding : String) (payload : JsonValue)
  | presence (peer : PeerPresence)
  | signal (room : String) (payload : JsonValue)
  | snapshotRequest (root : Option String)
  | snapshotResponse (root : Option String) (snapshot : DatabaseSnapshot)
  | pullRequest (request : PullRequest ρ)
  | pullResponse (response : PullResponse β)
  | watchRequest (request : WatchRequest ρ)
  | watchEvent (event : WatchEvent β)
  | peerExchange (peers : List PeerRecommendation)
  | authChallenge (challenge : AuthChallenge)
  | authResponse (response : AuthResponse)
  | batch (items : List (RouteBatchItem ρ β))
  deriving DecidableEq

/-- `from_batch_item`. -/
def RoutePayload.fromBatchItem {ρ β : Type} : RouteBatchItem ρ β → RoutePayload ρ β
  | .application message => .application message
  | .sync encoding payload => .sync encoding payload
  | .presence peer => .presence peer
  | .signal room payload => .signal room payload
  | .snapshotRequest root => .snapshotRequest root
  | .snapshotResponse root snapshot => .snapshotResponse root snapshot
  | .pullRequest request => .pullRequest request
  | .pullResponse response => .pullResponse response
  | .watchRequest request => .watchRequest request
  | .watchEvent event => .watchEvent event
  | .peerExchange peers => .peerExchange peers
  | .authChallenge challenge => .authChallenge challenge
  | .authResponse response => .authResponse response

/-- An envelope around a payload. -/
structure RouteEnvelope (ρ β : Type) where
  /-- Name of the route. -/
  routeId : String
  /-- Peer that sent it. -/
  sender : String
  channel : String
  /-- For whom it is. -/
  target : RouteTarget
  /-- How often it may be passed on. -/
  ttl : ℕ
  /-- How often it was. -/
  hops : ℕ
  /-- When it was issued. -/
  issuedAtMillis : ℕ
  /-- The route it answers. -/
  replyTo : Option String
  /-- Hash of the payload. -/
  contentHash : Option String
  /-- Through whom it went. -/
  seenBy : List String
  /-- What it carries. -/
  payload : RoutePayload ρ β
  deriving DecidableEq

/-- `stable_content_hash` of a payload. -/
class ContentHash (ρ β : Type) where
  /-- The prefixed hash of the serialised payload. -/
  stableContentHash : RoutePayload ρ β → Option String

export ContentHash (stableContentHash)

/-! ## Seen routes -/

/-- Remove the smallest key a number of times. -/
def removeOldest {α : Type} : ℕ → BTreeMap String α → BTreeMap String α
  | 0, seen => seen
  | n + 1, seen =>
    match seen.minKey? with
    | none => seen
    | some oldest => removeOldest n (seen.erase oldest)

/-- `trim_seen_cache`: each round of the loop removes one of the keys above the bound. -/
def trimSeenCache (seen : BTreeMap String ℕ) (maxSeenRoutes : ℕ) : BTreeMap String ℕ :=
  removeOldest (seen.size - maxSeenRoutes) seen

variable {ρ β : Type}

/-- `dedupe_key`. -/
def dedupeKey (envelope : RouteEnvelope ρ β) : Option String :=
  envelope.contentHash.map fun contentHash =>
    envelope.sender ++ ":" ++ envelope.replyTo.getD "" ++ ":" ++ contentHash

/-- The routes and contents a relay or a router has seen. -/
structure SeenCache where
  /-- Ids of seen routes. -/
  seenRoutes : BTreeMap String ℕ := ∅
  /-- Keys of seen contents. -/
  seenContent : BTreeMap String ℕ := ∅
  deriving DecidableEq

/-- Whether a route counts as seen by the relay or router of that id. -/
def SeenCache.duplicate (cache : SeenCache) (peerId : String) (envelope : RouteEnvelope ρ β) :
    Bool :=
  envelope.seenBy.contains peerId || cache.seenRoutes.contains envelope.routeId ||
    (dedupeKey envelope).any cache.seenContent.contains

/-- Remember a route. -/
def SeenCache.remember (cache : SeenCache) (seenAt maxSeenRoutes : ℕ)
    (envelope : RouteEnvelope ρ β) : SeenCache where
  seenRoutes := trimSeenCache (cache.seenRoutes.insert envelope.routeId seenAt) maxSeenRoutes
  seenContent :=
    match dedupeKey envelope with
    | none => cache.seenContent
    | some key => trimSeenCache (cache.seenContent.insert key seenAt) maxSeenRoutes

/-- The route with one more peer it went through. -/
def RouteEnvelope.markSeen (envelope : RouteEnvelope ρ β) (peerId : String) :
    RouteEnvelope ρ β :=
  if envelope.seenBy.contains peerId then envelope
  else { envelope with seenBy := envelope.seenBy ++ [peerId] }

/-! ## The router of a peer -/

/-- `RouterConfig`. -/
structure RouterConfig where
  peerId : String
  defaultChannel : String := "primadb"
  /-- How often its routes may be passed on. -/
  defaultTtl : ℕ := 6
  /-- How many routes it remembers. -/
  maxSeenRoutes : ℕ := 4096
  deriving DecidableEq

/-- What a router keeps. -/
structure RouterInner where
  /-- Number of the last route sent. -/
  nextRouteSeq : ℕ := 0
  /-- What it has seen. -/
  seen : SeenCache := {}
  /-- The peers it knows. -/
  peers : BTreeMap String PeerPresence := ∅
  /-- Routes handed on to the peer. -/
  deliveredRoutes : ℕ := 0
  /-- Routes to pass on. -/
  forwardedRoutes : ℕ := 0
  /-- Routes dropped as seen. -/
  duplicateRoutes : ℕ := 0
  deriving DecidableEq

/-- `Router::new`: a process starts with an empty memory. -/
def RouterInner.new : RouterInner := {}

/-- What to do with a route. -/
structure RouteDecision (ρ β : Type) where
  /-- Whether the peer gets it. -/
  deliver : Bool
  /-- What is passed on. -/
  forward : Option (RouteEnvelope ρ β)
  /-- Whether it was dropped as seen. -/
  duplicate : Bool
  deriving DecidableEq

/-- `matches_target`. -/
def matchesTarget (peerId channel : String) (envelope : RouteEnvelope ρ β) : Bool :=
  match envelope.target with
  | .broadcast => envelope.channel == channel
  | .peer target => target == peerId
  | .topic topic => envelope.channel == topic || topic == channel

/-- `update_peer_presence`. -/
def updatePeerPresence (peers : BTreeMap String PeerPresence) (peer : PeerPresence) :
    BTreeMap String PeerPresence :=
  if peer.metadata["state"]? = some "offline" then peers.erase peer.peerId
  else peers.insert peer.peerId peer

/-- `accept`, at a clock reading. -/
def RouterConfig.accept (config : RouterConfig) (now : ℕ) (inner : RouterInner)
    (envelope : RouteEnvelope ρ β) : RouteDecision ρ β × RouterInner :=
  if inner.seen.duplicate config.peerId envelope then
    (⟨false, none, true⟩,
      { inner with duplicateRoutes := saturatingAdd inner.duplicateRoutes 1 })
  else
    let peers :=
      match envelope.payload with
      | .presence peer => updatePeerPresence inner.peers peer
      | _ => inner.peers
    let deliver := matchesTarget config.peerId config.defaultChannel envelope
    let forward :=
      if envelope.ttl > 1 then
        some ({ envelope with ttl := envelope.ttl - 1, hops := min (envelope.hops + 1) 255 }
          |>.markSeen config.peerId)
      else none
    (⟨deliver, forward, false⟩,
      { inner with
        seen := inner.seen.remember now config.maxSeenRoutes envelope
        peers := peers
        deliveredRoutes :=
          if deliver then saturatingAdd inner.deliveredRoutes 1 else inner.deliveredRoutes
        forwardedRoutes :=
          if forward.isSome then saturatingAdd inner.forwardedRoutes 1
          else inner.forwardedRoutes })

/-- Name of a route of a peer. -/
def routeName (peerId : String) (seq : ℕ) : String := peerId ++ "/route/" ++ lowerHex seq

/-- `wrap_payload`, at a clock reading. -/
def RouterConfig.wrapPayload [ContentHash ρ β] (config : RouterConfig) (now : ℕ)
    (inner : RouterInner) (payload : RoutePayload ρ β) (target : RouteTarget)
    (replyTo : Option String) : RouteEnvelope ρ β × RouterInner :=
  let seq := saturatingAdd inner.nextRouteSeq 1
  ({ routeId := routeName config.peerId seq
     sender := config.peerId
     channel := config.defaultChannel
     target := target
     ttl := config.defaultTtl
     hops := 0
     issuedAtMillis := now
     replyTo := replyTo
     contentHash := stableContentHash payload
     seenBy := [config.peerId]
     payload := payload },
    { inner with nextRouteSeq := seq })

/-! ## Names of routes -/

/-- A route name determines peer and number. -/
theorem routeName_inj {peerId other : String} {seq seq' : ℕ}
    (h : routeName peerId seq = routeName other seq') : peerId = other ∧ seq = seq' := by
  have hlist := congrArg (fun name => name.toList.reverse) h
  -- read backwards, the digits end at the first slash
  simp only [routeName, String.toList_append, List.reverse_append] at hlist
  have hslash : ∀ n, '/' ∉ (lowerHex n).toList.reverse := fun n => by
    rw [List.mem_reverse]
    exact slash_not_mem_lowerHex n
  rw [show "/route/".toList.reverse = '/' :: "/route".toList.reverse from rfl,
    List.cons_append, List.cons_append] at hlist
  obtain ⟨hdigits, hpeer⟩ := append_separator_inj (hslash seq) (hslash seq') hlist
  exact ⟨String.toList_injective (List.reverse_injective (List.append_cancel_left hpeer)),
    lowerHex_injective (String.toList_injective (List.reverse_injective hdigits))⟩

end Primadb

import Primadb.Core.Run
import Primadb.Net.RelayClient

/-!
# A watch between two peers

A peer watches a request at another one. The serving peer copies its entry of the watch,
computes the result, sends it in parts under the number of the copy and counts it afterwards;
notifications and subscriptions come in between, so an update is a task that takes several
steps. The watching peer takes the parts its router does not drop, puts a result together and
hands it on, unless its number was handed on before.
-/

namespace Primadb

/-- An update of a watch between two of its steps. -/
inductive Emission (ρ β : Type) where
  /-- The entry of the watch is to be copied. -/
  | starting (initial : Bool)
  /-- The result is to be computed. -/
  | copied (watch : IncomingWatch ρ) (initial : Bool)
  /-- The routes are to be sent, and the result counted. -/
  | sending (routes : List (RouteEnvelope ρ β)) (contentHash : Option String)
  /-- The error is to be sent. -/
  | refusing (route : RouteEnvelope ρ β)
  /-- The watch is to be removed. -/
  | removing

/-- The routes only the update holds. -/
def Emission.unsent {ρ β : Type} : Emission ρ β → List (RouteEnvelope ρ β)
  | sending routes _ => routes
  | refusing route => [route]
  | _ => []

/-- One watch, its two peers and the messages between them. The last fields are history: the last
result computed since the latest subscription, and what was handed to the watching client. -/
structure WatchSystem (δ ρ β ω ψ : Type) where
  /-- Name of the watch. -/
  watchId : String
  /-- What the client watches. -/
  requestKind : ρ
  /-- The serving router's configuration. -/
  server : RouterConfig
  /-- The serving router. -/
  serverRouter : RouterInner
  /-- The serving database. -/
  db : δ
  /-- Whether the watching peer is refused for want of an identity. -/
  refuses : Bool
  /-- The verified identity of the watching peer. -/
  identity : Option VerifiedIdentity
  /-- The serving peer's entry of the watch. -/
  served : Option (IncomingWatch ρ)
  /-- Running updates. -/
  emissions : List (Emission ρ β)
  /-- Subscriptions on their way. -/
  requests : List ρ
  /-- Routes on their way. -/
  routes : List (RouteEnvelope ρ β)
  /-- The watching router's configuration. -/
  client : RouterConfig
  /-- The watching router. -/
  clientRouter : RouterInner
  /-- The watching database. -/
  clientDb : δ
  /-- The watching peer's watches. -/
  outgoing : BTreeMap String (OutgoingWatch ρ ψ)
  /-- The last result computed. -/
  computed : Option (Except String ω)
  /-- What was handed on. -/
  handed : List (String × Except String (Bool × ω))

/-- What happens in one step of the system. -/
inductive WatchSystemEvent (δ : Type) where
  /-- Anything changes the serving database or what it knows of the watching peer. -/
  | changed (db : δ) (refuses : Bool) (identity : Option VerifiedIdentity)
  /-- The client sends its subscription, for the first time or once more. -/
  | requested
  /-- The serving peer handles the next subscription; it may serve too many watches. -/
  | subscribed (now : ℕ) (admitted : Bool)
  /-- A change that may concern the watch is noticed. -/
  | notified
  /-- The next step of an update; sending succeeds or fails. -/
  | emission (index now : ℕ) (success : Bool)
  /-- The client receives the next route. -/
  | delivered (now : ℕ)

section Events

variable {ρ β : Type}

/-- The watch events of a payload. -/
def RoutePayload.watchEvents : RoutePayload ρ β → List (WatchEvent β)
  | .watchEvent event => [event]
  | .batch items => items.filterMap fun
    | .watchEvent event => some event
    | _ => none
  | _ => []

variable {δ ω ψ : Type} [ClientHost δ ρ β ω ψ]

/-- The watch events of a route, taken one after the other up to the first error. -/
def takeWatchEvents (db : δ) : List (WatchEvent β) → BTreeMap String (OutgoingWatch ρ ψ) →
    BTreeMap String (OutgoingWatch ρ ψ) × List (String × Except String (Bool × ω))
  | [], watches => (watches, [])
  | event :: events, watches =>
    match takeWatchEvent db watches event with
    | (.ok (), watches, handed) =>
      let (watches, later) := takeWatchEvents db events watches
      (watches, handed ++ later)
    | (.error _, watches, handed) => (watches, handed)

end Events

namespace WatchSystem

variable {δ ρ β ω ψ : Type} [ContentHash ρ β] [ErrorBody β] [ClientHost δ ρ β ω ψ]

omit [ContentHash ρ β] [ErrorBody β] in
/-- What the serving peer computes for a copy of the watch, if the database does not fail. -/
def servedResult (s : WatchSystem δ ρ β ω ψ) (watch : IncomingWatch ρ) (initial : Bool) :
    Option (Except String ω) :=
  if s.refuses then some (.error "peer is not authenticated")
  else (ClientHost.serveWatchResult s.db watch.targetPeerId s.watchId watch.requestKind initial
    s.identity).toOption

omit [ClientHost δ ρ β ω ψ] in
/-- The route of an error. -/
def errorRoute (s : WatchSystem δ ρ β ω ψ) (now : ℕ) (peerId : String) (sequence : ℕ)
    (initial : Bool) (message : String) : RouteEnvelope ρ β × RouterInner :=
  s.server.wrapPayload now s.serverRouter
    (.watchEvent (errorWatchEvent s.watchId sequence initial message)) (.peer peerId) none

/-- The next step of an update: the update that follows, if any, and the state around the updates,
as in `emit_single_incoming_watch_update`. -/
def advance (s : WatchSystem δ ρ β ω ψ) (now : ℕ) (success : Bool) :
    Emission ρ β → List (Emission ρ β) × WatchSystem δ ρ β ω ψ
  | .starting initial =>
    match s.served with
    | none => ([], s)
    | some watch => ([.copied watch initial], s)
  | .copied watch initial =>
    let t := { s with computed := (s.servedResult watch initial).or s.computed }
    match watch.answer s.db s.watchId initial s.refuses s.identity with
    | .error _ => ([], s)
    | .ok (.refused message) =>
      let (route, router) := s.errorRoute now watch.targetPeerId watch.nextSequence initial message
      ([.refusing route], { t with serverRouter := router })
    | .ok .unchanged => ([], t)
    | .ok (.updated events contentHash) =>
      let (routes, router) := s.server.packBatchRoutes now s.serverRouter
        (.peer watch.targetPeerId) none (events.map .watchEvent : List (RouteBatchItem ρ β))
        (max (ClientHost.maxBatchItemsPerRoute s.db) 1)
      ([.sending routes contentHash], { t with serverRouter := router })
  | .sending (route :: routes) contentHash =>
    if success then ([.sending routes contentHash], { s with routes := s.routes ++ [route] })
    else ([], s)
  | .sending [] contentHash => ([], { s with served := s.served.map (·.sent contentHash) })
  | .refusing route =>
    if success then ([.removing], { s with routes := s.routes ++ [route] }) else ([], s)
  | .removing => ([], { s with served := none })

/-- A subscription is handled, as in `handle_watch_request`. -/
def subscribe (s : WatchSystem δ ρ β ω ψ) (now : ℕ) (admitted : Bool) (request : ρ) :
    WatchSystem δ ρ β ω ψ :=
  let refuse := fun message =>
    let (route, router) := s.errorRoute now s.client.peerId 0 true message
    { s with serverRouter := router, routes := s.routes ++ [route], computed := none }
  if s.refuses then refuse "peer is not authenticated"
  else
    match ClientHost.authorizeWatchRequest s.db s.client.peerId s.watchId request s.identity with
    | .error message => refuse message
    | .ok requestKind =>
      if !admitted && s.served.isNone then s
      else
        { s with
          served := some ⟨s.client.peerId, requestKind, 0, none⟩
          emissions := s.emissions ++ [.starting true]
          computed := none }

/-- One step of the system. -/
def step (s : WatchSystem δ ρ β ω ψ) : WatchSystemEvent δ → WatchSystem δ ρ β ω ψ
  | .changed db refuses identity => { s with db := db, refuses := refuses, identity := identity }
  | .requested =>
    if (s.outgoing[s.watchId]?).isSome then { s with requests := s.requests ++ [s.requestKind] }
    else s
  | .subscribed now admitted =>
    match s.requests with
    | [] => s
    | request :: requests => { s with requests := requests }.subscribe now admitted request
  | .notified =>
    if s.served.isSome then { s with emissions := s.emissions ++ [.starting false] } else s
  | .emission index now success =>
    match s.emissions[index]? with
    | none => s
    | some emission =>
      let (next, t) := s.advance now success emission
      { t with emissions := s.emissions.take index ++ next ++ s.emissions.drop (index + 1) }
  | .delivered now =>
    match s.routes with
    | [] => s
    | route :: routes =>
      let (decision, router) := s.client.accept now s.clientRouter route
      let (outgoing, handed) :=
        if decision.deliver then takeWatchEvents s.clientDb route.payload.watchEvents s.outgoing
        else (s.outgoing, [])
      { s with
        clientRouter := router
        routes := routes
        outgoing := outgoing
        handed := s.handed ++ handed }

/-- Nothing is under way. -/
structure Quiet (s : WatchSystem δ ρ β ω ψ) : Prop where
  /-- All subscriptions are handled. -/
  requests : s.requests = []
  /-- All routes are received. -/
  routes : s.routes = []
  /-- No update is running. -/
  emissions : s.emissions = []

/-- The last result handed on is the last one computed. -/
def Current (s : WatchSystem δ ρ β ω ψ) : Prop :=
  ∀ result, s.computed = some result →
    s.handed.getLast?.map (fun entry => entry.2.map Prod.snd) = some result

end WatchSystem

end Primadb

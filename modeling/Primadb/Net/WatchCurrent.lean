import Primadb.Core.Chunks
import Primadb.Net.Reassembly
import Primadb.Net.Watch

/-!
# Watches that stay current

What is under way to the watching client determines what it will hand on. As long as one
update of the watch runs at a time, a subscription is handled only before any result was
delivered and the router drops nothing, the results that are under way end with the last one
computed.
-/

namespace Primadb

section Packing

variable {ρ β : Type} [ContentHash ρ β]

omit [ContentHash ρ β] in
private theorem watchEvents_ofChunk (events : List (WatchEvent β)) :
    (RoutePayload.ofChunk (events.map .watchEvent : List (RouteBatchItem ρ β))).watchEvents =
      events := by
  rcases events with _ | ⟨event, _ | ⟨other, events⟩⟩
  · rfl
  · rfl
  · simp only [List.map_cons, RoutePayload.ofChunk, RoutePayload.watchEvents]
    simp

/-- Packed events come out as they went in. -/
theorem watchEvents_packBatchRoutes (config : RouterConfig) (now : ℕ) (router : RouterInner)
    (target : RouteTarget) (replyTo : Option String) (events : List (WatchEvent β))
    (batchSize : ℕ) :
    (config.packBatchRoutes now router target replyTo
      (events.map .watchEvent : List (RouteBatchItem ρ β)) batchSize).1.flatMap
        (·.payload.watchEvents) = events := by
  have hparts : ∀ parts : List (List (WatchEvent β)),
      ((parts.map (List.map .watchEvent)).map (RoutePayload.ofChunk (ρ := ρ))).flatMap
        (·.watchEvents) = parts.flatten := by
    intro parts
    induction parts with
    | nil => rfl
    | cons part parts ih =>
      rw [List.map_cons, List.map_cons, List.flatMap_cons, ih, watchEvents_ofChunk,
        List.flatten_cons]
  rw [← List.flatMap_map, RouterConfig.map_payload_packBatchRoutes,
    toChunks_map (by omega), hparts, flatten_toChunks]

end Packing

section Taking

variable {δ ρ β ω ψ : Type} [ClientHost δ ρ β ω ψ] {db : δ}

/-- Events taken one after the other without an error. -/
inductive Takes (db : δ) : BTreeMap String (OutgoingWatch ρ ψ) → List (WatchEvent β) →
    BTreeMap String (OutgoingWatch ρ ψ) → List (String × Except String (Bool × ω)) → Prop
  | nil (watches : BTreeMap String (OutgoingWatch ρ ψ)) : Takes db watches [] watches []
  | cons {watches after last : BTreeMap String (OutgoingWatch ρ ψ)} {event : WatchEvent β}
      {events : List (WatchEvent β)} {handed later : List (String × Except String (Bool × ω))}
      (hfirst : takeWatchEvent db watches event = (.ok (), after, handed))
      (hrest : Takes db after events last later) :
    Takes db watches (event :: events) last (handed ++ later)

namespace Takes

variable {watches after last : BTreeMap String (OutgoingWatch ρ ψ)}
  {events more : List (WatchEvent β)} {handed later : List (String × Except String (Bool × ω))}

private theorem single {event : WatchEvent β}
    (h : takeWatchEvent db watches event = (.ok (), after, handed)) :
    Takes db watches [event] after handed := by
  rw [← List.append_nil handed]
  exact .cons h (.nil after)

/-- Events that were taken and further ones. -/
theorem append (h : Takes db watches events after handed) (h' : Takes db after more last later) :
    Takes db watches (events ++ more) last (handed ++ later) := by
  induction h with
  | nil => exact h'
  | cons hfirst _ ih =>
    rw [List.append_assoc]
    exact .cons hfirst (ih h')

private theorem split (h : Takes db watches (events ++ more) last handed) :
    ∃ after first second, Takes db watches events after first ∧
      Takes db after more last second ∧ handed = first ++ second := by
  induction events generalizing watches handed with
  | nil => exact ⟨watches, [], handed, .nil watches, h, rfl⟩
  | cons event events ih =>
    rcases h with _ | ⟨hfirst, hrest⟩
    obtain ⟨after, first, second, htaken, hmore, rfl⟩ := ih hrest
    exact ⟨after, _, second, .cons hfirst htaken, hmore, (List.append_assoc _ _ _).symm⟩

private theorem eq (h : Takes db watches events after handed) :
    takeWatchEvents db events watches = (after, handed) := by
  induction h with
  | nil => rfl
  | cons hfirst _ ih =>
    rw [takeWatchEvents, hfirst]
    dsimp only
    rw [ih]

end Takes

/-- The parts of one result, put together from an accumulator on, give the result. -/
inductive Assembles (db : δ) (watchId : String) (sequence : ℕ) (initial : Bool) (result : ω) :
    ψ → List (WatchEvent β) → Prop
  | last {accumulator after : ψ} {event : WatchEvent β} (hwatch : event.watchId = watchId)
      (hsequence : event.sequence = sequence) (hinitial : event.initial = initial)
      (happly : ClientHost.applyResponseBody (δ := δ) accumulator event.result = (after, none))
      (hdone : event.done = true ∨ event.chunk.index + 1 ≥ event.chunk.total)
      (hresult : ClientHost.intoResult (δ := δ) after = .ok result) :
    Assembles db watchId sequence initial result accumulator [event]
  | more {accumulator after : ψ} {event : WatchEvent β} {events : List (WatchEvent β)}
      (hwatch : event.watchId = watchId)
      (hsequence : event.sequence = sequence) (hinitial : event.initial = initial)
      (happly : ClientHost.applyResponseBody (δ := δ) accumulator event.result = (after, none))
      (hmore : ¬(event.done = true ∨ event.chunk.index + 1 ≥ event.chunk.total))
      (hrest : Assembles db watchId sequence initial result after events) :
    Assembles db watchId sequence initial result accumulator (event :: events)

/-- The watch was handed nothing of that number or later. -/
def OutgoingWatch.Before (watch : OutgoingWatch ρ ψ) (sequence : ℕ) : Prop :=
  ∀ last, watch.lastDeliveredSequence = some last → last < sequence

/-- The watch waits for the parts of a result that come from an accumulator on. -/
def OutgoingWatch.Awaits (_ : δ) (watch : OutgoingWatch ρ ψ) (sequence : ℕ) (initial : Bool)
    (accumulator : ψ) : Prop :=
  (watch.pendingSequence = none ∧
    accumulator = ClientHost.newAccumulator (δ := δ) watch.requestKind) ∨
  watch.pendingSequence = some ⟨sequence, initial, accumulator⟩

variable {watch : OutgoingWatch ρ ψ} {accumulator : ψ}

/-- An event that is waited for is not dropped. -/
theorem OutgoingWatch.Awaits.not_dropped {event : WatchEvent β}
    (h : watch.Awaits db event.sequence event.initial accumulator)
    (hbefore : watch.Before event.sequence) :
    ¬(watch.lastDeliveredSequence.any (event.sequence ≤ ·) ∨
      watch.pendingSequence.any (event.sequence < ·.sequence)) := by
  rintro (hlast | hpending)
  · cases hdelivered : watch.lastDeliveredSequence with
    | none =>
      rw [hdelivered] at hlast
      cases hlast
    | some last =>
      rw [hdelivered, Option.any_some, decide_eq_true_eq] at hlast
      exact absurd (hbefore last hdelivered) (Nat.not_lt.mpr hlast)
  · rcases h with ⟨hnone, -⟩ | hsome
    · rw [hnone] at hpending
      cases hpending
    · rw [hsome, Option.any_some, decide_eq_true_eq] at hpending
      exact absurd hpending (Nat.lt_irrefl _)

private theorem OutgoingWatch.Awaits.pendingFor_eq {event : WatchEvent β}
    (h : watch.Awaits db event.sequence event.initial accumulator) :
    watch.pendingFor db event = ⟨event.sequence, event.initial, accumulator⟩ := by
  rcases h with ⟨hnone, rfl⟩ | hsome
  · rw [OutgoingWatch.pendingFor, hnone]
  · rw [OutgoingWatch.pendingFor, hsome]
    exact if_pos rfl

/-- The parts of a result that is waited for hand it on. -/
theorem Assembles.takes {watchId : String} {sequence : ℕ} {initial : Bool} {result : ω}
    {events : List (WatchEvent β)}
    (h : Assembles db watchId sequence initial result accumulator events)
    {watches : BTreeMap String (OutgoingWatch ρ ψ)} (hwatch : watches[watchId]? = some watch)
    (hbefore : watch.Before sequence) (hawaits : watch.Awaits db sequence initial accumulator) :
    ∃ after, Takes db watches events after [(watchId, .ok (initial, result))] ∧
      after[watchId]? =
        some { watch with pendingSequence := none, lastDeliveredSequence := some sequence } := by
  induction h generalizing watches watch with
  | @last accumulator accumulated event hid hsequence hinitial happly hdone hresult =>
    subst hid hsequence hinitial
    refine ⟨watches.insert event.watchId
      { watch with pendingSequence := none, lastDeliveredSequence := some event.sequence },
      .single ?_, ?_⟩
    · rw [takeWatchEvent, hwatch]
      dsimp only
      rw [if_neg (hawaits.not_dropped hbefore), hawaits.pendingFor_eq]
      dsimp only
      rw [happly]
      dsimp only
      rw [if_pos hdone, hresult]
    · rw [BTreeMap.get_insert, if_pos rfl]
  | @more accumulator accumulated event events hid hsequence hinitial happly hmore hrest ih =>
    subst hid hsequence hinitial
    have hfirst : takeWatchEvent db watches event = (.ok (),
        watches.insert event.watchId
          { watch with
            pendingSequence := some ⟨event.sequence, event.initial, accumulated⟩ }, []) := by
      rw [takeWatchEvent, hwatch]
      dsimp only
      rw [if_neg (hawaits.not_dropped hbefore), hawaits.pendingFor_eq]
      dsimp only
      rw [happly]
      dsimp only
      rw [if_neg hmore]
    have hstored : (watches.insert event.watchId
        { watch with
          pendingSequence :=
            some ⟨event.sequence, event.initial, accumulated⟩ })[event.watchId]? =
        some { watch with
          pendingSequence := some ⟨event.sequence, event.initial, accumulated⟩ } := by
      rw [BTreeMap.get_insert, if_pos rfl]
    obtain ⟨after, htakes, hafter⟩ := ih hstored hbefore (.inr rfl)
    exact ⟨after, .cons hfirst htakes, hafter⟩

/-- An error that is waited for is handed on. -/
theorem takes_error [ErrorBody β] {watchId message : String} {sequence : ℕ} {initial : Bool}
    (herror : ∀ accumulator : ψ, (ClientHost.applyResponseBody (δ := δ) accumulator
      (ErrorBody.error message)).2 = some message) {watches : BTreeMap String (OutgoingWatch ρ ψ)}
    (hwatch : watches[watchId]? = some watch) (hbefore : watch.Before sequence)
    (hpending : watch.pendingSequence = none) :
    Takes db watches [errorWatchEvent watchId sequence initial message] (watches.erase watchId)
      [(watchId, .error message)] := by
  let event : WatchEvent β := errorWatchEvent watchId sequence initial message
  have hawaits : watch.Awaits db event.sequence event.initial _ := .inl ⟨hpending, rfl⟩
  have hdropped := hawaits.not_dropped hbefore
  refine .single ?_
  rw [takeWatchEvent, show watches[(errorWatchEvent watchId sequence initial message :
    WatchEvent β).watchId]? = some watch from hwatch]
  dsimp only
  rw [if_neg hdropped]
  dsimp only [errorWatchEvent]
  rw [herror]

end Taking

/-- The body of an error carries its message. -/
def CarriesErrors (δ : Type) {ρ β ω ψ : Type} [ClientHost δ ρ β ω ψ] [ErrorBody β] : Prop :=
  ∀ (accumulator : ψ) (message : String),
    (ClientHost.applyResponseBody (δ := δ) accumulator (ErrorBody.error message)).2 = some message

namespace WatchSystem

variable {δ ρ β ω ψ : Type} [ClientHost δ ρ β ω ψ] {s : WatchSystem δ ρ β ω ψ}

/-- The events after which the watch stays current: a subscription is handled and an update begins
only when no update is running; a subscription is handled only when the client holds the watch,
no result was delivered and nothing is on its way, and is not refused while the watch is served;
sending succeeds, the parts of a result give it back, its number is not the last one and a result
with the hash of the one sent last is the one computed last; and the router drops nothing. -/
def Benign (s : WatchSystem δ ρ β ω ψ) : WatchSystemEvent δ → Prop
  | .subscribed _ _ => ∀ request ∈ s.requests.head?,
    s.emissions = [] ∧ s.routes = [] ∧
    (∃ watch, s.outgoing[s.watchId]? = some watch ∧ watch.requestKind = s.requestKind ∧
      watch.lastDeliveredSequence = none ∧ watch.pendingSequence = none) ∧
    (s.refuses = true ∨ (ClientHost.authorizeWatchRequest s.db s.client.peerId s.watchId request
      s.identity).toOption = none → s.served = none)
  | .notified => s.emissions = []
  | .emission index _ success => success = true ∧
    ∀ watch initial result, s.emissions[index]? = some (.copied watch initial) →
      s.servedResult watch initial = some (.ok result) → watch.nextSequence + 1 < 2 ^ 64 ∧
        (initial = false → ClientHost.resultHash (δ := δ) result = watch.lastHash →
          s.computed = some (.ok result)) ∧
        Assembles s.clientDb s.watchId watch.nextSequence initial result
          (ClientHost.newAccumulator (δ := δ) s.requestKind)
          (ClientHost.chunkWatchResult s.db s.watchId watch.nextSequence initial result)
  | .delivered now => ∀ route ∈ s.routes.head?,
    (s.client.accept now s.clientRouter route).1.deliver = true
  | _ => True

/-- The watch events on their way and to be sent. -/
def upcoming (s : WatchSystem δ ρ β ω ψ) : List (WatchEvent β) :=
  (s.routes ++ s.emissions.flatMap Emission.unsent).flatMap (·.payload.watchEvents)

/-- The last of the results handed on. -/
def lastOf (handed : List (String × Except String (Bool × ω))) : Option (Except String ω) :=
  handed.getLast?.map fun entry => entry.2.map Prod.snd

/-- When some events are taken, the client waits for the result of a number, and was handed
a given one last. -/
def Tracks (s : WatchSystem δ ρ β ω ψ) (events : List (WatchEvent β)) (sequence : ℕ)
    (last : Option ω) : Prop :=
  ∃ after handed watch, Takes s.clientDb s.outgoing events after handed ∧
    after[s.watchId]? = some watch ∧ watch.requestKind = s.requestKind ∧
    watch.pendingSequence = none ∧ watch.Before sequence ∧
    ∀ result, last = some result → lastOf (s.handed ++ handed) = some (.ok result)

/-- When some events are taken, the client was handed an error last. -/
def Ends (s : WatchSystem δ ρ β ω ψ) (events : List (WatchEvent β)) (message : String) : Prop :=
  ∃ after handed, Takes s.clientDb s.outgoing events after handed ∧
    lastOf (s.handed ++ handed) = some (.error message)

/-- The states of a benign run. -/
inductive Phase (s : WatchSystem δ ρ β ω ψ) : Prop
  /-- The watch is not served, and nothing was computed for it. -/
  | idle (hserved : s.served = none) (hemissions : s.emissions = []) (hcomputed : s.computed = none)
  /-- It is served, and no result is being sent. -/
  | serving (watch : IncomingWatch ρ) (last : Option ω) (hserved : s.served = some watch)
      (hemissions : s.emissions = [] ∨ (∃ initial, s.emissions = [.starting initial]) ∨
        ∃ initial, s.emissions = [.copied watch initial])
      (htracks : s.Tracks s.upcoming watch.nextSequence last)
      (hcomputed : s.computed = last.map .ok)
  /-- A result is being sent. -/
  | sending (watch : IncomingWatch ρ) (result : ω) (routes : List (RouteEnvelope ρ β))
      (hserved : s.served = some watch)
      (hemissions : s.emissions =
        [.sending routes (ClientHost.resultHash (δ := δ) result)])
      (hbound : watch.nextSequence + 1 < 2 ^ 64)
      (htracks : s.Tracks s.upcoming (watch.nextSequence + 1) (some result))
      (hcomputed : s.computed = some (.ok result))
  /-- The watch ended with an error. -/
  | ended (message : String)
      (hemissions : (s.emissions = [] ∧ s.served = none) ∨
        (∃ route, s.emissions = [.refusing route]) ∨ s.emissions = [.removing])
      (hends : s.Ends s.upcoming message) (hcomputed : s.computed = some (.error message))

/-- When nothing is under way, the watch is current. -/
theorem Phase.current (h : s.Phase) (hquiet : s.Quiet) : s.Current := by
  have hupcoming : s.upcoming = [] := by
    rw [upcoming, hquiet.routes, hquiet.emissions]
    rfl
  intro result hresult
  cases h with
  | idle _ _ hcomputed =>
    rw [hcomputed] at hresult
    cases hresult
  | serving watch last _ _ htracks hcomputed =>
    obtain ⟨after, handed, _, htakes, -, -, -, -, hlast⟩ := htracks
    rw [hupcoming] at htakes
    cases htakes
    rw [hcomputed, Option.map_eq_some_iff] at hresult
    obtain ⟨value, rfl, rfl⟩ := hresult
    have hvalue := hlast value rfl
    rwa [List.append_nil] at hvalue
  | sending watch value routes _ hemissions =>
    rw [hquiet.emissions] at hemissions
    cases hemissions
  | ended message _ hends hcomputed =>
    obtain ⟨after, handed, htakes, hlast⟩ := hends
    rw [hupcoming] at htakes
    cases htakes
    rw [hcomputed, Option.some.injEq] at hresult
    subst hresult
    rwa [List.append_nil] at hlast

/-- The client's side of the system. -/
def view (s : WatchSystem δ ρ β ω ψ) :
    String × ρ × δ × BTreeMap String (OutgoingWatch ρ ψ) ×
      List (String × Except String (Bool × ω)) :=
  (s.watchId, s.requestKind, s.clientDb, s.outgoing, s.handed)

variable {t : WatchSystem δ ρ β ω ψ} {events : List (WatchEvent β)} {last : Option ω} {sequence : ℕ}

private theorem Tracks.move (h : s.Tracks events sequence last) (hview : t.view = s.view)
    (hevents : t.upcoming = events) : t.Tracks t.upcoming sequence last := by
  simp only [view, Prod.mk.injEq] at hview
  obtain ⟨hid, hkind, hdb, houtgoing, hhanded⟩ := hview
  rw [Tracks, hevents, hid, hkind, hdb, houtgoing, hhanded]
  exact h

/-- The serving side moves on after an error. -/
theorem Ends.move {message : String} (h : s.Ends events message) (hview : t.view = s.view)
    (hevents : t.upcoming = events) :
    t.Ends t.upcoming message := by
  simp only [view, Prod.mk.injEq] at hview
  obtain ⟨-, -, hdb, houtgoing, hhanded⟩ := hview
  rw [Ends, hevents, hdb, houtgoing, hhanded]
  exact h

private theorem Tracks.received {first rest : List (WatchEvent β)}
    (h : s.Tracks (first ++ rest) sequence last)
    (hview : t.view = (s.watchId, s.requestKind, s.clientDb,
      (takeWatchEvents s.clientDb first s.outgoing).1,
      s.handed ++ (takeWatchEvents s.clientDb first s.outgoing).2)) (hrest : t.upcoming = rest) :
    t.Tracks t.upcoming sequence last := by
  obtain ⟨after, handed, watch, htakes, hwatch, hkind, hpending, hbefore, hlast⟩ := h
  obtain ⟨middle, taken, later, hfirst, hsecond, rfl⟩ := htakes.split
  rw [hfirst.eq] at hview
  simp only [view, Prod.mk.injEq] at hview
  obtain ⟨hid, hrequest, hdb, houtgoing, hhanded⟩ := hview
  rw [Tracks, hrest, hid, hrequest, hdb, houtgoing, hhanded]
  refine ⟨after, later, watch, hsecond, hwatch, hkind, hpending, hbefore, ?_⟩
  intro result hresult
  rw [List.append_assoc]
  exact hlast result hresult

private theorem Ends.received {first rest : List (WatchEvent β)} {message : String}
    (h : s.Ends (first ++ rest) message) (hview : t.view = (s.watchId, s.requestKind, s.clientDb,
      (takeWatchEvents s.clientDb first s.outgoing).1,
      s.handed ++ (takeWatchEvents s.clientDb first s.outgoing).2)) (hrest : t.upcoming = rest) :
    t.Ends t.upcoming message := by
  obtain ⟨after, handed, htakes, hlast⟩ := h
  obtain ⟨middle, taken, later, hfirst, hsecond, rfl⟩ := htakes.split
  rw [hfirst.eq] at hview
  simp only [view, Prod.mk.injEq] at hview
  obtain ⟨-, -, hdb, houtgoing, hhanded⟩ := hview
  rw [Ends, hrest, hdb, houtgoing, hhanded]
  exact ⟨after, later, hsecond, by rw [List.append_assoc]; exact hlast⟩

/-- An error for what the client waits for. -/
theorem Tracks.ends [ErrorBody β] (h : s.Tracks events sequence last) (herrors : CarriesErrors δ)
    (initial : Bool) (message : String) :
    s.Ends (events ++ [errorWatchEvent s.watchId sequence initial message]) message := by
  obtain ⟨after, handed, watch, htakes, hwatch, -, hpending, hbefore, -⟩ := h
  refine ⟨_, _, htakes.append (takes_error (herrors · message) hwatch hbefore hpending), ?_⟩
  rw [lastOf, ← List.append_assoc, List.getLast?_append]
  rfl

/-- A result that is computed for what the client waits for. -/
theorem Tracks.next (h : s.Tracks events sequence last) {initial : Bool} {result : ω}
    {parts : List (WatchEvent β)} (hparts : Assembles s.clientDb s.watchId sequence initial result
      (ClientHost.newAccumulator (δ := δ) s.requestKind) parts) :
    s.Tracks (events ++ parts) (sequence + 1) (some result) := by
  obtain ⟨after, handed, watch, htakes, hwatch, hkind, hpending, hbefore, -⟩ := h
  obtain ⟨final, hlast, hfinal⟩ := hparts.takes hwatch hbefore (.inl ⟨hpending, by rw [hkind]⟩)
  refine ⟨final, _, _, htakes.append hlast, hfinal, hkind, rfl, ?_, ?_⟩
  · intro delivered hdelivered
    cases hdelivered
    exact Nat.lt_succ_self sequence
  · intro other hother
    cases hother
    rw [lastOf, ← List.append_assoc, List.getLast?_append]
    rfl

private theorem Tracks.fresh {watch : OutgoingWatch ρ ψ}
    (hwatch : s.outgoing[s.watchId]? = some watch)
    (hkind : watch.requestKind = s.requestKind) (hdelivered : watch.lastDeliveredSequence = none)
    (hpending : watch.pendingSequence = none) : s.Tracks [] 0 none := by
  refine ⟨s.outgoing, [], watch, .nil _, hwatch, hkind, hpending, ?_, by simp⟩
  intro last hlast
  rw [hdelivered] at hlast
  cases hlast

/-- The answers of a watch, with what was computed for it. -/
theorem answer_cases (s : WatchSystem δ ρ β ω ψ) (watch : IncomingWatch ρ) (initial : Bool) :
    (∃ e, watch.answer s.db s.watchId initial s.refuses s.identity = .error e) ∨
    (∃ message, s.servedResult watch initial = some (.error message) ∧
      watch.answer s.db s.watchId initial s.refuses s.identity = .ok (.refused message)) ∨
    (∃ result, s.servedResult watch initial = some (.ok result) ∧ initial = false ∧
      ClientHost.resultHash (δ := δ) result = watch.lastHash ∧
      watch.answer s.db s.watchId initial s.refuses s.identity = .ok .unchanged) ∨
    ∃ result, s.servedResult watch initial = some (.ok result) ∧
      watch.answer s.db s.watchId initial s.refuses s.identity = .ok (.updated
        (ClientHost.chunkWatchResult s.db s.watchId watch.nextSequence initial result)
        (ClientHost.resultHash (δ := δ) result)) := by
  unfold IncomingWatch.answer servedResult
  cases s.refuses with
  | true => exact .inr (.inl ⟨_, rfl, rfl⟩)
  | false =>
    rw [if_neg Bool.false_ne_true, if_neg Bool.false_ne_true]
    cases ClientHost.serveWatchResult s.db watch.targetPeerId s.watchId watch.requestKind initial
      s.identity with
    | error e => exact .inl ⟨e, rfl⟩
    | ok outcome =>
      cases outcome with
      | error message => exact .inr (.inl ⟨message, rfl, rfl⟩)
      | ok result =>
        cases hsame : !initial && ClientHost.resultHash (δ := δ) result == watch.lastHash with
        | true =>
          rw [Bool.and_eq_true] at hsame
          refine .inr (.inr (.inl ⟨result, rfl, ?_, beq_iff_eq.mp hsame.2, ?_⟩))
          · simpa using hsame.1
          · change (if (!initial && _) = true then _ else _) = _
            rw [if_pos (Bool.and_eq_true_iff.mpr hsame)]
            rfl
        | false =>
          refine .inr (.inr (.inr ⟨result, rfl, ?_⟩))
          change (if (!initial && _) = true then _ else _) = _
          rw [if_neg (by rw [hsame]; exact Bool.false_ne_true)]
          rfl

variable [ContentHash ρ β] [ErrorBody β]

private theorem Phase.compute (herrors : CarriesErrors δ) {watch : IncomingWatch ρ} (now : ℕ)
    (success : Bool) {initial : Bool} (hserved : s.served = some watch)
    (hemissions : s.emissions = [.copied watch initial])
    (htracks : s.Tracks s.upcoming watch.nextSequence last) (hcomputed : s.computed = last.map .ok)
    (hparts : ∀ result, s.servedResult watch initial = some (.ok result) →
      watch.nextSequence + 1 < 2 ^ 64 ∧
        (initial = false → ClientHost.resultHash (δ := δ) result = watch.lastHash →
          s.computed = some (.ok result)) ∧
        Assembles s.clientDb s.watchId watch.nextSequence initial result
          (ClientHost.newAccumulator (δ := δ) s.requestKind)
          (ClientHost.chunkWatchResult s.db s.watchId watch.nextSequence initial result)) :
    Phase { (s.advance now success (.copied watch initial)).2 with
      emissions := (s.advance now success (.copied watch initial)).1 } := by
  have hupcoming : s.upcoming = s.routes.flatMap (·.payload.watchEvents) := by
    rw [upcoming, hemissions]
    simp [Emission.unsent]
  rw [hupcoming] at htracks
  rw [advance]
  rcases answer_cases s watch initial with ⟨e, hanswer⟩ | ⟨message, hresult, hanswer⟩ |
    ⟨result, hresult, hlater, hsame, hanswer⟩ | ⟨result, hresult, hanswer⟩
  · -- the database fails: nothing was computed
    rw [hanswer]
    refine .serving watch last hserved (.inl rfl) ?_ hcomputed
    exact htracks.move rfl (by simp [upcoming])
  · rw [hanswer, hresult]
    refine .ended message (.inr (.inl ⟨_, rfl⟩)) ?_ rfl
    refine (htracks.ends herrors initial message).move rfl ?_
    simp only [upcoming, List.flatMap_append, List.flatMap_singleton, Emission.unsent]
    rfl
  · -- the result has the hash of the one sent last, so it is the one computed last
    have hlast := (hparts result hresult).2.1 hlater hsame
    rw [hanswer, hresult]
    refine .serving watch last hserved (.inl rfl) ?_ (hlast.symm.trans hcomputed)
    exact htracks.move rfl (by simp [upcoming])
  · rw [hanswer, hresult]
    obtain ⟨hbound, -, hassembles⟩ := hparts result hresult
    refine .sending watch result _ hserved rfl hbound ?_ rfl
    refine (htracks.next hassembles).move rfl ?_
    simp only [upcoming, List.flatMap_append, List.flatMap_singleton, Emission.unsent,
      watchEvents_packBatchRoutes]

private theorem Phase.emission (herrors : CarriesErrors δ) (h : s.Phase) {index now : ℕ}
    {success : Bool} (hbenign : s.Benign (.emission index now success)) :
    (s.step (.emission index now success)).Phase := by
  obtain ⟨rfl, hparts⟩ := hbenign
  rw [step]
  cases hindex : s.emissions[index]? with
  | none => exact h
  | some emission =>
    -- the one update that is running
    have hone : ∀ {running}, s.emissions = [running] → running = emission ∧
        s.emissions.take index = [] ∧ s.emissions.drop (index + 1) = [] := by
      intro running hrunning
      rw [hrunning] at hindex ⊢
      cases index with
      | zero =>
        cases hindex
        exact ⟨rfl, rfl, rfl⟩
      | succ index => cases hindex
    have hnone : s.emissions ≠ [] := fun hempty => by
      rw [hempty] at hindex
      cases hindex
    cases h with
    | idle hserved hemissions hcomputed => exact absurd hemissions hnone
    | serving watch last hserved hemissions htracks hcomputed =>
      rcases hemissions with hemissions | ⟨initial, hemissions⟩ | ⟨initial, hemissions⟩
      · exact absurd hemissions hnone
      · obtain ⟨rfl, htake, hdrop⟩ := hone hemissions
        dsimp only
        rw [htake, hdrop, advance, hserved]
        refine .serving watch last hserved (.inr (.inr ⟨initial, rfl⟩)) ?_ hcomputed
        exact htracks.move rfl (by simp [upcoming, hemissions, Emission.unsent])
      · obtain ⟨rfl, htake, hdrop⟩ := hone hemissions
        dsimp only
        rw [htake, hdrop, List.nil_append, List.append_nil]
        exact Phase.compute herrors now true hserved hemissions htracks hcomputed
          fun result hresult => hparts watch initial result hindex hresult
    | sending watch result routes hserved hemissions hbound htracks hcomputed =>
      obtain ⟨rfl, htake, hdrop⟩ := hone hemissions
      dsimp only
      rw [htake, hdrop, List.nil_append, List.append_nil]
      cases routes with
      | nil =>
        rw [advance, hserved]
        refine .serving (watch.sent _) (some result) rfl (.inl rfl) ?_ hcomputed
        have hnext : (watch.sent (ClientHost.resultHash (δ := δ) result)).nextSequence =
            watch.nextSequence + 1 := min_eq_left (Nat.le_sub_one_of_lt hbound)
        rw [hnext]
        exact htracks.move rfl (by simp [upcoming, hemissions, Emission.unsent])
      | cons route routes =>
        rw [advance, if_pos rfl]
        refine .sending watch result routes hserved rfl hbound ?_ hcomputed
        exact htracks.move rfl (by simp [upcoming, hemissions, Emission.unsent])
    | ended message hemissions hends hcomputed =>
      rcases hemissions with ⟨hemissions, -⟩ | ⟨route, hemissions⟩ | hemissions
      · exact absurd hemissions hnone
      · obtain ⟨rfl, htake, hdrop⟩ := hone hemissions
        dsimp only
        rw [htake, hdrop, advance, if_pos rfl]
        refine .ended message (.inr (.inr rfl)) ?_ hcomputed
        exact hends.move rfl (by simp [upcoming, hemissions, Emission.unsent])
      · obtain ⟨rfl, htake, hdrop⟩ := hone hemissions
        dsimp only
        rw [htake, hdrop, advance]
        refine .ended message (.inl ⟨rfl, rfl⟩) ?_ hcomputed
        exact hends.move rfl (by simp [upcoming, hemissions, Emission.unsent])

private theorem Phase.subscribe (h : s.Phase) {now : ℕ} {admitted : Bool} {request : ρ}
    (hemissions : s.emissions = []) (hroutes : s.routes = []) {watch : OutgoingWatch ρ ψ}
    (hwatch : s.outgoing[s.watchId]? = some watch) (hkind : watch.requestKind = s.requestKind)
    (hdelivered : watch.lastDeliveredSequence = none) (hpending : watch.pendingSequence = none)
    (hrefused : s.refuses = true ∨ (ClientHost.authorizeWatchRequest s.db s.client.peerId s.watchId
      request s.identity).toOption = none → s.served = none) :
    (s.subscribe now admitted request).Phase := by
  rw [WatchSystem.subscribe]
  dsimp only
  split
  · rename_i hrefuses
    exact .idle (hrefused (.inl hrefuses)) hemissions rfl
  · split
    · rename_i message hauthorized
      exact .idle (hrefused (.inr (by rw [hauthorized]; rfl))) hemissions rfl
    · split
      · exact h
      · refine .serving _ none rfl (.inr (.inl ⟨true, by rw [hemissions]; rfl⟩)) ?_ rfl
        refine (Tracks.fresh hwatch hkind hdelivered hpending).move rfl ?_
        simp [upcoming, hemissions, hroutes, Emission.unsent]

omit [ContentHash ρ β] [ErrorBody β] in
/-- A change of the serving side that sends nothing. -/
theorem Phase.changed (h : s.Phase) (hview : t.view = s.view) (hserved : t.served = s.served)
    (hemissions : t.emissions = s.emissions) (hroutes : t.routes = s.routes)
    (hcomputed : t.computed = s.computed) : t.Phase := by
  have hupcoming : t.upcoming = s.upcoming := by rw [upcoming, upcoming, hroutes, hemissions]
  cases h with
  | idle hs he hc => exact .idle (hserved.trans hs) (hemissions.trans he) (hcomputed.trans hc)
  | serving watch last hs he htracks hc =>
    rw [← hemissions] at he
    exact .serving watch last (hserved.trans hs) he (htracks.move hview hupcoming)
      (hcomputed.trans hc)
  | sending watch result routes hs he hbound htracks hc =>
    exact .sending watch result routes (hserved.trans hs) (hemissions.trans he) hbound
      (htracks.move hview hupcoming) (hcomputed.trans hc)
  | ended message he hends hc =>
    rw [← hemissions, ← hserved] at he
    exact .ended message he (hends.move hview hupcoming) (hcomputed.trans hc)

omit [ContentHash ρ β] [ErrorBody β] in
/-- The client receives a route its router does not drop. -/
theorem Phase.deliver (h : s.Phase) {route : RouteEnvelope ρ β} {routes : List (RouteEnvelope ρ β)}
    (hroutes : s.routes = route :: routes) (router : RouterInner) :
    Phase { s with
      clientRouter := router
      routes := routes
      outgoing := (takeWatchEvents s.clientDb route.payload.watchEvents s.outgoing).1
      handed := s.handed ++
        (takeWatchEvents s.clientDb route.payload.watchEvents s.outgoing).2 } := by
  have hupcoming : s.upcoming = route.payload.watchEvents ++
      (routes ++ s.emissions.flatMap Emission.unsent).flatMap (·.payload.watchEvents) := by
    rw [upcoming, hroutes, List.cons_append, List.flatMap_cons]
  cases h with
  | idle hs he hc => exact .idle hs he hc
  | serving watch last hs he htracks hc =>
    rw [hupcoming] at htracks
    exact .serving watch last hs he (htracks.received rfl rfl) hc
  | sending watch result unsent hs he hbound htracks hc =>
    rw [hupcoming] at htracks
    exact .sending watch result unsent hs he hbound (htracks.received rfl rfl) hc
  | ended message he hends hc =>
    rw [hupcoming] at hends
    exact .ended message he (hends.received rfl rfl) hc

private theorem Phase.step (herrors : CarriesErrors δ) (h : s.Phase) {event : WatchSystemEvent δ}
    (hbenign : s.Benign event) : (s.step event).Phase := by
  cases event with
  | changed db refuses identity => exact h.changed rfl rfl rfl rfl rfl
  | requested =>
    rw [WatchSystem.step]
    split
    · exact h.changed rfl rfl rfl rfl rfl
    · exact h
  | subscribed now admitted =>
    rw [WatchSystem.step]
    cases hrequests : s.requests with
    | nil => exact h
    | cons request requests =>
      obtain ⟨hemissions, hroutes, ⟨watch, hwatch, hkind, hdelivered, hpending⟩, hrefused⟩ :=
        hbenign request (by rw [hrequests]; rfl)
      have hpopped : Phase { s with requests := requests } := h.changed rfl rfl rfl rfl rfl
      exact hpopped.subscribe hemissions hroutes hwatch hkind hdelivered hpending hrefused
  | notified =>
    have hemissions : s.emissions = [] := hbenign
    rw [WatchSystem.step]
    split
    · rename_i hserved
      cases h with
      | idle hs => simp [hs] at hserved
      | serving watch last hs he htracks hc =>
        refine .serving watch last hs (.inr (.inl ⟨false, by rw [hemissions]; rfl⟩)) ?_ hc
        exact htracks.move rfl (by simp [upcoming, hemissions, Emission.unsent])
      | sending watch result routes hs he =>
        rw [hemissions] at he
        cases he
      | ended message he =>
        rcases he with ⟨-, hs⟩ | ⟨route, he⟩ | he
        · simp [hs] at hserved
        · rw [hemissions] at he
          cases he
        · rw [hemissions] at he
          cases he
    · exact h
  | emission index now success => exact h.emission herrors hbenign
  | delivered now =>
    rw [WatchSystem.step]
    cases hroutes : s.routes with
    | nil => exact h
    | cons route routes =>
      have hdeliver := hbenign route (by rw [hroutes]; rfl)
      dsimp only
      rw [if_pos hdeliver]
      exact h.deliver hroutes _

end WatchSystem

/-! ## Watches of remote results -/

section Results

variable {δ ν τ κ : Type}
  [ClientHost δ PullRequestKind (PullResponseBody ν τ κ) (RemoteResult ν τ κ)
    (PullAccumulator ν τ κ)]

/-- The system of a watch of remote results. -/
abbrev ResultWatch (δ ν τ κ : Type)
    [ClientHost δ PullRequestKind (PullResponseBody ν τ κ) (RemoteResult ν τ κ)
      (PullAccumulator ν τ κ)] : Type :=
  WatchSystem δ PullRequestKind (PullResponseBody ν τ κ) (RemoteResult ν τ κ)
    (PullAccumulator ν τ κ)

/-- The events from a part on, gathered after those before it, give the result. -/
theorem assembles_drop (hgathers : RelayClient.GathersResults (ν := ν) (τ := τ) (κ := κ) δ) (db : δ)
    (watchId : String) (sequence : ℕ) (initial : Bool) {result : RemoteResult ν τ κ}
    {accumulator : PullAccumulator ν τ κ} {bodies : List (PullResponseBody ν τ κ)}
    (hbodies : ∀ body ∈ bodies, ∀ accumulator : PullAccumulator ν τ κ,
      (accumulator.applyResponseBody body).2 = none)
    (hcount : bodies.length < 2 ^ 32)
    (hresult : (accumulator.gather bodies).intoResult = .ok result) {index : ℕ}
    (hindex : index < bodies.length) :
    Assembles db watchId sequence initial result (accumulator.gather (bodies.take index))
      (((numbered watchId bodies).drop index).map fun response =>
        ⟨watchId, sequence, initial, response.chunk, response.done, response.result⟩) := by
  have hdrop : ∀ {index} (hindex : index < bodies.length), (numbered watchId bodies).drop index =
      chunkResponse watchId index bodies.length bodies[index] ::
        (numbered watchId bodies).drop (index + 1) := by
    intro index hindex
    rw [List.drop_eq_getElem?_toList_append, numbered, List.getElem?_mapIdx,
      List.getElem?_eq_getElem hindex]
    rfl
  have happly : ∀ {index} (hindex : index < bodies.length),
      ClientHost.applyResponseBody (δ := δ) (accumulator.gather (bodies.take index))
        bodies[index] = (accumulator.gather (bodies.take (index + 1)), none) := by
    intro index hindex
    rw [hgathers.applyResponseBody, List.take_add_one, List.getElem?_eq_getElem hindex,
      Option.toList_some, PullAccumulator.gather_concat]
    exact Prod.ext rfl (hbodies _ (List.getElem_mem hindex) _)
  -- the induction is on the parts that are left
  obtain ⟨left, hleft⟩ : ∃ left, bodies.length - index = left + 1 :=
    ⟨bodies.length - index - 1, by omega⟩
  induction left generalizing index with
  | zero =>
    have hlast : index + 1 = bodies.length := by omega
    have hnone : (numbered watchId bodies).drop (index + 1) = [] := by
      rw [List.drop_eq_nil_iff, numbered, List.length_mapIdx]
      omega
    rw [hdrop hindex, List.map_cons, hnone]
    refine .last rfl rfl rfl (happly hindex) (.inl ?_) ?_
    · simp [chunkResponse, hlast]
    · rw [hgathers.intoResult, hlast, List.take_length]
      exact hresult
  | succ left ih =>
    rw [hdrop hindex, List.map_cons]
    refine .more rfl rfl rfl (happly hindex) ?_ (ih (by omega) (by omega))
    have hnumber : asU32 index = index := Nat.mod_eq_of_lt (by omega)
    have htotal : asU32 bodies.length = bodies.length := Nat.mod_eq_of_lt hcount
    simp only [chunkResponse, hnumber, htotal, beq_iff_eq]
    omega

/-- The events of a result give it back when the accumulator takes results of its kind and fewer
than `2 ^ 32` are needed. -/
theorem assembles_buildWatchEvents
    (hgathers : RelayClient.GathersResults (ν := ν) (τ := τ) (κ := κ) δ) (db : δ) (watchId : String)
    (sequence : ℕ) (initial : Bool) {kind : PullRequestKind} {result : RemoteResult ν τ κ}
    {limits : ChunkLimits} (htakes : PullAccumulator.takes kind result = true)
    (hcount : result.chunkCount limits < 2 ^ 32) :
    Assembles db watchId sequence initial result (ClientHost.newAccumulator (δ := δ) kind)
      (buildWatchEvents watchId sequence initial result limits) := by
  have hlength := result.length_bodies limits
  have hpos : 0 < result.chunkCount limits := by
    cases result <;> simp [RemoteResult.chunkCount]
  rw [buildWatchEvents, buildPullResponses_eq, hgathers.newAccumulator]
  exact assembles_drop hgathers db watchId sequence initial
    (fun body hbody => RemoteResult.applyResponseBody_snd hbody) (by omega)
    (PullAccumulator.gather_bodies limits htakes) (show 0 < _ by omega)

variable [ErrorBody (PullResponseBody ν τ κ)]

variable (δ) in
/-- The serving side splits its results as `chunk_watch_result` does, the watching side gathers
them, and errors are error bodies. -/
structure ServesResults (limits : δ → ChunkLimits) : Prop where
  gathers : RelayClient.GathersResults (ν := ν) (τ := τ) (κ := κ) δ
  chunkWatchResult : ∀ (db : δ) watchId sequence initial (result : RemoteResult ν τ κ),
    ClientHost.chunkWatchResult db watchId sequence initial result =
      buildWatchEvents watchId sequence initial result (limits db)
  error : ∀ message, (ErrorBody.error message : PullResponseBody ν τ κ) = .error message

namespace WatchSystem

/-- The events after which a watch of remote results stays current: a computed result is of the
kind the client asked for and is sent in fewer than `2 ^ 32` parts. -/
def Orderly (limits : δ → ChunkLimits) (s : ResultWatch δ ν τ κ) : WatchSystemEvent δ → Prop
  | .emission index _ success => success = true ∧
    ∀ watch initial result, s.emissions[index]? = some (.copied watch initial) →
      s.servedResult watch initial = some (.ok result) → watch.nextSequence + 1 < 2 ^ 64 ∧
        (initial = false → ClientHost.resultHash (δ := δ) result = watch.lastHash →
          s.computed = some (.ok result)) ∧
        PullAccumulator.takes s.requestKind result = true ∧
        result.chunkCount (limits s.db) < 2 ^ 32
  | event => s.Benign event

private theorem Orderly.benign {limits : δ → ChunkLimits}
    (hserves : ServesResults (ν := ν) (τ := τ) (κ := κ) δ limits) {s : ResultWatch δ ν τ κ}
    {event : WatchSystemEvent δ} (h : s.Orderly limits event) : s.Benign event := by
  cases event with
  | emission index now success =>
    refine ⟨h.1, fun watch initial result hrunning hresult => ?_⟩
    obtain ⟨hbound, hhash, htakes, hcount⟩ := h.2 watch initial result hrunning hresult
    refine ⟨hbound, hhash, ?_⟩
    rw [hserves.chunkWatchResult]
    exact assembles_buildWatchEvents hserves.gathers _ _ _ _ htakes hcount
  | changed | requested | subscribed | notified | delivered => exact h

end WatchSystem

end Results

/-- A client that watches the count of another. -/
def countingWatch : WatchSystem CountingDb CountRequest CountBody ℕ (Option ℕ) where
  watchId := "w"
  requestKind := .count
  server := { peerId := "s" }
  serverRouter := .new
  db := ⟨0⟩
  refuses := false
  identity := none
  served := none
  emissions := []
  requests := []
  routes := []
  client := { peerId := "c" }
  clientRouter := .new
  clientDb := ⟨0⟩
  outgoing := (∅ : BTreeMap String (OutgoingWatch CountRequest (Option ℕ))).insert "w"
    ⟨"s", .count, none, none⟩
  computed := none
  handed := []

/-- An update from its start to its delivery. -/
def updateEvents {δ : Type} : List (WatchSystemEvent δ) :=
  List.replicate 4 (.emission 0 0 true) ++ [.delivered 0]

/-- A subscription and its first result. -/
def subscribedEvents : List (WatchSystemEvent CountingDb) :=
  [.requested, .subscribed 0 true] ++ updateEvents

/-- The client subscribes once more after a change. -/
def resubscribedEvents : List (WatchSystemEvent CountingDb) :=
  subscribedEvents ++ .changed ⟨1⟩ false none :: subscribedEvents

/-- A database that serves the fields of a node. -/
structure FieldsDb where
  entries : List MapEntry

/-- Each field is a part of its own, and the hash of a result is made of the fields. -/
instance : ClientHost FieldsDb PullRequestKind BareBody (RemoteResult Unit Unit Unit)
    (PullAccumulator Unit Unit Unit) where
  replicaId _ := "replica"
  allowPeerConnection _ _ _ _ := true
  servePullRequest _ _ _ _ := fun db => (.ok (.ok (.map db.entries)), db)
  snapshotKind := .snapshot
  snapshotOf _ := none
  chunkRemoteResult _ requestId result := buildPullResponses requestId result ⟨1, 1, 1⟩
  authorizeWatchRequest _ _ _ request _ := .ok request
  serveWatchResult db _ _ _ _ _ := .ok (.ok (.map db.entries))
  resultHash
    | .map entries => some (String.intercalate "/" (entries.map (·.key)))
    | _ => none
  chunkWatchResult _ watchId sequence initial result :=
    buildWatchEvents watchId sequence initial result ⟨1, 1, 1⟩
  loadSnapshot _ := fun db => (.ok (), db)
  applySyncEnvelope _ ops := fun db => (.ok ops.length, db)
  drainSyncEnvelope := fun db => (.ok ("replica", []), db)
  requeuePendingOperations _ := fun db => (.ok (), db)
  signSessionAuthResponse _ _ _ _ _ := .ok none
  encodeSyncPayload _ _ := .error .serde
  decodeSyncPayload _ _ _ := .error .serde
  routeFits _ _ := .ok ()
  maxOpsPerMessage _ := 8
  maxBatchItemsPerRoute _ := 8
  maxActiveRemoteWatches _ := 8
  maxPeerRecommendations _ := 8
  newAccumulator := PullAccumulator.new
  applyResponseBody := PullAccumulator.applyResponseBody
  intoResult := PullAccumulator.intoResult

/-- A client that watches the fields of a node. -/
def fieldsWatch : ResultWatch FieldsDb Unit Unit Unit where
  watchId := "w"
  requestKind := .map ⟨"n", []⟩
  server := { peerId := "s" }
  serverRouter := .new
  db := ⟨[⟨"a", .null⟩]⟩
  refuses := false
  identity := none
  served := none
  emissions := []
  requests := []
  routes := []
  client := { peerId := "c" }
  clientRouter := .new
  clientDb := ⟨[]⟩
  outgoing := (∅ : BTreeMap String (OutgoingWatch PullRequestKind
    (PullAccumulator Unit Unit Unit))).insert "w" ⟨"s", .map ⟨"n", []⟩, none, none⟩
  computed := none
  handed := []

/-- A subscription, and a second field that is noticed after it. -/
def fieldAdded : List (WatchSystemEvent FieldsDb) :=
  [.requested, .subscribed 0 true] ++ updateEvents ++
    [.changed ⟨[⟨"a", .null⟩, ⟨"b", .null⟩]⟩ false none, .notified] ++ updateEvents

/-- What an update of the fields needs. -/
def fieldsReady (s : ResultWatch FieldsDb Unit Unit Unit) : Bool :=
  (match s.requestKind with
    | .map _ => true
    | _ => false) &&
  (decide (s.db.entries.length < 8) &&
    s.emissions[0]?.all fun
      | .copied watch initial => decide (watch.nextSequence + 1 < 2 ^ 64) &&
        (initial || some (String.intercalate "/" (s.db.entries.map (·.key))) != watch.lastHash)
      | _ => true)

private theorem servesResults_fieldsDb :
    ServesResults (ν := Unit) (τ := Unit) (κ := Unit) FieldsDb fun _ => ⟨1, 1, 1⟩ :=
  ⟨⟨fun _ => rfl, fun _ _ => rfl, fun _ => rfl⟩, fun _ _ _ _ _ => rfl, fun _ => rfl⟩

private theorem orderly_of_fieldsReady {s : ResultWatch FieldsDb Unit Unit Unit}
    (h : fieldsReady s = true) : s.Orderly (fun _ => ⟨1, 1, 1⟩) (.emission 0 0 true) := by
  refine ⟨rfl, fun watch initial result hrunning hresult => ?_⟩
  rw [fieldsReady, hrunning, Option.all_some] at h
  simp only [Bool.and_eq_true, Bool.or_eq_true, decide_eq_true_eq, bne_iff_ne] at h
  obtain ⟨hkind, hlength, hbound, hhash⟩ := h
  rw [WatchSystem.servedResult] at hresult
  split at hresult
  · cases hresult
  · cases hresult
    refine ⟨hbound, fun hlater hsame => ?_, ?_, ?_⟩
    · rw [hlater] at hhash
      exact absurd hsame (hhash.resolve_left Bool.false_ne_true)
    · cases hrequest : s.requestKind with
      | map path => rfl
      | _ =>
        rw [hrequest] at hkind
        cases hkind
    · simp only [RemoteResult.chunkCount, max_self, Nat.ceilDiv_eq_add_pred_div]
      omega

end Primadb

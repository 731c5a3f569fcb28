import Primadb.Core.Run
import Primadb.Db.PathWatch

/-!
# Subscribing while others write

`subscribe_to` reads the value at its path, registers a watcher with the hash of that value and
then sends it; a writer changes nodes and then runs `notify_subscribers`, which copies the
watchers, reads the value, sends it when its hash differs from the copied one and notes the hash.
Each of these is a critical section or a send of its own, and the steps of several calls
interleave. The changes considered all overlap the path, and the receiver stays.
-/

namespace Primadb

/-- How far `subscribe_to` has come. -/
inductive SubscribePhase where
  | idle
  | read (snapshot : Option JsonValue)
  | registered (snapshot : Option JsonValue)
  | returned
  deriving DecidableEq

/-- How far a running `notify_subscribers` has come with the watcher; `η` holds the hashes. -/
inductive NotifyPhase (η : Type) where
  /-- The hash of the watcher was copied, if there was a watcher. -/
  | listed (lastHash : Option η)
  /-- A value with another hash was read. -/
  | computed (snapshot : Option JsonValue)
  /-- The value was sent; its hash is to be noted. -/
  | sent (lastHash : η)
  deriving DecidableEq

/-- The database, the calls under way and the channel of the subscriber. -/
structure SubscribeRace (σ η : Type) where
  inner : Inner σ
  subscriber : SubscribePhase
  /-- The hash held by the watcher, once registered. -/
  lastHash : Option η
  /-- Writers that changed nodes and have not entered `notify_subscribers`. -/
  waiting : ℕ
  /-- The running calls of `notify_subscribers`. -/
  calls : List (NotifyPhase η)
  /-- What the receiver has not taken. -/
  queue : List (Option JsonValue)
  /-- The value sent last. -/
  lastSent : Option (Option JsonValue)

/-- The next step of some thread. -/
inductive RaceEvent (σ : Type) where
  | subscribe
  /-- A writer changes nodes. -/
  | change (inner : Inner σ)
  /-- A writer enters `notify_subscribers` and copies the watchers. -/
  | list
  /-- A running `notify_subscribers` goes on. -/
  | proceed (index : ℕ)
  /-- The receiver takes a value. -/
  | receive

/-- The capacity of the channel. -/
def localWatchQueueCapacity : ℕ := 64

namespace SubscribeRace

variable {σ η : Type} [IncrementalStore σ] [DecidableEq η]

/-- A database nobody has subscribed to and nobody writes to. -/
def start (inner : Inner σ) : SubscribeRace σ η := ⟨inner, .idle, none, 0, [], [], none⟩

/-- `send_watch_update`: the oldest value makes room. -/
def sendWatchUpdate (s : SubscribeRace σ η) (value : Option JsonValue) : SubscribeRace σ η :=
  { s with
    queue := (if s.queue.length < localWatchQueueCapacity then s.queue else s.queue.tail) ++ [value]
    lastSent := some value }

/-- `try_send`: a full channel takes nothing. -/
def trySend (s : SubscribeRace σ η) (value : Option JsonValue) : SubscribeRace σ η :=
  if s.queue.length < localWatchQueueCapacity then s.sendWatchUpdate value else s

variable (hash : Option JsonValue → η) (anchor : NodeId) (segments : List String)

/-- The next step of `subscribe_to`. -/
def subscribeTo (s : SubscribeRace σ η) : SubscribeRace σ η :=
  match s.subscriber with
  | .idle => { s with subscriber := .read (s.inner.materialize anchor segments) }
  | .read snapshot =>
    { s with subscriber := .registered snapshot, lastHash := some (hash snapshot) }
  | .registered snapshot => { s.trySend snapshot with subscriber := .returned }
  | .returned => s

/-- The next step of a running `notify_subscribers`. -/
def proceed (s : SubscribeRace σ η) (index : ℕ) : SubscribeRace σ η :=
  match s.calls[index]? with
  | none => s
  | some (.listed none) => { s with calls := s.calls.eraseIdx index }
  | some (.listed (some lastHash)) =>
    let snapshot := s.inner.materialize anchor segments
    { s with
      calls := if hash snapshot = lastHash then s.calls.eraseIdx index
        else s.calls.set index (.computed snapshot) }
  | some (.computed snapshot) =>
    { s.sendWatchUpdate snapshot with calls := s.calls.set index (.sent (hash snapshot)) }
  | some (.sent lastHash) =>
    { s with calls := s.calls.eraseIdx index, lastHash := s.lastHash.map fun _ => lastHash }

/-- Take a step. -/
def step (s : SubscribeRace σ η) : RaceEvent σ → SubscribeRace σ η
  | .subscribe => s.subscribeTo hash anchor segments
  | .change inner => { s with inner := inner, waiting := s.waiting + 1 }
  | .list =>
    if s.waiting = 0 then s
    else { s with waiting := s.waiting - 1, calls := s.calls ++ [.listed s.lastHash] }
  | .proceed index => s.proceed hash anchor segments index
  | .receive => { s with queue := s.queue.tail }

/-- All calls have returned. -/
def Returned (s : SubscribeRace σ η) : Prop :=
  s.subscriber = .returned ∧ s.waiting = 0 ∧ s.calls = []

/-- No call of `subscribe_to` or `notify_subscribers` starts while another one is running. -/
def Alone (s : SubscribeRace σ η) : RaceEvent σ → Prop
  | .subscribe => s.subscriber = .idle → s.calls = []
  | .list => s.calls = [] ∧ (s.subscriber = .idle ∨ s.subscriber = .returned)
  | .change _ | .proceed _ | .receive => True

instance (s : SubscribeRace σ η) : (event : RaceEvent σ) → Decidable (s.Alone event)
  | .subscribe => inferInstanceAs (Decidable (s.subscriber = .idle → s.calls = []))
  | .list => inferInstanceAs (Decidable (s.calls = [] ∧ (s.subscriber = .idle ∨ _)))
  | .change _ | .proceed _ | .receive => .isTrue trivial

/-- A `notify_subscribers` that reads a value with the hash of the value sent last reads that
value. The hash is taken of the serialized value, which is the same for no value and for null. -/
def Distinguishes (s : SubscribeRace σ η) : RaceEvent σ → Prop
  | .proceed index =>
    s.calls[index]? = some (.listed (some (hash (s.inner.materialize anchor segments)))) →
      ∀ last ∈ s.lastSent, s.inner.materialize anchor segments = last
  | .subscribe | .list | .change _ | .receive => True

instance (s : SubscribeRace σ η) : (event : RaceEvent σ) →
    Decidable (s.Distinguishes hash anchor segments event)
  | .proceed index => inferInstanceAs (Decidable (s.calls[index]? = _ → ∀ last ∈ s.lastSent, _))
  | .subscribe | .list | .change _ | .receive => .isTrue trivial

/-- The value is the current one, or a writer is still to notify. -/
def Fresh (inner : Inner σ) (waiting : ℕ) (value : Option JsonValue) : Prop :=
  inner.materialize anchor segments = value ∨ 0 < waiting

/-- What calls that do not overlap keep: the watcher holds the hash of the value sent last, and
that value, or the one about to be sent, is current or about to be replaced. -/
inductive Current : SubscribeRace σ η → Prop
  | before (inner waiting calls) (h : calls = [] ∨ calls = [.listed none]) :
    Current ⟨inner, .idle, none, waiting, calls, [], none⟩
  | read (inner waiting value) (h : Fresh anchor segments inner waiting value) :
    Current ⟨inner, .read value, none, waiting, [], [], none⟩
  | registered (inner waiting value) (h : Fresh anchor segments inner waiting value) :
    Current ⟨inner, .registered value, some (hash value), waiting, [], [], none⟩
  | returned (inner waiting queue last) (h : Fresh anchor segments inner waiting last) :
    Current ⟨inner, .returned, some (hash last), waiting, [], queue, some last⟩
  | listed (inner waiting queue last) :
    Current ⟨inner, .returned, some (hash last), waiting, [.listed (some (hash last))], queue,
      some last⟩
  | computed (inner waiting queue last value) (h : Fresh anchor segments inner waiting value) :
    Current ⟨inner, .returned, some (hash last), waiting, [.computed value], queue, some last⟩
  | sent (inner waiting queue last old) (h : Fresh anchor segments inner waiting last) :
    Current ⟨inner, .returned, some old, waiting, [.sent (hash last)], queue, some last⟩

variable {hash anchor segments} {s : SubscribeRace σ η}

omit [DecidableEq η] in
/-- The steps of `subscribe_to` keep it. -/
theorem Current.subscribeTo (h : Current hash anchor segments s)
    (halone : s.subscriber = .idle → s.calls = []) :
    Current hash anchor segments (s.subscribeTo hash anchor segments) := by
  cases h with
  | before inner waiting calls h =>
    obtain rfl : calls = [] := halone rfl
    exact .read inner waiting _ (Or.inl rfl)
  | read inner waiting value h => exact .registered inner waiting value h
  | registered inner waiting value h => exact .returned inner waiting [value] value h
  | returned | listed | computed | sent => constructor <;> assumption

/-- The steps of `notify_subscribers` keep it: a value with the hash of the value sent last is that
value. -/
theorem Current.proceed (h : Current hash anchor segments s) {index : ℕ}
    (hdistinct : s.Distinguishes hash anchor segments (.proceed index)) :
    Current hash anchor segments (s.proceed hash anchor segments index) := by
  have hone : ∀ {call : NotifyPhase η} {t : SubscribeRace σ η}, t.calls = [call] →
      Current hash anchor segments t →
      (index = 0 → Current hash anchor segments (t.proceed hash anchor segments 0)) →
      Current hash anchor segments (t.proceed hash anchor segments index) := by
    intro call t hcalls ht hzero
    cases index with
    | zero => exact hzero rfl
    | succ index =>
      rw [SubscribeRace.proceed, hcalls]
      exact ht
  cases h with
  | before inner waiting calls h =>
    rcases h with rfl | rfl
    · exact .before inner waiting [] (Or.inl rfl)
    · exact hone rfl (.before inner waiting _ (Or.inr rfl))
        fun _ => .before inner waiting [] (Or.inl rfl)
  | read | registered | returned =>
    constructor
    assumption
  | listed inner waiting queue last =>
    refine hone rfl (.listed inner waiting queue last) ?_
    rintro rfl
    by_cases hsame : hash (inner.materialize anchor segments) = hash last
    · have hnext : Current hash anchor segments _ :=
        .returned inner waiting queue last (Or.inl (hdistinct (by rw [hsame]; rfl) last rfl))
      simpa [SubscribeRace.proceed, hsame] using hnext
    · have hnext : Current hash anchor segments _ :=
        .computed inner waiting queue last _ (Or.inl rfl)
      simpa [SubscribeRace.proceed, hsame] using hnext
  | computed inner waiting queue last value h =>
    exact hone rfl (.computed inner waiting queue last value h)
      fun _ => .sent inner waiting _ value _ h
  | sent inner waiting queue last old h =>
    exact hone rfl (.sent inner waiting queue last old h)
      fun _ => .returned inner waiting queue last h

/-- A step of a call that runs alone keeps it. -/
theorem Current.step {event : RaceEvent σ} (h : Current hash anchor segments s)
    (halone : s.Alone event) (hdistinct : s.Distinguishes hash anchor segments event) :
    Current hash anchor segments (s.step hash anchor segments event) := by
  cases event with
  | subscribe => exact h.subscribeTo halone
  | proceed index => exact h.proceed hdistinct
  | change inner =>
    -- A writer is to notify, so nothing has to be current.
    have hfresh : ∀ waiting value, Fresh anchor segments inner (waiting + 1) value :=
      fun waiting _ => Or.inr waiting.succ_pos
    cases h <;> constructor <;> first | assumption | exact hfresh _ _
  | list =>
    obtain ⟨hcalls, hsubscriber⟩ := halone
    rw [SubscribeRace.step]
    split
    · exact h
    · cases h with
      | before inner waiting calls h =>
        obtain rfl : calls = [] := hcalls
        exact .before inner _ _ (Or.inr rfl)
      | returned inner waiting queue last h => exact .listed inner _ queue last
      | read | registered => exact absurd hsubscriber (by simp)
      | listed | computed | sent => exact absurd hcalls (by simp)
  | receive => cases h <;> constructor <;> assumption

/-- In a run in which calls of `subscribe_to` and `notify_subscribers` do not overlap and the hashes
that are compared tell the values apart, whatever else interleaves, the value sent last is the
current one once all calls have returned. -/
theorem subscriber_current (inner : Inner σ) (events : List (RaceEvent σ))
    (halone : Run.Along (step hash anchor segments)
      (fun s event => s.Alone event ∧ s.Distinguishes hash anchor segments event)
      (start inner) events)
    (hreturned : (events.foldl (step hash anchor segments) (start inner)).Returned) :
    (events.foldl (step hash anchor segments) (start inner)).lastSent =
      some ((events.foldl (step hash anchor segments)
        (start inner)).inner.materialize anchor segments) := by
  have hcurrent : Current hash anchor segments (start inner) :=
    .before inner 0 [] (Or.inl rfl)
  have hrun := halone.invariant (I := Current hash anchor segments)
    (fun h halone => h.step halone.1 halone.2) hcurrent
  generalize events.foldl (step hash anchor segments) (start inner) = s at hrun hreturned
  obtain ⟨hsubscriber, hwaiting, hcalls⟩ := hreturned
  cases hrun with
  | returned inner waiting queue last h =>
    rcases h with h | h
    · rw [h]
    · exact absurd hwaiting h.ne'
  | before | read | registered => exact absurd hsubscriber (by simp)
  | listed | computed | sent => exact absurd hcalls (by simp)

end SubscribeRace

/-- A database with one field, for closed runs. -/
def fieldDb (value : JsonValue) : Inner Empty :=
  { Inner.withReplicaId "r" ⟨fun _ => 0, 0⟩ with
    nodes := (∅ : BTreeMap NodeId NodeState).insert "a"
      ⟨"a", (∅ : BTreeMap String FieldState).insert "x" ⟨.scalar value, zeroMarker⟩, ∅⟩ }

/-- A run with a subscriber of the field, with the serialized value as hash. -/
def fieldRun (inner : Inner Empty) (events : List (RaceEvent Empty)) :
    SubscribeRace Empty JsonValue :=
  events.foldl (SubscribeRace.step (·.getD .null) "a" ["x"]) (SubscribeRace.start inner)

/-- Subscribing, a write after it and its notification: the new value is sent. -/
theorem subscriber_current_fieldDb :
    (fieldRun (fieldDb (.bool true)) [.subscribe, .subscribe, .subscribe, .change (fieldDb .null),
      .list, .proceed 0, .proceed 0, .proceed 0]).lastSent = some (some .null) :=
  (SubscribeRace.subscriber_current (fieldDb (.bool true)) _ (by decide +kernel)
    ⟨by decide +kernel, by decide +kernel, by decide +kernel⟩).trans (by decide +kernel)

/-- A write and its notification between reading the value and registering the watcher: the old
value is sent, and nothing after it. A null that is deleted is not noticed. -/
theorem subscriber_stale_fieldDb :
    let last := fieldRun (fieldDb (.bool true)) [.subscribe, .change (fieldDb .null), .list,
      .proceed 0, .subscribe, .subscribe]
    let deleted := fieldRun (fieldDb .null) [.subscribe, .subscribe, .subscribe,
      .change (Inner.withReplicaId "r" ⟨fun _ => 0, 0⟩), .list, .proceed 0]
    (last.Returned ∧ last.lastSent = some (some (.bool true)) ∧
        last.inner.materialize "a" ["x"] = some .null) ∧
      deleted.Returned ∧ deleted.lastSent = some (some .null) ∧
        deleted.inner.materialize "a" ["x"] = none :=
  ⟨⟨⟨by decide +kernel, by decide +kernel, by decide +kernel⟩, by decide +kernel,
    by decide +kernel⟩, ⟨by decide +kernel, by decide +kernel, by decide +kernel⟩,
    by decide +kernel, by decide +kernel⟩

end Primadb

import Primadb.Core.Run
import Primadb.Net.Route

/-!
# Flooding a mesh of routers

Every router passes on what it has not seen, to whoever it is connected to, and the network may
repeat, delay and lose copies; a restarted router has forgotten what it saw. What keeps copies from
circling is the path each of them carries and its remaining number of hops.
-/

namespace Primadb

variable {ρ β : Type}

/-- The copy of a route that was passed on by the routers of a path. -/
def RouteEnvelope.carried (sent : RouteEnvelope ρ β) (path : List String) : RouteEnvelope ρ β :=
  { sent with
    ttl := sent.ttl - path.length
    hops := min path.length 255
    seenBy := sent.sender :: path }

/-- A route is dropped, or a router it has not passed is done with it as the target and the hops
left say. -/
theorem RouterConfig.accept_cases (config : RouterConfig) (now : ℕ) (inner : RouterInner)
    (envelope : RouteEnvelope ρ β) :
    (config.accept now inner envelope).1 = ⟨false, none, true⟩ ∨
      config.peerId ∉ envelope.seenBy ∧ (config.accept now inner envelope).1 =
        ⟨matchesTarget config.peerId config.defaultChannel envelope,
          if envelope.ttl > 1 then
            some { envelope with
              ttl := envelope.ttl - 1
              hops := min (envelope.hops + 1) 255
              seenBy := envelope.seenBy ++ [config.peerId] }
          else none, false⟩ := by
  rw [accept]
  split
  · exact .inl rfl
  · rename_i hseen
    have hnew : config.peerId ∉ envelope.seenBy := by
      intro hmem
      simp [SeenCache.duplicate, hmem] at hseen
    refine .inr ⟨hnew, ?_⟩
    simp [RouteEnvelope.markSeen, hnew]

/-- The routers of all peers, the routes sent, the copies in the air, and what peers got. -/
structure FloodedMesh (ρ β : Type) where
  routers : String → RouterInner
  sent : List (RouteEnvelope ρ β)
  /-- A copy stays in the air, so that it may arrive anywhere, late and repeatedly. -/
  air : List (RouteEnvelope ρ β)
  delivered : List (String × RouteEnvelope ρ β)

/-- What happens in a mesh. -/
inductive FloodEvent (ρ β : Type) where
  | send (peer : String) (now : ℕ) (payload : RoutePayload ρ β) (target : RouteTarget)
      (replyTo : Option String)
  /-- The copy at a position in the air arrives at a peer. -/
  | arrive (peer : String) (now position : ℕ)
  | restart (peer : String)

namespace FloodedMesh

/-- A mesh without routes. -/
def start : FloodedMesh ρ β := ⟨fun _ => .new, [], [], []⟩

/-- The settings of a peer, under its own name. -/
def config (configs : String → RouterConfig) (peer : String) : RouterConfig :=
  { configs peer with peerId := peer }

/-- One event. -/
def step [ContentHash ρ β] (configs : String → RouterConfig) (mesh : FloodedMesh ρ β) :
    FloodEvent ρ β → FloodedMesh ρ β
  | .send peer now payload target replyTo =>
    let (envelope, inner) :=
      (config configs peer).wrapPayload now (mesh.routers peer) payload target replyTo
    { mesh with
      routers := Function.update mesh.routers peer inner
      sent := envelope :: mesh.sent
      air := envelope :: mesh.air }
  | .arrive peer now position =>
    match mesh.air[position]? with
    | none => mesh
    | some envelope =>
      let (decision, inner) := (config configs peer).accept now (mesh.routers peer) envelope
      { mesh with
        routers := Function.update mesh.routers peer inner
        air := decision.forward.toList ++ mesh.air
        delivered :=
          if decision.deliver then (peer, envelope) :: mesh.delivered else mesh.delivered }
  | .restart peer => { mesh with routers := Function.update mesh.routers peer .new }

/-- An envelope is a sent route, unchanged but for a path without repetitions that its hops allow
and that leads to none of the peers beyond. -/
def Carries (mesh : FloodedMesh ρ β) (envelope : RouteEnvelope ρ β) (beyond : List String) :
    Prop :=
  ∃ sent ∈ mesh.sent, ∃ path, envelope = sent.carried path ∧
    (sent.sender :: path ++ beyond).Nodup ∧ path.length ≤ sent.ttl - 1

/-- No copy went in a circle or further than the setting of its sender allows, and peers only get
what is meant for them. -/
structure LoopFree (configs : String → RouterConfig) (mesh : FloodedMesh ρ β) : Prop where
  sent : ∀ envelope ∈ mesh.sent, envelope.ttl = (configs envelope.sender).defaultTtl
  air : ∀ envelope ∈ mesh.air, mesh.Carries envelope []
  delivered : ∀ entry ∈ mesh.delivered, mesh.Carries entry.2 [entry.1] ∧
    matchesTarget entry.1 (configs entry.1).defaultChannel entry.2

/-- A router that is not on the path of a copy may get it. -/
theorem Carries.arrive {mesh : FloodedMesh ρ β} {envelope : RouteEnvelope ρ β} {peer : String}
    (h : mesh.Carries envelope []) (hpeer : peer ∉ envelope.seenBy) :
    mesh.Carries envelope [peer] := by
  obtain ⟨sent, hmem, path, rfl, hnodup, hlen⟩ := h
  rw [List.append_nil] at hnodup
  exact ⟨sent, hmem, path, rfl, List.concat_eq_append ▸ hnodup.concat hpeer, hlen⟩

/-- Passing a copy on makes its path longer by one and uses up one hop. -/
theorem Carries.forward {mesh : FloodedMesh ρ β} {envelope : RouteEnvelope ρ β} {peer : String}
    (h : mesh.Carries envelope [peer]) (httl : envelope.ttl > 1) :
    mesh.Carries { envelope with
      ttl := envelope.ttl - 1
      hops := min (envelope.hops + 1) 255
      seenBy := envelope.seenBy ++ [peer] } [] := by
  obtain ⟨sent, hmem, path, rfl, hnodup, hlen⟩ := h
  simp only [RouteEnvelope.carried] at httl
  refine ⟨sent, hmem, path ++ [peer], ?_, by simpa using hnodup, ?_⟩
  · have hhops : min (min path.length 255 + 1) 255 = min (path.length + 1) 255 := by omega
    simp only [RouteEnvelope.carried, List.length_append, List.length_singleton, hhops,
      Nat.sub_sub, List.cons_append]
  · rw [List.length_append, List.length_singleton]
    omega

variable [ContentHash ρ β] {configs : String → RouterConfig}

/-- Every event keeps a mesh free of loops. -/
theorem LoopFree.step {mesh : FloodedMesh ρ β} (h : mesh.LoopFree configs)
    (event : FloodEvent ρ β) :
    (mesh.step configs event).LoopFree configs := by
  cases event with
  | send peer now payload target replyTo =>
    refine ⟨fun envelope hmem => ?_, fun envelope hmem => ?_, fun entry hmem => ?_⟩
    · rcases List.mem_cons.mp hmem with rfl | hmem
      · rfl
      · exact h.sent envelope hmem
    · rcases List.mem_cons.mp hmem with rfl | hmem
      · exact ⟨_, List.mem_cons_self, [], rfl, List.nodup_singleton _, Nat.zero_le _⟩
      · obtain ⟨sent, hsent, hpath⟩ := h.air envelope hmem
        exact ⟨sent, List.mem_cons_of_mem _ hsent, hpath⟩
    · obtain ⟨⟨sent, hsent, hpath⟩, htarget⟩ := h.delivered entry hmem
      exact ⟨⟨sent, List.mem_cons_of_mem _ hsent, hpath⟩, htarget⟩
  | restart peer => exact ⟨h.sent, h.air, h.delivered⟩
  | arrive peer now position =>
    simp only [FloodedMesh.step]
    cases hposition : mesh.air[position]? with
    | none => exact h
    | some envelope =>
      have hair := h.air envelope (List.mem_of_getElem? hposition)
      dsimp only
      rcases (config configs peer).accept_cases now (mesh.routers peer) envelope with
        hdrop | ⟨hnew, haccept⟩
      · rw [hdrop]
        exact ⟨h.sent, h.air, h.delivered⟩
      · have harrived := hair.arrive hnew
        rw [haccept]
        refine ⟨h.sent, fun copy hmem => ?_, fun entry hmem => ?_⟩
        · rcases List.mem_append.mp hmem with hmem | hmem
          · simp only [Option.mem_toList, Option.ite_none_right_eq_some, Option.some.injEq] at hmem
            obtain ⟨httl, rfl⟩ := hmem
            exact harrived.forward httl
          · exact h.air copy hmem
        · simp only at hmem
          split at hmem
          · rename_i htarget
            rcases List.mem_cons.mp hmem with rfl | hmem
            · exact ⟨harrived, htarget⟩
            · exact h.delivered entry hmem
          · exact h.delivered entry hmem

/-- In every run of a mesh, with copies repeated, reordered and lost and routers restarted, every
copy is a sent route with a path without repetitions that is shorter than the `default_ttl` of its
sender, and every peer that gets one is addressed by it and was not on its path. -/
theorem flooding_loopFree (configs : String → RouterConfig) (events : List (FloodEvent ρ β)) :
    (events.foldl (FloodedMesh.step configs) start).LoopFree configs :=
  Run.invariant (fun _ event h => h.step event)
    ⟨fun _ hmem => absurd hmem List.not_mem_nil, fun _ hmem => absurd hmem List.not_mem_nil,
      fun _ hmem => absurd hmem List.not_mem_nil⟩ events

end FloodedMesh

end Primadb

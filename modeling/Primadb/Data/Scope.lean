import Primadb.Data.Operation

/-!
# Paths, scope policies and errors

Path texts in their two spellings, the scope policy that governs a path and the
errors returned by the modelled calls, each with the fields of the source.
-/

namespace Primadb

/-- The errors of the modelled calls. -/
inductive PrimadbError where
  | expectedObject (path : String)
  | expectedFieldPath (path : String)
  | arrayOfObjectsUnsupported (path : String)
  | invalidSetMember (path : String)
  | invalidMemberReference (path : String)
  | traversalIntoScalar (node field : String)
  | traversalIntoSet (node field : String)
  | invalidBinaryMarker (path : String)
  | invalidBlobMarker (path : String)
  | strictScopeUnavailable (scope : String)
  | strictScopeConflict (message : String)
  | transactionConflict (message : String)
  | tooManyRemoteWatches (limit : ℕ)
  | serde
  | io
  | crypto (text : String)
  | message (text : String)
  deriving DecidableEq, Repr

/-- `str::starts_with`. -/
def startsWith (text start : String) : Bool := start.toList.isPrefixOf text.toList

/-- The path shown in errors. -/
def displayPath (anchor : String) (segments : List String) : String :=
  if segments.isEmpty then anchor else anchor ++ "." ++ ".".intercalate segments

/-- The path a scope is matched against. -/
def watchPathKey (anchor : String) (segments : List String) : String :=
  if segments.isEmpty then anchor else anchor ++ "/" ++ "/".intercalate segments

/-- A path given to a request or to a transaction. -/
structure RemotePath where
  /-- The node it starts at. -/
  anchor : NodeId
  /-- The fields it follows. -/
  segments : List String
  deriving DecidableEq

/-- `RemotePath::path`. -/
def RemotePath.path (path : RemotePath) : String := watchPathKey path.anchor path.segments

/-- The id of a child node created for a field. -/
def derivedChildId (parent field : String) : String := parent ++ "/" ++ field

/-- Whether a node id lies at or below a root. -/
def nodeMatchesRoot (nodeId root : String) : Bool :=
  nodeId == root || startsWith nodeId (root ++ "/")

/-- How writes under a scope are coordinated. -/
inductive ScopeConsistency where
  | eventual
  | localTransactional
  | coordinated
  deriving DecidableEq, Repr

/-- Who may write canonically under a coordinated scope. -/
inductive ScopeAuthority where
  | peer (peerId : String)
  | fullNode (peerId : String)
  | quorum (peers : List String) (threshold : ℕ)
  deriving DecidableEq, Repr

/-- The part of a scope policy that decides about writes. -/
structure ScopePolicy where
  consistency : ScopeConsistency
  /-- Its authority, when there is one. -/
  authority : Option ScopeAuthority
  deriving DecidableEq, Repr

/-- Whether a peer id names the actor, directly or as a native or full-node peer. -/
def peerMatchesActor (actor peerId : String) : Bool :=
  peerId == actor || peerId == "native:" ++ actor || peerId == "full-node:" ++ actor

/-- Whether the actor is an authority of the policy on its own. -/
def scopePolicyMatchesAuthorityActor (policy : ScopePolicy) (actor : String) : Bool :=
  match policy.authority with
  | none => false
  | some (.peer peerId) | some (.fullNode peerId) => peerMatchesActor actor peerId
  | some (.quorum peers threshold) => decide (threshold ≤ 1) && peers.any (peerMatchesActor actor)

/-- The longest scope containing a path, with its policy. -/
def policyForPath (policies : BTreeMap String ScopePolicy) (path : String) :
    Option (String × ScopePolicy) :=
  (policies.toList.filter fun entry => nodeMatchesRoot path entry.1).foldl
    (fun best entry =>
      match best with
      | none => some entry
      | some current =>
        if current.1.utf8ByteSize ≤ entry.1.utf8ByteSize then some entry else some current)
    none

/-! ## Which scope governs a path -/

theorem startsWith_iff {text start : String} :
    startsWith text start = true ↔ start.toList <+: text.toList := List.isPrefixOf_iff_prefix

/-- The ids below a root. -/
theorem nodeMatchesRoot_iff {n root : String} :
    nodeMatchesRoot n root = true ↔ n = root ∨ root.toList ++ ['/'] <+: n.toList := by
  simp [nodeMatchesRoot, startsWith_iff]

/-- What lies below a node lies below its root. -/
theorem nodeMatchesRoot_below {n root : String} (h : nodeMatchesRoot n root = true)
    (suffix : String) : nodeMatchesRoot (n ++ "/" ++ suffix) root = true := by
  rw [nodeMatchesRoot_iff] at h ⊢
  right
  rcases h with rfl | h
  · simp
  · exact h.trans (by simp)

end Primadb

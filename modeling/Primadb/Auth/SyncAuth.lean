import Primadb.Data.Scope
import Primadb.Core.Effect

/-!
# Signed sync frames

A sync frame may come plain, signed, or signed and encrypted. A signed frame carries
claims: the alias of its user and the roots it writes. The receiver looks the user up,
checks the signature, and checks the roots of the operations against the claims and the
grants of the user. Signatures, the cipher and the debug text of a list are parameters.
-/

namespace Primadb

/-- A message of the sync protocol. -/
inductive SyncFrame where
  | sync (sender messageId : String) (ops : List Operation)
  | ack (sender messageId : String) (applied : ℕ)
  deriving DecidableEq

/-- The operations a frame carries. -/
def SyncFrame.ops : SyncFrame → List Operation
  | sync _ _ ops => ops
  | ack _ _ _ => []

/-- A root a user may read or write. -/
structure UserGrant where
  /-- The root, or `*` for all. -/
  root : String
  /-- Whether it may be read. -/
  read : Bool
  /-- Whether it may be written. -/
  write : Bool
  deriving DecidableEq

/-- `matches_root`. -/
def UserGrant.matchesRoot (grant : UserGrant) (candidate : String) : Bool :=
  grant.root == "*" || grant.root == candidate

/-- A trusted user. -/
structure UserRecord where
  /-- Name of the user. -/
  userAlias : String
  /-- Public key in base64. -/
  publicKey : String
  /-- What the user may do. -/
  grants : List UserGrant
  deriving DecidableEq

/-- `can_write_roots`. -/
def UserRecord.canWriteRoots (user : UserRecord) (roots : List String) : Bool :=
  roots.all fun root => user.grants.any fun grant => grant.write && grant.matchesRoot root

/-- What a frame says about itself. -/
structure AuthClaims where
  userAlias : String
  /-- Sending replica. -/
  replicaId : String
  /-- Roots the frame writes. -/
  roots : List String
  /-- When it was issued. -/
  issuedAtMillis : ℕ
  deriving DecidableEq

/-- A payload under the transport key. -/
structure EncryptedPayload where
  /-- The nonce in base64. -/
  nonce : String
  /-- The ciphertext in base64. -/
  ciphertext : String
  deriving DecidableEq

/-- A sync frame as it is sent. -/
inductive SecureSyncFrame where
  | plain (frame : SyncFrame)
  | authenticated (claims : AuthClaims) (signer signature : String) (frame : SyncFrame)
  | encrypted (claims : AuthClaims) (signer signature : String) (payload : EncryptedPayload)
  deriving DecidableEq

/-- The claims of a frame that is not plain. -/
def SecureSyncFrame.claims : SecureSyncFrame → Option AuthClaims
  | plain _ => none
  | authenticated claims _ _ _ | encrypted claims _ _ _ => some claims

/-- Checking a signature on a payload under a public key, both in base64. -/
class SignatureScheme (τ : Type) where
  /-- `from_base64` and `verify_payload`. -/
  verifyPayload : (publicKey signature : String) → τ → Except PrimadbError Unit

/-- A transport key of type `κ`. -/
class TransportCipher (κ : Type) where
  /-- `decrypt_json`. -/
  decryptFrame : κ → EncryptedPayload → Except PrimadbError SyncFrame

/-- The debug text of a list of strings. -/
class DebugText where
  /-- The `{:?}` text. -/
  list : List String → String

/-- What a database knows about users and keys. -/
structure SecurityState (κ : Type) where
  /-- Whether plain frames are refused. -/
  requireSignedSync : Bool
  /-- The trusted users by alias. -/
  trustedUsers : BTreeMap String UserRecord
  transportEncryptionKey : Option κ

/-- The text before the first separator. -/
def firstPart (separator : Char) (text : String) : String :=
  String.ofList (text.toList.takeWhile (· ≠ separator))

/-- `root_for_node`. -/
def rootForNode (node : NodeId) : String := firstPart '~' (firstPart '/' node)

/-- `roots_for_ops`: the roots of the operations, each once. -/
def rootsForOps (ops : List Operation) : List String :=
  ops.foldl
    (fun roots op =>
      let root := rootForNode op.action.node
      if roots.contains root then roots else roots ++ [root])
    []

/-- `roots_for_frame`. -/
def rootsForFrame (frame : SyncFrame) : List String := rootsForOps frame.ops

variable {κ : Type}

/-- `verify_claims`. -/
def SecurityState.verifyClaims (state : SecurityState κ) (claims : AuthClaims) (signer : String) :
    Except PrimadbError UserRecord :=
  match state.trustedUsers[claims.userAlias]? with
  | none => .error (.crypto ("unknown user alias `" ++ claims.userAlias ++ "`"))
  | some user =>
    if user.publicKey ≠ signer then
      .error (.crypto ("signer mismatch for alias `" ++ claims.userAlias ++ "`"))
    else .ok user

section Decode

variable [DebugText]

/-- `authorize_roots`. -/
def authorizeRoots (user : UserRecord) (claims : AuthClaims) (actualRoots : List String) :
    Except PrimadbError Unit :=
  if (!claims.roots.all fun claimed => actualRoots.contains claimed) && !actualRoots.isEmpty then
    .error (.crypto ("frame for alias `" ++ claims.userAlias ++ "` advertised roots " ++
      DebugText.list claims.roots ++ " but carried " ++ DebugText.list actualRoots))
  else if !actualRoots.isEmpty && !user.canWriteRoots actualRoots then
    .error (.crypto ("alias `" ++ claims.userAlias ++ "` is not authorized for roots " ++
      DebugText.list actualRoots))
  else .ok ()

variable [SignatureScheme (AuthClaims × SyncFrame)]
  [SignatureScheme (AuthClaims × EncryptedPayload)]
  [TransportCipher κ]

/-- `decode_sync_frame`. -/
def SecurityState.decodeSyncFrame (state : SecurityState κ) :
    SecureSyncFrame → Except PrimadbError SyncFrame
  | .plain frame =>
    if state.requireSignedSync then
      .error (.crypto "received unsigned sync frame while signed sync is required")
    else .ok frame
  | .authenticated claims signer signature frame => do
    let user ← state.verifyClaims claims signer
    SignatureScheme.verifyPayload user.publicKey signature (claims, frame)
    authorizeRoots user claims (rootsForFrame frame)
    pure frame
  | .encrypted claims signer signature payload => do
    let user ← state.verifyClaims claims signer
    SignatureScheme.verifyPayload user.publicKey signature (claims, payload)
    match state.transportEncryptionKey with
    | none =>
      .error (.crypto "received encrypted sync frame but no transport key is configured")
    | some key =>
      let frame ← TransportCipher.decryptFrame key payload
      authorizeRoots user claims (rootsForFrame frame)
      pure frame

end Decode

/-! ## First parts of a text -/

private theorem not_mem_firstPart (separator : Char) (text : String) :
    separator ∉ (firstPart separator text).toList := by
  intro hmem
  rw [firstPart, String.toList_ofList] at hmem
  simpa using List.mem_takeWhile_imp hmem

private theorem firstPart_eq_self {separator : Char} {text : String} (h : separator ∉ text.toList) :
    firstPart separator text = text := by
  apply String.toList_injective
  rw [firstPart, String.toList_ofList]
  exact List.takeWhile_eq_self_iff.mpr fun c hc => by
    simp only [ne_eq, decide_not, Bool.not_eq_true', decide_eq_false_iff_not]
    rintro rfl
    exact h hc

/-- A text lies at or below its first part between slashes. -/
theorem nodeMatchesRoot_firstPart (node : NodeId) :
    nodeMatchesRoot node (firstPart '/' node) = true := by
  have hsplit := List.takeWhile_append_dropWhile (p := fun c => decide (c ≠ '/')) (l := node.toList)
  rw [nodeMatchesRoot_iff, firstPart, String.toList_ofList]
  cases hrest : node.toList.dropWhile (fun c => decide (c ≠ '/')) with
  | nil =>
    left
    apply String.toList_injective
    rw [String.toList_ofList]
    rw [hrest, List.append_nil] at hsplit
    exact hsplit.symm
  | cons c rest =>
    right
    have hne : node.toList.dropWhile (fun c => decide (c ≠ '/')) ≠ [] := by
      rw [hrest]
      exact List.cons_ne_nil c rest
    have hslash : c = '/' := by
      have hhead := List.head_dropWhile_not (fun c => decide (c ≠ '/')) hne
      simp only [hrest, List.head_cons] at hhead
      simpa using hhead
    subst hslash
    exact ⟨rest, by rw [List.append_assoc, List.singleton_append, ← hrest, hsplit]⟩

/-- The only root without a slash a node lies at or below is its first part. -/
theorem firstPart_eq_of_nodeMatchesRoot {node root : String}
    (h : nodeMatchesRoot node root = true) (hroot : '/' ∉ root.toList) :
    firstPart '/' node = root := by
  rcases nodeMatchesRoot_iff.mp h with rfl | ⟨rest, hrest⟩
  · exact firstPart_eq_self hroot
  · apply String.toList_injective
    have hall : ∀ c ∈ root.toList, decide (c ≠ '/') = true := by
      intro c hc
      simp only [ne_eq, decide_not, Bool.not_eq_true', decide_eq_false_iff_not]
      rintro rfl
      exact hroot hc
    rw [firstPart, String.toList_ofList, ← hrest, List.append_assoc,
      List.takeWhile_append_of_pos hall]
    simp

private theorem rootForNode_eq {node : NodeId} (h : '~' ∉ (firstPart '/' node).toList) :
    rootForNode node = firstPart '/' node := firstPart_eq_self h

/-- The root of a node has no slash and no `~`. -/
theorem not_mem_rootForNode (node : NodeId) :
    '/' ∉ (rootForNode node).toList ∧ '~' ∉ (rootForNode node).toList := by
  refine ⟨fun hmem => ?_, not_mem_firstPart _ _⟩
  rw [rootForNode, firstPart, String.toList_ofList] at hmem
  exact not_mem_firstPart '/' node ((List.takeWhile_prefix _).subset hmem)

/-! ## Accepted frames -/

private theorem mem_rootsForOps {ops : List Operation} {root : String} :
    root ∈ rootsForOps ops ↔ ∃ op ∈ ops, rootForNode op.action.node = root := by
  have hfold : ∀ roots : List String, root ∈ ops.foldl (fun roots op =>
      let root := rootForNode op.action.node
      if roots.contains root then roots else roots ++ [root]) roots ↔
        root ∈ roots ∨ ∃ op ∈ ops, rootForNode op.action.node = root := by
    induction ops with
    | nil => simp
    | cons op ops ih =>
      intro roots
      rw [List.foldl_cons, ih]
      simp only [List.contains_eq_mem, decide_eq_true_eq, List.exists_mem_cons_iff]
      split
      · rename_i hmem
        constructor
        · exact fun h => h.imp_right .inr
        · rintro (h | rfl | h)
          · exact .inl h
          · exact .inl hmem
          · exact .inr h
      · simp [or_assoc, eq_comm]
  exact (hfold []).trans (by simp)

section Accepted

variable {κ : Type} [DebugText]

/-- What root authorization checks when the frame has operations. -/
theorem authorizeRoots_eq_ok {user : UserRecord} {claims : AuthClaims} {actualRoots : List String}
    (h : authorizeRoots user claims actualRoots = .ok ()) (hne : actualRoots ≠ []) :
    (∀ claimed ∈ claims.roots, claimed ∈ actualRoots) ∧
      ∀ root ∈ actualRoots, ∃ grant ∈ user.grants, grant.write = true ∧
        grant.matchesRoot root = true := by
  have hfull : actualRoots.isEmpty = false := by
    cases actualRoots with
    | nil => exact absurd rfl hne
    | cons => rfl
  rw [authorizeRoots, hfull] at h
  split at h
  · cases h
  · rename_i hclaimed
    split at h
    · cases h
    · rename_i hgranted
      constructor
      · simpa [List.all_eq_true] using hclaimed
      · simpa [UserRecord.canWriteRoots, List.all_eq_true, List.any_eq_true] using hgranted

variable [SignatureScheme (AuthClaims × SyncFrame)]
  [SignatureScheme (AuthClaims × EncryptedPayload)]
  [TransportCipher κ]

private theorem SecurityState.decodeSyncFrame_authorized {state : SecurityState κ}
    {frame : SecureSyncFrame} {decoded : SyncFrame} {claims : AuthClaims}
    (h : state.decodeSyncFrame frame = .ok decoded) (hclaims : frame.claims = some claims) :
    ∃ user, state.trustedUsers[claims.userAlias]? = some user ∧
      authorizeRoots user claims (rootsForFrame decoded) = .ok () := by
  have huser : ∀ {signer user}, state.verifyClaims claims signer = .ok user →
      state.trustedUsers[claims.userAlias]? = some user := by
    intro signer user hverify
    rw [verifyClaims] at hverify
    split at hverify
    · cases hverify
    · rename_i found hfound
      split at hverify
      · cases hverify
      · rw [hfound, Except.ok.inj hverify]
  cases frame with
  | plain frame => cases hclaims
  | authenticated own signer signature frame =>
    cases hclaims
    obtain ⟨user, hverify, h⟩ := except_bind_eq_ok h
    obtain ⟨-, -, h⟩ := except_bind_eq_ok h
    obtain ⟨⟨⟩, hroots, h⟩ := except_bind_eq_ok h
    cases h
    exact ⟨user, huser hverify, hroots⟩
  | encrypted own signer signature payload =>
    cases hclaims
    obtain ⟨user, hverify, h⟩ := except_bind_eq_ok h
    obtain ⟨-, -, h⟩ := except_bind_eq_ok h
    split at h
    · cases h
    · obtain ⟨plain, -, h⟩ := except_bind_eq_ok h
      obtain ⟨⟨⟩, hroots, h⟩ := except_bind_eq_ok h
      cases h
      exact ⟨user, huser hverify, hroots⟩

/-- The operations of an accepted frame of a user without the wildcard lie below granted and
claimed roots exactly when the first part of every node holds no `~` and is claimed. -/
theorem decodeSyncFrame_confined_iff {state : SecurityState κ} {frame : SecureSyncFrame}
    {decoded : SyncFrame} {claims : AuthClaims} {user : UserRecord}
    (hclaims : frame.claims = some claims)
    (huser : state.trustedUsers[claims.userAlias]? = some user)
    (hgrants : ∀ grant ∈ user.grants, grant.write = true → grant.root ≠ "*")
    (haccepted : state.decodeSyncFrame frame = .ok decoded) :
    (∀ op ∈ decoded.ops, ∃ grant ∈ user.grants, grant.write = true ∧
        nodeMatchesRoot op.action.node grant.root = true ∧ grant.root ∈ claims.roots) ↔
      ∀ op ∈ decoded.ops, '~' ∉ (firstPart '/' op.action.node).toList ∧
        firstPart '/' op.action.node ∈ claims.roots := by
  obtain ⟨found, hfound, hroots⟩ := SecurityState.decodeSyncFrame_authorized haccepted hclaims
  obtain rfl : user = found := Option.some.inj (huser.symm.trans hfound)
  have hroot : ∀ op ∈ decoded.ops, rootForNode op.action.node ∈ rootsForFrame decoded :=
    fun op hop => mem_rootsForOps.mpr ⟨op, hop, rfl⟩
  constructor
  · intro hconfined op hop
    obtain ⟨hclaimed, -⟩ := authorizeRoots_eq_ok hroots (List.ne_nil_of_mem (hroot op hop))
    obtain ⟨grant, -, -, hbelow, hlisted⟩ := hconfined op hop
    -- a claimed root is the root of some operation, hence a single plain part
    obtain ⟨other, -, hother⟩ := mem_rootsForOps.mp (hclaimed grant.root hlisted)
    obtain ⟨hslash, htilde⟩ := not_mem_rootForNode other.action.node
    rw [hother] at hslash htilde
    rw [firstPart_eq_of_nodeMatchesRoot hbelow hslash]
    exact ⟨htilde, hlisted⟩
  · intro hplain op hop
    obtain ⟨-, hgranted⟩ := authorizeRoots_eq_ok hroots (List.ne_nil_of_mem (hroot op hop))
    obtain ⟨htilde, hlisted⟩ := hplain op hop
    obtain ⟨grant, hgrant, hwrite, hmatches⟩ := hgranted _ (hroot op hop)
    have heq : grant.root = firstPart '/' op.action.node := by
      rw [UserGrant.matchesRoot, Bool.or_eq_true, beq_iff_eq, beq_iff_eq] at hmatches
      rw [hmatches.resolve_left (hgrants grant hgrant hwrite), rootForNode_eq htilde]
    refine ⟨grant, hgrant, hwrite, ?_, heq ▸ hlisted⟩
    rw [heq]
    exact nodeMatchesRoot_firstPart _

end Accepted

/-- A signature scheme that finds every signature good. -/
abbrev signedByAll (τ : Type) : SignatureScheme τ := ⟨fun _ _ _ => .ok ()⟩

/-- A transport without a key. -/
abbrev noCipher : TransportCipher Unit := ⟨fun _ _ => .error .serde⟩

/-- A list shown as nothing. -/
abbrev noDebugText : DebugText := ⟨fun _ => ""⟩

/-- A receiver that trusts one user with one root. -/
def docsReceiver : SecurityState Unit where
  requireSignedSync := true
  trustedUsers := (∅ : BTreeMap String UserRecord).insert "alice"
    ⟨"alice", "key", [⟨"docs", true, true⟩]⟩
  transportEncryptionKey := none

/-- A frame of that user that deletes one field. -/
def docsFrame (roots : List String) (node : NodeId) : SecureSyncFrame :=
  .authenticated ⟨"alice", "r", roots, 0⟩ "key" "signature"
    (.sync "r" "m" [⟨"op", "r", ⟨1, 0, "r"⟩, .deleteField node "f"⟩])

/-- A frame on a node beside the granted root, without a claimed root, is accepted. -/
theorem decodeSyncFrame_accepts_tilde :
    (@SecurityState.decodeSyncFrame Unit noDebugText (signedByAll _) (signedByAll _) noCipher
        docsReceiver (docsFrame [] "docs~other")).toOption.isSome = true ∧
      nodeMatchesRoot "docs~other" "docs" = false := by
  constructor <;> decide +kernel

/-- A frame on a node below the granted and claimed root is confined to it. -/
theorem decodeSyncFrame_confined_docs :
    ∃ grant ∈ [(⟨"docs", true, true⟩ : UserGrant)], grant.write = true ∧
      nodeMatchesRoot "docs/a" grant.root = true ∧ grant.root ∈ ["docs"] :=
  (@decodeSyncFrame_confined_iff Unit noDebugText (signedByAll _) (signedByAll _) noCipher
    docsReceiver (docsFrame ["docs"] "docs/a")
    (.sync "r" "m" [⟨"op", "r", ⟨1, 0, "r"⟩, .deleteField "docs/a" "f"⟩])
    ⟨"alice", "r", ["docs"], 0⟩ ⟨"alice", "key", [⟨"docs", true, true⟩]⟩ rfl
    (by decide +kernel) (by decide) (by decide +kernel)).mpr (by decide +kernel) _
    (List.mem_singleton_self _)

end Primadb

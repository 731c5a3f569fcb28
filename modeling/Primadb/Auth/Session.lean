import Primadb.Auth.SyncAuth

/-!
# Session authentication

A peer that announces an identity is sent a challenge and answers with a signed transcript
of the exchange. The verifier rebuilds the transcript it expects, compares, checks the
signature and assembles the identity it stores. Clock readings and random tokens are
arguments.
-/

namespace Primadb

/-- `SessionAuthConfig`. -/
structure SessionAuthConfig where
  /-- Whether messages of unverified peers are refused. -/
  requireAuthenticatedPeers : Bool := false
  /-- Keys that are trusted. -/
  trustedPublicKeys : List String := []
  /-- Aliases that are trusted. -/
  trustedAliases : List String := []
  /-- How long a challenge may be answered. -/
  challengeTimeoutMs : ℕ := 10000
  /-- How long an answered challenge counts. -/
  sessionTtlMs : ℕ := 5 * 60000
  /-- Whether a presence without an identity is served. -/
  allowUnauthenticatedPresence : Bool := true
  deriving DecidableEq

/-- The identity a peer announces with its presence. -/
structure PresenceIdentity where
  /-- Public key in base64. -/
  publicKey : String
  /-- Name of the user. -/
  userAlias : Option String
  /-- Kind of key. -/
  keyScheme : String
  /-- Session of the peer. -/
  sessionId : String
  /-- What the peer says about itself. -/
  claims : BTreeMap String String
  /-- When it was issued. -/
  issuedAtMillis : ℕ
  /-- When it ends. -/
  expiresAtMillis : Option ℕ
  deriving DecidableEq

/-- How far an identity is trusted. -/
inductive IdentityTrust where
  | verified
  | trustedPublicKey
  | trustedAlias
  deriving DecidableEq

/-- The identity the verifier stores for a peer. -/
structure VerifiedIdentity where
  /-- Public key in base64. -/
  publicKey : String
  /-- Name of the user. -/
  userAlias : Option String
  /-- Verified peer. -/
  peerId : String
  /-- Replica of the peer. -/
  replicaId : String
  /-- Transport of the exchange. -/
  transport : String
  /-- Session of the peer. -/
  sessionId : String
  /-- What the peer says about itself. -/
  claims : BTreeMap String String
  /-- When the answer was issued. -/
  issuedAtMillis : ℕ
  /-- When the identity ends. -/
  expiresAtMillis : Option ℕ
  /-- How far it is trusted. -/
  trust : IdentityTrust
  deriving DecidableEq

/-- `AuthChallenge`. -/
structure AuthChallenge where
  /-- Name of the challenge. -/
  challengeId : String
  /-- Token of the issuer. -/
  nonce : String
  /-- Peer that asks. -/
  issuerPeerId : String
  /-- Replica that asks. -/
  issuerReplicaId : String
  /-- Peer that is asked. -/
  targetPeerId : String
  /-- Replica that is asked. -/
  targetReplicaId : String
  /-- Transport of the exchange. -/
  transport : String
  issuerSessionId : String
  /-- Session the target announced. -/
  targetSessionId : String
  /-- When it was issued. -/
  issuedAtMillis : ℕ
  /-- When it ends. -/
  expiresAtMillis : ℕ
  deriving DecidableEq

/-- What an answer signs. -/
structure AuthTranscript where
  protocolVersion : ℕ
  /-- Name of the challenge. -/
  challengeId : String
  /-- Peer that asks. -/
  issuerPeerId : String
  /-- Replica that asks. -/
  issuerReplicaId : String
  /-- Peer that answers. -/
  responderPeerId : String
  /-- Replica that answers. -/
  responderReplicaId : String
  issuerSessionId : String
  responderSessionId : String
  /-- Token of the issuer. -/
  issuerNonce : String
  /-- Token of the responder. -/
  responderNonce : String
  /-- Transport of the exchange. -/
  transport : String
  responderPublicKey : String
  responderAlias : Option String
  /-- What the responder says about itself. -/
  claims : BTreeMap String String
  /-- When the answer was issued. -/
  issuedAtMillis : ℕ
  /-- When the identity ends. -/
  expiresAtMillis : ℕ
  deriving DecidableEq

/-- `AuthResponse`. -/
structure AuthResponse where
  /-- Name of the challenge. -/
  challengeId : String
  /-- Peer that answers. -/
  responderPeerId : String
  /-- Replica that answers. -/
  responderReplicaId : String
  /-- The identity beside the signed transcript. -/
  responderIdentity : PresenceIdentity
  /-- Token of the responder. -/
  responderNonce : String
  /-- The signed transcript. -/
  transcript : AuthTranscript
  /-- Key of the signature. -/
  signer : String
  signature : String
  deriving DecidableEq

/-- `create_auth_challenge` with the token of the name, the nonce and the clock reading. -/
def createAuthChallenge (token nonce : String) (now : ℕ)
    (issuerPeerId issuerReplicaId issuerSessionId targetPeerId targetReplicaId : String)
    (targetIdentity : PresenceIdentity) (transport : String) (config : SessionAuthConfig) :
    AuthChallenge where
  challengeId := issuerPeerId ++ "/challenge/" ++ token
  nonce := nonce
  issuerPeerId := issuerPeerId
  issuerReplicaId := issuerReplicaId
  targetPeerId := targetPeerId
  targetReplicaId := targetReplicaId
  transport := transport
  issuerSessionId := issuerSessionId
  targetSessionId := targetIdentity.sessionId
  issuedAtMillis := now
  expiresAtMillis := saturatingAdd now (max config.challengeTimeoutMs 1)

/-- `resolve_trust`. -/
def resolveTrust (identity : PresenceIdentity) (config : SessionAuthConfig) :
    Except PrimadbError IdentityTrust :=
  if config.trustedPublicKeys.contains identity.publicKey then .ok .trustedPublicKey
  else if identity.userAlias.any config.trustedAliases.contains then .ok .trustedAlias
  else if config.trustedPublicKeys.isEmpty && config.trustedAliases.isEmpty then .ok .verified
  else .error (.crypto "verified session identity is not trusted by this transport")

private theorem resolveTrust_congr {identity other : PresenceIdentity} (config : SessionAuthConfig)
    (hkey : identity.publicKey = other.publicKey) (halias : identity.userAlias = other.userAlias) :
    resolveTrust identity config = resolveTrust other config := by
  rw [resolveTrust, resolveTrust, hkey, halias]

/-- The transcript the verifier expects; the two times are those of the response. -/
def expectedTranscript (challenge : AuthChallenge) (response : AuthResponse) : AuthTranscript where
  protocolVersion := 1
  challengeId := challenge.challengeId
  issuerPeerId := challenge.issuerPeerId
  issuerReplicaId := challenge.issuerReplicaId
  responderPeerId := response.responderPeerId
  responderReplicaId := response.responderReplicaId
  issuerSessionId := challenge.issuerSessionId
  responderSessionId := challenge.targetSessionId
  issuerNonce := challenge.nonce
  responderNonce := response.responderNonce
  transport := challenge.transport
  responderPublicKey := response.responderIdentity.publicKey
  responderAlias := response.responderIdentity.userAlias
  claims := response.responderIdentity.claims
  issuedAtMillis := response.transcript.issuedAtMillis
  expiresAtMillis := response.transcript.expiresAtMillis

/-- The identity an accepted response gives. -/
def AuthResponse.verifiedIdentity (response : AuthResponse) (challenge : AuthChallenge)
    (trust : IdentityTrust) : VerifiedIdentity where
  publicKey := response.responderIdentity.publicKey
  userAlias := response.responderIdentity.userAlias
  peerId := response.responderPeerId
  replicaId := response.responderReplicaId
  transport := challenge.transport
  sessionId := response.responderIdentity.sessionId
  claims := response.responderIdentity.claims
  issuedAtMillis := response.transcript.issuedAtMillis
  expiresAtMillis := some response.transcript.expiresAtMillis
  trust := trust

section Verify

variable [SignatureScheme AuthTranscript]

/-- `verify_auth_response` with its two clock readings. -/
def verifyAuthResponse (first second : ℕ) (challenge : AuthChallenge) (response : AuthResponse)
    (config : SessionAuthConfig) : Except PrimadbError VerifiedIdentity :=
  if first > challenge.expiresAtMillis then
    .error (.crypto "session auth challenge has expired")
  else if response.challengeId ≠ challenge.challengeId then
    .error (.crypto "session auth response challenge id mismatch")
  else if response.responderPeerId ≠ challenge.targetPeerId ∨
      response.responderReplicaId ≠ challenge.targetReplicaId then
    .error (.crypto "session auth response peer identity mismatch")
  else if response.signer ≠ response.responderIdentity.publicKey then
    .error (.crypto "session auth response signer does not match advertised public key")
  else if response.transcript ≠ expectedTranscript challenge response then
    .error (.crypto "session auth response transcript mismatch")
  else if second > response.transcript.expiresAtMillis then
    .error (.crypto "session auth response has already expired")
  else do
    SignatureScheme.verifyPayload response.signer response.signature response.transcript
    let trust ← resolveTrust response.responderIdentity config
    pure (response.verifiedIdentity challenge trust)

/-- What an accepted response has passed. -/
structure Accepted (challenge : AuthChallenge) (response : AuthResponse)
    (config : SessionAuthConfig) (identity : VerifiedIdentity) : Prop where
  /-- It names the peer and the replica that were asked. -/
  target : response.responderPeerId = challenge.targetPeerId ∧
    response.responderReplicaId = challenge.targetReplicaId
  /-- It is signed under the key it advertises. -/
  signer : response.signer = response.responderIdentity.publicKey
  /-- Its transcript is the expected one. -/
  transcript : response.transcript = expectedTranscript challenge response
  /-- The signature covers the transcript. -/
  signed : SignatureScheme.verifyPayload response.signer response.signature
    response.transcript = .ok ()
  /-- The identity is assembled from the response under the trust of its key and alias. -/
  identity : ∃ trust, resolveTrust response.responderIdentity config = .ok trust ∧
    identity = response.verifiedIdentity challenge trust

/-- A response is accepted after all its checks. -/
theorem verifyAuthResponse_eq_ok {first second : ℕ} {challenge : AuthChallenge}
    {response : AuthResponse} {config : SessionAuthConfig} {identity : VerifiedIdentity}
    (h : verifyAuthResponse first second challenge response config = .ok identity) :
    Accepted challenge response config identity := by
  rw [verifyAuthResponse] at h
  split_ifs at h with _ _ htarget hsigner htranscript _
  obtain ⟨⟨⟩, hsigned, h⟩ := except_bind_eq_ok h
  obtain ⟨trust, htrust, h⟩ := except_bind_eq_ok h
  obtain ⟨hpeer, hreplica⟩ := not_or.mp htarget
  exact
    { target := ⟨not_not.mp hpeer, not_not.mp hreplica⟩
      signer := not_not.mp hsigner
      transcript := not_not.mp htranscript
      signed := hsigned
      identity := ⟨trust, htrust, (Except.ok.inj h).symm⟩ }

/-- The identity is the one a transcript describes, its session and its trust apart. -/
structure VerifiedIdentity.CoveredBy (identity : VerifiedIdentity) (transcript : AuthTranscript) :
    Prop where
  publicKey : identity.publicKey = transcript.responderPublicKey
  peerId : identity.peerId = transcript.responderPeerId
  replicaId : identity.replicaId = transcript.responderReplicaId
  transport : identity.transport = transcript.transport
  userAlias : identity.userAlias = transcript.responderAlias
  claims : identity.claims = transcript.claims
  /-- The start. -/
  issuedAtMillis : identity.issuedAtMillis = transcript.issuedAtMillis
  expiresAtMillis : identity.expiresAtMillis = some transcript.expiresAtMillis

/-- An accepted response gives an identity its signed transcript describes. -/
theorem Accepted.covered {challenge : AuthChallenge} {response : AuthResponse}
    {config : SessionAuthConfig} {identity : VerifiedIdentity}
    (h : Accepted challenge response config identity) :
    identity.CoveredBy response.transcript := by
  obtain ⟨trust, -, rfl⟩ := h.identity
  constructor <;> first | rfl | (rw [h.transcript]; rfl)

private theorem Accepted.identity_eq {challenge challenge' : AuthChallenge}
    {response response' : AuthResponse} {config : SessionAuthConfig}
    {identity identity' : VerifiedIdentity}
    (h : Accepted challenge response config identity)
    (h' : Accepted challenge' response' config identity')
    (htranscript : response.transcript = response'.transcript)
    (hsession : identity.sessionId = identity'.sessionId) : identity = identity' := by
  have hcovered := h.covered
  have hcovered' := h'.covered
  rw [← htranscript] at hcovered'
  have hkey := hcovered.publicKey.trans hcovered'.publicKey.symm
  have halias := hcovered.userAlias.trans hcovered'.userAlias.symm
  have htrust : identity.trust = identity'.trust := by
    obtain ⟨trust, htrust, rfl⟩ := h.identity
    obtain ⟨trust', htrust', rfl⟩ := h'.identity
    rw [resolveTrust_congr config hkey halias, htrust'] at htrust
    exact (Except.ok.inj htrust).symm
  cases identity
  cases identity'
  simp only [VerifiedIdentity.mk.injEq]
  exact ⟨hkey, halias, hcovered.peerId.trans hcovered'.peerId.symm,
    hcovered.replicaId.trans hcovered'.replicaId.symm,
    hcovered.transport.trans hcovered'.transport.symm, hsession,
    hcovered.claims.trans hcovered'.claims.symm,
    hcovered.issuedAtMillis.trans hcovered'.issuedAtMillis.symm,
    hcovered.expiresAtMillis.trans hcovered'.expiresAtMillis.symm, htrust⟩

/-- No signature under the key fits two transcripts. -/
def Unforgeable (key : String) : Prop :=
  ∀ signature : String, ∀ transcript transcript' : AuthTranscript,
    SignatureScheme.verifyPayload key signature transcript = .ok () →
    SignatureScheme.verifyPayload key signature transcript' = .ok () → transcript = transcript'

/-- The response is signed under the announced key and repeats the session it signed. -/
def AuthResponse.Repeats (response : AuthResponse) (announced : PresenceIdentity) : Prop :=
  response.signer = announced.publicKey ∧
    response.responderIdentity.sessionId = response.transcript.responderSessionId

/-- An accepted response to a challenge for an announced identity is bound to it exactly when
it repeats its key and session; two accepted responses with one signature that do so give one
identity, as long as signatures under the announced key cannot be forged. -/
theorem verifyAuthResponse_bound_iff
    {token nonce issuerPeerId issuerReplicaId issuerSessionId targetPeerId targetReplicaId
      transport : String} {now first second : ℕ} {announced : PresenceIdentity}
    {config : SessionAuthConfig} {response : AuthResponse} {identity : VerifiedIdentity}
    (haccepted : verifyAuthResponse first second
      (createAuthChallenge token nonce now issuerPeerId issuerReplicaId issuerSessionId
        targetPeerId targetReplicaId announced transport config) response config =
          .ok identity) :
    ((identity.publicKey = announced.publicKey ∧ identity.sessionId = announced.sessionId ∧
        identity.CoveredBy response.transcript ∧
        SignatureScheme.verifyPayload response.signer response.signature response.transcript =
          .ok ()) ↔
      response.Repeats announced) ∧
      (Unforgeable announced.publicKey →
        ∀ {first' second' challenge' response' identity' announced'},
          verifyAuthResponse first' second' challenge' response' config = .ok identity' →
          response'.signer = response.signer → response'.signature = response.signature →
          response.Repeats announced → response'.Repeats announced' →
            identity = identity') := by
  have h := verifyAuthResponse_eq_ok haccepted
  constructor
  · have hsession : response.transcript.responderSessionId = announced.sessionId := by
      rw [h.transcript]
      rfl
    obtain ⟨trust, -, hidentity⟩ := h.identity
    have hkey : identity.publicKey = response.signer := by rw [hidentity, h.signer]; rfl
    have hown : identity.sessionId = response.responderIdentity.sessionId := by
      rw [hidentity]
      rfl
    constructor
    · rintro ⟨hpublic, hid, -, -⟩
      exact ⟨hkey.symm.trans hpublic, hown.symm.trans (hid.trans hsession.symm)⟩
    · rintro ⟨hsigner, hrepeated⟩
      exact ⟨hkey.trans hsigner, hown.trans (hrepeated.trans hsession), h.covered, h.signed⟩
  · intro hunforgeable first' second' challenge' response' identity' announced' haccepted' hsigner
      hsignature hrepeats hrepeats'
    have h' := verifyAuthResponse_eq_ok haccepted'
    have htranscript : response.transcript = response'.transcript := by
      have hsigned := h.signed
      have hsigned' := h'.signed
      rw [hrepeats.1] at hsigned
      rw [hsigner, hsignature, hrepeats.1] at hsigned'
      exact hunforgeable _ _ _ hsigned hsigned'
    refine h.identity_eq h' htranscript ?_
    obtain ⟨trust, -, rfl⟩ := h.identity
    obtain ⟨trust', -, rfl⟩ := h'.identity
    calc response.responderIdentity.sessionId
        = response.transcript.responderSessionId := hrepeats.2
      _ = response'.transcript.responderSessionId := by rw [htranscript]
      _ = response'.responderIdentity.sessionId := hrepeats'.2.symm

end Verify

/-- A scheme under which one transcript is signed and no other. -/
abbrev onlySigned (transcript : AuthTranscript) : SignatureScheme AuthTranscript :=
  ⟨fun _ _ candidate => if candidate = transcript then .ok () else .error .serde⟩

private theorem unforgeable_onlySigned (transcript : AuthTranscript) (key : String) :
    @Unforgeable (onlySigned transcript) key := by
  intro signature candidate candidate' h h'
  have honly : ∀ t : AuthTranscript,
      (if t = transcript then Except.ok () else Except.error PrimadbError.serde) = .ok () →
        t = transcript := by
    intro t ht
    split at ht
    · assumption
    · cases ht
  rw [honly _ h, honly _ h']

/-- The identity a peer announces under a key. -/
def announcedIdentity (publicKey sessionId : String) : PresenceIdentity :=
  ⟨publicKey, none, "ed25519", sessionId, ∅, 0, none⟩

/-- A challenge for an identity announced by peer `p`. -/
def announcedChallenge (announced : PresenceIdentity) : AuthChallenge :=
  createAuthChallenge "t" "n" 0 "q" "rq" "sq" "p" "rp" announced "relay" {}

/-- The transcript of a peer that answers that challenge under a key. -/
def answeredTranscript (announced : PresenceIdentity) (publicKey : String) : AuthTranscript :=
  ⟨1, "q/challenge/t", "q", "rq", "p", "rp", "sq", announced.sessionId, "n", "m", "relay",
    publicKey, none, ∅, 0, 100⟩

/-- Its response, with a session beside the transcript. -/
def answeredResponse (announced : PresenceIdentity) (publicKey sessionId : String) :
    AuthResponse :=
  ⟨"q/challenge/t", "p", "rp", announcedIdentity publicKey sessionId, "m",
    answeredTranscript announced publicKey, publicKey, "signature"⟩

/-- A challenge for one key is answered under another, and an altered session is accepted. -/
theorem verifyAuthResponse_takes_other_key :
    let announced := announcedIdentity "alice" "s"
    let scheme := onlySigned (answeredTranscript announced "mallory")
    let verify := fun session => ((@verifyAuthResponse scheme 0 0 (announcedChallenge announced)
      (answeredResponse announced "mallory" session) {}).toOption.map
        fun identity => (identity.publicKey, identity.sessionId))
    (∀ key, @Unforgeable scheme key) ∧ verify "s" = some ("mallory", "s") ∧
      verify "altered" = some ("mallory", "altered") := by
  refine ⟨unforgeable_onlySigned _, ?_, ?_⟩ <;> decide +kernel

/-- An honest answer gives the announced key and session, covered by its transcript, and any
answer with its signature that repeats a key and session gives the same identity. -/
theorem verifyAuthResponse_bound_alice :
    let announced := announcedIdentity "alice" "s"
    let response := answeredResponse announced "alice" "s"
    let scheme := onlySigned (answeredTranscript announced "alice")
    let identity := response.verifiedIdentity (announcedChallenge announced) .verified
    (identity.publicKey = announced.publicKey ∧ identity.sessionId = announced.sessionId ∧
        identity.CoveredBy response.transcript ∧
        @SignatureScheme.verifyPayload _ scheme response.signer response.signature
          response.transcript = .ok ()) ∧
      ∀ {first second challenge response' identity' announced'},
        @verifyAuthResponse scheme first second challenge response' {} = .ok identity' →
        response'.signer = response.signer → response'.signature = response.signature →
        response'.Repeats announced' → identity = identity' := by
  intro announced response scheme identity
  obtain ⟨hbound, hone⟩ := @verifyAuthResponse_bound_iff scheme "t" "n" "q" "rq" "sq" "p" "rp"
    "relay" 0 0 0 announced {} response identity (by decide +kernel)
  have hrepeats : response.Repeats announced := ⟨rfl, rfl⟩
  refine ⟨hbound.mpr hrepeats, fun haccepted hsigner hsignature hrepeats' => ?_⟩
  exact hone (unforgeable_onlySigned _ _) haccepted hsigner hsignature hrepeats hrepeats'

end Primadb

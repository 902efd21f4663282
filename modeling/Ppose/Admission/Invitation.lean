import Ppose.Foundations.BigEndian

/-!
# Invitations

A signed, time-bounded vouch of an issuer for a subject.  The signature scheme is
a library outside the repository: `Ed25519` stands for what the code uses of it,
which byte strings are keys and which signatures a key accepts.  Both are
functions, so verifying twice gives the same answer.  `Signer` stands for the
other half of it, the public key of a seed and the signatures made with it.

An invitation travels as 144 bytes, of which the first 80 are what is signed.
-/

namespace Ppose

namespace Admission

/-- The operations of the signature library. -/
structure Ed25519 where
  /-- Whether 32 bytes are a valid compressed Edwards point. -/
  isPoint : Block 32 → Bool
  verify : Block 32 → Bytes → Block 64 → Bool

/-- Wire length of an encoded invitation. -/
def invitationLen : ℕ := 32 + 32 + 8 + 8 + 64

inductive AdmissionError where
  | badSignature
  | badEncoding
  | notYetValid
  | expired
  | issuerCapReached
  deriving DecidableEq, Repr

structure InviteVerifyingKey (ed : Ed25519) where
  asBytes : Block 32
  valid : ed.isPoint asBytes = true
  deriving DecidableEq

theorem InviteVerifyingKey.eq_of_asBytes {ed : Ed25519} {left right : InviteVerifyingKey ed}
    (same : left.asBytes = right.asBytes) : left = right := by
  cases left
  cases right
  cases same
  rfl

/-- Parse a key from its raw bytes. -/
def InviteVerifyingKey.fromBytes {ed : Ed25519} (bytes : Block 32) :
    Except AdmissionError (InviteVerifyingKey ed) :=
  if valid : ed.isPoint bytes = true then .ok ⟨bytes, valid⟩ else .error .badEncoding

/-- A signed, time-bounded vouch: `issuer` claims `subject` should be trusted. -/
structure Invitation (ed : Ed25519) where
  issuer : InviteVerifyingKey ed
  subject : Block 32
  issuedAt : UInt64
  expiresAt : UInt64
  signature : Block 64
  deriving DecidableEq

/-- The bytes of `ppose-invite-v1`. -/
def domain : Bytes :=
  [0x70, 0x70, 0x6f, 0x73, 0x65, 0x2d, 0x69, 0x6e, 0x76, 0x69, 0x74, 0x65, 0x2d, 0x76, 0x31]

def signingPayload (issuer subject : Block 32) (issuedAt expiresAt : UInt64) : Bytes :=
  domain ++ issuer.toList ++ subject.toList ++ BigEndian.encode 8 issuedAt.toNat ++
    BigEndian.encode 8 expiresAt.toNat

variable {ed : Ed25519}

namespace Invitation

def Genuine (invite : Invitation ed) : Prop :=
  ed.verify invite.issuer.asBytes
    (signingPayload invite.issuer.asBytes invite.subject invite.issuedAt invite.expiresAt)
    invite.signature = true

def ValidAt (invite : Invitation ed) (now : UInt64) : Prop :=
  invite.issuedAt ≤ now ∧ now < invite.expiresAt

instance (invite : Invitation ed) : Decidable invite.Genuine :=
  inferInstanceAs (Decidable (_ = true))

instance (invite : Invitation ed) (now : UInt64) : Decidable (invite.ValidAt now) :=
  inferInstanceAs (Decidable (_ ∧ _))

/-- Verify the window against `now`, then the signature. -/
def verify (invite : Invitation ed) (now : UInt64) : Except AdmissionError Unit :=
  if now < invite.issuedAt then .error .notYetValid
  else if invite.expiresAt ≤ now then .error .expired
  else if invite.Genuine then .ok ()
  else .error .badSignature

theorem verify_eq_ok_iff (invite : Invitation ed) (now : UInt64) :
    invite.verify now = .ok () ↔ invite.ValidAt now ∧ invite.Genuine := by
  simp only [verify, ValidAt]
  split_ifs with early late genuine
  · simp [UInt64.not_le.mpr early]
  · simp [UInt64.not_lt.mpr late]
  · simp [UInt64.not_lt.mp early, UInt64.not_le.mp late, genuine]
  · simp [genuine]

/-- The fixed-length wire form. -/
def encode (invite : Invitation ed) : Bytes :=
  invite.issuer.asBytes.toList ++ invite.subject.toList ++
    BigEndian.encode 8 invite.issuedAt.toNat ++ BigEndian.encode 8 invite.expiresAt.toNat ++
    invite.signature.toList

/-- Parse the fields of the wire form, without checking the signature. -/
def decode (bytes : Bytes) : Except AdmissionError (Invitation ed) :=
  if bytes.length ≠ invitationLen then .error .badEncoding
  else do
    let issuer ← InviteVerifyingKey.fromBytes (blockAt 32 0 bytes)
    return {
      issuer := issuer
      subject := blockAt 32 32 bytes
      issuedAt := UInt64.ofNat (BigEndian.decode (slice bytes 64 72))
      expiresAt := UInt64.ofNat (BigEndian.decode (slice bytes 72 80))
      signature := blockAt 64 80 bytes }

@[simp]
theorem length_encode (invite : Invitation ed) : invite.encode.length = invitationLen := by
  simp [encode, invitationLen]

/-- What decoding gives for a string of the right length which starts with a key. -/
theorem decode_of_isPoint {bytes : Bytes} (length : bytes.length = invitationLen)
    (valid : ed.isPoint (blockAt 32 0 bytes) = true) :
    decode bytes = .ok {
      issuer := ⟨blockAt 32 0 bytes, valid⟩
      subject := blockAt 32 32 bytes
      issuedAt := UInt64.ofNat (BigEndian.decode (slice bytes 64 72))
      expiresAt := UInt64.ofNat (BigEndian.decode (slice bytes 72 80))
      signature := blockAt 64 80 bytes } := by
  simp only [decode, length, ne_eq, not_true_eq_false, if_false, InviteVerifyingKey.fromBytes,
    dif_pos valid]
  rfl

theorem decode_eq_ok_iff (bytes : Bytes) :
    (∃ invite : Invitation ed, decode bytes = .ok invite) ↔
      bytes.length = invitationLen ∧ ed.isPoint (blockAt 32 0 bytes) = true := by
  constructor
  · rintro ⟨invite, decoded⟩
    by_cases length : bytes.length = invitationLen
    · by_cases valid : ed.isPoint (blockAt 32 0 bytes) = true
      · exact ⟨length, valid⟩
      · simp [decode, length, InviteVerifyingKey.fromBytes, valid, bind, Except.bind] at decoded
    · simp [decode, length] at decoded
  · rintro ⟨length, valid⟩
    exact ⟨_, decode_of_isPoint length valid⟩

/-- Field by field, what follows the fields is separated from them by their fixed lengths. -/
theorem fields_injective {issuer issuer' subject subject' : Block 32}
    {issuedAt issuedAt' expiresAt expiresAt' : UInt64} {tail tail' : Bytes}
    (same : issuer.toList ++ subject.toList ++ BigEndian.encode 8 issuedAt.toNat ++
        BigEndian.encode 8 expiresAt.toNat ++ tail =
      issuer'.toList ++ subject'.toList ++ BigEndian.encode 8 issuedAt'.toNat ++
        BigEndian.encode 8 expiresAt'.toNat ++ tail') :
    issuer = issuer' ∧ subject = subject' ∧ issuedAt = issuedAt' ∧ expiresAt = expiresAt' ∧
      tail = tail' := by
  simp only [List.append_assoc] at same
  rcases List.append_inj same (by simp) with ⟨issuers, same⟩
  rcases List.append_inj same (by simp) with ⟨subjects, same⟩
  rcases List.append_inj same (by simp) with ⟨starts, same⟩
  rcases List.append_inj same (by simp) with ⟨ends, tails⟩
  exact ⟨List.Vector.toList_injective issuers, List.Vector.toList_injective subjects,
    BigEndian.encode_uint64_injective starts, BigEndian.encode_uint64_injective ends, tails⟩

theorem encode_injective : Function.Injective (encode : Invitation ed → Bytes) := by
  rintro ⟨issuer, subject, issuedAt, expiresAt, signature⟩
    ⟨issuer', subject', issuedAt', expiresAt', signature'⟩ same
  rcases fields_injective same with ⟨issuers, rfl, rfl, rfl, signatures⟩
  cases InviteVerifyingKey.eq_of_asBytes issuers
  cases List.Vector.toList_injective signatures
  rfl

/-- The wire form is the only byte string which decodes to an invitation. -/
theorem encode_of_decode {bytes : Bytes} {invite : Invitation ed}
    (decoded : decode bytes = .ok invite) : invite.encode = bytes := by
  rcases (decode_eq_ok_iff bytes).mp ⟨invite, decoded⟩ with ⟨length, valid⟩
  rw [decode_of_isPoint length valid] at decoded
  cases decoded
  simp only [invitationLen] at length
  have issuer : (blockAt 32 0 bytes).toList = bytes.take 32 := toList_blockAt (by omega)
  have subject : (blockAt 32 32 bytes).toList = slice bytes 32 64 := toList_blockAt (by omega)
  have signature : (blockAt 64 80 bytes).toList = slice bytes 80 144 := toList_blockAt (by omega)
  have issuedAt : (slice bytes 64 72).length = 8 := length_slice (by omega)
  have expiresAt : (slice bytes 72 80).length = 8 := length_slice (by omega)
  simp only [encode, issuer, subject, signature, BigEndian.encode_ofNat_decode_uint64 issuedAt,
    BigEndian.encode_ofNat_decode_uint64 expiresAt]
  rw [take_append_slice _ (by decide), take_append_slice _ (by decide),
    take_append_slice _ (by decide), take_append_slice _ (by decide)]
  exact List.take_of_length_le (by omega)

theorem blockAt_encode (invite : Invitation ed) :
    blockAt 32 0 invite.encode = invite.issuer.asBytes := by
  simp only [encode, List.append_assoc]
  exact blockAt_append invite.issuer.asBytes _ (List.length_nil)

theorem decode_encode (invite : Invitation ed) : decode invite.encode = .ok invite := by
  have valid : ed.isPoint (blockAt 32 0 invite.encode) = true := by
    rw [blockAt_encode]
    exact invite.issuer.valid
  rcases (decode_eq_ok_iff invite.encode).mpr ⟨invite.length_encode, valid⟩ with ⟨other, decoded⟩
  rw [decoded, encode_injective (encode_of_decode decoded)]

theorem signingPayload_injective {issuer issuer' subject subject' : Block 32}
    {issuedAt issuedAt' expiresAt expiresAt' : UInt64}
    (same : signingPayload issuer subject issuedAt expiresAt =
      signingPayload issuer' subject' issuedAt' expiresAt') :
    issuer = issuer' ∧ subject = subject' ∧ issuedAt = issuedAt' ∧ expiresAt = expiresAt' := by
  have fields : issuer = issuer' ∧ subject = subject' ∧ issuedAt = issuedAt' ∧
      expiresAt = expiresAt' ∧ ([] : Bytes) = [] := by
    apply fields_injective
    simpa only [signingPayload, List.append_assoc, List.append_cancel_left_eq,
      List.append_nil] using same
  exact ⟨fields.1, fields.2.1, fields.2.2.1, fields.2.2.2.1⟩

/-- What is signed is the wire form up to the signature. -/
theorem signingPayload_eq_take (invite : Invitation ed) :
    signingPayload invite.issuer.asBytes invite.subject invite.issuedAt invite.expiresAt =
      domain ++ invite.encode.take 80 := by
  have cut : invite.encode.take 80 = invite.issuer.asBytes.toList ++ invite.subject.toList ++
      BigEndian.encode 8 invite.issuedAt.toNat ++ BigEndian.encode 8 invite.expiresAt.toNat :=
    List.take_left' (by simp)
  simp only [signingPayload, cut, List.append_assoc]

end Invitation

/-- The signing half of the signature library, over raw seeds. -/
structure Signer (ed : Ed25519) where
  verifyingKey : Block 32 → InviteVerifyingKey ed
  sign : Block 32 → Bytes → Block 64

/-- A signing identity, by its seed. -/
structure InviteSigningKey where
  seed : Block 32
  deriving DecidableEq

def saturatingAdd (left right : UInt64) : UInt64 :=
  UInt64.ofNat (min (left.toNat + right.toNat) (2 ^ 64 - 1))

namespace InviteSigningKey

variable (signer : Signer ed)

def publicKey (key : InviteSigningKey) : InviteVerifyingKey ed :=
  signer.verifyingKey key.seed

/--
Vouch for `subject`, valid from `now` for `ttlSecs`.  The signing operation of the key is
`sign`, in any monad, so that its calls can be observed.
-/
def issueWith {m : Type → Type} [Monad m] (key : InviteSigningKey) (sign : Bytes → m (Block 64))
    (subject : Block 32) (now ttlSecs : UInt64) : m (Invitation ed) := do
  let issuer := key.publicKey signer
  let issuedAt := now
  let expiresAt := saturatingAdd now ttlSecs
  let signature ← sign (signingPayload issuer.asBytes subject issuedAt expiresAt)
  return { issuer, subject, issuedAt, expiresAt, signature }

/-- The signing operation of the key itself. -/
def sign (key : InviteSigningKey) (message : Bytes) : Id (Block 64) :=
  pure (signer.sign key.seed message)

/-- The signing operation of the key, which keeps the messages it is called with. -/
def signRecording (key : InviteSigningKey) (message : Bytes) : StateM (List Bytes) (Block 64) := do
  modify fun messages => messages ++ [message]
  return signer.sign key.seed message

/-- Vouch for `subject`, valid from `now` for `ttlSecs`. -/
def issue (key : InviteSigningKey) (subject : Block 32) (now ttlSecs : UInt64) : Invitation ed :=
  (key.issueWith signer (key.sign signer) subject now ttlSecs).run

end InviteSigningKey

/-- One call of `issue`. -/
structure IssueCall where
  key : InviteSigningKey
  subject : Block 32
  now : UInt64
  ttlSecs : UInt64
  deriving DecidableEq

variable (signer : Signer ed)

def IssueCall.invitation (call : IssueCall) : Invitation ed :=
  call.key.issue signer call.subject call.now call.ttlSecs

/-- The messages which the call has its key sign. -/
def IssueCall.signs (call : IssueCall) : List Bytes :=
  ((call.key.issueWith signer (call.key.signRecording signer) call.subject call.now
    call.ttlSecs).run []).2

/-- The messages which were signed in some calls, each with the seed it was signed with. -/
def signedBy (calls : Set IssueCall) : Set (Block 32 × Bytes) :=
  {signed | ∃ call ∈ calls, signed.1 = call.key.seed ∧ signed.2 ∈ call.signs signer}

/-- An ideal signature scheme: a key accepts for a message what its holder makes, and no more. -/
def Ideal : Prop :=
  ∀ publicKey message signature, ed.verify publicKey message signature = true ↔
    ∃ seed, (signer.verifyingKey seed).asBytes = publicKey ∧ signature = signer.sign seed message

/--
An ideal signature scheme in use: of the signatures which anybody has come up with, a key
accepts one for a message only if its holder has signed that message.
-/
def Unforgeable (signed : Set (Block 32 × Bytes)) (known : Set (Block 64)) : Prop :=
  ∀ publicKey message, ∀ signature ∈ known, ed.verify publicKey message signature = true →
    ∃ seed, (signer.verifyingKey seed).asBytes = publicKey ∧ (seed, message) ∈ signed

variable {signer}

/-- A call signs one message, which is what its invitation is verified over. -/
theorem IssueCall.signs_eq (call : IssueCall) :
    call.signs signer = [signingPayload (call.invitation signer).issuer.asBytes
      (call.invitation signer).subject (call.invitation signer).issuedAt
      (call.invitation signer).expiresAt] :=
  rfl

theorem saturatingAdd_sub {first last : UInt64} (notBefore : first ≤ last) :
    saturatingAdd first (last - first) = last := by
  have sum : first.toNat + (last - first).toNat = last.toNat := by
    rw [UInt64.toNat_sub_of_le _ _ notBefore]
    exact Nat.add_sub_cancel' (UInt64.le_iff_toNat_le.mp notBefore)
  have small : last.toNat ≤ 2 ^ 64 - 1 := Nat.le_sub_one_of_lt last.toNat_lt
  rw [saturatingAdd, sum, Nat.min_eq_left small, UInt64.ofNat_toNat]

namespace Invitation

/-- A genuine invitation differs from an issued one in its signature at most. -/
theorem issued_of_genuine {calls : Set IssueCall} {known : Set (Block 64)}
    (unforgeable : Unforgeable signer (signedBy signer calls) known) {invite : Invitation ed}
    (isKnown : invite.signature ∈ known) (genuine : invite.Genuine) :
    ∃ call ∈ calls, invite = { call.invitation signer with signature := invite.signature } := by
  rcases unforgeable _ _ _ isKnown genuine with ⟨seed, holder, call, called, seedEq, signed⟩
  rw [IssueCall.signs_eq, List.mem_singleton] at signed
  rcases signingPayload_injective signed with ⟨issuerBytes, subject, issuedAt, expiresAt⟩
  have issuer : invite.issuer = (call.invitation signer).issuer :=
    InviteVerifyingKey.eq_of_asBytes issuerBytes
  refine ⟨call, called, ?_⟩
  cases invite
  simp only at issuer subject issuedAt expiresAt
  simp only [issuer, subject, issuedAt, expiresAt]

/-- With an ideal scheme, what passes `verify` is what `issue` returns, within its window. -/
theorem verify_eq_ok_iff_issued (ideal : Ideal signer) (invite : Invitation ed) (now : UInt64) :
    invite.verify now = .ok () ↔
      invite.ValidAt now ∧ ∃ call : IssueCall, invite = call.invitation signer := by
  rw [verify_eq_ok_iff]
  apply and_congr_right
  rintro ⟨notEarly, notLate⟩
  rw [Genuine, ideal _ _ _]
  constructor
  · rintro ⟨seed, holder, made⟩
    have inOrder : invite.issuedAt ≤ invite.expiresAt :=
      UInt64.le_of_lt (UInt64.lt_of_le_of_lt notEarly notLate)
    refine ⟨⟨⟨seed⟩, invite.subject, invite.issuedAt, invite.expiresAt - invite.issuedAt⟩, ?_⟩
    cases invite
    cases InviteVerifyingKey.eq_of_asBytes holder
    simp only at made inOrder
    simp only [IssueCall.invitation, InviteSigningKey.issue, InviteSigningKey.issueWith,
      saturatingAdd_sub inOrder, made]
    rfl
  · rintro ⟨call, rfl⟩
    exact ⟨call.key.seed, rfl, rfl⟩

end Invitation

/--
The wire form of an invitation is faithful and all of its fields are signed.  So with an
ideal signature scheme, exactly what `issue` returns for a holder of the issuer's key
verifies within its window; and if only some calls of `issue` were made, whatever verifies
carries the fields of one of them.
-/
theorem Invitation.wire_faithful (signer : Signer ed) :
    (∀ invite : Invitation ed, decode invite.encode = .ok invite) ∧
    (∀ bytes (invite : Invitation ed), decode bytes = .ok invite → invite.encode = bytes) ∧
    (∀ bytes, (∃ invite : Invitation ed, decode bytes = .ok invite) ↔
      bytes.length = 144 ∧ ∃ key : InviteVerifyingKey ed, key.asBytes.toList = bytes.take 32) ∧
    (∀ issuer subject issuedAt expiresAt issuer' subject' issuedAt' expiresAt',
      signingPayload issuer subject issuedAt expiresAt =
        signingPayload issuer' subject' issuedAt' expiresAt' →
      issuer = issuer' ∧ subject = subject' ∧ issuedAt = issuedAt' ∧ expiresAt = expiresAt') ∧
    (∀ first second : Invitation ed, first.encode.take 80 ≠ second.encode.take 80 →
      signingPayload first.issuer.asBytes first.subject first.issuedAt first.expiresAt ≠
        signingPayload second.issuer.asBytes second.subject second.issuedAt second.expiresAt) ∧
    (Ideal signer → ∀ (invite : Invitation ed) now, invite.verify now = .ok () ↔
      invite.ValidAt now ∧ ∃ call : IssueCall, invite = call.invitation signer) ∧
    ∀ calls known, Unforgeable signer (signedBy signer calls) known →
      ∀ (invite : Invitation ed) now, invite.signature ∈ known → invite.verify now = .ok () →
        ∃ call ∈ calls,
          invite = { call.invitation signer with signature := invite.signature } := by
  refine ⟨decode_encode, ?_, ?_, ?_, ?_, verify_eq_ok_iff_issued, ?_⟩
  · intro bytes invite decoded
    exact encode_of_decode decoded
  · intro bytes
    rw [decode_eq_ok_iff]
    apply and_congr_right
    intro length
    have first : (blockAt 32 0 bytes).toList = bytes.take 32 :=
      toList_blockAt (by simp only [length, invitationLen]; decide)
    constructor
    · intro valid
      exact ⟨⟨blockAt 32 0 bytes, valid⟩, first⟩
    · rintro ⟨key, keyBytes⟩
      rw [List.Vector.toList_injective (first.trans keyBytes.symm)]
      exact key.valid
  · intro issuer subject issuedAt expiresAt issuer' subject' issuedAt' expiresAt' same
    exact signingPayload_injective same
  · intro first second differ same
    apply differ
    simpa only [signingPayload_eq_take, List.append_cancel_left_eq] using same
  · intro calls known unforgeable invite now isKnown verified
    exact issued_of_genuine unforgeable isKnown ((verify_eq_ok_iff invite now).mp verified).2

def oneCall : IssueCall where
  key := ⟨List.Vector.replicate 32 1⟩
  subject := List.Vector.replicate 32 2
  now := 0
  ttlSecs := 100

/-- Signatures which tell one message of one seed from all others. -/
def oneSign (seed : Block 32) (message : Bytes) : Block 64 :=
  List.Vector.replicate 64
    (if seed = oneCall.key.seed ∧ message = signingPayload seed oneCall.subject 0 100 then 1 else 0)

def oneLibrary : Ed25519 where
  isPoint _ := true
  verify publicKey message signature := decide (signature = oneSign publicKey message)

def oneSigner : Signer oneLibrary where
  verifyingKey seed := ⟨seed, rfl⟩
  sign := oneSign

theorem ideal_oneSigner : Ideal oneSigner := by
  intro publicKey message signature
  simp only [oneLibrary, oneSigner, decide_eq_true_eq, exists_eq_left]

theorem unforgeable_oneSigner :
    Unforgeable oneSigner (signedBy oneSigner {oneCall})
      {(oneCall.invitation oneSigner).signature} := by
  rintro publicKey message signature rfl accepted
  have made : (oneCall.invitation oneSigner).signature = List.Vector.replicate 64 1 := by
    decide +kernel
  have same := made.symm.trans (of_decide_eq_true accepted)
  simp only [oneSign] at same
  split_ifs at same with isCall
  · rcases isCall with ⟨rfl, rfl⟩
    exact ⟨oneCall.key.seed, rfl, oneCall, rfl, rfl, List.mem_singleton_self _⟩
  · exact absurd same (by decide)

theorem Invitation.wire_faithful_oneCall :
    (oneCall.invitation oneSigner).verify 50 = .ok () ∧
    ∃ call ∈ ({oneCall} : Set IssueCall), oneCall.invitation oneSigner =
      { call.invitation oneSigner with signature := (oneCall.invitation oneSigner).signature } := by
  have faithful := (wire_faithful oneSigner).2.2.2.2.2
  have verified : (oneCall.invitation oneSigner).verify 50 = .ok () :=
    (faithful.1 ideal_oneSigner (oneCall.invitation oneSigner) 50).mpr
      ⟨by decide +kernel, oneCall, rfl⟩
  exact ⟨verified, faithful.2 {oneCall} _ unforgeable_oneSigner (oneCall.invitation oneSigner) 50
    rfl verified⟩

end Admission

end Ppose

import Ppose.Wire.Packet

/-!
# The transport state of a Noise session

After the handshake, each party has a key and a counter for either direction.
Writing a message encrypts it under the sending counter and then increments the
counter; reading a message decrypts it under the receiving counter, and increments
the counter only if that succeeds.  The cipher is a library outside the repository:
`NoiseCipher` stands for it, and `NoiseCipher.Lawful` for what is relied on.
-/

namespace Ppose

/-- The authenticated cipher of the transport messages, by key and counter. -/
structure NoiseCipher where
  encrypt : Block 32 → ℕ → Bytes → Bytes
  decrypt : Block 32 → ℕ → Bytes → Option Bytes

/-- The largest counter, which is never used. -/
def maxNonce : ℕ := 2 ^ 64 - 1

/-- A ciphertext is read under the counter it was made with and under no other. -/
structure NoiseCipher.Lawful (cipher : NoiseCipher) : Prop where
  length_encrypt : ∀ key counter plaintext,
    (cipher.encrypt key counter plaintext).length = plaintext.length + 16
  decrypt_encrypt : ∀ key counter plaintext, counter < maxNonce →
    cipher.decrypt key counter (cipher.encrypt key counter plaintext) = some plaintext
  decrypt_other : ∀ key counter other plaintext, counter < maxNonce → other < maxNonce →
    other ≠ counter → cipher.decrypt key other (cipher.encrypt key counter plaintext) = none

inductive NoiseError where
  | setup
  | crypto
  | badState
  | keyMismatch
  | noRemoteStatic
  deriving DecidableEq, Repr

structure Noise where
  sendKey : Block 32
  recvKey : Block 32
  sendCounter : ℕ
  recvCounter : ℕ
  deriving DecidableEq

namespace Noise

variable (cipher : NoiseCipher)

/-- Encrypt a payload into a buffer of datagram size. -/
def sealMessage (noise : Noise) (plaintext : Bytes) : Except NoiseError Bytes × Noise :=
  if maxDatagram < plaintext.length + 16 ∨ maxNonce ≤ noise.sendCounter then (.error .crypto, noise)
  else
    (.ok (cipher.encrypt noise.sendKey noise.sendCounter plaintext),
      { noise with sendCounter := noise.sendCounter + 1 })

/-- Decrypt a payload of at most 65535 bytes. -/
def openMessage (noise : Noise) (ciphertext : Bytes) : Except NoiseError Bytes × Noise :=
  if 65535 < ciphertext.length ∨ ciphertext.length < 16 ∨ maxNonce ≤ noise.recvCounter then
    (.error .crypto, noise)
  else
    match cipher.decrypt noise.recvKey noise.recvCounter ciphertext with
    | none => (.error .crypto, noise)
    | some plaintext => (.ok plaintext, { noise with recvCounter := noise.recvCounter + 1 })

variable {cipher}

theorem openMessage_of_error {noise : Noise} {ciphertext : Bytes} {error : NoiseError}
    (rejected : (noise.openMessage cipher ciphertext).1 = .error error) :
    noise.openMessage cipher ciphertext = (.error .crypto, noise) := by
  unfold openMessage at rejected ⊢
  split_ifs at rejected ⊢
  · rfl
  · cases decrypted : cipher.decrypt noise.recvKey noise.recvCounter ciphertext with
    | none => rfl
    | some plaintext => simp [decrypted] at rejected

theorem openMessage_of_ok {noise : Noise} {ciphertext plaintext : Bytes}
    (opened : (noise.openMessage cipher ciphertext).1 = .ok plaintext) :
    noise.openMessage cipher ciphertext =
      (.ok plaintext, { noise with recvCounter := noise.recvCounter + 1 }) := by
  unfold openMessage at opened ⊢
  split_ifs at opened ⊢
  cases decrypted : cipher.decrypt noise.recvKey noise.recvCounter ciphertext with
  | none => simp [decrypted] at opened
  | some other =>
      simp only [decrypted, Except.ok.injEq] at opened ⊢
      rw [opened]

theorem decrypt_of_openMessage {noise : Noise} {ciphertext plaintext : Bytes}
    (opened : (noise.openMessage cipher ciphertext).1 = .ok plaintext) :
    noise.recvCounter < maxNonce ∧
      cipher.decrypt noise.recvKey noise.recvCounter ciphertext = some plaintext := by
  unfold openMessage at opened
  split_ifs at opened with unreadable
  rw [not_or, not_or, not_le] at unreadable
  refine ⟨unreadable.2.2, ?_⟩
  split at opened
  · cases opened
  · rename_i found decryptEq
    cases opened
    exact decryptEq

theorem openMessage_sending (cipher : NoiseCipher) (noise : Noise) (ciphertext : Bytes) :
    (noise.openMessage cipher ciphertext).2.sendKey = noise.sendKey ∧
      (noise.openMessage cipher ciphertext).2.sendCounter = noise.sendCounter := by
  unfold openMessage
  split_ifs
  · exact ⟨rfl, rfl⟩
  · split <;> exact ⟨rfl, rfl⟩

/-- A ciphertext of the peer is opened exactly if it was made under the receiving counter. -/
theorem openMessage_encrypt (lawful : cipher.Lawful) (noise : Noise) {counter : ℕ}
    {plaintext : Bytes} (small : plaintext.length + 16 ≤ maxDatagram)
    (counterLt : counter < maxNonce) (notAhead : noise.recvCounter ≤ counter) :
    noise.openMessage cipher (cipher.encrypt noise.recvKey counter plaintext) =
      if noise.recvCounter = counter then
        (.ok plaintext, { noise with recvCounter := noise.recvCounter + 1 })
      else (.error .crypto, noise) := by
  have lengthEq := lawful.length_encrypt noise.recvKey counter plaintext
  simp only [maxDatagram] at small
  have fits : ¬(65535 < (cipher.encrypt noise.recvKey counter plaintext).length ∨
      (cipher.encrypt noise.recvKey counter plaintext).length < 16 ∨
      maxNonce ≤ noise.recvCounter) := by
    omega
  simp only [openMessage, if_neg fits]
  split_ifs with current
  · simp only [current, lawful.decrypt_encrypt _ _ _ counterLt]
  · have unreadable := lawful.decrypt_other noise.recvKey counter noise.recvCounter plaintext
      counterLt (by omega) current
    simp only [unreadable]

end Noise

/-- A cipher which appends the counter as a tag. -/
def tagCipher : NoiseCipher where
  encrypt _ counter plaintext := plaintext ++ BigEndian.encode 16 counter
  decrypt _ counter ciphertext :=
    if ciphertext.drop (ciphertext.length - 16) = BigEndian.encode 16 counter then
      some (ciphertext.take (ciphertext.length - 16))
    else none

theorem tagCipher_lawful : tagCipher.Lawful where
  length_encrypt := by
    intro key counter plaintext
    simp [tagCipher]
  decrypt_encrypt := by
    intro key counter plaintext _
    simp [tagCipher]
  decrypt_other := by
    intro key counter other plaintext counterLt otherLt different
    have tagsDiffer : BigEndian.encode 16 counter ≠ BigEndian.encode 16 other := by
      intro same
      apply different
      have decoded := congrArg BigEndian.decode same
      simp only [maxNonce] at counterLt otherLt
      rw [BigEndian.decode_encode_of_lt (by omega), BigEndian.decode_encode_of_lt (by omega)]
        at decoded
      exact decoded.symm
    simp [tagCipher, tagsDiffer]

end Ppose

import Ppose.Reliability.Operations
import Ppose.Session.WireLoss

/-!
# A message which is too large for the path

`sendTimeout` queues a message and then flushes and waits until everything is
acknowledged.  Whether a sealed frame fits on the path of the session is only found
out when it is sent: by then the frame is queued, its attempt is counted, and the
Noise counter has advanced.  None of this is undone when the frame is refused.  So
the counter is never what it was before, and the frame stays queued and will be
tried again (`sendTimeout_refused`).
-/

namespace Ppose

/-- What `recv_raw` returns within the read timeout. -/
inductive Reception where
  | timedOut
  | failed
  | datagram (raw : Bytes) (source : SocketAddr)

/-- What one round of the wait meets. -/
structure WaitRound where
  newEnvs : ℕ → SendEnv
  dueEnvs : ℕ → SendEnv
  flushNow : Instant
  coverEnv : SendEnv
  coverNow : Instant
  random : Block 64
  now : Instant
  reception : Reception
  ackEnv : SendEnv

namespace UdpSession

variable (crypto : OnionCrypto) (cipher : NoiseCipher)

/-- Handle what was received, unless it does not come from the next hop. -/
def handleReception (session : UdpSession) (env : SendEnv) :
    Reception → Except SessionError Unit × UdpSession × List Emission
  | .timedOut => (.ok (), session, [])
  | .failed => (.error .io, session, [])
  | .datagram raw source =>
      if source ≠ session.nextHop then (.ok (), session, [])
      else handleIncoming crypto cipher session env (raw.take maxDatagram)

/-- One round of the wait; `none` if the wait goes on. -/
def waitRound (session : UdpSession) (deadline : Instant) (round : WaitRound) :
    Option (Except SessionError Unit) × UdpSession × List Emission :=
  match flush crypto cipher session round.newEnvs round.dueEnvs round.flushNow with
  | (.error error, session, emissions) => (some (.error error), session, emissions)
  | (.ok (), session, emissions) =>
      match maybeCover crypto session round.coverEnv round.coverNow round.random with
      | (.error error, session, _) => (some (.error error), session, emissions)
      | (.ok (), session, _) =>
          if session.arq.unackedLen = 0 then (some (.ok ()), session, emissions)
          else if deadline ≤ round.now then (some (.error .timeout), session, emissions)
          else
            match handleReception crypto cipher session round.ackEnv round.reception with
            | (.error error, session, more) => (some (.error error), session, emissions ++ more)
            | (.ok (), session, more) => (none, session, emissions ++ more)

/-- Wait until everything is acknowledged; `none` if the rounds are over before. -/
def waitAcked (deadline : Instant) :
    UdpSession → List WaitRound → Option (Except SessionError Unit) × UdpSession × List Emission
  | session, [] => (none, session, [])
  | session, round :: rest =>
      match waitRound crypto cipher session deadline round with
      | (some result, session, emissions) => (some result, session, emissions)
      | (none, session, emissions) =>
          let (result, session, more) := waitAcked deadline session rest
          (result, session, emissions ++ more)

def sendTimeout (session : UdpSession) (message : Bytes) (timeout : Duration) (now : Instant)
    (rounds : List WaitRound) : Option (Except SessionError Unit) × UdpSession × List Emission :=
  match session.enqueue message with
  | (.error error, session) => (some (.error error), session, [])
  | (.ok (), session) => waitAcked crypto cipher (now + timeout) session rounds

end UdpSession

/-! ### What a refusal leaves behind -/

namespace Arq

/-- The frame is among those which wait for an acknowledgement. -/
def Holds (arq : Arq) (frame : Bytes) : Prop :=
  ∃ entry ∈ arq.unacked.entries, entry.2.plaintext = frame

/-- The frame is an acknowledgement. -/
def IsAck (frame : Bytes) : Prop := ∃ base bits, frame = encodeAck base bits

theorem holds_takeNewSends {arq : Arq} {now : Instant} {frame : Bytes}
    (frameMem : frame ∈ (arq.takeNewSends now).1) : (arq.takeNewSends now).2.Holds frame := by
  rcases mem_newSendsLoop_frames frameMem with ⟨entry, entryMem, rfl⟩
  rcases exists_of_contents_eq (contents_newSendsLoop now arq.inFlightSent _).symm entryMem with
    ⟨kept, keptMem, _, plaintextEq⟩
  exact ⟨kept, keptMem, plaintextEq⟩

theorem holds_takeRetransmits {arq after : Arq} {now : Instant} {due : List Bytes} {frame : Bytes}
    (taken : arq.takeRetransmits now = (.ok due, after)) (frameMem : frame ∈ due) :
    after.Holds frame := by
  have afterEq : (arq.takeRetransmits now).2 = after := congrArg Prod.snd taken
  rcases mem_retransmitsLoop_frames (congrArg Prod.fst taken) frameMem with
    ⟨entry, entryMem, _, rfl⟩
  rcases exists_of_contents_eq
      (contents_retransmitsLoop now arq.retx arq.maxAttempts _).symm entryMem with
    ⟨kept, keptMem, _, plaintextEq⟩
  rw [← afterEq]
  exact ⟨kept, keptMem, plaintextEq⟩

theorem isAck_of_ingest {arq after : Arq} {plaintext ack : Bytes}
    (ingested : arq.ingest plaintext = (.ok (some ack), after)) : IsAck ack := by
  unfold ingest at ingested
  split at ingested
  · cases ingested
  · cases ingested
  · cases ingested
    exact ⟨_, _, rfl⟩

end Arq

theorem Emits.final_eq {cipher : NoiseCipher} {key : Block 32} {first final : ℕ}
    {emissions : List Emission} (emits : Emits cipher key first emissions final) :
    final = first + emissions.length := by
  induction emissions generalizing first with
  | nil => exact emits
  | cons emission rest ih =>
      rcases emits with ⟨_, _, restEmits⟩
      rw [ih restEmits, List.length_cons]
      omega

namespace UdpSession

/--
What an operation leaves that sealed some datagrams and failed or did not: the counter
advanced for each of them, and if one of them was refused, this is how the operation
failed, and the frame still waits for an acknowledgement unless it is one itself.
-/
structure Accounts (counter : ℕ) (after : UdpSession) (emissions : List Emission)
    (failure : Option SessionError) : Prop where
  sendCounter_eq : after.noise.sendCounter = counter + emissions.length
  refused : ∀ emission ∈ emissions, ∀ error, emission.sent = .error error →
    failure = some error ∧ (after.arq.Holds emission.plaintext ∨ Arq.IsAck emission.plaintext)

/-- The error of an operation, if it failed. -/
def failureOf : Except SessionError Unit → Option SessionError
  | .ok _ => none
  | .error error => some error

variable {crypto : OnionCrypto} {cipher : NoiseCipher} {counter : ℕ} {middle after : UdpSession}
  {emissions more : List Emission} {failure : Option SessionError}

namespace Accounts

theorem nil (sendCounterEq : after.noise.sendCounter = counter) :
    Accounts counter after [] failure where
  sendCounter_eq := sendCounterEq
  refused := by simp

/-- As long as nothing was refused, anything may follow. -/
theorem trans (first : Accounts counter middle emissions none)
    (second : Accounts middle.noise.sendCounter after more failure) :
    Accounts counter after (emissions ++ more) failure where
  sendCounter_eq := by
    rw [second.sendCounter_eq, first.sendCounter_eq, List.length_append]
    omega
  refused := by
    intro emission emissionMem error wasRefused
    rcases List.mem_append.mp emissionMem with inFirst | inSecond
    · have := (first.refused emission inFirst error wasRefused).1
      cases this
    · exact second.refused emission inSecond error wasRefused

theorem followed (first : Accounts counter middle emissions none)
    (sendCounterEq : after.noise.sendCounter = middle.noise.sendCounter) :
    Accounts counter after emissions failure := by
  have rest : Accounts middle.noise.sendCounter after [] failure := .nil sendCounterEq
  have joined := first.trans rest
  rwa [List.append_nil] at joined

end Accounts

theorem sealAndSend_accounts (session : UdpSession) (env : SendEnv) (retransmission : Bool)
    {frame : Bytes} (kept : session.arq.Holds frame ∨ Arq.IsAck frame) :
    Accounts session.noise.sendCounter
      (sealAndSend crypto cipher session env retransmission frame).2.1
      (sealAndSend crypto cipher session env retransmission frame).2.2
      (failureOf (sealAndSend crypto cipher session env retransmission frame).1) where
  sendCounter_eq := (sealAndSend_seals session env retransmission frame).1.emits.final_eq
  refused := by
    intro emission emissionMem error wasRefused
    rw [(sealAndSend_seals session env retransmission frame).2]
    unfold sealAndSend at emissionMem ⊢
    split at emissionMem
    · simp at emissionMem
    · rename_i body noise sealMessageEq
      rw [List.mem_singleton] at emissionMem
      subst emissionMem
      dsimp only at wasRefused
      rw [wasRefused]
      exact ⟨rfl, kept⟩

theorem sealData_accounts (session : UdpSession) (env : SendEnv) (retransmission : Bool)
    {frame : Bytes} (kept : session.arq.Holds frame) :
    Accounts session.noise.sendCounter (sealData crypto cipher session env retransmission frame).2.1
      (sealData crypto cipher session env retransmission frame).2.2
      (failureOf (sealData crypto cipher session env retransmission frame).1) := by
  unfold sealData
  split_ifs
  · exact .nil rfl
  · exact sealAndSend_accounts session env retransmission (.inl kept)

theorem sealData_arq (session : UdpSession) (env : SendEnv) (retransmission : Bool)
    (frame : Bytes) :
    (sealData crypto cipher session env retransmission frame).2.1.arq = session.arq := by
  unfold sealData
  split_ifs
  · rfl
  · exact (sealAndSend_seals session env retransmission frame).2

theorem sealAll_accounts (session : UdpSession) (envs : ℕ → SendEnv) (retransmission : Bool)
    {frames : List Bytes} (kept : ∀ frame ∈ frames, session.arq.Holds frame) :
    Accounts session.noise.sendCounter
        (sealAll crypto cipher retransmission session envs frames).2.1
        (sealAll crypto cipher retransmission session envs frames).2.2
        (failureOf (sealAll crypto cipher retransmission session envs frames).1) ∧
      (sealAll crypto cipher retransmission session envs frames).2.1.arq = session.arq := by
  induction frames generalizing session envs with
  | nil => exact ⟨.nil rfl, rfl⟩
  | cons frame rest ih =>
      rcases List.forall_mem_cons.mp kept with ⟨firstKept, restKept⟩
      have first : Accounts session.noise.sendCounter _ _
          (failureOf (sealData crypto cipher session (envs 0) retransmission frame).1) :=
        sealData_accounts session (envs 0) retransmission firstKept
      have sameArq : (sealData crypto cipher session (envs 0) retransmission frame).2.1.arq = _ :=
        sealData_arq session (envs 0) retransmission frame
      simp only [sealAll]
      split
      · rename_i resultEq
        rw [resultEq] at first sameArq
        exact ⟨first, sameArq⟩
      · rename_i session' emissions resultEq
        rw [resultEq] at first sameArq
        dsimp only at first sameArq
        rcases ih session' (envs ∘ Nat.succ) (sameArq ▸ restKept) with ⟨others, othersArq⟩
        exact ⟨first.trans others, othersArq.trans sameArq⟩

theorem flush_accounts (session : UdpSession) (newEnvs dueEnvs : ℕ → SendEnv) (now : Instant) :
    Accounts session.noise.sendCounter (flush crypto cipher session newEnvs dueEnvs now).2.1
      (flush crypto cipher session newEnvs dueEnvs now).2.2
      (failureOf (flush crypto cipher session newEnvs dueEnvs now).1) := by
  have newKept : ∀ frame ∈ (session.arq.takeNewSends now).1,
      (session.arq.takeNewSends now).2.Holds frame :=
    fun frame frameMem => Arq.holds_takeNewSends frameMem
  have news : Accounts session.noise.sendCounter _ _
      (failureOf (sealAll crypto cipher false
        { session with arq := (session.arq.takeNewSends now).2 } newEnvs _).1) :=
    (sealAll_accounts { session with arq := (session.arq.takeNewSends now).2 } newEnvs false
      newKept).1
  simp only [flush]
  split
  · rename_i resultEq
    rw [resultEq] at news
    exact news
  · rename_i session' emissions resultEq
    rw [resultEq] at news
    split
    · exact news.followed rfl
    · rename_i due arq dueEq
      have dueKept : ∀ frame ∈ due, arq.Holds frame :=
        fun frame frameMem => Arq.holds_takeRetransmits dueEq frameMem
      exact news.trans (sealAll_accounts { session' with arq } dueEnvs true dueKept).1

theorem handleIncoming_accounts (session : UdpSession) (env : SendEnv) (raw : Bytes) :
    Accounts session.noise.sendCounter (handleIncoming crypto cipher session env raw).2.1
      (handleIncoming crypto cipher session env raw).2.2
      (failureOf (handleIncoming crypto cipher session env raw).1) := by
  cases decoded : decodeIncoming session.viaRelay raw with
  | error error =>
      rw [handleIncoming_of_decode_error decoded]
      exact .nil rfl
  | ok contents =>
      rcases contents with ⟨packetType, body, other⟩
      rw [← noise_notePeer session other]
      simp only [handleIncoming, decoded]
      split
      · have sending := (Noise.openMessage_sending cipher (session.notePeer other).noise body).2
        split
        · rename_i noise opened
          rw [opened] at sending
          exact .nil sending
        · rename_i frame noise opened
          rw [opened] at sending
          split
          · exact .nil sending
          · exact .nil sending
          · rename_i ack arq ingested
            have acked : Accounts noise.sendCounter _ _ (failureOf
                (sealAndSend crypto cipher { session.notePeer other with noise, arq } env false
                  ack).1) :=
              sealAndSend_accounts { session.notePeer other with noise, arq } env false
                (.inr (Arq.isAck_of_ingest ingested))
            dsimp only at sending
            rw [sending] at acked
            exact acked
      · exact .nil rfl

theorem handleReception_accounts (session : UdpSession) (env : SendEnv) (reception : Reception) :
    Accounts session.noise.sendCounter
      (handleReception crypto cipher session env reception).2.1
      (handleReception crypto cipher session env reception).2.2
      (failureOf (handleReception crypto cipher session env reception).1) := by
  cases reception with
  | timedOut => exact .nil rfl
  | failed => exact .nil rfl
  | datagram raw source =>
      simp only [handleReception]
      split_ifs
      · exact .nil rfl
      · exact handleIncoming_accounts session env _

theorem noise_maybeCover (crypto : OnionCrypto) (session : UdpSession) (env : SendEnv)
    (now : Instant) (random : Block 64) :
    (maybeCover crypto session env now random).2.1.noise = session.noise := by
  unfold maybeCover
  split
  · rfl
  · split_ifs <;> rfl

theorem waitRound_accounts (session : UdpSession) (deadline : Instant) (round : WaitRound) :
    Accounts session.noise.sendCounter (waitRound crypto cipher session deadline round).2.1
      (waitRound crypto cipher session deadline round).2.2
      ((waitRound crypto cipher session deadline round).1.bind failureOf) := by
  have flushed : Accounts session.noise.sendCounter _ _
      (failureOf (flush crypto cipher session round.newEnvs round.dueEnvs round.flushNow).1) :=
    flush_accounts session round.newEnvs round.dueEnvs round.flushNow
  unfold waitRound
  split
  · rename_i resultEq
    rw [resultEq] at flushed
    exact flushed
  · rename_i session' emissions resultEq
    rw [resultEq] at flushed
    have covered := noise_maybeCover crypto session' round.coverEnv round.coverNow round.random
    split
    · rename_i cover coverEq
      rw [coverEq] at covered
      exact flushed.followed (congrArg Noise.sendCounter covered)
    · rename_i session'' cover coverEq
      rw [coverEq] at covered
      have sameCounter := congrArg Noise.sendCounter covered
      split_ifs
      · exact flushed.followed sameCounter
      · exact flushed.followed sameCounter
      · have handled : Accounts session''.noise.sendCounter _ _
            (failureOf (handleReception crypto cipher session'' round.ackEnv round.reception).1) :=
          handleReception_accounts session'' round.ackEnv round.reception
        have reached : Accounts session.noise.sendCounter session'' emissions none :=
          flushed.followed sameCounter
        split
        · rename_i handledEq
          rw [handledEq] at handled
          exact reached.trans handled
        · rename_i handledEq
          rw [handledEq] at handled
          exact reached.trans handled

theorem waitAcked_accounts (session : UdpSession) (deadline : Instant) (rounds : List WaitRound) :
    Accounts session.noise.sendCounter (waitAcked crypto cipher deadline session rounds).2.1
      (waitAcked crypto cipher deadline session rounds).2.2
      ((waitAcked crypto cipher deadline session rounds).1.bind failureOf) := by
  induction rounds generalizing session with
  | nil => exact .nil rfl
  | cons round rest ih =>
      have first : Accounts session.noise.sendCounter _ _
          ((waitRound crypto cipher session deadline round).1.bind failureOf) :=
        waitRound_accounts session deadline round
      simp only [waitAcked]
      split
      · rename_i resultEq
        rw [resultEq] at first
        exact first
      · rename_i session' emissions resultEq
        rw [resultEq] at first
        exact first.trans (ih session')

theorem sendTimeout_accounts (session : UdpSession) (message : Bytes) (timeout : Duration)
    (now : Instant) (rounds : List WaitRound) :
    Accounts session.noise.sendCounter
      (sendTimeout crypto cipher session message timeout now rounds).2.1
      (sendTimeout crypto cipher session message timeout now rounds).2.2
      ((sendTimeout crypto cipher session message timeout now rounds).1.bind failureOf) := by
  have sameNoise : (session.enqueue message).2.noise = session.noise := rfl
  unfold sendTimeout
  split
  · rename_i session' enqueued
    rw [enqueued] at sameNoise
    exact .nil (congrArg Noise.sendCounter sameNoise)
  · rename_i session' enqueued
    rw [enqueued] at sameNoise
    rw [← sameNoise]
    exact waitAcked_accounts session' (now + timeout) rounds

/-- The call failed since the given frame could not be encoded. -/
def RefusedForSize (outcome : Option (Except SessionError Unit) × UdpSession × List Emission)
    (frame : Bytes) : Prop :=
  ∃ emission ∈ outcome.2.2, emission.plaintext = frame ∧
    ∃ error, emission.sent = .error (.packet error) ∧ outcome.1 = some (.error (.packet error))

/-- The outgoing frames and the sending counter are what they were. -/
structure Undisturbed (before after : UdpSession) : Prop where
  unacked_eq : after.arq.unacked = before.arq.unacked
  sendCounter_eq : after.noise.sendCounter = before.noise.sendCounter

/--
A message which is refused for its size never leaves the session undisturbed: the
sending counter has advanced, and the refused frame still waits for an acknowledgement
to be sent again, unless it is an acknowledgement itself.
-/
theorem sendTimeout_refused (crypto : OnionCrypto) (cipher : NoiseCipher) (session : UdpSession)
    (message : Bytes) (timeout : Duration) (now : Instant) (rounds : List WaitRound)
    (frame : Bytes)
    (refused : RefusedForSize (sendTimeout crypto cipher session message timeout now rounds)
      frame) :
    ¬Undisturbed session (sendTimeout crypto cipher session message timeout now rounds).2.1 ∧
    session.noise.sendCounter <
      (sendTimeout crypto cipher session message timeout now rounds).2.1.noise.sendCounter ∧
    ((sendTimeout crypto cipher session message timeout now rounds).2.1.arq.Holds frame ∨
      Arq.IsAck frame) := by
  have accounts : Accounts session.noise.sendCounter _ _
      ((sendTimeout crypto cipher session message timeout now rounds).1.bind failureOf) :=
    sendTimeout_accounts session message timeout now rounds
  rcases refused with ⟨emission, emissionMem, rfl, error, wasRefused, _⟩
  have advanced : session.noise.sendCounter <
      (sendTimeout crypto cipher session message timeout now rounds).2.1.noise.sendCounter := by
    have sealedSome := List.length_pos_of_mem emissionMem
    rw [accounts.sendCounter_eq]
    omega
  refine ⟨?_, advanced, (accounts.refused emission emissionMem _ wasRefused).2⟩
  intro undisturbed
  rw [undisturbed.sendCounter_eq] at advanced
  exact lt_irrefl _ advanced

/-- A session whose path is an onion route of two hops. -/
def twoHopSession : UdpSession :=
  { relayedSession with
    nextHop := loopback 8
    peer := loopback 10
    viaRelay := false
    onion := some (Onion.sampleStops.map (Onion.Stop.hop Onion.sampleCrypto)) }

def quietRound : WaitRound where
  newEnvs _ := sampleEnv
  dueEnvs _ := sampleEnv
  flushNow := 0
  coverEnv := sampleEnv
  coverNow := 0
  random := List.Vector.replicate 64 0
  now := 0
  reception := .timedOut
  ackEnv := sampleEnv

/-- The largest fragment there is, which does not fit through two hops. -/
def fullFragment : Bytes := List.replicate 1024 7

/-- What comes of sending it. -/
def fullFragmentSent : Option (Except SessionError Unit) × UdpSession × List Emission :=
  sendTimeout Onion.sampleCrypto tagCipher twoHopSession fullFragment 5000000000 0 [quietRound]

theorem refusedForSize_fullFragment :
    RefusedForSize fullFragmentSent (encodeData 0 1 0 1 fullFragment) := by
  have found : ∃ emission ∈ fullFragmentSent.2.2,
      emission.plaintext = encodeData 0 1 0 1 fullFragment ∧
        emission.sent = .error (.packet .tooLarge) ∧
        fullFragmentSent.1 = some (.error (.packet .tooLarge)) := by
    decide +kernel
  rcases found with ⟨emission, emissionMem, plaintextEq, sentEq, resultEq⟩
  exact ⟨emission, emissionMem, plaintextEq, _, sentEq, resultEq⟩

theorem sendTimeout_refused_fullFragment :
    RefusedForSize fullFragmentSent (encodeData 0 1 0 1 fullFragment) ∧
    twoHopSession.noise.sendCounter < fullFragmentSent.2.1.noise.sendCounter := by
  have refused := refusedForSize_fullFragment
  unfold fullFragmentSent at refused ⊢
  exact ⟨refused, (sendTimeout_refused _ _ _ _ _ _ _ _ refused).2.1⟩

/-- The outgoing frame of the refused message stays, and a counter is used up. -/
theorem fullFragment_disturbs :
    ¬(RefusedForSize fullFragmentSent (encodeData 0 1 0 1 fullFragment) →
      Undisturbed twoHopSession fullFragmentSent.2.1) := by
  intro undisturbedIfRefused
  have undisturbed := undisturbedIfRefused refusedForSize_fullFragment
  have advanced : fullFragmentSent.2.1.noise.sendCounter ≠ twoHopSession.noise.sendCounter := by
    decide +kernel
  exact advanced undisturbed.sendCounter_eq

end UdpSession

end Ppose

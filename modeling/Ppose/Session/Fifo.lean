import Ppose.Reliability.InOrder
import Ppose.Session.Refinement

/-!
# Messages arrive in order

Nothing in the ARQ layer keeps messages in order: a message is delivered when its last
fragment is accepted, and fragments are accepted in any order.  Over sessions they do
arrive in order all the same.  A receiver opens datagrams in the order in which they were
sealed and never gets past a missing one, and a sender seals first transmissions in the
order of their numbers.  So the frames which come out of the Noise layer climb, whatever
the network does.

A datagram which is sealed and not sent leaves a gap in the frames, but nothing sealed
after it is ever opened.  Only the drops of `debugDropData` make a gap which the receiver
does not notice, since they skip the sealing.
-/

namespace Ppose

open Arq (Side LocalOp Endpoint Net IsFrame)

namespace UdpSession

variable {crypto : OnionCrypto} {cipher : NoiseCipher}

/-! ### What is sealed of the frames which are to be sent -/

/-- Sealing has sealed the first of the given frames, and all of them unless it has broken. -/
structure Attempts (frames : List Bytes) (after : UdpSession) (emissions : List Emission) :
    Prop where
  isPrefix : emissions.map Emission.plaintext <+: frames
  complete : (∀ emission ∈ emissions, emission.sent.isOk = true) →
    after.noise.sendCounter < maxNonce → emissions.map Emission.plaintext = frames

/-- A loop of sealing fails only if something was not sent or the counters are used up. -/
structure SealsInTurn (frames : List Bytes)
    (outcome : Except SessionError Unit × UdpSession × List Emission) : Prop where
  isPrefix : outcome.2.2.map Emission.plaintext <+: frames
  of_ok : outcome.1 = .ok () → outcome.2.2.map Emission.plaintext = frames
  broken : ∀ error, outcome.1 = .error error →
    (∀ emission ∈ outcome.2.2, emission.sent.isOk = true) →
      maxNonce ≤ outcome.2.1.noise.sendCounter

theorem SealsInTurn.attempts {frames : List Bytes}
    {outcome : Except SessionError Unit × UdpSession × List Emission}
    (turn : SealsInTurn frames outcome) : Attempts frames outcome.2.1 outcome.2.2 := by
  refine ⟨turn.isPrefix, ?_⟩
  intro allSent usable
  cases resultEq : outcome.1 with
  | error error => exact absurd usable (not_lt.mpr (turn.broken error resultEq allSent))
  | ok _ => exact turn.of_ok resultEq

theorem sealAndSend_inTurn (session : UdpSession) (env : SendEnv) (retransmission : Bool)
    {frame : Bytes} (small : frame.length + 16 ≤ maxDatagram) :
    SealsInTurn [frame] (sealAndSend crypto cipher session env retransmission frame) := by
  by_cases refused : maxDatagram < frame.length + 16 ∨ maxNonce ≤ session.noise.sendCounter
  · have exhausted : maxNonce ≤ session.noise.sendCounter := refused.resolve_left (by omega)
    simp only [sealAndSend, Noise.sealMessage, if_pos refused]
    refine ⟨List.nil_prefix, ?_, fun _ _ _ => exhausted⟩
    intro isOk
    cases isOk
  · simp only [sealAndSend, Noise.sealMessage, if_neg refused]
    refine ⟨List.prefix_rfl, fun _ => rfl, ?_⟩
    intro error failed allSent
    have wasSent := allSent _ (List.mem_singleton_self _)
    cases resultEq : sendInner crypto
        { session with
          noise := { session.noise with sendCounter := session.noise.sendCounter + 1 } }
        env .data (cipher.encrypt session.noise.sendKey session.noise.sendCounter frame) with
    | error error => simp [resultEq, Except.isOk, Except.toBool] at wasSent
    | ok sent => simp [resultEq, Except.map] at failed

theorem dropData_sealAndSend (crypto : OnionCrypto) (cipher : NoiseCipher) (session : UdpSession)
    (env : SendEnv) (retransmission : Bool) (frame : Bytes) :
    (sealAndSend crypto cipher session env retransmission frame).2.1.dropData =
      session.dropData := by
  simp only [sealAndSend]
  split <;> rfl

theorem dropData_sealAll (crypto : OnionCrypto) (cipher : NoiseCipher) (session : UdpSession)
    (noDrop : session.dropData = 0) (envs : ℕ → SendEnv) (retransmission : Bool)
    (frames : List Bytes) :
    (sealAll crypto cipher retransmission session envs frames).2.1.dropData = 0 := by
  induction frames generalizing session envs with
  | nil => exact noDrop
  | cons frame rest ih =>
      have firstDrop := (dropData_sealAndSend crypto cipher session (envs 0) retransmission
        frame).trans noDrop
      simp only [sealAll, sealData, noDrop, lt_irrefl, if_false]
      split
      · rename_i firstEq
        rw [firstEq] at firstDrop
        exact firstDrop
      · rename_i firstEq
        rw [firstEq] at firstDrop
        exact ih _ firstDrop _

/-- Without drops, the loop seals the frames in turn until it breaks. -/
theorem sealAll_inTurn (session : UdpSession) (noDrop : session.dropData = 0) (envs : ℕ → SendEnv)
    (retransmission : Bool) {frames : List Bytes}
    (small : ∀ frame ∈ frames, frame.length + 16 ≤ maxDatagram) :
    SealsInTurn frames (sealAll crypto cipher retransmission session envs frames) := by
  induction frames generalizing session envs with
  | nil =>
      refine ⟨List.prefix_rfl, fun _ => rfl, ?_⟩
      intro error failed
      cases failed
  | cons frame rest ih =>
      have first : SealsInTurn [frame]
          (sealAndSend crypto cipher session (envs 0) retransmission frame) :=
        sealAndSend_inTurn session (envs 0) retransmission (small frame List.mem_cons_self)
      have firstDrop := (dropData_sealAndSend crypto cipher session (envs 0) retransmission
        frame).trans noDrop
      simp only [sealAll, sealData, noDrop, lt_irrefl, if_false]
      cases firstEq : sealAndSend crypto cipher session (envs 0) retransmission frame with
      | mk result more =>
          rcases more with ⟨after, emissions⟩
          rw [firstEq] at first firstDrop
          cases result with
          | error error =>
              refine ⟨first.isPrefix.trans (List.prefix_append [frame] rest), ?_, ?_⟩
              · intro isOk
                cases isOk
              · intro _ _ allSent
                exact first.broken error rfl allSent
          | ok _ =>
              have restTurn := ih _ firstDrop (envs ∘ Nat.succ)
                fun other otherMem => small other (List.mem_cons_of_mem _ otherMem)
              have firstAll := first.of_ok rfl
              refine ⟨?_, ?_, ?_⟩
              · simp only [List.map_append, firstAll]
                exact (List.prefix_append_right_inj [frame]).mpr restTurn.isPrefix
              · intro restOk
                simp only [List.map_append, firstAll, restTurn.of_ok restOk]
                rfl
              · intro error restFailed allSent
                exact restTurn.broken error restFailed
                  fun emission mem => allSent emission (List.mem_append_right _ mem)

/-- The frames which a flush takes from the endpoint, if it gets to them. -/
def flushes (crypto : OnionCrypto) (cipher : NoiseCipher) (session : UdpSession)
    (newEnvs : ℕ → SendEnv) (now : Instant) : List Bytes :=
  match sealAll crypto cipher false { session with arq := (session.arq.takeNewSends now).2 }
      newEnvs (session.arq.takeNewSends now).1 with
  | (.error _, _, _) => (session.arq.takeNewSends now).1
  | (.ok (), after, _) =>
      match after.arq.takeRetransmits now with
      | (.error _, _) => (session.arq.takeNewSends now).1
      | (.ok due, _) => (session.arq.takeNewSends now).1 ++ due

theorem Flushed.dropData_eq {session : UdpSession} {newEnvs dueEnvs : ℕ → SendEnv} {now : Instant}
    {outcome : Except SessionError Unit × UdpSession × List Emission}
    (flushed : Flushed crypto cipher session newEnvs dueEnvs now outcome)
    (noDrop : session.dropData = 0) : outcome.2.1.dropData = 0 := by
  have newDrop : (sealAll crypto cipher false
      { session with arq := (session.arq.takeNewSends now).2 } newEnvs
      (session.arq.takeNewSends now).1).2.1.dropData = 0 :=
    dropData_sealAll crypto cipher { session with arq := (session.arq.takeNewSends now).2 } noDrop
      newEnvs false _
  cases flushed with
  | stopped news =>
      rw [news] at newDrop
      exact newDrop
  | gaveUp news takes =>
      rw [news] at newDrop
      exact newDrop
  | resent news takes again =>
      rename_i after final emissions more due arq result
      rw [news] at newDrop
      have restDrop :
          (sealAll crypto cipher true { after with arq } dueEnvs due).2.1.dropData = 0 :=
        dropData_sealAll crypto cipher { after with arq } newDrop dueEnvs true due
      rw [again] at restDrop
      exact restDrop

theorem Flushed.attempts {session : UdpSession} {newEnvs dueEnvs : ℕ → SendEnv} {now : Instant}
    {outcome : Except SessionError Unit × UdpSession × List Emission}
    (flushed : Flushed crypto cipher session newEnvs dueEnvs now outcome)
    (noDrop : session.dropData = 0)
    (small : ∀ frame ∈ session.flushes crypto cipher newEnvs now,
      frame.length + 16 ≤ maxDatagram) :
    Attempts (session.flushes crypto cipher newEnvs now) outcome.2.1 outcome.2.2 := by
  have newTurn : (∀ frame ∈ (session.arq.takeNewSends now).1, frame.length + 16 ≤ maxDatagram) →
      SealsInTurn _ (sealAll crypto cipher false
        { session with arq := (session.arq.takeNewSends now).2 } newEnvs
        (session.arq.takeNewSends now).1) :=
    fun newSmall => sealAll_inTurn { session with arq := (session.arq.takeNewSends now).2 } noDrop
      newEnvs false newSmall
  cases flushed with
  | stopped news =>
      simp only [flushes, news] at small ⊢
      rw [news] at newTurn
      exact (newTurn small).attempts
  | gaveUp news takes =>
      simp only [flushes, news, takes] at small ⊢
      rw [news] at newTurn
      have allNew := (newTurn small).of_ok rfl
      exact ⟨allNew ▸ List.prefix_rfl, fun _ _ => allNew⟩
  | resent news takes again =>
      rename_i after final emissions more due arq result
      simp only [flushes, news, takes] at small ⊢
      have newDrop := dropData_sealAll crypto cipher
        { session with arq := (session.arq.takeNewSends now).2 } noDrop newEnvs false
        (session.arq.takeNewSends now).1
      rw [news] at newTurn newDrop
      have allNew := (newTurn fun frame mem => small frame (List.mem_append_left _ mem)).of_ok rfl
      have dueTurn : SealsInTurn due (sealAll crypto cipher true { after with arq } dueEnvs due) :=
        sealAll_inTurn { after with arq } newDrop dueEnvs true
          fun frame mem => small frame (List.mem_append_right _ mem)
      rw [again] at dueTurn
      refine ⟨?_, ?_⟩
      · simp only [List.map_append, allNew]
        exact (List.prefix_append_right_inj _).mpr dueTurn.isPrefix
      · intro allSent usable
        simp only [List.map_append, allNew]
        rw [dueTurn.attempts.complete (fun emission mem =>
          allSent emission (List.mem_append_right _ mem)) usable]

/-- Only `debugDropData` asks for drops. -/
def Drops : SessionOp → Prop
  | .debugDropData _ => True
  | _ => False

theorem dropData_perform {session : UdpSession} (noDrop : session.dropData = 0) {op : SessionOp}
    (dropless : ¬Drops op) : (perform crypto cipher session op).1.dropData = 0 := by
  cases op with
  | handleIncoming env raw =>
      have noteEq : ∀ other, (session.notePeer other).dropData = 0 := by
        rintro (_ | other)
        · exact noDrop
        · exact noDrop
      simp only [perform, handleIncoming]
      split
      · exact noDrop
      · split
        · split
          · exact noteEq _
          · split
            · exact noteEq _
            · exact noteEq _
            · rw [dropData_sealAndSend]
              exact noteEq _
        · exact noteEq _
  | flush newEnvs dueEnvs now =>
      exact (flushed_flush crypto cipher session newEnvs dueEnvs now).dropData_eq noDrop
  | maybeCover env now random =>
      simp only [perform, maybeCover]
      split
      · exact noDrop
      · split_ifs <;> exact noDrop
  | enqueue message => exact noDrop
  | popDelivered => exact noDrop
  | debugDropData count => exact absurd trivial dropless
  | setRetxTimeout retx => exact noDrop
  | setCover mode now => exact noDrop
  | setOutboundOnion hops dest => cases hops <;> exact noDrop

/-- The acknowledgement which answers a frame is attempted. -/
theorem handleIncoming_attempts (crypto : OnionCrypto) {session : UdpSession} {env : SendEnv}
    {raw frame : Bytes}
    (opened : session.opens cipher (.handleIncoming env raw) = some frame) :
    ∃ acks, (∀ ack ∈ acks, Arq.IsAck ack) ∧
      Attempts acks (handleIncoming crypto cipher session env raw).2.1
        (handleIncoming crypto cipher session env raw).2.2 := by
  rcases opens_eq_some_iff.mp opened with ⟨body, other, decoded, read⟩
  have arqEq : (session.notePeer other).arq = session.arq := by cases other <;> rfl
  have openMessageEq := Noise.openMessage_of_ok read
  rw [← noise_notePeer session other] at openMessageEq
  simp only [handleIncoming, decoded, openMessageEq, arqEq]
  split
  · exact ⟨[], by simp, List.prefix_rfl, fun _ _ => rfl⟩
  · exact ⟨[], by simp, List.prefix_rfl, fun _ _ => rfl⟩
  · rename_i ack arq ingested
    have isAck := Arq.isAck_of_ingest ingested
    refine ⟨[ack], by simpa using isAck, (sealAndSend_inTurn _ env false ?_).attempts⟩
    rcases isAck with ⟨base, bits, rfl⟩
    rw [length_encodeAck]
    decide

end UdpSession

theorem Arq.IsFrame.length_le {messages : List Bytes} {number : ℕ} {frame : Bytes}
    (isFrame : IsFrame messages number frame) : frame.length ≤ dataHdrLen + maxPayload := by
  rcases isFrame with ⟨position, message, index, chunk, _, piece, _, rfl⟩
  have chunkLe : chunk.length ≤ maxPayload := by
    have chunkMem := List.mem_of_getElem? piece
    unfold Arq.piecesOf at chunkMem
    split_ifs at chunkMem with empty
    · rw [List.mem_singleton.mp chunkMem, empty]
      exact Nat.zero_le _
    · exact length_le_of_mem_chunksWithin chunkMem
  rw [Arq.frameOf, length_encodeData]
  exact Nat.add_le_add_left chunkLe dataHdrLen

theorem Arq.IsFrame.small {messages : List Bytes} {number : ℕ} {frame : Bytes}
    (isFrame : IsFrame messages number frame) : frame.length + 16 ≤ maxDatagram := by
  have := isFrame.length_le
  simp only [dataHdrLen, maxPayload, maxDatagram] at this ⊢
  omega

/-! ### One direction -/

/-- The frames are acknowledgements or climb through the fragments of the messages. -/
abbrev FramesClimb (messages : List Bytes) : ℕ → List Bytes → ℕ → Prop :=
  Climbs Arq.IsAck (IsFrame messages)

theorem FramesClimb.of_acks {messages acks : List Bytes} (level : ℕ)
    (areAcks : ∀ ack ∈ acks, Arq.IsAck ack) : FramesClimb messages level acks level := by
  induction acks with
  | nil => exact .nil level
  | cons ack rest ih =>
      exact .plain (areAcks ack List.mem_cons_self)
        (ih fun other otherMem => areAcks other (List.mem_cons_of_mem _ otherMem))

namespace Party

variable {crypto : OnionCrypto} {cipher : NoiseCipher} {party : Party}
  {endpoint receiver : Endpoint} {flow reverse : Flow}

/-- What a flush takes from the endpoint are the next numbers, then some of those before. -/
theorem flush_climbs (crypto : OnionCrypto) (cipher : NoiseCipher)
    (isMatch : party.Matches endpoint) (linked : Arq.Linked endpoint receiver flow)
    (few : endpoint.fragmentsEnqueued ≤ 2 ^ 32 - 1000000) (newEnvs dueEnvs : ℕ → SendEnv)
    (now : Instant) :
    FramesClimb endpoint.enqueued endpoint.sentCount
      (party.session.flushes crypto cipher newEnvs now)
      (party.drive crypto cipher endpoint (.flush newEnvs dueEnvs now)).sentCount := by
  rcases linked.takeNewSends_climbs now with ⟨inTurn, sentEq⟩
  have newClimbs : FramesClimb endpoint.enqueued endpoint.sentCount
      (endpoint.arq.takeNewSends now).1 (endpoint.takeNewSends now).sentCount := by
    rw [sentEq]
    exact Climbs.of_consecutive inTurn
  rcases linked.perform_sender (.takeNewSends now) few with ⟨next, _, linkedNext⟩
  have sameCount := linkedNext.sentCount_takeRetransmits now
  have sealing := UdpSession.sealAll_sublist crypto cipher
    { party.session with arq := (party.session.arq.takeNewSends now).2 } newEnvs false
    (party.session.arq.takeNewSends now).1
  simp only [drive, UdpSession.opens, UdpSession.localOps, UdpSession.flushes]
  cases newsEq : UdpSession.sealAll crypto cipher false
      { party.session with arq := (party.session.arq.takeNewSends now).2 } newEnvs
      (party.session.arq.takeNewSends now).1 with
  | mk result more =>
      rcases more with ⟨after, emissions⟩
      rw [newsEq] at sealing
      rw [← isMatch.arq_eq] at sealing ⊢
      cases result with
      | error error => exact newClimbs
      | ok _ =>
          simp only [List.foldl_cons, List.foldl_nil, Endpoint.perform]
          have arqEq : after.arq = (endpoint.takeNewSends now).arq := sealing.2
          rw [arqEq]
          change Climbs _ _ _ _ ((endpoint.takeNewSends now).takeRetransmits now).sentCount
          rw [show ((endpoint.takeNewSends now).takeRetransmits now).sentCount = _ from sameCount]
          split
          · exact newClimbs
          · rename_i takes
            apply newClimbs.append
            apply Climbs.of_repeated
            exact linkedNext.takeRetransmits_repeats takes

/-- A flush seals the frames it takes in turn. -/
theorem flush_attempts (isMatch : party.Matches endpoint)
    (linked : Arq.Linked endpoint receiver flow)
    (few : endpoint.fragmentsEnqueued ≤ 2 ^ 32 - 1000000) (noDrop : party.session.dropData = 0)
    (newEnvs dueEnvs : ℕ → SendEnv) (now : Instant) :
    UdpSession.Attempts (party.session.flushes crypto cipher newEnvs now)
      (UdpSession.perform crypto cipher party.session (.flush newEnvs dueEnvs now)).1
      (UdpSession.perform crypto cipher party.session (.flush newEnvs dueEnvs now)).2 := by
  have climbs := flush_climbs crypto cipher isMatch linked few newEnvs dueEnvs now
  have flushed := UdpSession.flushed_flush crypto cipher party.session newEnvs dueEnvs now
  apply flushed.attempts noDrop
  intro frame frameMem
  rcases climbs.plain_or_carries frameMem with ⟨base, bits, rfl⟩ | ⟨number, isFrame⟩
  · rw [length_encodeAck]
    decide
  · exact isFrame.small

/-- Every operation hands climbing frames to be sealed. -/
theorem exists_climbs (isMatch : party.Matches endpoint)
    (linked : Arq.Linked endpoint receiver flow) (linkedBack : Arq.Linked receiver endpoint reverse)
    (noDrop : party.session.dropData = 0) {op : SessionOp} (dropless : ¬UdpSession.Drops op)
    (few : endpoint.fragmentsEnqueued ≤ 2 ^ 32 - 1000000)
    (fewAfter : (party.drive crypto cipher endpoint op).fragmentsEnqueued ≤ 2 ^ 32 - 1000000)
    (genuine : ∀ frame, party.session.opens cipher op = some frame → frame ∈ receiver.emitted) :
    ∃ frames, FramesClimb endpoint.enqueued endpoint.sentCount frames
        (party.drive crypto cipher endpoint op).sentCount ∧
      UdpSession.Attempts frames (UdpSession.perform crypto cipher party.session op).1
        (UdpSession.perform crypto cipher party.session op).2 := by
  -- An operation which seals nothing, and of the endpoint only what is named.
  have quiet : ∀ sentCount, sentCount = endpoint.sentCount →
      (UdpSession.perform crypto cipher party.session op).2 = [] →
      ∃ frames, FramesClimb endpoint.enqueued endpoint.sentCount frames sentCount ∧
        UdpSession.Attempts frames (UdpSession.perform crypto cipher party.session op).1
          (UdpSession.perform crypto cipher party.session op).2 := by
    intro sentCount sameCount noSeal
    rw [sameCount, noSeal]
    exact ⟨[], .nil _, List.prefix_rfl, fun _ _ => rfl⟩
  cases op with
  | handleIncoming env raw =>
      cases opened : party.session.opens cipher (.handleIncoming env raw) with
      | none =>
          apply quiet
          · simp only [drive, opened, UdpSession.localOps, List.foldl_nil]
          · exact (UdpSession.handleIncoming_of_closed opened).2
      | some frame =>
          rcases UdpSession.handleIncoming_attempts crypto opened with
            ⟨acks, areAcks, attempts⟩
          refine ⟨acks, ?_, attempts⟩
          simp only [drive, opened]
          rw [linked.sentCount_receive linkedBack few (genuine frame opened)]
          exact .of_acks _ areAcks
  | flush newEnvs dueEnvs now =>
      exact ⟨_, flush_climbs crypto cipher isMatch linked few newEnvs dueEnvs now,
        flush_attempts isMatch linked few noDrop newEnvs dueEnvs now⟩
  | maybeCover env now random => exact quiet _ rfl rfl
  | enqueue message =>
      exact quiet _ (linked.sentCount_perform (.enqueue message) fewAfter (by simp)) rfl
  | popDelivered => exact quiet _ (linked.sentCount_perform .popDelivered fewAfter (by simp)) rfl
  | debugDropData count => exact absurd trivial dropless
  | setRetxTimeout retx =>
      exact quiet _ (linked.sentCount_perform (.setRetx retx) fewAfter (by simp)) rfl
  | setCover mode now => exact quiet _ rfl rfl
  | setOutboundOnion hops dest => exact quiet _ rfl rfl

/-! ### What is on its way -/

/-- The frames which the receiver is still to open, up to the first which was not sent. -/
def awaited (sender receiver : Party) : List Bytes :=
  ((sender.emissions.drop receiver.opened.length).takeWhile fun emission =>
    emission.sent.isOk).map Emission.plaintext

/-- Nothing has failed to be sent, and there are counters left. -/
structure Live (party : Party) : Prop where
  sent : ∀ emission ∈ party.emissions, emission.sent.isOk = true
  usable : party.session.noise.sendCounter < maxNonce

variable {sender receiving : Party} {first : ℕ}

theorem awaited_perform_of_live (follows : Follows cipher first sender receiving)
    (live : sender.Live) (op : SessionOp) :
    (sender.perform crypto cipher op).awaited receiving = sender.awaited receiving ++
      ((UdpSession.perform crypto cipher sender.session op).2.takeWhile fun emission =>
        emission.sent.isOk).map Emission.plaintext := by
  have allSent : ∀ emission ∈ sender.emissions.drop receiving.opened.length,
      emission.sent.isOk = true := fun emission mem => live.sent emission (List.mem_of_mem_drop mem)
  simp only [awaited, perform, List.drop_append_of_le_length follows.length_le]
  rw [List.takeWhile_append_of_pos allSent, List.takeWhile_eq_self_iff.mpr allSent, List.map_append]

theorem eq_nil_of_exhausted {key : Block 32} {counter final : ℕ} {emissions : List Emission}
    (emits : Emits cipher key counter emissions final) (exhausted : maxNonce ≤ counter) :
    emissions = [] ∧ final = counter := by
  cases emissions with
  | nil => exact ⟨rfl, emits⟩
  | cons emission rest =>
      rcases emits with ⟨counterEq, isSealed, _⟩
      have := isSealed.counter_lt
      omega

/-- Once something has failed, nothing more gets on its way. -/
theorem awaited_perform_of_dead (crypto : OnionCrypto)
    (follows : Follows cipher first sender receiving) (dead : ¬sender.Live) (op : SessionOp) :
    (sender.perform crypto cipher op).awaited receiving = sender.awaited receiving ∧
      ¬(sender.perform crypto cipher op).Live := by
  have advances := UdpSession.perform_advances crypto cipher sender.session op
  by_cases allSent : ∀ emission ∈ sender.emissions, emission.sent.isOk = true
  · have exhausted : maxNonce ≤ sender.session.noise.sendCounter := by
      by_contra usable
      exact dead ⟨allSent, not_le.mp usable⟩
    rcases eq_nil_of_exhausted advances.emits exhausted with ⟨noSeal, sameCounter⟩
    refine ⟨by simp only [awaited, perform, noSeal, List.append_nil], ?_⟩
    intro live
    have := live.usable
    simp only [perform, sameCounter] at this
    omega
  · push Not at allSent
    rcases allSent with ⟨failed, failedMem, notSent⟩
    refine ⟨?_, fun live => notSent (live.sent failed (List.mem_append_left _ failedMem))⟩
    have ahead : failed ∈ sender.emissions.drop receiving.opened.length := by
      rw [← List.take_append_drop receiving.opened.length sender.emissions] at failedMem
      rcases List.mem_append.mp failedMem with opened | ahead
      · exact absurd (follows.opened_sent failed opened) notSent
      · exact ahead
    have stops : ((sender.emissions.drop receiving.opened.length).takeWhile fun emission =>
        emission.sent.isOk).length ≠ (sender.emissions.drop receiving.opened.length).length := by
      intro same
      have whole := (List.takeWhile_prefix fun emission : Emission =>
        emission.sent.isOk).eq_of_length same
      exact notSent (List.takeWhile_eq_self_iff.mp whole failed ahead)
    simp only [awaited, perform, List.drop_append_of_le_length follows.length_le,
      List.takeWhile_append, if_neg stops]

/-- What a receiver opens is the first of the frames on their way. -/
theorem awaited_of_opened (crypto : OnionCrypto)
    (follows : Follows cipher first sender receiving) (lawful : cipher.Lawful) {op : SessionOp}
    {frame : Bytes}
    (opened : receiving.session.opens cipher op = some frame)
    (genuine : ∃ emission ∈ sender.emissions, emission.sent.isOk = true ∧
      (receiving.session.noise.openMessage cipher emission.body).1 = .ok frame) :
    sender.awaited receiving =
      frame :: sender.awaited (receiving.perform crypto cipher op) := by
  rcases genuine with ⟨emission, emissionMem, wasSent, read⟩
  rcases follows.emission_of_opened lawful emissionMem read with ⟨present, plaintextEq⟩
  rcases List.getElem?_eq_some_iff.mp present with ⟨inside, getEq⟩
  simp only [awaited, perform, opened, Option.toList_some, List.length_append,
    List.length_singleton]
  rw [List.drop_eq_getElem_cons inside, getEq]
  simp only [List.takeWhile_cons, wasSent, if_true, List.map_cons, plaintextEq]

/-! ### Both ends together -/

/--
The receiver has accepted the numbers below a level and delivered in order, and what is
on its way climbs from there to what the sender has sent, if nothing has failed.
-/
structure Orderly (sender receiving : Party) (source target : Endpoint) (level final : ℕ) :
    Prop where
  inOrder : Arq.ReceivesInOrder sender.enqueued target level
  climbs : FramesClimb sender.enqueued level (sender.awaited receiving) final
  live : sender.Live → final = source.sentCount

variable {source target : Endpoint} {level final : ℕ}

theorem Orderly.level_le (orderly : Orderly sender receiving source target level final)
    (isMatch : sender.Matches source) (linked : Arq.Linked source target flow) :
    level ≤ Arq.totalFragments sender.enqueued := by
  by_contra beyond
  have below : Arq.totalFragments sender.enqueued ∈ Finset.range level :=
    Finset.mem_range.mpr (not_le.mp beyond)
  rcases (orderly.inOrder.receives.accepted_iff _).mp below with ⟨seq, seqMem, seqEq⟩
  have isAccepted := (linked.receives.accepted_iff _).mpr ⟨seq, seqMem, seqEq⟩
  have wasSent := linked.valid.accepted_sent _ isAccepted
  have := linked.valid.sent_le_queued
  have queuedEq : flow.queued = Arq.totalFragments source.enqueued := linked.sends.queued_eq
  rw [isMatch.enqueued_eq] at queuedEq
  omega

theorem enqueued_perform (crypto : OnionCrypto) (cipher : NoiseCipher) (party : Party)
    (op : SessionOp) :
    (party.perform crypto cipher op).enqueued = party.enqueued ∨
      ∃ message, (party.perform crypto cipher op).enqueued = party.enqueued ++ [message] := by
  simp only [perform]
  cases party.session.queues op with
  | none => exact Or.inl (List.append_nil _)
  | some message => exact Or.inr ⟨message, rfl⟩

theorem Orderly.perform_sender (orderly : Orderly sender receiving source target level final)
    (isMatch : sender.Matches source) (linked : Arq.Linked source target flow)
    (linkedBack : Arq.Linked target source reverse)
    (follows : Follows cipher first sender receiving) (noDrop : sender.session.dropData = 0)
    {op : SessionOp} (dropless : ¬UdpSession.Drops op)
    (few : source.fragmentsEnqueued ≤ 2 ^ 32 - 1000000)
    (fewAfter : (sender.drive crypto cipher source op).fragmentsEnqueued ≤ 2 ^ 32 - 1000000)
    (genuine : ∀ frame, sender.session.opens cipher op = some frame → frame ∈ target.emitted) :
    ∃ reached, Orderly (sender.perform crypto cipher op) receiving
      (sender.drive crypto cipher source op) target level reached := by
  have grown : Arq.ReceivesInOrder (sender.perform crypto cipher op).enqueued target level ∧
      ∀ number frame, IsFrame sender.enqueued number frame →
        IsFrame (sender.perform crypto cipher op).enqueued number frame := by
    rcases enqueued_perform crypto cipher sender op with same | ⟨message, added⟩
    · rw [same]
      exact ⟨orderly.inOrder, fun _ _ isFrame => isFrame⟩
    · rw [added]
      exact ⟨orderly.inOrder.append (orderly.level_le isMatch linked) message,
        fun _ _ isFrame => isFrame.append [message]⟩
  have climbs := orderly.climbs.mono grown.2
  by_cases live : sender.Live
  · rcases exists_climbs isMatch linked linkedBack noDrop dropless few fewAfter genuine with
      ⟨frames, framesClimb, attempts⟩
    rw [orderly.live live] at climbs
    rw [isMatch.enqueued_eq] at framesClimb
    have sentPrefix : ((UdpSession.perform crypto cipher sender.session op).2.takeWhile
        fun emission => emission.sent.isOk).map Emission.plaintext <+: frames :=
      ((List.takeWhile_prefix _).map _).trans attempts.isPrefix
    by_cases liveAfter : (sender.perform crypto cipher op).Live
    · have allSent : ∀ emission ∈ (UdpSession.perform crypto cipher sender.session op).2,
          emission.sent.isOk = true :=
        fun emission mem => liveAfter.sent emission (List.mem_append_right _ mem)
      refine ⟨_, grown.1, ?_, fun _ => rfl⟩
      rw [awaited_perform_of_live follows live, List.takeWhile_eq_self_iff.mpr allSent,
        attempts.complete allSent liveAfter.usable]
      exact climbs.append (framesClimb.mono grown.2)
    · rcases framesClimb.exists_of_prefix sentPrefix with ⟨reached, sentClimbs⟩
      refine ⟨reached, grown.1, ?_, fun isLive => absurd isLive liveAfter⟩
      rw [awaited_perform_of_live follows live]
      exact climbs.append (sentClimbs.mono grown.2)
  · rcases awaited_perform_of_dead crypto follows live op with ⟨same, deadAfter⟩
    refine ⟨final, grown.1, ?_, fun isLive => absurd isLive deadAfter⟩
    rw [same]
    exact climbs

theorem Orderly.perform_receiver (orderly : Orderly sender receiving source target level final)
    (isMatch : sender.Matches source) (linked : Arq.Linked source target flow)
    (follows : Follows cipher first sender receiving) (lawful : cipher.Lawful)
    (few : source.fragmentsEnqueued ≤ 2 ^ 32 - 1000000) {op : SessionOp}
    (genuine : ∀ frame, receiving.session.opens cipher op = some frame →
      ∃ emission ∈ sender.emissions, emission.sent.isOk = true ∧
        (receiving.session.noise.openMessage cipher emission.body).1 = .ok frame) :
    ∃ reached, Orderly sender (receiving.perform crypto cipher op) source
      (receiving.drive crypto cipher target op) reached final := by
  cases opened : receiving.session.opens cipher op with
  | none =>
      have sameAwaited : sender.awaited (receiving.perform crypto cipher op) =
          sender.awaited receiving := by
        simp only [awaited, perform, opened, Option.toList_none, List.append_nil]
      refine ⟨level, ?_, ?_, orderly.live⟩
      · simp only [drive, opened]
        exact orderly.inOrder.congr (receiveState_foldl _ _)
      · rw [sameAwaited]
        exact orderly.climbs
  | some frame =>
      have climbs := orderly.climbs
      rw [awaited_of_opened crypto follows lawful opened (genuine frame opened)] at climbs
      simp only [drive, opened]
      have short := linked.sends.short
      rw [Endpoint.fragmentsEnqueued] at few
      rw [isMatch.enqueued_eq] at short few
      cases climbs with
      | plain isAck rest =>
          rcases isAck with ⟨base, bits, rfl⟩
          exact ⟨level, orderly.inOrder.receive_ack base bits, rest, orderly.live⟩
      | number isFrame notAhead rest =>
          exact ⟨_, orderly.inOrder.receive_frame short few isFrame notAhead
            (orderly.level_le isMatch linked), rest, orderly.live⟩

end Party

/-! ### Runs -/

namespace Talk

variable {crypto : OnionCrypto} {cipher : NoiseCipher} {talk : Talk} {net : Net}

/-- Both directions are in order. -/
structure InOrder (talk : Talk) (net : Net) : Prop where
  tracked : talk.Tracked net
  noDrop : ∀ side, (talk side).session.dropData = 0
  orderly : ∀ side, ∃ level final, Party.Orderly (talk side) (talk side.peer) (net.endpoint side)
    (net.endpoint side.peer) level final

theorem Fresh.inOrder (fresh : talk.Fresh) : talk.InOrder Net.initial where
  tracked := fresh.tracked
  noDrop := fresh.dropData_eq
  orderly := by
    intro side
    have initialEq : ∀ target, Net.initial.endpoint target = Endpoint.initial := by
      intro target
      cases target <;> rfl
    have enqueuedEq : (talk side).enqueued = [] := by rw [fresh.history_eq side]; rfl
    have emissionsEq : (talk side).emissions = [] := by rw [fresh.history_eq side]; rfl
    refine ⟨0, 0, ?_, ?_, ?_⟩
    · rw [enqueuedEq, initialEq]
      exact .initial
    · simp only [Party.awaited, emissionsEq, List.drop_nil, List.takeWhile_nil, List.map_nil]
      exact .nil 0
    · intro _
      rw [initialEq]
      rfl

theorem InOrder.step {first : Side → ℕ} (inOrder : talk.InOrder net)
    (inStep : talk.InStep cipher first) (lawful : cipher.Lawful) {event : Side × SessionOp}
    (genuine : talk.Genuine cipher event) (dropless : ¬UdpSession.Drops event.2)
    (bounded : talk.Bounded) (boundedAfter : (talk.step crypto cipher event).Bounded) :
    (talk.step crypto cipher event).InOrder (talk.drive crypto cipher net event) := by
  rcases inOrder with ⟨tracked, noDrop, orderly⟩
  rcases tracked.linked bounded with ⟨flows, linked⟩
  have trackedAfter := tracked.step crypto inStep lawful genuine
  rcases event with ⟨side, op⟩
  have few := tracked.isMatch.bounded bounded
  have fewAfter := trackedAfter.isMatch.bounded boundedAfter side
  rw [drive, Net.endpoint_set_self] at fewAfter
  have linkedBack := linked side.peer
  have followsBack := inStep side.peer
  have orderlyBack := orderly side.peer
  rw [Side.peer_peer] at linkedBack followsBack orderlyBack
  refine ⟨trackedAfter, ?_, ?_⟩
  · intro target
    rcases side.eq_or_eq_peer target with rfl | rfl
    · rw [step_self]
      exact UdpSession.dropData_perform (noDrop target) dropless
    · rw [step_peer]
      exact noDrop side.peer
  · intro target
    rcases side.eq_or_eq_peer target with rfl | rfl
    · rw [step_self, step_peer, drive, Net.endpoint_set_self, Net.endpoint_set_peer]
      rcases orderly target with ⟨level, final, before⟩
      rcases before.perform_sender (tracked.isMatch target) (linked target) linkedBack
        (inStep target) (noDrop target) dropless (few target) fewAfter
        (fun frame opened => tracked.isMatch.mem_emitted inStep lawful genuine opened) with
        ⟨reached, after⟩
      exact ⟨level, reached, after⟩
    · rw [step_peer, drive, Net.endpoint_set_peer, Side.peer_peer, step_self,
        Net.endpoint_set_self]
      rcases orderlyBack with ⟨level, final, before⟩
      rcases before.perform_receiver (tracked.isMatch side.peer) linkedBack followsBack lawful
        (few side.peer) (fun frame opened => genuine.exists_emission opened) with
        ⟨reached, after⟩
      exact ⟨reached, final, after⟩

theorem enqueued_step (talk : Talk) (event : Side × SessionOp) (side : Side) :
    (talk side).enqueued <+: (talk.step crypto cipher event side).enqueued := by
  rcases event with ⟨actor, op⟩
  rcases actor.eq_or_eq_peer side with rfl | rfl
  · rw [step_self]
    exact List.prefix_append _ _
  · rw [step_peer]

theorem enqueued_steps (crypto : OnionCrypto) (cipher : NoiseCipher) (talk : Talk)
    (events : List (Side × SessionOp)) (side : Side) :
    (talk side).enqueued <+: (talk.steps crypto cipher events side).enqueued := by
  induction events generalizing talk with
  | nil => exact List.prefix_rfl
  | cons event rest ih => exact (enqueued_step talk event side).trans (ih _)

theorem Bounded.of_steps (events : List (Side × SessionOp))
    (bounded : (talk.steps crypto cipher events).Bounded) : talk.Bounded := by
  intro side
  rcases enqueued_steps crypto cipher talk events side with ⟨added, enqueuedEq⟩
  have := bounded side
  rw [← enqueuedEq, Arq.totalFragments_append] at this
  omega

theorem InOrder.steps {first : Side → ℕ} (inOrder : talk.InOrder net)
    (inStep : talk.InStep cipher first) (lawful : cipher.Lawful)
    {events : List (Side × SessionOp)} (unforged : talk.Unforged crypto cipher events)
    (dropless : ∀ event ∈ events, ¬UdpSession.Drops event.2)
    (bounded : (talk.steps crypto cipher events).Bounded) :
    ∃ after, (talk.steps crypto cipher events).InOrder after := by
  induction events generalizing talk net with
  | nil => exact ⟨net, inOrder⟩
  | cons event rest ih =>
      have boundedNow : talk.Bounded := Bounded.of_steps (event :: rest) bounded
      have boundedNext : (talk.step crypto cipher event).Bounded := Bounded.of_steps rest bounded
      have next := inOrder.step inStep lawful unforged.1 (dropless event List.mem_cons_self)
        boundedNow boundedNext
      exact ih next (inStep.step lawful unforged.1) unforged.2
        (fun other otherMem => dropless other (List.mem_cons_of_mem _ otherMem)) bounded

theorem InOrder.delivered_prefix (inOrder : talk.InOrder net) (side : Side) :
    talk.delivered side.peer <+: (talk side).enqueued := by
  rcases inOrder.orderly side with ⟨level, final, ordered⟩
  rw [← inOrder.tracked.isMatch.pushed_eq]
  exact ordered.inOrder.pushed_prefix

theorem InOrder.delivered_eq (inOrder : talk.InOrder net) (bounded : talk.Bounded) {side : Side}
    (allAcked : (talk side).session.arq.unackedLen = 0) :
    talk.delivered side.peer = (talk side).enqueued := by
  rcases inOrder.tracked.linked bounded with ⟨flows, linked⟩
  have isMatch := inOrder.tracked.isMatch
  rw [← (isMatch side).arq_eq] at allAcked
  have perm := (linked side).receives.reassembly.pushed_perm
    fun number wasQueued => (linked side).accepted_of_allAcked allAcked wasQueued
  rw [isMatch.pushed_eq, (isMatch side).enqueued_eq] at perm
  exact (inOrder.delivered_prefix side).eq_of_length perm.length_eq

/--
In every run over a hostile network which forges nothing, and in which no drops are asked
for, the messages delivered at one side are the first of those queued at the other, in the
same order, whatever was lost or failed; and all of them if nothing is left to be
acknowledged.  The receive window never holds a number out of order.
-/
theorem delivered_in_order (crypto : OnionCrypto) {cipher : NoiseCipher} (lawful : cipher.Lawful)
    {talk : Talk} (fresh : talk.Fresh) (events : List (Side × SessionOp))
    (unforged : talk.Unforged crypto cipher events)
    (dropless : ∀ event ∈ events, ¬UdpSession.Drops event.2)
    (bounded : (talk.steps crypto cipher events).Bounded) (side : Side) :
    (talk.steps crypto cipher events).delivered side.peer <+:
        (talk.steps crypto cipher events side).enqueued ∧
      ((talk.steps crypto cipher events side).session.arq.unackedLen = 0 →
        (talk.steps crypto cipher events).delivered side.peer =
          (talk.steps crypto cipher events side).enqueued) ∧
      (talk.steps crypto cipher events side.peer).session.arq.recvBits = 0 := by
  rcases fresh.inOrder.steps fresh.inStep lawful unforged dropless bounded with ⟨net, inOrder⟩
  refine ⟨inOrder.delivered_prefix side, inOrder.delivered_eq bounded, ?_⟩
  rcases inOrder.orderly side with ⟨level, final, ordered⟩
  rw [← (inOrder.tracked.isMatch side.peer).arq_eq]
  exact ordered.inOrder.receives.window.bits_eq_zero

/-- Two messages, the second of which arrives first, and then both. -/
def overtaken : List (Side × SessionOp) :=
  let sent := [(Side.left, SessionOp.enqueue [7])] ++ sampleSend [8]
  let wire := wireAt (sampleTalk.steps Onion.sampleCrypto tagCipher sent .left)
  sent ++ [(.right, .handleIncoming UdpSession.sampleEnv (wire 1)),
    (.right, .handleIncoming UdpSession.sampleEnv (wire 0)),
    (.right, .handleIncoming UdpSession.sampleEnv (wire 1))]

theorem delivered_in_order_overtaken :
    (sampleTalk.steps Onion.sampleCrypto tagCipher overtaken).delivered .right = [[7], [8]] ∧
    (sampleTalk.steps Onion.sampleCrypto tagCipher overtaken).delivered .right <+:
      (sampleTalk.steps Onion.sampleCrypto tagCipher overtaken .left).enqueued := by
  have unforged : sampleTalk.Unforged Onion.sampleCrypto tagCipher overtaken := by
    decide +kernel
  have bounded : (sampleTalk.steps Onion.sampleCrypto tagCipher overtaken).Bounded := by
    intro side
    cases side <;> decide +kernel
  have dropless : ∀ event ∈ overtaken, ¬UdpSession.Drops event.2 := by
    simp [overtaken, sampleSend, UdpSession.Drops]
  exact ⟨by decide +kernel, (delivered_in_order Onion.sampleCrypto tagCipher_lawful
    sampleTalk_fresh overtaken unforged dropless bounded .left).1⟩

end Talk

end Ppose

import Ppose.Session.Conversation

/-!
# A direction which has failed once

A datagram which was sealed and could not be sent, be it that the socket refused it or that
it does not fit on the path, has used up its counter.  The peer waits for that counter and
opens nothing which was sealed later.  So no fragment queued after the failure is ever
accepted, and since `wait_acked` waits for all that is queued, no later `send` of this
side ever returns without an error, whatever the network does and however often the
application tries (`send_fails_after_failure`).
-/

namespace Ppose

open Arq (Side)

namespace Talk

variable {crypto : OnionCrypto} {cipher : NoiseCipher} {talk : Talk}

theorem emissions_steps (crypto : OnionCrypto) (cipher : NoiseCipher) (talk : Talk)
    (events : List (Side × SessionOp)) (side : Side) :
    (talk side).emissions <+: (talk.steps crypto cipher events side).emissions := by
  induction events generalizing talk with
  | nil => exact List.prefix_rfl
  | cons event rest ih =>
      refine List.IsPrefix.trans ?_ (ih _)
      rcases event with ⟨actor, op⟩
      rcases actor.eq_or_eq_peer side with rfl | rfl
      · rw [step_self]
        exact List.prefix_append _ _
      · rw [step_peer]

/-- A peer opens only what was sealed before the first failure. -/
theorem opened_before_failure {first : Side → ℕ} {later : List (Side × SessionOp)} {side : Side}
    (inStep : (talk.steps crypto cipher later).InStep cipher first)
    (failed : ∃ emission ∈ (talk side).emissions, emission.sent.isOk = false) {frame : Bytes}
    (opened : frame ∈ (talk.steps crypto cipher later side.peer).opened) :
    ∃ emission ∈ (talk side).emissions, emission.plaintext = frame := by
  have follows := inStep side
  rcases emissions_steps crypto cipher talk later side with ⟨more, emissionsEq⟩
  rcases failed with ⟨failure, failureMem, notSent⟩
  rw [follows.opened_eq] at opened
  rcases List.mem_map.mp opened with ⟨emission, emissionMem, plaintextEq⟩
  have opensFew : (talk.steps crypto cipher later side.peer).opened.length ≤
      (talk side).emissions.length := by
    by_contra opensAll
    have openedFailure : failure ∈ (talk.steps crypto cipher later side).emissions.take
        (talk.steps crypto cipher later side.peer).opened.length := by
      rw [← emissionsEq, List.take_append]
      apply List.mem_append_left
      rwa [List.take_of_length_le (by omega)]
    have wasSent := follows.opened_sent failure openedFailure
    rw [notSent] at wasSent
    cases wasSent
  rw [← emissionsEq, List.take_append_of_le_length opensFew] at emissionMem
  exact ⟨emission, List.mem_of_mem_take emissionMem, plaintextEq⟩

/-- What is queued after a failure is never acknowledged. -/
theorem unackedLen_after_failure (lawful : cipher.Lawful) (fresh : talk.Fresh)
    {before later : List (Side × SessionOp)} (side : Side)
    (unforged : talk.Unforged crypto cipher (before ++ later))
    (bounded : (talk.steps crypto cipher (before ++ later)).Bounded)
    (failed : ∃ emission ∈ (talk.steps crypto cipher before side).emissions,
      emission.sent.isOk = false)
    (queued : (talk.steps crypto cipher before side).enqueued ≠
      (talk.steps crypto cipher (before ++ later) side).enqueued) :
    (talk.steps crypto cipher (before ++ later) side).session.arq.unackedLen ≠ 0 := by
  intro allAcked
  rcases unforged_append_iff.mp unforged with ⟨beforeUnforged, laterUnforged⟩
  have inStep := fresh.inStep.steps lawful unforged
  rcases fresh.tracked.steps fresh.inStep lawful beforeUnforged with ⟨net, tracked⟩
  rcases fresh.tracked.steps fresh.inStep lawful unforged with ⟨netAfter, trackedAfter⟩
  rw [steps_append] at bounded queued allAcked inStep trackedAfter
  have boundedBefore := Bounded.of_steps later bounded
  rcases tracked.linked boundedBefore with ⟨flows, linked⟩
  rcases trackedAfter.linked bounded with ⟨flowsAfter, linkedAfter⟩
  -- The first fragment queued after the failure.
  have fewer : Arq.totalFragments (talk.steps crypto cipher before side).enqueued <
      Arq.totalFragments (netAfter.endpoint side).enqueued := by
    rw [(trackedAfter.isMatch side).enqueued_eq]
    rcases enqueued_steps crypto cipher (talk.steps crypto cipher before) later side with
      ⟨added, enqueuedEq⟩
    cases added with
    | nil => exact absurd (by simpa using enqueuedEq) queued
    | cons message rest =>
        have pos := Arq.fragCount_pos message
        rw [← enqueuedEq, Arq.totalFragments_append]
        simp only [Arq.totalFragments, List.map_cons, List.sum_cons]
        omega
  rw [← (trackedAfter.isMatch side).arq_eq] at allAcked
  have accepted := (linkedAfter side).accepted_of_allAcked allAcked fewer
  rcases ((linkedAfter side).receives.accepted_iff _).mp accepted with ⟨seq, seqMem, seqEq⟩
  rcases trackedAfter.heard side.peer seq seqMem with
    ⟨frame, frameMem, fragId, index, total, payload, decoded⟩
  -- It was sealed before the failure, and so carries a number queued before.
  rcases opened_before_failure inStep failed frameMem with ⟨emission, emissionMem, rfl⟩
  have emitted := (tracked.isMatch side).emitted emission emissionMem
  rcases (linked side).sends.number_of_data emitted decoded with ⟨number, wasSent, rfl⟩
  have sentLe := (linked side).valid.sent_le_queued
  have queuedEq : (flows side).queued = Arq.totalFragments (net.endpoint side).enqueued :=
    (linked side).sends.queued_eq
  have few := boundedBefore side
  rw [(tracked.isMatch side).enqueued_eq] at queuedEq
  rw [UInt32.toNat_ofNat'] at seqEq
  omega

end Talk

/-! ### The calls -/

namespace Caller

variable {crypto : OnionCrypto} {cipher : NoiseCipher}

/-- The side is in the middle of a `send`. -/
def Sending (caller : Caller) : Prop :=
  ∃ message deadline, caller.phase = .looping (.send message) deadline ∨
    caller.phase = .waiting (.send message) deadline

/-- A message was queued beyond the given number of them, if one is being sent. -/
structure Beyond (count : ℕ) (caller : Caller) : Prop where
  count_le : count ≤ caller.party.enqueued.length
  sending : caller.Sending → count < caller.party.enqueued.length

theorem length_enqueued_foldl (party : Party) (ops : List SessionOp) :
    party.enqueued.length ≤ (ops.foldl (Party.perform crypto cipher) party).enqueued.length := by
  induction ops generalizing party with
  | nil => exact le_rfl
  | cons op rest ih =>
      refine le_trans ?_ (ih _)
      simp [Party.perform]

/-- A `send` goes on from one round to the next, or begins with a message queued. -/
theorem sending_of_step {caller : Caller} {event : CallEvent}
    (sending : (caller.step crypto cipher event).Sending) :
    caller.Sending ∨
      caller.party.enqueued.length < (caller.step crypto cipher event).party.enqueued.length := by
  have nextSending : ∃ message deadline,
      (caller.next crypto cipher event).1 = .looping (.send message) deadline ∨
        (caller.next crypto cipher event).1 = .waiting (.send message) deadline := by
    rcases sending with ⟨message, deadline, phaseEq⟩
    refine ⟨message, deadline, ?_⟩
    rcases caller.phase_step event with same | idle
    · rwa [same] at phaseEq
    · simp [idle] at phaseEq
  cases phaseEq : caller.phase with
  | idle =>
      right
      cases event with
      | send message timeout now =>
          cases queuedEq : caller.party.session.arq.enqueue message with
          | mk result arq =>
              cases result with
              | error error =>
                  simp [next, phaseEq, UdpSession.enqueue, queuedEq, Except.mapError]
                    at nextSending
              | ok _ =>
                  rw [party_step]
                  simp [ops, phaseEq, Party.perform, UdpSession.queues, queuedEq]
      | _ => simp [next, phaseEq] at nextSending
  | looping call deadline =>
      cases call with
      | send message => exact Or.inl ⟨message, deadline, Or.inl phaseEq⟩
      | recv => cases event <;> simp [next, phaseEq] at nextSending
  | waiting call deadline =>
      cases call with
      | send message => exact Or.inl ⟨message, deadline, Or.inr phaseEq⟩
      | recv =>
          cases event with
          | arrive env reception =>
              simp only [next, phaseEq] at nextSending
              split at nextSending <;> simp at nextSending
          | _ => simp [next, phaseEq] at nextSending

theorem Beyond.step {count : ℕ} {caller : Caller} (beyond : caller.Beyond count)
    (event : CallEvent) : (caller.step crypto cipher event).Beyond count := by
  have grows : caller.party.enqueued.length ≤
      (caller.step crypto cipher event).party.enqueued.length := by
    rw [party_step]
    exact length_enqueued_foldl _ _
  refine ⟨beyond.count_le.trans grows, ?_⟩
  intro sending
  rcases sending_of_step sending with wasSending | added
  · exact (beyond.sending wasSending).trans_le grows
  · exact beyond.count_le.trans_lt added

end Caller

namespace Conversation

variable {crypto : OnionCrypto} {cipher : NoiseCipher} {conversation : Conversation}

theorem beyond_steps (crypto : OnionCrypto) (cipher : NoiseCipher) {count : ℕ} {side : Side}
    (beyond : (conversation side).Beyond count)
    (events : List (Side × CallEvent)) :
    (conversation.steps crypto cipher events side).Beyond count := by
  induction events generalizing conversation with
  | nil => exact beyond
  | cons event rest ih =>
      apply ih
      by_cases same : side = event.1
      · subst same
        simp only [step, Function.update_self]
        exact beyond.step event.2
      · simp only [step, Function.update_of_ne same]
        exact beyond

/--
Once a sealed datagram of a side could not be sent, and the call which met the failure is
over, no later `send` of that side returns without an error: whatever the network does
except forging, however long it waits and however often it is called.
-/
theorem send_fails_after_failure (crypto : OnionCrypto) {cipher : NoiseCipher}
    (lawful : cipher.Lawful) {conversation : Conversation} (fresh : conversation.Fresh)
    (before later : List (Side × CallEvent)) (side : Side) (event : CallEvent)
    (unforged : conversation.talk.Unforged crypto cipher
      (conversation.sessionEvents crypto cipher (before ++ later ++ [(side, event)])))
    (bounded : (conversation.steps crypto cipher (before ++ later ++ [(side, event)])).talk.Bounded)
    (failed : ∃ emission ∈ (conversation.steps crypto cipher before side).party.emissions,
      emission.sent.isOk = false)
    (idle : (conversation.steps crypto cipher before side).phase = .idle) (message : Bytes) :
    ((conversation.steps crypto cipher (before ++ later) side).next crypto cipher event).2 ≠
      some (.sent message (.ok ())) := by
  intro finished
  have beyondBefore : (conversation.steps crypto cipher before side).Beyond
      (conversation.steps crypto cipher before side).party.enqueued.length := by
    refine ⟨le_rfl, ?_⟩
    rintro ⟨_, _, sending⟩
    simp [idle] at sending
  have beyond := beyond_steps crypto cipher beyondBefore later
  rw [← steps_append] at beyond
  rcases Caller.exists_turn_of_sent finished with ⟨deadline, turn, phaseEq, _, _⟩
  have queuedMore := beyond.sending ⟨message, deadline, Or.inl phaseEq⟩
  have stepEq : conversation.steps crypto cipher (before ++ later ++ [(side, event)]) side =
      (conversation.steps crypto cipher (before ++ later) side).step crypto cipher event := by
    rw [steps_append]
    simp only [steps, List.foldl_cons, List.foldl_nil, step, Function.update_self]
  have allAcked := Caller.unackedLen_of_sent finished
  have grows : (conversation.steps crypto cipher (before ++ later) side).party.enqueued.length ≤
      (conversation.steps crypto cipher (before ++ later ++ [(side, event)])
        side).party.enqueued.length := by
    rw [stepEq, Caller.party_step]
    exact Caller.length_enqueued_foldl _ _
  rw [← stepEq] at allAcked
  have talkEq : (conversation.steps crypto cipher (before ++ later ++ [(side, event)])).talk =
      conversation.talk.steps crypto cipher (conversation.sessionEvents crypto cipher before ++
        (conversation.steps crypto cipher before).sessionEvents crypto cipher
          (later ++ [(side, event)])) := by
    rw [talk_steps, List.append_assoc, sessionEvents_append]
  rw [List.append_assoc, sessionEvents_append] at unforged
  rw [talkEq] at bounded
  refine Talk.unackedLen_after_failure lawful fresh.talk_fresh side unforged bounded ?_ ?_ ?_
  · rw [← talk_steps]
    exact failed
  · rw [← talk_steps, ← talkEq]
    intro same
    have sameLength : (conversation.steps crypto cipher before side).party.enqueued.length =
      (conversation.steps crypto cipher (before ++ later ++ [(side, event)])
        side).party.enqueued.length := congrArg List.length same
    omega
  · rw [← talkEq]
    exact allAcked

/-- A round in which the socket refuses to send. -/
def blockedTurn : Turn :=
  { UdpSession.quietRound.turn with
    newEnvs := fun _ => { UdpSession.sampleEnv with socketOk := false } }

/-- A `send` which fails, and another one, which is made to wait. -/
def refusedThenSent : List (Side × CallEvent) × List (Side × CallEvent) :=
  ([(.left, .send [7] 5 0), (.left, .turn blockedTurn)],
    [(.left, .send [8] 5 0), (.left, .turn UdpSession.quietRound.turn),
      (.left, .arrive UdpSession.sampleEnv .timedOut)])

theorem send_fails_after_failure_refused :
    (sampleConversation.steps Onion.sampleCrypto tagCipher refusedThenSent.1 .left).returned =
      [.sent [7] (.error .io)] ∧
    ((sampleConversation.steps Onion.sampleCrypto tagCipher
        (refusedThenSent.1 ++ refusedThenSent.2) .left).next Onion.sampleCrypto tagCipher
      (.turn UdpSession.quietRound.turn)).2 ≠ some (.sent [8] (.ok ())) := by
  have fresh : sampleConversation.Fresh := ⟨Talk.sampleTalk_fresh, fun _ => rfl, fun _ => rfl⟩
  have unforged : sampleConversation.talk.Unforged Onion.sampleCrypto tagCipher
      (sampleConversation.sessionEvents Onion.sampleCrypto tagCipher
        (refusedThenSent.1 ++ refusedThenSent.2 ++
          [(.left, .turn UdpSession.quietRound.turn)])) := by
    decide +kernel
  have bounded : (sampleConversation.steps Onion.sampleCrypto tagCipher
      (refusedThenSent.1 ++ refusedThenSent.2 ++
        [(.left, .turn UdpSession.quietRound.turn)])).talk.Bounded := by
    intro side
    cases side <;> decide +kernel
  refine ⟨rfl, send_fails_after_failure Onion.sampleCrypto tagCipher_lawful fresh
    refusedThenSent.1 refusedThenSent.2 .left _ unforged bounded ?_ rfl [8]⟩
  decide +kernel

end Conversation

end Ppose

import Ppose.Session.Conversation
import Ppose.Foundations.Pacing

/-!
# Cover traffic

Cover datagrams carry random bytes in place of a ciphertext, and whoever opens one finds
that it does not decrypt.  They cost the applications nothing: as long as they can be sent,
a conversation with cover is the same as the one in which no cover mode is ever set and
every datagram which does not decrypt, or comes from elsewhere, is a wait that runs out
(`cover_is_invisible`).

Whatever modes are set in whatever order, cover datagrams keep the interval of the mode
in force between them, so that there are no more of them in a window of time than
intervals fit into it, and one (`cover_paced`).
-/

namespace Ppose

open Arq (Side)

/-! ### Nothing else looks at the cover mode -/

/-- The operation is about cover. -/
def SessionOp.IsCover : SessionOp → Prop
  | .maybeCover _ _ _ | .setCover _ _ => True
  | _ => False

namespace UdpSession

variable (crypto : OnionCrypto) (cipher : NoiseCipher) (session : UdpSession) (mode : CoverMode)
  (last : Instant)

/-- The outcome of an operation in another cover mode. -/
def recovered (outcome : Except SessionError Unit × UdpSession × List Emission) :
    Except SessionError Unit × UdpSession × List Emission :=
  (outcome.1, outcome.2.1.setCover mode last, outcome.2.2)

theorem sealAndSend_setCover (env : SendEnv) (retransmission : Bool) (frame : Bytes) :
    sealAndSend crypto cipher (session.setCover mode last) env retransmission frame =
      recovered mode last (sealAndSend crypto cipher session env retransmission frame) := by
  simp only [sealAndSend, setCover]
  cases session.noise.sealMessage cipher frame with
  | mk result noise => cases result <;> rfl

theorem sealData_setCover (env : SendEnv) (retransmission : Bool) (frame : Bytes) :
    sealData crypto cipher (session.setCover mode last) env retransmission frame =
      recovered mode last (sealData crypto cipher session env retransmission frame) := by
  have sameDrop : (session.setCover mode last).dropData = session.dropData := rfl
  simp only [sealData, sameDrop]
  split_ifs
  · rfl
  · exact sealAndSend_setCover crypto cipher session mode last env retransmission frame

theorem sealAll_setCover (envs : ℕ → SendEnv) (retransmission : Bool) (frames : List Bytes) :
    sealAll crypto cipher retransmission (session.setCover mode last) envs frames =
      recovered mode last (sealAll crypto cipher retransmission session envs frames) := by
  induction frames generalizing session envs with
  | nil => rfl
  | cons frame rest ih =>
      simp only [sealAll, sealData_setCover]
      rcases sealData crypto cipher session (envs 0) retransmission frame with
        ⟨result, after, emissions⟩
      cases result with
      | error error => rfl
      | ok _ => simp only [recovered, ih]

theorem flush_setCover (newEnvs dueEnvs : ℕ → SendEnv) (now : Instant) :
    flush crypto cipher (session.setCover mode last) newEnvs dueEnvs now =
      recovered mode last (flush crypto cipher session newEnvs dueEnvs now) := by
  have sealWith : ∀ (session : UdpSession) (arq : Arq) envs retransmission frames,
      sealAll crypto cipher retransmission { session.setCover mode last with arq } envs frames =
        recovered mode last
          (sealAll crypto cipher retransmission { session with arq } envs frames) :=
    fun session arq envs retransmission frames =>
      sealAll_setCover crypto cipher { session with arq } mode last envs retransmission frames
  have sameArq : ∀ session : UdpSession, (session.setCover mode last).arq = session.arq :=
    fun _ => rfl
  simp only [flush, sameArq, sealWith]
  rcases session.arq.takeNewSends now with ⟨news, arq⟩
  rcases sealAll crypto cipher false { session with arq } newEnvs news with
    ⟨result, after, emissions⟩
  cases result with
  | error error => rfl
  | ok _ =>
      simp only [recovered, sameArq, sealWith]
      rcases after.arq.takeRetransmits now with ⟨due, arq⟩
      cases due <;> rfl

theorem handleIncoming_setCover (env : SendEnv) (raw : Bytes) :
    handleIncoming crypto cipher (session.setCover mode last) env raw =
      recovered mode last (handleIncoming crypto cipher session env raw) := by
  have sameRelay : (session.setCover mode last).viaRelay = session.viaRelay := rfl
  simp only [handleIncoming, sameRelay]
  cases decodeIncoming session.viaRelay raw with
  | error error => rfl
  | ok decoded =>
      rcases decoded with ⟨packetType, body, other⟩
      have samePeer : (session.setCover mode last).notePeer other =
          (session.notePeer other).setCover mode last := by
        cases other <;> rfl
      simp only [samePeer]
      generalize session.notePeer other = session
      cases packetType with
      | data =>
          have sameNoise : (session.setCover mode last).noise = session.noise := rfl
          have sameArq : (session.setCover mode last).arq = session.arq := rfl
          simp only [sameNoise, sameArq]
          rcases session.noise.openMessage cipher body with ⟨opened, noise⟩
          cases opened with
          | error error => rfl
          | ok frame =>
              dsimp only
              rcases session.arq.ingest frame with ⟨ingested, arq⟩
              cases ingested with
              | error error => rfl
              | ok ack =>
                  cases ack with
                  | none => rfl
                  | some ack =>
                      exact sealAndSend_setCover crypto cipher { session with noise, arq } mode
                        last env false ack
      | handshake => rfl
      | ack => rfl
      | forward => rfl
      | onion => rfl
      | rendezvous => rfl

theorem perform_setCover {op : SessionOp} (other : ¬op.IsCover) :
    perform crypto cipher (session.setCover mode last) op =
      ((perform crypto cipher session op).1.setCover mode last,
        (perform crypto cipher session op).2) := by
  cases op with
  | handleIncoming env raw => simp only [perform, handleIncoming_setCover, recovered]
  | flush newEnvs dueEnvs now => simp only [perform, flush_setCover, recovered]
  | maybeCover env now random => exact absurd trivial other
  | enqueue message => rfl
  | popDelivered => rfl
  | debugDropData count => rfl
  | setRetxTimeout retx => rfl
  | setCover mode now => exact absurd trivial other
  | setOutboundOnion hops dest => cases hops <;> rfl

/-- The session without cover. -/
def uncovered (session : UdpSession) : UdpSession := session.setCover .off 0

/-- The outcome of an operation without cover. -/
def outcomeUncovered (outcome : Except SessionError Unit × UdpSession × List Emission) :
    Except SessionError Unit × UdpSession × List Emission :=
  (outcome.1, outcome.2.1.uncovered, outcome.2.2)

theorem flush_uncovered (newEnvs dueEnvs : ℕ → SendEnv) (now : Instant) :
    flush crypto cipher session.uncovered newEnvs dueEnvs now =
      outcomeUncovered (flush crypto cipher session newEnvs dueEnvs now) :=
  flush_setCover crypto cipher session .off 0 newEnvs dueEnvs now

/-- A cover datagram leaves no trace but its time. -/
theorem maybeCover_uncovered (env : SendEnv) (now : Instant) (random : Block 64) :
    (maybeCover crypto session env now random).2.1.uncovered = session.uncovered := by
  simp only [maybeCover]
  split
  · rfl
  · split_ifs <;> rfl

theorem perform_uncovered {op : SessionOp} (notSet : ∀ mode now, op ≠ .setCover mode now) :
    perform crypto cipher session.uncovered op =
      ((perform crypto cipher session op).1.uncovered, (perform crypto cipher session op).2) := by
  by_cases isCover : op.IsCover
  · cases op with
    | maybeCover env now random =>
        simp only [perform, maybeCover_uncovered]
        rfl
    | setCover mode now => exact absurd rfl (notSet mode now)
    | _ => cases isCover
  · exact perform_setCover crypto cipher session .off 0 isCover

end UdpSession

namespace Party

variable (crypto : OnionCrypto) (cipher : NoiseCipher)

def uncovered (party : Party) : Party := { party with session := party.session.uncovered }

theorem perform_uncovered (party : Party) {op : SessionOp}
    (notSet : ∀ mode now, op ≠ .setCover mode now) :
    party.uncovered.perform crypto cipher op = (party.perform crypto cipher op).uncovered := by
  have performed := UdpSession.perform_uncovered crypto cipher party.session notSet
  have sameOpens : party.session.uncovered.opens cipher op = party.session.opens cipher op := by
    cases op <;> rfl
  have sameQueues : party.session.uncovered.queues op = party.session.queues op := by
    cases op <;> rfl
  have sameTakes : party.session.uncovered.takes op = party.session.takes op := by
    cases op <;> rfl
  simp only [perform, uncovered, performed, sameOpens, sameQueues, sameTakes]

theorem foldl_perform_uncovered (party : Party) {ops : List SessionOp}
    (notSet : ∀ op ∈ ops, ∀ mode now, op ≠ .setCover mode now) :
    ops.foldl (perform crypto cipher) party.uncovered =
      (ops.foldl (perform crypto cipher) party).uncovered := by
  induction ops generalizing party with
  | nil => rfl
  | cons op rest ih =>
      rw [List.foldl_cons, List.foldl_cons,
        perform_uncovered crypto cipher party (notSet op List.mem_cons_self)]
      exact ih _ fun other otherMem => notSet other (List.mem_cons_of_mem _ otherMem)

end Party

/-! ### Datagrams which say nothing -/

namespace UdpSession

variable (crypto : OnionCrypto) (cipher : NoiseCipher) (session : UdpSession)

/-- A datagram from elsewhere, or one which does not decrypt and names no other peer. -/
def saysNothing : Reception → Bool
  | .datagram raw source =>
      source ≠ session.nextHop ||
        match decodeIncoming session.viaRelay (raw.take maxDatagram) with
        | .ok (.data, body, other) =>
            !(session.noise.openMessage cipher body).1.isOk && other.all (· = session.peer)
        | _ => false
  | _ => false

variable {cipher session}

theorem handleIncoming_of_saysNothing {raw : Bytes} {source : SocketAddr}
    (nothing : session.saysNothing cipher (.datagram raw source) = true)
    (fromNextHop : source = session.nextHop) (env : SendEnv) :
    session.opens cipher (.handleIncoming env (raw.take maxDatagram)) = none ∧
      handleIncoming crypto cipher session env (raw.take maxDatagram) = (.ok (), session, []) := by
  simp only [saysNothing, fromNextHop, ne_eq, not_true_eq_false, decide_false, Bool.false_or]
    at nothing
  split at nothing
  · rename_i body other decoded
    rw [Bool.and_eq_true, Bool.not_eq_true'] at nothing
    have samePeer : session.notePeer other = session := by
      cases other with
      | none => rfl
      | some addr =>
          have addrEq : addr = session.peer := by simpa using nothing.2
          rw [addrEq]
          rfl
    cases opened : (session.noise.openMessage cipher body).1 with
    | ok frame => simp [opened, Except.isOk, Except.toBool] at nothing
    | error error =>
        have openedEq := Noise.openMessage_of_error opened
        constructor
        · simp only [opens, decoded, opened, Except.toOption]
        · simp only [handleIncoming, decoded, samePeer, openedEq]
  · cases nothing

theorem handleReception_of_saysNothing {reception : Reception}
    (nothing : session.saysNothing cipher reception = true) (env : SendEnv) :
    handleReception crypto cipher session env reception = (.ok (), session, []) := by
  cases reception with
  | timedOut => rfl
  | failed => cases nothing
  | datagram raw source =>
      simp only [handleReception]
      split_ifs with elsewhere
      · rfl
      · exact (handleIncoming_of_saysNothing crypto nothing (not_not.mp elsewhere) env).2

variable (cipher session) in
theorem handleReception_uncovered (env : SendEnv) (reception : Reception) :
    handleReception crypto cipher session.uncovered env reception =
      outcomeUncovered (handleReception crypto cipher session env reception) := by
  have sameHop : session.uncovered.nextHop = session.nextHop := rfl
  cases reception with
  | timedOut => rfl
  | failed => rfl
  | datagram raw source =>
      simp only [handleReception, sameHop]
      split_ifs
      · rfl
      · exact handleIncoming_setCover crypto cipher session .off 0 env _

/-! ### Rounds -/

variable (cipher session)

/-- Every cover datagram of the operations can be sent. -/
def coverSent : UdpSession → List SessionOp → Bool
  | _, [] => true
  | session, op :: rest =>
      (match op with
        | .maybeCover env now random => (maybeCover crypto session env now random).1.isOk
        | _ => true) &&
      coverSent (perform crypto cipher session op).1 rest

theorem pumpOps_uncovered (turn : Turn) :
    session.uncovered.pumpOps crypto cipher turn = session.pumpOps crypto cipher turn := by
  simp only [pumpOps, flush_uncovered]
  rcases flush crypto cipher session turn.newEnvs turn.dueEnvs turn.flushNow with
    ⟨result, flushed, emissions⟩
  cases result <;> rfl

theorem recvOps_uncovered (turn : Turn) :
    session.uncovered.recvOps crypto cipher turn = session.recvOps crypto cipher turn := by
  have popped : session.uncovered.popDelivered =
      (session.popDelivered.1, session.popDelivered.2.uncovered) := rfl
  simp only [recvOps, popped]
  rcases session.popDelivered with ⟨message, after⟩
  cases message with
  | some message => rfl
  | none => simp only [pumpOps_uncovered]

variable {crypto cipher session}

theorem pump_uncovered {turn : Turn}
    (sent : session.coverSent crypto cipher (session.pumpOps crypto cipher turn) = true) :
    pump crypto cipher session.uncovered turn =
      outcomeUncovered (pump crypto cipher session turn) := by
  simp only [pump, flush_uncovered]
  simp only [pumpOps, coverSent, Bool.true_and, perform] at sent
  rcases flushEq : flush crypto cipher session turn.newEnvs turn.dueEnvs turn.flushNow with
    ⟨result, flushed, emissions⟩
  rw [flushEq] at sent
  cases result with
  | error error => rfl
  | ok _ =>
      simp only [coverSent, Bool.and_true] at sent
      have traceless := maybeCover_uncovered crypto flushed turn.coverEnv turn.coverNow turn.random
      rcases coverEq : maybeCover crypto flushed turn.coverEnv turn.coverNow turn.random with
        ⟨covered, after, datagram⟩
      rw [coverEq] at sent traceless
      cases covered with
      | error error => cases sent
      | ok _ =>
          have coverless : maybeCover crypto flushed.uncovered turn.coverEnv turn.coverNow
              turn.random = (.ok (), flushed.uncovered, none) := rfl
          have sameSession : after.uncovered = flushed.uncovered := traceless
          simp only [outcomeUncovered, coverEq, coverless, sameSession]

theorem waitTurn_uncovered {turn : Turn}
    (sent : session.coverSent crypto cipher (session.pumpOps crypto cipher turn) = true)
    (deadline : Instant) :
    (waitTurn crypto cipher session.uncovered deadline turn).1 =
      (waitTurn crypto cipher session deadline turn).1 := by
  simp only [waitTurn, pump_uncovered sent]
  rcases pump crypto cipher session turn with ⟨result, pumped, emissions⟩
  cases result with
  | error error => rfl
  | ok _ =>
      have sameArq : pumped.uncovered.arq = pumped.arq := rfl
      simp only [outcomeUncovered, sameArq]
      split_ifs <;> rfl

theorem recvTurn_uncovered {turn : Turn}
    (sent : session.coverSent crypto cipher (session.recvOps crypto cipher turn) = true)
    (deadline : Instant) :
    (recvTurn crypto cipher session.uncovered deadline turn).1 =
      (recvTurn crypto cipher session deadline turn).1 := by
  have popped : session.uncovered.popDelivered =
      (session.popDelivered.1, session.popDelivered.2.uncovered) := rfl
  have performed : (perform crypto cipher session .popDelivered).1 = session.popDelivered.2 := rfl
  simp only [recvTurn, popped]
  simp only [recvOps] at sent
  rcases popEq : session.popDelivered with ⟨message, after⟩
  rw [popEq] at sent performed
  cases message with
  | some message => rfl
  | none =>
      simp only [coverSent, Bool.true_and, performed] at sent
      simp only [pump_uncovered sent]
      rcases pump crypto cipher after turn with ⟨result, pumped, emissions⟩
      cases result with
      | error error => rfl
      | ok _ =>
          simp only [outcomeUncovered]
          split_ifs <;> rfl

end UdpSession

/-! ### Conversations -/

namespace Caller

variable (crypto : OnionCrypto) (cipher : NoiseCipher)

def uncovered (caller : Caller) : Caller := { caller with party := caller.party.uncovered }

/-- The event without cover; none if it sets the cover mode. -/
def quieted (caller : Caller) : CallEvent → Option CallEvent
  | .setCover _ _ => none
  | .arrive env reception =>
      if caller.party.session.saysNothing cipher reception then some (.arrive env .timedOut)
      else some (.arrive env reception)
  | event => some event

/-- The caller after an event, if there is one. -/
def stepIf (caller : Caller) : Option CallEvent → Caller
  | none => caller
  | some event => caller.step crypto cipher event

variable {crypto cipher} {caller : Caller}

theorem step_setCover_uncovered (mode : CoverMode) (now : Instant) :
    (caller.step crypto cipher (.setCover mode now)).uncovered = caller.uncovered := by
  rcases caller with ⟨party, phase, returned⟩
  cases phase with
  | idle =>
      simp [step, settle, next, ops, uncovered, Party.uncovered, Party.perform,
        UdpSession.perform, UdpSession.opens, UdpSession.queues, UdpSession.takes,
        UdpSession.uncovered, UdpSession.setCover]
  | looping call deadline => cases call <;> rfl
  | waiting call deadline => rfl

/-- A datagram which says nothing is a wait which runs out. -/
theorem step_of_saysNothing {reception : Reception}
    (nothing : caller.party.session.saysNothing cipher reception = true) (env : SendEnv) :
    caller.step crypto cipher (.arrive env reception) =
      caller.step crypto cipher (.arrive env .timedOut) := by
  rcases caller with ⟨party, phase, returned⟩
  cases phase with
  | idle => rfl
  | looping call deadline => cases call <;> rfl
  | waiting call deadline =>
      have handled := UdpSession.handleReception_of_saysNothing crypto nothing env
      cases reception with
      | timedOut => rfl
      | failed => cases nothing
      | datagram raw source =>
          simp only [step, next, ops, handled]
          split_ifs with elsewhere
          · rfl
          · rcases UdpSession.handleIncoming_of_saysNothing crypto nothing
              (not_not.mp elsewhere) env with ⟨closed, unchanged⟩
            simp only [List.foldl_cons, List.foldl_nil, Party.perform, UdpSession.perform,
              unchanged, closed, UdpSession.queues, UdpSession.takes, Option.toList_none,
              List.append_nil]
            rfl

theorem ops_timedOut (caller : Caller) (env : SendEnv) :
    caller.ops crypto cipher (.arrive env .timedOut) = [] := by
  rcases caller with ⟨party, phase, returned⟩
  cases phase with
  | idle => rfl
  | looping call deadline => cases call <;> rfl
  | waiting call deadline => rfl

theorem ops_uncovered (event : CallEvent) :
    caller.uncovered.ops crypto cipher event = caller.ops crypto cipher event := by
  rcases caller with ⟨party, phase, returned⟩
  cases phase with
  | idle => cases event <;> rfl
  | looping call deadline =>
      cases event with
      | turn turn =>
          cases call with
          | send message => exact UdpSession.pumpOps_uncovered crypto cipher party.session turn
          | recv => exact UdpSession.recvOps_uncovered crypto cipher party.session turn
      | _ => cases call <;> rfl
  | waiting call deadline =>
      cases event with
      | arrive env reception => cases reception <;> rfl
      | _ => rfl

theorem next_uncovered {event : CallEvent}
    (sent : caller.party.session.coverSent crypto cipher (caller.ops crypto cipher event) = true) :
    caller.uncovered.next crypto cipher event = caller.next crypto cipher event := by
  rcases caller with ⟨party, phase, returned⟩
  cases phase with
  | idle =>
      cases event with
      | send message timeout now =>
          have queued : party.session.uncovered.enqueue message =
              ((party.session.enqueue message).1, (party.session.enqueue message).2.uncovered) :=
            rfl
          simp only [next, uncovered, Party.uncovered, queued]
          rcases party.session.enqueue message with ⟨result, after⟩
          cases result <;> rfl
      | _ => rfl
  | looping call deadline =>
      cases event with
      | turn turn =>
          cases call with
          | send message =>
              have turned := UdpSession.waitTurn_uncovered sent deadline
              simp only [next, uncovered, Party.uncovered, turned]
          | recv =>
              have turned := UdpSession.recvTurn_uncovered sent deadline
              simp only [next, uncovered, Party.uncovered, turned]
      | _ => cases call <;> rfl
  | waiting call deadline =>
      cases event with
      | arrive env reception =>
          have handled := UdpSession.handleReception_uncovered crypto cipher party.session env
            reception
          simp only [next, uncovered, Party.uncovered, handled, UdpSession.outcomeUncovered]
      | _ => rfl

theorem not_setCover_of_mem_ops {event : CallEvent}
    (notSet : ∀ mode now, event ≠ .setCover mode now) {op : SessionOp}
    (opMem : op ∈ caller.ops crypto cipher event) (mode : CoverMode) (now : Instant) :
    op ≠ .setCover mode now := by
  rintro rfl
  unfold ops at opMem
  split at opMem
  · simp at opMem
  · simp at opMem
  · simp at opMem
  · rename_i otherMode otherNow _
    exact notSet otherMode otherNow rfl
  · simp at opMem
  · simp only [UdpSession.pumpOps] at opMem
    split at opMem <;> simp at opMem
  · simp only [UdpSession.recvOps, UdpSession.pumpOps] at opMem
    split at opMem
    · simp at opMem
    · split at opMem <;> simp at opMem
  · split_ifs at opMem <;> simp at opMem
  · simp at opMem

theorem step_uncovered {event : CallEvent} (notSet : ∀ mode now, event ≠ .setCover mode now)
    (sent : caller.party.session.coverSent crypto cipher (caller.ops crypto cipher event) = true) :
    caller.uncovered.step crypto cipher event = (caller.step crypto cipher event).uncovered := by
  have opsNotSet : ∀ op ∈ caller.ops crypto cipher event, ∀ mode now, op ≠ .setCover mode now :=
    fun op opMem => not_setCover_of_mem_ops notSet opMem
  have performed := Party.foldl_perform_uncovered crypto cipher caller.party opsNotSet
  simp only [step, ops_uncovered, next_uncovered sent]
  simp only [uncovered, performed, settle]
  cases (caller.next crypto cipher event).2 <;> rfl

theorem step_quieted {event : CallEvent}
    (sent : caller.party.session.coverSent crypto cipher (caller.ops crypto cipher event) = true) :
    caller.uncovered.stepIf crypto cipher (caller.quieted cipher event) =
      (caller.step crypto cipher event).uncovered := by
  cases event with
  | setCover mode now => exact (step_setCover_uncovered mode now).symm
  | arrive env reception =>
      simp only [quieted]
      split_ifs with nothing
      · rw [step_of_saysNothing nothing env]
        apply step_uncovered
        · simp
        · rw [ops_timedOut]
          rfl
      · exact step_uncovered (by simp) sent
  | send message timeout now => exact step_uncovered (by simp) sent
  | recv timeout now => exact step_uncovered (by simp) sent
  | turn turn => exact step_uncovered (by simp) sent
  | debugDropData count => exact step_uncovered (by simp) sent
  | setRetxTimeout retx => exact step_uncovered (by simp) sent
  | setOutboundOnion hops dest => exact step_uncovered (by simp) sent

end Caller

namespace Conversation

variable (crypto : OnionCrypto) (cipher : NoiseCipher)

def uncovered (conversation : Conversation) : Conversation :=
  fun side => (conversation side).uncovered

/-- The events of a run without cover. -/
def quieted (conversation : Conversation) : List (Side × CallEvent) → List (Side × CallEvent)
  | [] => []
  | event :: rest =>
      (((conversation event.1).quieted cipher event.2).map (event.1, ·)).toList ++
        quieted (conversation.step crypto cipher event) rest

/-- Every cover datagram of the run can be sent. -/
def coverSent (conversation : Conversation) : List (Side × CallEvent) → Bool
  | [] => true
  | event :: rest =>
      (conversation event.1).party.session.coverSent crypto cipher
          ((conversation event.1).ops crypto cipher event.2) &&
        coverSent (conversation.step crypto cipher event) rest

variable {crypto cipher} {conversation : Conversation}

theorem steps_quieted {event : Side × CallEvent}
    (sent : (conversation event.1).party.session.coverSent crypto cipher
      ((conversation event.1).ops crypto cipher event.2) = true) :
    conversation.uncovered.steps crypto cipher
        (((conversation event.1).quieted cipher event.2).map (event.1, ·)).toList =
      (conversation.step crypto cipher event).uncovered := by
  have stepped := Caller.step_quieted sent
  funext side
  by_cases same : side = event.1
  · subst same
    have after : (conversation.step crypto cipher event).uncovered event.1 =
        ((conversation event.1).step crypto cipher event.2).uncovered := by
      simp [uncovered, step]
    rw [after, ← stepped]
    cases (conversation event.1).quieted cipher event.2 with
    | none => rfl
    | some quiet => simp [steps, step, uncovered, Caller.stepIf]
  · have after : (conversation.step crypto cipher event).uncovered side =
        (conversation side).uncovered := by
      simp [uncovered, step, same]
    rw [after]
    cases (conversation event.1).quieted cipher event.2 with
    | none => rfl
    | some quiet => simp [steps, step, uncovered, same]

/--
As long as the cover datagrams can be sent, a conversation with cover goes as the one
without: no cover mode is ever set, and a datagram which comes from elsewhere, or which does
not decrypt and names no other peer, is a wait which runs out.  The calls return the same,
and the sessions seal, open, queue and deliver the same.
-/
theorem cover_is_invisible (conversation : Conversation) (events : List (Side × CallEvent))
    (sent : conversation.coverSent crypto cipher events = true) :
    conversation.uncovered.steps crypto cipher (conversation.quieted crypto cipher events) =
      (conversation.steps crypto cipher events).uncovered := by
  induction events generalizing conversation with
  | nil => rfl
  | cons event rest ih =>
      rw [coverSent, Bool.and_eq_true] at sent
      rw [quieted, steps_append, steps_quieted sent.1]
      exact ih _ sent.2

/-- One side sends a cover datagram, which the other one receives. -/
def covered : List (Side × CallEvent) :=
  let turn := UdpSession.quietRound.turn
  [(.right, .setCover .stealth 0), (.right, .recv 5 0),
    (.right, .turn { turn with coverNow := 60000000 }), (.left, .recv 5 0), (.left, .turn turn),
    arrival .left (encodeOuter .data 0 ++ List.replicate 64 0), (.left, .turn turn)]

theorem cover_is_invisible_covered :
    sampleConversation.uncovered.steps Onion.sampleCrypto tagCipher
        (sampleConversation.quieted Onion.sampleCrypto tagCipher covered) =
      (sampleConversation.steps Onion.sampleCrypto tagCipher covered).uncovered :=
  cover_is_invisible sampleConversation covered (by decide +kernel)

end Conversation

/-! ### The pace of cover -/

/-- The cover mode has no interval shorter than the given one. -/
def CoverMode.AtLeast (gap : Duration) (mode : CoverMode) : Prop :=
  ∀ interval, mode.interval = some interval → gap ≤ interval

namespace UdpSession

/-- The readings of the clock of an operation. -/
def reads : SessionOp → List Instant
  | .flush _ _ now | .maybeCover _ now _ | .setCover _ now => [now]
  | _ => []

variable (crypto : OnionCrypto) (cipher : NoiseCipher)

/-- The times at which a run sends cover datagrams. -/
def coverTimes : UdpSession → List SessionOp → List Instant
  | _, [] => []
  | session, op :: rest =>
      ((session.coverOf crypto op).map CoverDatagram.time).toList ++
        coverTimes (perform crypto cipher session op).1 rest

variable {crypto cipher} {session : UdpSession}

/-- Without a cover datagram nothing changes. -/
theorem maybeCover_of_none {env : SendEnv} {now : Instant} {random : Block 64}
    (silent : session.coverOf crypto (.maybeCover env now random) = none) :
    maybeCover crypto session env now random = (.ok (), session, none) := by
  simp only [coverOf, maybeCover] at silent ⊢
  split
  · rfl
  · rename_i interval found
    simp only [found] at silent
    split_ifs at silent ⊢
    rfl

/-- A cover datagram is sent no sooner than the interval in force after `last_cover`. -/
theorem maybeCover_of_some {gap : Duration} (positive : 0 < gap)
    (slow : session.cover.AtLeast gap) {env : SendEnv} {now : Instant} {random : Block 64}
    {datagram : CoverDatagram}
    (sent : session.coverOf crypto (.maybeCover env now random) = some datagram) :
    datagram.time = now ∧ session.lastCover + gap ≤ now ∧
      (maybeCover crypto session env now random).2.1 = { session with lastCover := now } := by
  simp only [coverOf, maybeCover] at sent ⊢
  split
  · rename_i off
    simp [off] at sent
  · rename_i interval found
    simp only [found] at sent
    split_ifs at sent ⊢ with early
    cases sent
    have long := slow interval found
    refine ⟨rfl, ?_, rfl⟩
    exact Pacing.add_le_of_not_sub_lt positive fun soon => early (lt_of_lt_of_le soon long)

variable (crypto cipher) in
theorem perform_keeps_cover {op : SessionOp} (other : ¬op.IsCover) :
    (perform crypto cipher session op).1.cover = session.cover ∧
      (perform crypto cipher session op).1.lastCover = session.lastCover := by
  have same := perform_setCover crypto cipher session session.cover session.lastCover other
  have unchanged : session.setCover session.cover session.lastCover = session := rfl
  rw [unchanged] at same
  exact ⟨congrArg (fun outcome => outcome.1.cover) same,
    congrArg (fun outcome => outcome.1.lastCover) same⟩

variable (crypto cipher) in
/-- Every cover datagram comes a gap after the one before, and the first after `last_cover`. -/
theorem coverTimes_apart {gap : Duration} (positive : 0 < gap) (session : UdpSession)
    (ops : List SessionOp) (slow : session.cover.AtLeast gap)
    (slowLater : ∀ mode now, .setCover mode now ∈ ops → mode.AtLeast gap)
    (monotone : (session.lastCover :: ops.flatMap reads).Pairwise (· ≤ ·)) :
    Pacing.Apart gap (coverTimes crypto cipher session ops) ∧
      ∀ time ∈ coverTimes crypto cipher session ops, session.lastCover + gap ≤ time := by
  induction ops generalizing session with
  | nil => exact ⟨List.Pairwise.nil, by simp [coverTimes]⟩
  | cons op rest ih =>
      have restSlow : ∀ mode now, .setCover mode now ∈ rest → mode.AtLeast gap :=
        fun mode now inRest => slowLater mode now (List.mem_cons_of_mem _ inRest)
      rw [List.flatMap_cons] at monotone
      have skipped : (session.lastCover :: rest.flatMap reads).Pairwise (· ≤ ·) :=
        monotone.sublist (List.Sublist.cons_cons _ (List.sublist_append_right _ _))
      by_cases isCover : op.IsCover
      · cases op with
        | setCover mode now =>
            rcases List.pairwise_cons.mp monotone with ⟨beforeAll, restMonotone⟩
            have later : session.lastCover ≤ now := beforeAll now (by simp [reads])
            have modeSlow := slowLater mode now List.mem_cons_self
            rcases ih (session.setCover mode now) modeSlow restSlow restMonotone with
              ⟨apart, afterNow⟩
            refine ⟨apart, ?_⟩
            intro time timeMem
            exact (Nat.add_le_add_right later gap).trans (afterNow time timeMem)
        | maybeCover env now random =>
            have performed : (perform crypto cipher session (.maybeCover env now random)).1 =
                (maybeCover crypto session env now random).2.1 := rfl
            simp only [coverTimes, performed]
            cases sent : session.coverOf crypto (.maybeCover env now random) with
            | none =>
                rw [maybeCover_of_none sent]
                exact ih session slow restSlow skipped
            | some datagram =>
                rcases maybeCover_of_some positive slow sent with ⟨timeEq, passed, after⟩
                have fromTime := (List.pairwise_cons.mp monotone).2
                rcases ih { session with lastCover := now } slow restSlow fromTime with
                  ⟨apart, afterTime⟩
                rw [after, Option.map_some, timeEq]
                refine ⟨List.pairwise_cons.mpr ⟨afterTime, apart⟩, ?_⟩
                intro other otherMem
                rcases List.mem_cons.mp otherMem with rfl | later
                · exact passed
                · exact (passed.trans (Nat.le_add_right _ _)).trans (afterTime other later)
        | _ => cases isCover
      · have silent : session.coverOf crypto op = none := by
          cases op with
          | maybeCover env now random => exact absurd trivial isCover
          | _ => rfl
        rcases perform_keeps_cover crypto cipher isCover with ⟨coverEq, lastEq⟩
        rw [← coverEq] at slow
        rw [← lastEq] at skipped
        simp only [coverTimes, silent, Option.map_none, Option.toList_none, List.nil_append,
          ← lastEq]
        exact ih _ slow restSlow skipped

/--
A session whose cover modes have intervals of at least a gap sends, in any window of time,
no more cover datagrams than gaps fit into it, and one; and no two of them are closer than
the gap, also where modes were changed between them.
-/
theorem cover_paced {gap : Duration} (positive : 0 < gap) (session : UdpSession)
    (ops : List SessionOp) (slow : session.cover.AtLeast gap)
    (slowLater : ∀ mode now, .setCover mode now ∈ ops → mode.AtLeast gap)
    (monotone : (session.lastCover :: ops.flatMap reads).Pairwise (· ≤ ·)) :
    (coverTimes crypto cipher session ops).Pairwise
        (fun earlier later => earlier + gap ≤ later) ∧
      ∀ first final : Instant,
        ((coverTimes crypto cipher session ops).filter
          fun time => first ≤ time ∧ time ≤ final).length ≤ (final - first) / gap + 1 := by
  have apart := (coverTimes_apart crypto cipher positive session ops slow slowLater monotone).1
  exact ⟨apart, fun first final => apart.length_window_le positive first final⟩

/-- A run in which cover is tried for four times. -/
def stealthy : List SessionOp :=
  .setCover .stealth 0 :: [40000000, 50000000, 60000000, 120000000].map fun now =>
    .maybeCover sampleEnv now (List.Vector.replicate 64 0)

theorem cover_paced_stealthy :
    coverTimes Onion.sampleCrypto tagCipher relayedSession stealthy = [50000000, 120000000] ∧
    ((coverTimes Onion.sampleCrypto tagCipher relayedSession stealthy).filter
      fun time => 0 ≤ time ∧ time ≤ 120000000).length ≤ 3 := by
  have slow : ∀ mode : CoverMode, mode.AtLeast 50000000 := by
    intro mode interval found
    cases mode with
    | off => cases found
    | balanced =>
        cases found
        decide
    | stealth =>
        cases found
        decide
  exact ⟨by decide +kernel, (cover_paced (by decide) relayedSession stealthy (slow _)
    (fun mode _ _ => slow mode) (by decide)).2 0 120000000⟩

end UdpSession

end Ppose

import Ppose.Session.Fifo

/-!
# Two applications which send and receive

The calls of an application, `send_timeout` and `recv`, are loops: each round flushes,
sends a cover datagram if it is time, looks whether the call is over, and waits for a
datagram.  While one side waits, the other one goes on, so the loops of the two sides are
interleaved.  A call is cut into its `turn`s, up to the wait, and the arrivals which end
the waits; events of the two sides come in any order.

What a call does to a session is a list of session operations (`Caller.ops`), so a
conversation is a run of two sessions over a hostile network, and what was shown of these
holds for the calls: `recv` returns the messages of the peer in the order in which they
were sent, and when `send` returns without an error, the peer has all of them.
-/

namespace Ppose

open Arq (Side)

/-- What a round meets before it waits. -/
structure Turn where
  newEnvs : ℕ → SendEnv
  dueEnvs : ℕ → SendEnv
  flushNow : Instant
  coverEnv : SendEnv
  coverNow : Instant
  random : Block 64
  now : Instant

def WaitRound.turn (round : WaitRound) : Turn where
  newEnvs := round.newEnvs
  dueEnvs := round.dueEnvs
  flushNow := round.flushNow
  coverEnv := round.coverEnv
  coverNow := round.coverNow
  random := round.random
  now := round.now

namespace UdpSession

variable (crypto : OnionCrypto) (cipher : NoiseCipher)

/-- What both loops do first: flush, and send a cover datagram if it is time. -/
def pump (session : UdpSession) (turn : Turn) :
    Except SessionError Unit × UdpSession × List Emission :=
  match flush crypto cipher session turn.newEnvs turn.dueEnvs turn.flushNow with
  | (.error error, session, emissions) => (.error error, session, emissions)
  | (.ok (), session, emissions) =>
      let (result, session, _) := maybeCover crypto session turn.coverEnv turn.coverNow turn.random
      (result, session, emissions)

/-- A round of `wait_acked` up to its wait; `none` if it waits. -/
def waitTurn (session : UdpSession) (deadline : Instant) (turn : Turn) :
    Option (Except SessionError Unit) × UdpSession × List Emission :=
  match pump crypto cipher session turn with
  | (.error error, session, emissions) => (some (.error error), session, emissions)
  | (.ok (), session, emissions) =>
      if session.arq.unackedLen = 0 then (some (.ok ()), session, emissions)
      else if deadline ≤ turn.now then (some (.error .timeout), session, emissions)
      else (none, session, emissions)

/-- A round of `recv` up to its wait; `none` if it waits. -/
def recvTurn (session : UdpSession) (deadline : Instant) (turn : Turn) :
    Option (Except SessionError Bytes) × UdpSession × List Emission :=
  match session.popDelivered with
  | (some message, session) => (some (.ok message), session, [])
  | (none, session) =>
      match pump crypto cipher session turn with
      | (.error error, session, emissions) => (some (.error error), session, emissions)
      | (.ok (), session, emissions) =>
          if deadline ≤ turn.now then (some (.error .timeout), session, emissions)
          else (none, session, emissions)

/-- A round of the wait is its turn, and then what arrives. -/
theorem waitRound_eq (session : UdpSession) (deadline : Instant) (round : WaitRound) :
    waitRound crypto cipher session deadline round =
      match waitTurn crypto cipher session deadline round.turn with
      | (some result, session, emissions) => (some result, session, emissions)
      | (none, session, emissions) =>
          match handleReception crypto cipher session round.ackEnv round.reception with
          | (.error error, session, more) => (some (.error error), session, emissions ++ more)
          | (.ok (), session, more) => (none, session, emissions ++ more) := by
  simp only [waitRound, waitTurn, pump, WaitRound.turn]
  cases flush crypto cipher session round.newEnvs round.dueEnvs round.flushNow with
  | mk result more =>
      rcases more with ⟨flushed, emissions⟩
      cases result with
      | error error => rfl
      | ok _ =>
          simp only
          cases maybeCover crypto flushed round.coverEnv round.coverNow round.random with
          | mk covered after =>
              rcases after with ⟨after, datagram⟩
              cases covered with
              | error error => rfl
              | ok _ =>
                  by_cases allAcked : after.arq.unackedLen = 0
                  · simp only [allAcked, if_true]
                  · by_cases late : deadline ≤ round.now
                    · simp only [allAcked, late, if_true, if_false]
                    · cases heard : handleReception crypto cipher after round.ackEnv
                        round.reception with
                      | mk result last =>
                          cases result <;> simp only [allAcked, late, if_false, heard]

/-- The operations of `pump`. -/
def pumpOps (session : UdpSession) (turn : Turn) : List SessionOp :=
  .flush turn.newEnvs turn.dueEnvs turn.flushNow ::
    match flush crypto cipher session turn.newEnvs turn.dueEnvs turn.flushNow with
    | (.error _, _, _) => []
    | (.ok (), _, _) => [.maybeCover turn.coverEnv turn.coverNow turn.random]

/-- The operations of a turn of `recv`. -/
def recvOps (session : UdpSession) (turn : Turn) : List SessionOp :=
  match session.popDelivered with
  | (some _, _) => [.popDelivered]
  | (none, session) => .popDelivered :: session.pumpOps crypto cipher turn

theorem after_pumpOps (session : UdpSession) (turn : Turn) :
    session.after crypto cipher (session.pumpOps crypto cipher turn) =
      (session.pump crypto cipher turn).2.1 := by
  simp only [after, pumpOps, pump, List.foldl_cons, perform]
  cases flush crypto cipher session turn.newEnvs turn.dueEnvs turn.flushNow with
  | mk result more => cases result <;> rfl

variable {crypto cipher}

theorem waitTurn_session (session : UdpSession) (deadline : Instant) (turn : Turn) :
    (session.waitTurn crypto cipher deadline turn).2.1 = (session.pump crypto cipher turn).2.1 := by
  simp only [waitTurn]
  split
  · rename_i pumped
    rw [pumped]
  · rename_i pumped
    rw [pumped]
    split_ifs <;> rfl

theorem after_recvOps (session : UdpSession) (deadline : Instant) (turn : Turn) :
    session.after crypto cipher (session.recvOps crypto cipher turn) =
      (session.recvTurn crypto cipher deadline turn).2.1 := by
  simp only [recvOps, recvTurn]
  cases popEq : session.popDelivered with
  | mk message popped =>
      have poppedEq : (perform crypto cipher session .popDelivered).1 = popped :=
        congrArg Prod.snd popEq
      cases message with
      | some message => exact poppedEq
      | none =>
          have pumped := after_pumpOps crypto cipher popped turn
          simp only [after, List.foldl_cons, poppedEq] at pumped ⊢
          rw [pumped]
          split
          · rename_i resultEq
            rw [resultEq]
          · rename_i resultEq
            rw [resultEq]
            split_ifs <;> rfl

/-- `wait_acked` returns without an error only if nothing is left to be acknowledged. -/
theorem unackedLen_of_waitTurn {session : UdpSession} {deadline : Instant} {turn : Turn}
    (finished : (session.waitTurn crypto cipher deadline turn).1 = some (.ok ())) :
    (session.waitTurn crypto cipher deadline turn).2.1.arq.unackedLen = 0 := by
  unfold waitTurn at finished ⊢
  split at finished
  · cases finished
  · split_ifs at finished ⊢ with allAcked
    · exact allAcked
    · cases finished

end UdpSession

/-! ### Calls -/

inductive Call where
  | send (message : Bytes)
  | recv

/-- Where the application of a side is. -/
inductive Phase where
  | idle
  /-- At the head of the loop. -/
  | looping (call : Call) (deadline : Instant)
  /-- Waiting for a datagram. -/
  | waiting (call : Call) (deadline : Instant)

/-- What a call has returned. -/
inductive Return where
  | sent (message : Bytes) (result : Except SessionError Unit)
  | received (result : Except SessionError Bytes)

/-- What a call returns if its wait fails. -/
def Call.failed : Call → SessionError → Return
  | .send message, error => .sent message (.error error)
  | .recv, error => .received (.error error)

/-- The message which `recv` returns, if it does. -/
def Return.message? : Return → Option Bytes
  | .received (.ok message) => some message
  | _ => none

structure Caller where
  party : Party
  phase : Phase
  /-- What the calls have returned, oldest first. -/
  returned : List Return

inductive CallEvent where
  | send (message : Bytes) (timeout : Duration) (now : Instant)
  | recv (timeout : Duration) (now : Instant)
  | turn (turn : Turn)
  | arrive (env : SendEnv) (reception : Reception)
  | debugDropData (count : UInt32)
  | setRetxTimeout (retx : Duration)
  | setCover (mode : CoverMode) (now : Instant)
  | setOutboundOnion (hops : List Onion.OnionHop) (dest : SocketAddr)

/-- The event asks for drops. -/
def CallEvent.Drops : CallEvent → Prop
  | .debugDropData _ => True
  | _ => False

namespace Caller

variable (crypto : OnionCrypto) (cipher : NoiseCipher)

/-- The session operations of an event; none if the side is not where the event takes place. -/
def ops (caller : Caller) (event : CallEvent) : List SessionOp :=
  match caller.phase, event with
  | .idle, .send message _ _ => [.enqueue message]
  | .idle, .debugDropData count => [.debugDropData count]
  | .idle, .setRetxTimeout retx => [.setRetxTimeout retx]
  | .idle, .setCover mode now => [.setCover mode now]
  | .idle, .setOutboundOnion hops dest => [.setOutboundOnion hops dest]
  | .looping (.send _) _, .turn turn => caller.party.session.pumpOps crypto cipher turn
  | .looping .recv _, .turn turn => caller.party.session.recvOps crypto cipher turn
  | .waiting _ _, .arrive env (.datagram raw source) =>
      if source ≠ caller.party.session.nextHop then []
      else [.handleIncoming env (raw.take maxDatagram)]
  | _, _ => []

/-- The call returns, or goes on in the given phase. -/
def settle (caller : Caller) (phase : Phase) (finished : Option Return) : Caller :=
  match finished with
  | none => { caller with phase }
  | some result => { caller with phase := .idle, returned := caller.returned ++ [result] }

/-- The phase after an event, and what is returned by it. -/
def next (caller : Caller) (event : CallEvent) : Phase × Option Return :=
  match caller.phase, event with
  | .idle, .send message timeout now =>
      match caller.party.session.enqueue message with
      | (.error error, _) => (.idle, some (.sent message (.error error)))
      | (.ok (), _) => (.looping (.send message) (now + timeout), none)
  | .idle, .recv timeout now => (.looping .recv (now + timeout), none)
  | .looping (.send message) deadline, .turn turn =>
      (.waiting (.send message) deadline,
        (caller.party.session.waitTurn crypto cipher deadline turn).1.map (.sent message))
  | .looping .recv deadline, .turn turn =>
      (.waiting .recv deadline,
        (caller.party.session.recvTurn crypto cipher deadline turn).1.map .received)
  | .waiting call deadline, .arrive env reception =>
      match (caller.party.session.handleReception crypto cipher env reception).1 with
      | .error error => (.idle, some (call.failed error))
      | .ok () => (.looping call deadline, none)
  | phase, _ => (phase, none)

def step (caller : Caller) (event : CallEvent) : Caller :=
  settle { caller with
      party := (caller.ops crypto cipher event).foldl (Party.perform crypto cipher) caller.party }
    (caller.next crypto cipher event).1 (caller.next crypto cipher event).2

/-- The messages which `recv` has returned, oldest first. -/
def received (caller : Caller) : List Bytes := caller.returned.filterMap Return.message?

end Caller

/-- Both applications. -/
abbrev Conversation := Side → Caller

namespace Conversation

variable (crypto : OnionCrypto) (cipher : NoiseCipher)

def talk (conversation : Conversation) : Talk := fun side => (conversation side).party

def step (conversation : Conversation) (event : Side × CallEvent) : Conversation :=
  Function.update conversation event.1 ((conversation event.1).step crypto cipher event.2)

def steps (conversation : Conversation) (events : List (Side × CallEvent)) : Conversation :=
  events.foldl (step crypto cipher) conversation

/-- The session operations of all events of a run. -/
def sessionEvents (conversation : Conversation) :
    List (Side × CallEvent) → List (Side × SessionOp)
  | [] => []
  | event :: rest =>
      ((conversation event.1).ops crypto cipher event.2).map (event.1, ·) ++
        sessionEvents (conversation.step crypto cipher event) rest

/-- Both handshakes are over, and no call was made yet. -/
structure Fresh (conversation : Conversation) : Prop where
  talk_fresh : conversation.talk.Fresh
  phase_eq : ∀ side, (conversation side).phase = .idle
  returned_eq : ∀ side, (conversation side).returned = []

end Conversation

/-! ### A conversation is a talk -/

namespace Caller

variable {crypto : OnionCrypto} {cipher : NoiseCipher}

theorem party_step (caller : Caller) (event : CallEvent) :
    (caller.step crypto cipher event).party =
      (caller.ops crypto cipher event).foldl (Party.perform crypto cipher) caller.party := by
  unfold step settle
  split <;> rfl

theorem phase_step (caller : Caller) (event : CallEvent) :
    (caller.step crypto cipher event).phase = (caller.next crypto cipher event).1 ∨
      (caller.step crypto cipher event).phase = .idle := by
  unfold step settle
  split
  · exact Or.inl rfl
  · exact Or.inr rfl

theorem returned_step (caller : Caller) (event : CallEvent) :
    (caller.step crypto cipher event).returned =
      caller.returned ++ (caller.next crypto cipher event).2.toList := by
  unfold step settle
  split
  · rename_i goesOn
    simp [goesOn]
  · rename_i result returns
    simp [returns]

theorem popped_foldl (party : Party) {ops : List SessionOp}
    (takesNone : ∀ op ∈ ops, op ≠ .popDelivered) :
    (ops.foldl (Party.perform crypto cipher) party).popped = party.popped := by
  induction ops generalizing party with
  | nil => rfl
  | cons op rest ih =>
      rcases List.forall_mem_cons.mp takesNone with ⟨notPop, restNone⟩
      rw [List.foldl_cons, ih _ restNone]
      cases op with
      | popDelivered => exact absurd rfl notPop
      | _ => exact List.append_nil _

theorem pumpOps_ne (session : UdpSession) (turn : Turn) :
    ∀ op ∈ session.pumpOps crypto cipher turn, op ≠ .popDelivered := by
  unfold UdpSession.pumpOps
  split <;> simp

/-- What `recv` has returned is what was taken from the delivered messages. -/
def Recorded (caller : Caller) : Prop := caller.party.popped = caller.received

/-- A turn of `recv` takes the message which it returns. -/
theorem popped_recvTurn (party : Party) (deadline : Instant) (turn : Turn) :
    ((party.session.recvOps crypto cipher turn).foldl (Party.perform crypto cipher)
        party).popped =
      party.popped ++ ((party.session.recvTurn crypto cipher deadline turn).1.map
        Return.received).toList.filterMap Return.message? := by
  simp only [UdpSession.recvOps, UdpSession.recvTurn]
  cases popEq : party.session.popDelivered with
  | mk message after =>
      have takesEq : party.session.takes .popDelivered = message := congrArg Prod.fst popEq
      cases message with
      | some message =>
          simp [Party.perform, takesEq, Return.message?]
      | none =>
          simp only [List.foldl_cons]
          rw [popped_foldl _ (pumpOps_ne after turn)]
          have same : (party.perform crypto cipher .popDelivered).popped = party.popped := by
            simp [Party.perform, takesEq]
          rw [same]
          split
          · simp [Return.message?]
          · split_ifs <;> simp [Return.message?]

theorem Recorded.step {caller : Caller} (recorded : caller.Recorded) (event : CallEvent) :
    (caller.step crypto cipher event).Recorded := by
  have grows : ((caller.ops crypto cipher event).foldl (Party.perform crypto cipher)
      caller.party).popped = caller.party.popped ++
        (caller.next crypto cipher event).2.toList.filterMap Return.message? := by
    cases phaseEq : caller.phase with
    | idle =>
        cases event with
        | send message timeout now =>
            simp only [ops, next, phaseEq]
            rw [popped_foldl _ (by simp)]
            split <;> simp [Return.message?]
        | _ => simp [ops, next, phaseEq, Party.perform, UdpSession.takes]
    | looping call deadline =>
        cases event with
        | turn turn =>
            cases call with
            | send message =>
                simp only [ops, next, phaseEq]
                rw [popped_foldl _ (pumpOps_ne _ turn)]
                cases (caller.party.session.waitTurn crypto cipher deadline turn).1 <;>
                  simp [Return.message?]
            | recv =>
                simp only [ops, next, phaseEq]
                exact popped_recvTurn caller.party deadline turn
        | _ => simp [ops, next, phaseEq]
    | waiting call deadline =>
        cases event with
        | arrive env reception =>
            have nothing : (caller.next crypto cipher (.arrive env reception)).2.toList.filterMap
                Return.message? = [] := by
              simp only [next, phaseEq]
              split
              · cases call <;> rfl
              · rfl
            rw [nothing, List.append_nil]
            cases reception with
            | datagram raw source =>
                simp only [ops, phaseEq]
                split_ifs
                · rfl
                · exact popped_foldl _ (by simp)
            | _ => simp [ops, phaseEq]
        | _ => simp [ops, next, phaseEq]
  rw [Recorded, received, party_step, returned_step, grows, List.filterMap_append]
  exact congrArg (· ++ _) recorded

theorem session_foldl (party : Party) (ops : List SessionOp) :
    (ops.foldl (Party.perform crypto cipher) party).session =
      party.session.after crypto cipher ops := by
  induction ops generalizing party with
  | nil => rfl
  | cons op rest ih => exact ih (party.perform crypto cipher op)

/-- `send` returns without an error at the end of a turn only. -/
theorem exists_turn_of_sent {caller : Caller} {event : CallEvent} {message : Bytes}
    (finished : (caller.next crypto cipher event).2 = some (.sent message (.ok ()))) :
    ∃ deadline turn, caller.phase = .looping (.send message) deadline ∧ event = .turn turn ∧
      (caller.party.session.waitTurn crypto cipher deadline turn).1 = some (.ok ()) := by
  cases phaseEq : caller.phase with
  | idle =>
      cases event with
      | send message timeout now =>
          simp only [next, phaseEq] at finished
          split at finished <;> simp at finished
      | _ => simp [next, phaseEq] at finished
  | looping call deadline =>
      cases event with
      | turn turn =>
          cases call with
          | send message =>
              simp only [next, phaseEq, Option.map_eq_some_iff, Return.sent.injEq] at finished
              rcases finished with ⟨result, resultEq, rfl, rfl⟩
              exact ⟨deadline, turn, rfl, rfl, resultEq⟩
          | recv => simp [next, phaseEq] at finished
      | _ => simp [next, phaseEq] at finished
  | waiting call deadline =>
      cases event with
      | arrive env reception =>
          simp only [next, phaseEq] at finished
          split at finished
          · cases call <;> simp [Call.failed] at finished
          · simp at finished
      | _ => simp [next, phaseEq] at finished

/-- When `send` returns without an error, nothing is left to be acknowledged. -/
theorem unackedLen_of_sent {caller : Caller} {event : CallEvent} {message : Bytes}
    (finished : (caller.next crypto cipher event).2 = some (.sent message (.ok ()))) :
    (caller.step crypto cipher event).party.session.arq.unackedLen = 0 := by
  rcases exists_turn_of_sent finished with ⟨deadline, turn, phaseEq, rfl, resultEq⟩
  have allAcked := UdpSession.unackedLen_of_waitTurn resultEq
  rw [UdpSession.waitTurn_session] at allAcked
  rw [party_step, session_foldl]
  simp only [ops, phaseEq]
  rw [UdpSession.after_pumpOps]
  exact allAcked

theorem dropless_ops (caller : Caller) {event : CallEvent} (dropless : ¬event.Drops) :
    ∀ op ∈ caller.ops crypto cipher event, ¬UdpSession.Drops op := by
  have pumpDropless : ∀ (session : UdpSession) (turn : Turn),
      ∀ op ∈ session.pumpOps crypto cipher turn, ¬UdpSession.Drops op := by
    intro session turn
    unfold UdpSession.pumpOps
    split <;> simp [UdpSession.Drops]
  unfold ops
  split
  · simp [UdpSession.Drops]
  · exact absurd trivial dropless
  · simp [UdpSession.Drops]
  · simp [UdpSession.Drops]
  · simp [UdpSession.Drops]
  · exact pumpDropless _ _
  · unfold UdpSession.recvOps
    split
    · simp [UdpSession.Drops]
    · intro op opMem
      rcases List.mem_cons.mp opMem with rfl | inPump
      · exact fun drops => drops
      · exact pumpDropless _ _ op inPump
  · split_ifs <;> simp [UdpSession.Drops]
  · simp

end Caller

namespace Conversation

variable {crypto : OnionCrypto} {cipher : NoiseCipher} {conversation : Conversation}

theorem steps_of_side (talk : Talk) (side : Side) (ops : List SessionOp) :
    talk.steps crypto cipher (ops.map (side, ·)) =
      Function.update talk side (ops.foldl (Party.perform crypto cipher) (talk side)) := by
  induction ops generalizing talk with
  | nil => simp [Talk.steps]
  | cons op rest ih =>
      have restEq := ih (talk.step crypto cipher (side, op))
      simp only [Talk.steps, List.map_cons, List.foldl_cons] at restEq ⊢
      rw [restEq, Talk.step_self]
      simp [Talk.step]

theorem talk_step (conversation : Conversation) (event : Side × CallEvent) :
    (conversation.step crypto cipher event).talk = conversation.talk.steps crypto cipher
      (((conversation event.1).ops crypto cipher event.2).map (event.1, ·)) := by
  rw [steps_of_side]
  funext side
  by_cases same : side = event.1
  · subst same
    simp only [talk, step, Function.update_self, Caller.party_step]
  · simp only [talk, step, Function.update_of_ne same]

/-- Every run of the calls is a run of the sessions. -/
theorem talk_steps (conversation : Conversation) (events : List (Side × CallEvent)) :
    (conversation.steps crypto cipher events).talk =
      conversation.talk.steps crypto cipher
        (conversation.sessionEvents crypto cipher events) := by
  induction events generalizing conversation with
  | nil => rfl
  | cons event rest ih =>
      have restEq := ih (conversation.step crypto cipher event)
      rw [talk_step] at restEq
      simp only [steps, List.foldl_cons, sessionEvents, Talk.steps, List.foldl_append] at restEq ⊢
      exact restEq

theorem steps_append (conversation : Conversation) (before after : List (Side × CallEvent)) :
    conversation.steps crypto cipher (before ++ after) =
      (conversation.steps crypto cipher before).steps crypto cipher after :=
  List.foldl_append

theorem sessionEvents_append (conversation : Conversation)
    (before after : List (Side × CallEvent)) :
    conversation.sessionEvents crypto cipher (before ++ after) =
      conversation.sessionEvents crypto cipher before ++
        (conversation.steps crypto cipher before).sessionEvents crypto cipher after := by
  induction before generalizing conversation with
  | nil => rfl
  | cons event rest ih =>
      simp only [List.cons_append, sessionEvents, ih, List.append_assoc]
      rfl

theorem dropless_sessionEvents (conversation : Conversation) {events : List (Side × CallEvent)}
    (dropless : ∀ event ∈ events, ¬event.2.Drops) :
    ∀ event ∈ conversation.sessionEvents crypto cipher events, ¬UdpSession.Drops event.2 := by
  induction events generalizing conversation with
  | nil => simp [sessionEvents]
  | cons event rest ih =>
      rcases List.forall_mem_cons.mp dropless with ⟨firstDropless, restDropless⟩
      intro other otherMem
      rcases List.mem_append.mp otherMem with first | later
      · rcases List.mem_map.mp first with ⟨op, opMem, rfl⟩
        exact Caller.dropless_ops _ firstDropless op opMem
      · exact ih _ restDropless other later

theorem recorded_steps (crypto : OnionCrypto) (cipher : NoiseCipher)
    (conversation : Conversation) (events : List (Side × CallEvent))
    (recorded : ∀ side, (conversation side).Recorded) (side : Side) :
    (conversation.steps crypto cipher events side).Recorded := by
  induction events generalizing conversation with
  | nil => exact recorded side
  | cons event rest ih =>
      apply ih
      intro target
      by_cases same : target = event.1
      · subst same
        simp only [step, Function.update_self]
        exact (recorded event.1).step event.2
      · simp only [step, Function.update_of_ne same]
        exact recorded target

theorem Fresh.recorded (fresh : conversation.Fresh) (side : Side) :
    (conversation side).Recorded := by
  have started : (conversation side).party = Party.start _ := fresh.talk_fresh.history_eq side
  rw [Caller.Recorded, Caller.received, fresh.returned_eq, started]
  rfl

/--
However the calls of two applications interleave, and whatever the network does except
forging, the messages which `recv` has returned at one side are the first of those which
`send` has queued at the other, in order; and whenever a `send` returns without an error,
every message sent so far was returned by the `recv` of the peer or is ready to be.
-/
theorem recv_returns_what_send_queued (crypto : OnionCrypto) {cipher : NoiseCipher}
    (lawful : cipher.Lawful) {conversation : Conversation} (fresh : conversation.Fresh)
    (events : List (Side × CallEvent)) (dropless : ∀ event ∈ events, ¬event.2.Drops)
    (unforged : conversation.talk.Unforged crypto cipher
      (conversation.sessionEvents crypto cipher events))
    (bounded : (conversation.steps crypto cipher events).talk.Bounded) (side : Side) :
    (conversation.steps crypto cipher events side.peer).received <+:
        (conversation.steps crypto cipher events side).party.enqueued ∧
      ∀ before event message, events = before ++ [(side, event)] →
        ((conversation.steps crypto cipher before side).next crypto cipher event).2 =
          some (.sent message (.ok ())) →
        (conversation.steps crypto cipher events side.peer).received ++
            (conversation.steps crypto cipher events side.peer).party.session.arq.delivered =
          (conversation.steps crypto cipher events side).party.enqueued := by
  rw [talk_steps] at bounded
  rcases fresh.talk_fresh.inOrder.steps fresh.talk_fresh.inStep lawful unforged
    (dropless_sessionEvents conversation dropless) bounded with ⟨net, inOrder⟩
  rw [← talk_steps] at inOrder bounded
  have recorded := conversation.recorded_steps crypto cipher events fresh.recorded side.peer
  have isPrefix := inOrder.delivered_prefix side
  have deliveredEq : (conversation.steps crypto cipher events).talk.delivered side.peer =
      (conversation.steps crypto cipher events side.peer).received ++
        (conversation.steps crypto cipher events side.peer).party.session.arq.delivered := by
    rw [← recorded]
    rfl
  rw [deliveredEq] at isPrefix
  refine ⟨(List.prefix_append _ _).trans isPrefix, ?_⟩
  rintro before event message rfl finished
  rw [← deliveredEq]
  apply inOrder.delivered_eq bounded
  simp only [talk, steps_append]
  simp only [steps, List.foldl_cons, List.foldl_nil, step, Function.update_self]
  exact Caller.unackedLen_of_sent finished

def sampleConversation : Conversation := fun side =>
  { party := Talk.sampleTalk side
    phase := .idle
    returned := [] }

/-- A datagram which comes from the next hop of the receiver. -/
def arrival (side : Side) (raw : Bytes) : Side × CallEvent :=
  (side, .arrive UdpSession.sampleEnv (.datagram raw (Talk.sampleTalk side).session.nextHop))

/-- One side sends a message, which the other one receives and acknowledges. -/
def exchanged : List (Side × CallEvent) :=
  let turn := CallEvent.turn UdpSession.quietRound.turn
  let sent := [(Side.left, CallEvent.send [7] 5 0), (Side.left, turn)]
  let wire := Talk.wireAt
    (sampleConversation.steps Onion.sampleCrypto tagCipher sent .left).party 0
  let got := sent ++ [(.right, .recv 5 0), (.right, turn), arrival .right wire]
  let ack := Talk.wireAt
    (sampleConversation.steps Onion.sampleCrypto tagCipher got .right).party 0
  got ++ [(.right, turn), arrival .left ack, (.left, turn)]

theorem recv_returns_what_send_queued_exchanged :
    (sampleConversation.steps Onion.sampleCrypto tagCipher exchanged .right).received = [[7]] ∧
    (sampleConversation.steps Onion.sampleCrypto tagCipher exchanged .right).received ++
        (sampleConversation.steps Onion.sampleCrypto tagCipher exchanged
          .right).party.session.arq.delivered =
      (sampleConversation.steps Onion.sampleCrypto tagCipher exchanged .left).party.enqueued := by
  have fresh : sampleConversation.Fresh := ⟨Talk.sampleTalk_fresh, fun _ => rfl, fun _ => rfl⟩
  have dropless : ∀ event ∈ exchanged, ¬event.2.Drops := by
    simp [exchanged, arrival, CallEvent.Drops]
  have unforged : sampleConversation.talk.Unforged Onion.sampleCrypto tagCipher
      (sampleConversation.sessionEvents Onion.sampleCrypto tagCipher exchanged) := by
    decide +kernel
  have bounded :
      (sampleConversation.steps Onion.sampleCrypto tagCipher exchanged).talk.Bounded := by
    intro side
    cases side <;> decide +kernel
  refine ⟨by decide +kernel, (recv_returns_what_send_queued Onion.sampleCrypto tagCipher_lawful
    fresh exchanged dropless unforged bounded .left).2 exchanged.dropLast
    (.turn UdpSession.quietRound.turn) [7] rfl ?_⟩
  rfl

end Conversation

end Ppose

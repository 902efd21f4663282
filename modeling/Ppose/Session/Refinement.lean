import Ppose.Reliability.Delivery
import Ppose.Session.HostileNetwork
import Ppose.Session.Refusal

/-!
# Two sessions refine two ARQ endpoints

Below the sessions run the ARQ endpoints of `Reliability.Network`, over a channel which
drops, duplicates, delays and reorders.  Every run of two sessions over a hostile
network is a run of that system: what a session does is what its endpoint does
(`localOps`), and a frame which it opens is one which the endpoint of its peer has
emitted (`Talk.exists_actions`).  Frames which are never sealed, since they are to be
dropped or a seal before them has failed, are frames the channel has lost.

So all that was shown of two endpoints holds of two sessions, with the network out of
control: messages are neither altered, invented nor delivered twice, and a session with
nothing left to be acknowledged has got everything across.
-/

namespace Ppose

open Arq (Side LocalOp Endpoint Net)

namespace UdpSession

variable {crypto : OnionCrypto} {cipher : NoiseCipher}

/-! ### What a flush does -/

/-- The ways in which a flush can go. -/
inductive Flushed (crypto : OnionCrypto) (cipher : NoiseCipher) (session : UdpSession)
    (newEnvs dueEnvs : ℕ → SendEnv) (now : Instant) :
    Except SessionError Unit × UdpSession × List Emission → Prop where
  | stopped {error : SessionError} {after : UdpSession} {emissions : List Emission}
      (news : sealAll crypto cipher false
        { session with arq := (session.arq.takeNewSends now).2 } newEnvs
        (session.arq.takeNewSends now).1 = (.error error, after, emissions)) :
      Flushed crypto cipher session newEnvs dueEnvs now (.error error, after, emissions)
  | gaveUp {after : UdpSession} {emissions : List Emission} {giveUp : ArqGiveUp} {arq : Arq}
      (news : sealAll crypto cipher false
        { session with arq := (session.arq.takeNewSends now).2 } newEnvs
        (session.arq.takeNewSends now).1 = (.ok (), after, emissions))
      (takes : after.arq.takeRetransmits now = (.error giveUp, arq)) :
      Flushed crypto cipher session newEnvs dueEnvs now
        (.error (.giveUp giveUp), { after with arq }, emissions)
  | resent {after final : UdpSession} {emissions more : List Emission} {due : List Bytes}
      {arq : Arq} {result : Except SessionError Unit}
      (news : sealAll crypto cipher false
        { session with arq := (session.arq.takeNewSends now).2 } newEnvs
        (session.arq.takeNewSends now).1 = (.ok (), after, emissions))
      (takes : after.arq.takeRetransmits now = (.ok due, arq))
      (again : sealAll crypto cipher true { after with arq } dueEnvs due = (result, final, more)) :
      Flushed crypto cipher session newEnvs dueEnvs now (result, final, emissions ++ more)

theorem flushed_flush (crypto : OnionCrypto) (cipher : NoiseCipher) (session : UdpSession)
    (newEnvs dueEnvs : ℕ → SendEnv) (now : Instant) :
    Flushed crypto cipher session newEnvs dueEnvs now
      (flush crypto cipher session newEnvs dueEnvs now) := by
  simp only [flush]
  split
  · rename_i news
    exact .stopped news
  · rename_i news
    split
    · rename_i takes
      exact .gaveUp news takes
    · rename_i takes
      exact .resent news takes rfl

/-- Sealing frames seals some of them, in order, and leaves the ARQ endpoint alone. -/
theorem sealAll_sublist (crypto : OnionCrypto) (cipher : NoiseCipher) (session : UdpSession)
    (envs : ℕ → SendEnv) (retransmission : Bool) (frames : List Bytes) :
    ((sealAll crypto cipher retransmission session envs frames).2.2.map
        Emission.plaintext).Sublist frames ∧
      (sealAll crypto cipher retransmission session envs frames).2.1.arq = session.arq := by
  induction frames generalizing session envs with
  | nil => exact ⟨List.Sublist.refl _, rfl⟩
  | cons frame rest ih =>
      have sameArq : (sealData crypto cipher session (envs 0) retransmission frame).2.1.arq = _ :=
        sealData_arq session (envs 0) retransmission frame
      have atMostOne : ((sealData crypto cipher session (envs 0) retransmission frame).2.2.map
          Emission.plaintext).Sublist [frame] := by
        unfold sealData
        split_ifs
        · exact List.nil_sublist _
        · unfold sealAndSend
          split
          · exact List.nil_sublist _
          · exact List.Sublist.refl _
      simp only [sealAll]
      split
      · rename_i resultEq
        rw [resultEq] at atMostOne sameArq
        exact ⟨atMostOne.trans (List.singleton_sublist.mpr List.mem_cons_self), sameArq⟩
      · rename_i session' emissions resultEq
        rw [resultEq] at atMostOne sameArq
        rcases ih session' (envs ∘ Nat.succ) with ⟨restSublist, restArq⟩
        refine ⟨?_, restArq.trans sameArq⟩
        simp only [List.map_append]
        exact atMostOne.append restSublist

/-- What the ARQ endpoint of a session does when the session opens nothing. -/
def localOps (crypto : OnionCrypto) (cipher : NoiseCipher) (session : UdpSession) :
    SessionOp → List LocalOp
  | .flush newEnvs _ now =>
      match sealAll crypto cipher false { session with arq := (session.arq.takeNewSends now).2 }
          newEnvs (session.arq.takeNewSends now).1 with
      | (.error _, _, _) => [.takeNewSends now]
      | (.ok (), _, _) => [.takeNewSends now, .takeRetransmits now]
  | .enqueue message => [.enqueue message]
  | .popDelivered => [.popDelivered]
  | .setRetxTimeout retx => [.setRetx retx]
  | _ => []

/-- An endpoint which has taken what a flush takes. -/
structure Follows (before after : Endpoint) (session : UdpSession) (emissions : List Emission) :
    Prop where
  arq_eq : after.arq = session.arq
  enqueued_eq : after.enqueued = before.enqueued
  popped_eq : after.popped = before.popped
  grows : before.emitted ⊆ after.emitted
  emitted : ∀ emission ∈ emissions, emission.plaintext ∈ after.emitted

/-- What is flushed was taken from the endpoint, new or due again. -/
theorem Flushed.follows {session : UdpSession} {newEnvs dueEnvs : ℕ → SendEnv} {now : Instant}
    {outcome : Except SessionError Unit × UdpSession × List Emission}
    (flushed : Flushed crypto cipher session newEnvs dueEnvs now outcome) {endpoint : Endpoint}
    (arqEq : endpoint.arq = session.arq) :
    Follows endpoint
      ((session.localOps crypto cipher (.flush newEnvs dueEnvs now)).foldl Endpoint.perform
        endpoint)
      outcome.2.1 outcome.2.2 := by
  have sealing := sealAll_sublist crypto cipher
    { session with arq := (session.arq.takeNewSends now).2 } newEnvs false
    (session.arq.takeNewSends now).1
  cases flushed with
  | stopped news =>
      rw [news] at sealing
      simp only [localOps, news, List.foldl_cons, List.foldl_nil, Endpoint.perform]
      refine ⟨?_, rfl, rfl, List.subset_append_left _ _, ?_⟩
      · rw [sealing.2, Endpoint.takeNewSends, arqEq]
      · intro emission emissionMem
        simp only [Endpoint.takeNewSends, arqEq, List.mem_append]
        exact Or.inr (sealing.1.subset (List.mem_map_of_mem emissionMem))
  | gaveUp news takes =>
      rw [news] at sealing
      simp only [localOps, news, List.foldl_cons, List.foldl_nil, Endpoint.perform]
      rw [sealing.2] at takes
      simp only [Endpoint.takeNewSends, arqEq, Endpoint.takeRetransmits, takes]
      refine ⟨rfl, rfl, rfl, List.subset_append_left _ _, ?_⟩
      intro emission emissionMem
      exact List.mem_append_right _ (sealing.1.subset (List.mem_map_of_mem emissionMem))
  | resent news takes again =>
      rename_i after final emissions more due arq result
      have sealingAgain := sealAll_sublist crypto cipher { after with arq } dueEnvs true due
      rw [again] at sealingAgain
      rw [news] at sealing
      simp only [localOps, news, List.foldl_cons, List.foldl_nil, Endpoint.perform]
      rw [sealing.2] at takes
      simp only [Endpoint.takeNewSends, arqEq, Endpoint.takeRetransmits, takes]
      refine ⟨sealingAgain.2.symm, rfl, rfl, ?_, ?_⟩
      · intro frame frameMem
        exact List.mem_append_left _ (List.mem_append_left _ frameMem)
      · intro emission emissionMem
        rcases List.mem_append.mp emissionMem with isNew | isDue
        · exact List.mem_append_left _
            (List.mem_append_right _ (sealing.1.subset (List.mem_map_of_mem isNew)))
        · exact List.mem_append_right _ (sealingAgain.1.subset (List.mem_map_of_mem isDue))

/-- A datagram which opens nothing leaves the ARQ endpoint alone and seals nothing. -/
theorem handleIncoming_of_closed {session : UdpSession} {env : SendEnv} {raw : Bytes}
    (closed : session.opens cipher (.handleIncoming env raw) = none) :
    (handleIncoming crypto cipher session env raw).2.1.arq = session.arq ∧
      (handleIncoming crypto cipher session env raw).2.2 = [] := by
  cases decoded : decodeIncoming session.viaRelay raw with
  | error error =>
      rw [handleIncoming_of_decode_error decoded]
      exact ⟨rfl, rfl⟩
  | ok contents =>
      rcases contents with ⟨packetType, body, other⟩
      rw [handleIncoming_of_unauthenticated decoded (unauthenticated_of_opens closed)]
      cases other <;> exact ⟨rfl, rfl⟩

/-- A frame which is opened is ingested, and only its acknowledgement is sealed. -/
theorem handleIncoming_of_opened {session : UdpSession} {env : SendEnv} {raw frame : Bytes}
    (opened : session.opens cipher (.handleIncoming env raw) = some frame) :
    (handleIncoming crypto cipher session env raw).2.1.arq = (session.arq.ingest frame).2 ∧
      ∀ emission ∈ (handleIncoming crypto cipher session env raw).2.2,
        (session.arq.ingest frame).1 = .ok (some emission.plaintext) := by
  rcases opens_eq_some_iff.mp opened with ⟨body, other, decoded, read⟩
  refine ⟨handleIncoming_arq decoded read env, ?_⟩
  have arqEq : (session.notePeer other).arq = session.arq := by cases other <;> rfl
  have openMessageEq := Noise.openMessage_of_ok read
  rw [← noise_notePeer session other] at openMessageEq
  simp only [handleIncoming, decoded, openMessageEq, arqEq]
  split
  · simp
  · simp
  · rename_i ack arq ingested
    intro emission emissionMem
    unfold sealAndSend at emissionMem
    split at emissionMem
    · simp at emissionMem
    · rw [List.mem_singleton] at emissionMem
      subst emissionMem
      rw [ingested]

end UdpSession

/-! ### A session and its endpoint -/

/-- The endpoint is that of the party, and has emitted at least what the party has sealed. -/
structure Party.Matches (party : Party) (endpoint : Endpoint) : Prop where
  arq_eq : endpoint.arq = party.session.arq
  enqueued_eq : endpoint.enqueued = party.enqueued
  popped_eq : endpoint.popped = party.popped
  emitted : ∀ emission ∈ party.emissions, emission.plaintext ∈ endpoint.emitted

namespace Party.Matches

variable {crypto : OnionCrypto} {cipher : NoiseCipher} {party : Party} {endpoint : Endpoint}

theorem of_fresh {talk : Talk} (fresh : talk.Fresh) (side : Side) :
    (talk side).Matches Endpoint.initial := by
  rw [fresh.history_eq side]
  refine ⟨?_, rfl, rfl, by simp [Party.start]⟩
  exact (fresh.arq_eq side).symm

/-- An operation which seals nothing and neither queues nor takes a message. -/
theorem keep {op : SessionOp} (isMatch : party.Matches endpoint)
    (sameArq : (UdpSession.perform crypto cipher party.session op).1.arq = party.session.arq)
    (noSeal : (UdpSession.perform crypto cipher party.session op).2 = [])
    (noQueue : party.session.queues op = none) (noTake : party.session.takes op = none) :
    (party.perform crypto cipher op).Matches endpoint where
  arq_eq := isMatch.arq_eq.trans sameArq.symm
  enqueued_eq := by simp [Party.perform, noQueue, isMatch.enqueued_eq]
  popped_eq := by simp [Party.perform, noTake, isMatch.popped_eq]
  emitted := by
    simp only [Party.perform, noSeal, List.append_nil]
    exact isMatch.emitted

theorem enqueue (isMatch : party.Matches endpoint) (message : Bytes) :
    (party.perform crypto cipher (.enqueue message)).Matches (endpoint.enqueue message) := by
  rcases isMatch with ⟨arqEq, enqueuedEq, poppedEq, emitted⟩
  cases resultEq : party.session.arq.enqueue message with
  | mk result arq =>
      have sameArq : (UdpSession.perform crypto cipher party.session (.enqueue message)).1.arq =
          arq := congrArg Prod.snd resultEq
      cases result with
      | ok _ =>
          simp only [Endpoint.enqueue, arqEq, resultEq]
          refine ⟨sameArq.symm, ?_, ?_, ?_⟩
          · simp [Party.perform, UdpSession.queues, resultEq, enqueuedEq]
          · simp [Party.perform, UdpSession.takes, poppedEq]
          · simpa [Party.perform, UdpSession.perform] using emitted
      | error error =>
          simp only [Endpoint.enqueue, arqEq, resultEq]
          refine ⟨sameArq.symm, ?_, ?_, ?_⟩
          · simp [Party.perform, UdpSession.queues, resultEq, enqueuedEq]
          · simp [Party.perform, UdpSession.takes, poppedEq]
          · simpa [Party.perform, UdpSession.perform] using emitted

theorem popDelivered (isMatch : party.Matches endpoint) :
    (party.perform crypto cipher .popDelivered).Matches endpoint.popDelivered := by
  rcases isMatch with ⟨arqEq, enqueuedEq, poppedEq, emitted⟩
  refine ⟨?_, ?_, ?_, ?_⟩
  · simp only [Endpoint.popDelivered, arqEq]
    rfl
  · simp [Party.perform, UdpSession.queues, Endpoint.popDelivered, enqueuedEq]
  · simp [Party.perform, UdpSession.takes, Endpoint.popDelivered, arqEq, poppedEq]
  · simpa [Party.perform, UdpSession.perform, Endpoint.popDelivered] using emitted

theorem flush (isMatch : party.Matches endpoint) (newEnvs dueEnvs : ℕ → SendEnv)
    (now : Instant) :
    (party.perform crypto cipher (.flush newEnvs dueEnvs now)).Matches
      ((party.session.localOps crypto cipher (.flush newEnvs dueEnvs now)).foldl Endpoint.perform
        endpoint) := by
  have flushed := (UdpSession.flushed_flush crypto cipher party.session newEnvs dueEnvs
    now).follows isMatch.arq_eq
  refine ⟨flushed.arq_eq, ?_, ?_, ?_⟩
  · rw [flushed.enqueued_eq, isMatch.enqueued_eq]
    simp [Party.perform, UdpSession.queues]
  · rw [flushed.popped_eq, isMatch.popped_eq]
    simp [Party.perform, UdpSession.takes]
  · intro emission emissionMem
    rcases List.mem_append.mp emissionMem with old | new
    · exact flushed.grows (isMatch.emitted emission old)
    · exact flushed.emitted emission new

theorem setRetxTimeout (isMatch : party.Matches endpoint) (retx : Duration) :
    (party.perform crypto cipher (.setRetxTimeout retx)).Matches (endpoint.setRetx retx) := by
  rcases isMatch with ⟨arqEq, enqueuedEq, poppedEq, emitted⟩
  refine ⟨?_, ?_, ?_, ?_⟩
  · simp only [Endpoint.setRetx, arqEq]
    rfl
  · simp [Party.perform, UdpSession.queues, Endpoint.setRetx, enqueuedEq]
  · simp [Party.perform, UdpSession.takes, Endpoint.setRetx, poppedEq]
  · simpa [Party.perform, UdpSession.perform, Endpoint.setRetx] using emitted

/-- What opens nothing is done by the endpoint alone. -/
theorem perform_closed (isMatch : party.Matches endpoint) {op : SessionOp}
    (closed : party.session.opens cipher op = none) :
    (party.perform crypto cipher op).Matches
      ((party.session.localOps crypto cipher op).foldl Endpoint.perform endpoint) := by
  cases op with
  | handleIncoming env raw =>
      have untouched : (UdpSession.handleIncoming crypto cipher party.session env raw).2.1.arq = _ ∧
          _ := UdpSession.handleIncoming_of_closed closed
      exact isMatch.keep untouched.1 untouched.2 rfl rfl
  | flush newEnvs dueEnvs now => exact isMatch.flush newEnvs dueEnvs now
  | maybeCover env now random =>
      refine isMatch.keep ?_ rfl rfl rfl
      simp only [UdpSession.perform, UdpSession.maybeCover]
      split
      · rfl
      · split_ifs <;> rfl
  | enqueue message => exact isMatch.enqueue message
  | popDelivered => exact isMatch.popDelivered
  | debugDropData count => exact isMatch.keep rfl rfl rfl rfl
  | setRetxTimeout retx => exact isMatch.setRetxTimeout retx
  | setCover mode now => exact isMatch.keep rfl rfl rfl rfl
  | setOutboundOnion hops dest =>
      refine isMatch.keep ?_ rfl rfl rfl
      cases hops <;> rfl

/-- A frame which is opened arrives at the endpoint. -/
theorem perform_opened (isMatch : party.Matches endpoint) {op : SessionOp} {frame : Bytes}
    (opened : party.session.opens cipher op = some frame) :
    (party.perform crypto cipher op).Matches (endpoint.receive frame) := by
  cases op with
  | handleIncoming env raw =>
      have ingested : (UdpSession.handleIncoming crypto cipher party.session env raw).2.1.arq = _ ∧
          _ := UdpSession.handleIncoming_of_opened opened
      rcases isMatch with ⟨arqEq, enqueuedEq, poppedEq, emitted⟩
      cases resultEq : party.session.arq.ingest frame with
      | mk result arq =>
          rw [resultEq] at ingested
          cases result with
          | error error =>
              simp only [Endpoint.receive, arqEq, resultEq]
              refine ⟨ingested.1.symm, ?_, ?_, ?_⟩
              · simp [Party.perform, UdpSession.queues, enqueuedEq]
              · simp [Party.perform, UdpSession.takes, poppedEq]
              · intro emission emissionMem
                rcases List.mem_append.mp emissionMem with old | new
                · exact emitted emission old
                · cases ingested.2 emission new
          | ok ack =>
              simp only [Endpoint.receive, arqEq, resultEq]
              refine ⟨ingested.1.symm, ?_, ?_, ?_⟩
              · simp [Party.perform, UdpSession.queues, enqueuedEq]
              · simp [Party.perform, UdpSession.takes, poppedEq]
              · intro emission emissionMem
                rcases List.mem_append.mp emissionMem with old | new
                · exact List.mem_append_left _ (emitted emission old)
                · have ackEq := ingested.2 emission new
                  simp only [Except.ok.injEq] at ackEq
                  simp [ackEq]
  | flush newEnvs dueEnvs now => cases opened
  | maybeCover env now random => cases opened
  | enqueue message => cases opened
  | popDelivered => cases opened
  | debugDropData count => cases opened
  | setRetxTimeout retx => cases opened
  | setCover mode now => cases opened
  | setOutboundOnion hops dest => cases opened

end Party.Matches

/-- What the endpoint of a party does when the party performs an operation. -/
def Party.drive (crypto : OnionCrypto) (cipher : NoiseCipher) (party : Party)
    (endpoint : Endpoint) (op : SessionOp) : Endpoint :=
  match party.session.opens cipher op with
  | none => (party.session.localOps crypto cipher op).foldl Endpoint.perform endpoint
  | some frame => endpoint.receive frame

theorem Party.Matches.drive {crypto : OnionCrypto} {cipher : NoiseCipher} {party : Party}
    {endpoint : Endpoint} (isMatch : party.Matches endpoint) (op : SessionOp) :
    (party.perform crypto cipher op).Matches (party.drive crypto cipher endpoint op) := by
  cases opened : party.session.opens cipher op with
  | none =>
      simp only [Party.drive, opened]
      exact isMatch.perform_closed opened
  | some frame =>
      simp only [Party.drive, opened]
      exact isMatch.perform_opened opened

theorem Party.receiveState_foldl (endpoint : Endpoint) (ops : List LocalOp) :
    (ops.foldl Endpoint.perform endpoint).receiveState = endpoint.receiveState := by
  induction ops generalizing endpoint with
  | nil => rfl
  | cons op rest ih => exact (ih (endpoint.perform op)).trans (endpoint.receiveState_perform op)

/-- Whatever the endpoint has accepted, the party has opened. -/
def Party.Heard (party : Party) (endpoint : Endpoint) : Prop :=
  ∀ seq ∈ endpoint.accepted, ∃ frame ∈ party.opened, ∃ fragId index total payload,
    decodeInner frame = .ok (.data seq fragId index total payload)

theorem Party.Heard.drive {party : Party} {endpoint : Endpoint} (heard : party.Heard endpoint)
    (crypto : OnionCrypto) (cipher : NoiseCipher) (op : SessionOp) :
    (party.perform crypto cipher op).Heard (party.drive crypto cipher endpoint op) := by
  have kept : ∀ seq ∈ endpoint.accepted, ∃ frame ∈ (party.perform crypto cipher op).opened,
      ∃ fragId index total payload,
        decodeInner frame = .ok (.data seq fragId index total payload) := by
    intro seq seqMem
    rcases heard seq seqMem with ⟨frame, frameMem, decoded⟩
    exact ⟨frame, List.mem_append_left _ frameMem, decoded⟩
  cases opened : party.session.opens cipher op with
  | none =>
      have same := receiveState_foldl endpoint (party.session.localOps crypto cipher op)
      simp only [Endpoint.receiveState, Prod.mk.injEq] at same
      simp only [Party.Heard, Party.drive, opened, same.1]
      exact kept
  | some frame =>
      have frameMem : frame ∈ (party.perform crypto cipher op).opened := by
        simp [Party.perform, opened]
      simp only [Party.Heard, Party.drive, opened]
      rcases decodeInner_cases frame with
        ⟨seq, fragId, index, total, payload, _, _, decoded⟩ | ⟨base, bits, _, decoded⟩ |
        ⟨error, decoded⟩
      · rw [Arq.receive_data endpoint decoded]
        intro other otherMem
        rcases List.mem_append.mp otherMem with old | new
        · exact kept other old
        · split_ifs at new with fresh
          · rw [List.mem_singleton.mp new]
            exact ⟨frame, frameMem, _, _, _, _, decoded⟩
          · cases new
      · rw [Arq.receive_ack endpoint decoded]
        exact kept
      · rw [Arq.receive_error endpoint decoded]
        exact kept

/-! ### Runs -/

namespace Talk

variable {crypto : OnionCrypto} {cipher : NoiseCipher} {talk : Talk} {net : Net}

/-- Each session runs on top of its endpoint. -/
def Matches (talk : Talk) (net : Net) : Prop := ∀ side, (talk side).Matches (net.endpoint side)

theorem steps_perform (net : Net) (side : Side) (ops : List LocalOp) :
    net.steps (ops.map (.perform side)) =
      net.set (ops.foldl Endpoint.perform (net.endpoint side)) side := by
  induction ops generalizing net with
  | nil => cases side <;> rfl
  | cons op rest ih =>
      have restEq := ih (net.step (.perform side op))
      simp only [Net.steps, List.map_cons, List.foldl_cons] at restEq ⊢
      rw [restEq]
      cases side <;> rfl

/-- What the endpoints do in an event. -/
def drive (crypto : OnionCrypto) (cipher : NoiseCipher) (talk : Talk) (net : Net)
    (event : Side × SessionOp) : Net :=
  net.set ((talk event.1).drive crypto cipher (net.endpoint event.1) event.2) event.1

theorem Matches.step (isMatch : talk.Matches net) (event : Side × SessionOp) :
    (talk.step crypto cipher event).Matches (talk.drive crypto cipher net event) := by
  rcases event with ⟨side, op⟩
  intro target
  rcases side.eq_or_eq_peer target with rfl | rfl
  · rw [step_self, drive, Net.endpoint_set_self]
    exact (isMatch target).drive op
  · rw [step_peer, drive, Net.endpoint_set_peer]
    exact isMatch side.peer

/-- What a party opens was emitted by the endpoint of its peer. -/
theorem Matches.mem_emitted {first : Side → ℕ} (isMatch : talk.Matches net)
    (inStep : talk.InStep cipher first) (lawful : cipher.Lawful) {side : Side} {op : SessionOp}
    (genuine : talk.Genuine cipher (side, op)) {frame : Bytes}
    (opened : (talk side).session.opens cipher op = some frame) :
    frame ∈ (net.endpoint side.peer).emitted := by
  rcases genuine.exists_emission opened with ⟨emission, emissionMem, _, read⟩
  have reversed := inStep side.peer
  rw [Side.peer_peer] at reversed
  rw [← (reversed.emission_of_opened lawful emissionMem read).2]
  exact (isMatch side.peer).emitted emission emissionMem

/-- One event is a few moves of the endpoints and the channel. -/
theorem Matches.exists_actions (crypto : OnionCrypto) {first : Side → ℕ}
    (isMatch : talk.Matches net)
    (inStep : talk.InStep cipher first) (lawful : cipher.Lawful) {event : Side × SessionOp}
    (genuine : talk.Genuine cipher event) :
    ∃ actions, net.steps actions = talk.drive crypto cipher net event := by
  rcases event with ⟨side, op⟩
  cases opened : (talk side).session.opens cipher op with
  | none =>
      refine ⟨((talk side).session.localOps crypto cipher op).map (.perform side), ?_⟩
      simp only [drive, Party.drive, opened, steps_perform]
  | some frame =>
      rcases List.mem_iff_getElem?.mp (isMatch.mem_emitted inStep lawful genuine opened) with
        ⟨index, present⟩
      refine ⟨[.deliver side index], ?_⟩
      simp only [Net.steps, List.foldl_cons, List.foldl_nil, Net.step, present, drive, Party.drive,
        opened]

/-- The sessions run on top of endpoints over an unreliable channel. -/
structure Tracked (talk : Talk) (net : Net) : Prop where
  isMatch : talk.Matches net
  reached : ∃ actions, net = Net.run actions
  heard : ∀ side, (talk side).Heard (net.endpoint side)

theorem Fresh.tracked (fresh : talk.Fresh) : talk.Tracked Net.initial := by
  have initialEq : ∀ side, Net.initial.endpoint side = Endpoint.initial := by
    intro side
    cases side <;> rfl
  refine ⟨?_, ⟨[], rfl⟩, ?_⟩
  · intro side
    rw [initialEq]
    exact .of_fresh fresh side
  · intro side seq seqMem
    rw [initialEq] at seqMem
    cases seqMem

theorem Tracked.step {first : Side → ℕ} (tracked : talk.Tracked net) (crypto : OnionCrypto)
    (inStep : talk.InStep cipher first) (lawful : cipher.Lawful) {event : Side × SessionOp}
    (genuine : talk.Genuine cipher event) :
    (talk.step crypto cipher event).Tracked (talk.drive crypto cipher net event) := by
  rcases tracked with ⟨isMatch, ⟨before, reached⟩, heard⟩
  refine ⟨isMatch.step event, ?_, ?_⟩
  · rcases isMatch.exists_actions crypto inStep lawful genuine with ⟨now, actionsEq⟩
    refine ⟨before ++ now, ?_⟩
    rw [Net.run, Net.steps_append, ← Net.run, ← reached, actionsEq]
  · rcases event with ⟨side, op⟩
    intro target
    rcases side.eq_or_eq_peer target with rfl | rfl
    · rw [step_self, drive, Net.endpoint_set_self]
      exact (heard target).drive crypto cipher op
    · rw [step_peer, drive, Net.endpoint_set_peer]
      exact heard side.peer

theorem Tracked.steps {first : Side → ℕ} (tracked : talk.Tracked net)
    (inStep : talk.InStep cipher first) (lawful : cipher.Lawful)
    {events : List (Side × SessionOp)} (unforged : talk.Unforged crypto cipher events) :
    ∃ after, (talk.steps crypto cipher events).Tracked after := by
  induction events generalizing talk net with
  | nil => exact ⟨net, tracked⟩
  | cons event rest ih =>
      exact ih (tracked.step crypto inStep lawful unforged.1) (inStep.step lawful unforged.1)
        unforged.2

/-- Few enough fragments were queued by either session for their numbers to be unambiguous. -/
def Bounded (talk : Talk) : Prop :=
  ∀ side, Arq.totalFragments (talk side).enqueued ≤ 2 ^ 32 - 1000000

theorem Matches.bounded (isMatch : talk.Matches net) (bounded : talk.Bounded) : net.Bounded := by
  intro side
  rw [Endpoint.fragmentsEnqueued, (isMatch side).enqueued_eq]
  exact bounded side

/-- Every message which was delivered at a party, to the application or to be taken by it. -/
def delivered (talk : Talk) (side : Side) : List Bytes :=
  (talk side).popped ++ (talk side).session.arq.delivered

theorem Tracked.linked (tracked : talk.Tracked net) (bounded : talk.Bounded) :
    ∃ flows, net.LinkedBy flows := by
  rcases tracked.reached with ⟨actions, rfl⟩
  exact Net.linkedBy_run actions (tracked.isMatch.bounded bounded)

theorem Matches.pushed_eq (isMatch : talk.Matches net) (side : Side) :
    (net.endpoint side).pushed = talk.delivered side := by
  rw [Endpoint.pushed, (isMatch side).popped_eq, (isMatch side).arq_eq, delivered]

/--
A run of two sessions over a hostile network which forges nothing is a run of their
ARQ endpoints over a channel which loses, duplicates and reorders.  So the messages
delivered at one side are an injective selection of those queued at the other, each
unaltered; and if a side has nothing left to be acknowledged, all it has queued was
delivered.
-/
theorem sessions_refine_endpoints (crypto : OnionCrypto) {cipher : NoiseCipher}
    (lawful : cipher.Lawful) {talk : Talk} (fresh : talk.Fresh)
    (events : List (Side × SessionOp)) (unforged : talk.Unforged crypto cipher events)
    (bounded : (talk.steps crypto cipher events).Bounded) :
    (∃ actions, ∀ side,
      ((Net.run actions).endpoint side).arq =
        (talk.steps crypto cipher events side).session.arq ∧
      ((Net.run actions).endpoint side).enqueued =
        (talk.steps crypto cipher events side).enqueued ∧
      ((Net.run actions).endpoint side).popped = (talk.steps crypto cipher events side).popped) ∧
    ∀ side,
      (∃ origin : Fin ((talk.steps crypto cipher events).delivered side.peer).length →
          Fin (talk.steps crypto cipher events side).enqueued.length,
        Function.Injective origin ∧
        ∀ delivery, ((talk.steps crypto cipher events).delivered side.peer).get delivery =
          (talk.steps crypto cipher events side).enqueued.get (origin delivery)) ∧
      ((talk.steps crypto cipher events side).session.arq.unackedLen = 0 →
        ((talk.steps crypto cipher events).delivered side.peer).Perm
          (talk.steps crypto cipher events side).enqueued) := by
  rcases fresh.tracked.steps fresh.inStep lawful unforged with ⟨net, tracked⟩
  rcases tracked.linked bounded with ⟨flows, linked⟩
  rcases tracked with ⟨isMatch, ⟨actions, rfl⟩, _⟩
  refine ⟨⟨actions, fun side => ⟨(isMatch side).arq_eq, (isMatch side).enqueued_eq,
    (isMatch side).popped_eq⟩⟩, ?_⟩
  intro side
  have reassembly := (linked side).receives.reassembly
  rw [isMatch.pushed_eq, (isMatch side).enqueued_eq] at reassembly
  refine ⟨reassembly.exists_origin, ?_⟩
  intro allAcked
  rw [← (isMatch side).arq_eq] at allAcked
  apply reassembly.pushed_perm
  rw [← (isMatch side).enqueued_eq]
  intro number wasQueued
  exact (linked side).accepted_of_allAcked allAcked wasQueued

/-- The acknowledgement of a message comes back. -/
def acknowledged : List (Side × SessionOp) :=
  replayed ++ [(.left, .handleIncoming UdpSession.sampleEnv
    (wireAt (sampleTalk.steps Onion.sampleCrypto tagCipher replayed .right) 0))]

theorem sessions_refine_endpoints_acknowledged :
    (sampleTalk.steps Onion.sampleCrypto tagCipher acknowledged .left).session.arq.unackedLen = 0 ∧
    ((sampleTalk.steps Onion.sampleCrypto tagCipher acknowledged).delivered .right).Perm
      (sampleTalk.steps Onion.sampleCrypto tagCipher acknowledged .left).enqueued := by
  have unforged : sampleTalk.Unforged Onion.sampleCrypto tagCipher acknowledged := by
    decide +kernel
  have bounded : (sampleTalk.steps Onion.sampleCrypto tagCipher acknowledged).Bounded := by
    intro side
    cases side <;> decide +kernel
  have allAcked : (sampleTalk.steps Onion.sampleCrypto tagCipher acknowledged
      .left).session.arq.unackedLen = 0 := by decide +kernel
  exact ⟨allAcked, ((sessions_refine_endpoints Onion.sampleCrypto tagCipher_lawful
    sampleTalk_fresh acknowledged unforged bounded).2 .left).2 allAcked⟩

end Talk

end Ppose

import Ppose.Session.Fifo

/-!
# What is acknowledged when nothing is on its way

Every fragment which arrives is answered with the state of the window, and over sessions no
answer is overtaken by an older one.  So what a receiver has accepted is known to the
sender, or the acknowledgement of the present window is among the frames on their way back:
this is the invariant `Answered`, for as long as the receiver is alive.

It follows that a conversation does not get stuck.  If both sides are alive and nothing is
on its way between them, then every fragment which was sent is acknowledged, and the
receiver expects just the next one (`acknowledged_when_quiet`); there is nothing for a
retransmission to repair.
-/

namespace Ppose

open Arq (Side LocalOp Endpoint Net IsFrame)

/-! ### Nothing accepted is still held -/

namespace Arq

variable {sender receiver sender' receiver' : Endpoint} {flow next : Flow}

/-- The sender holds no fragment which the receiver has accepted. -/
def Settled (sender receiver : Endpoint) : Prop :=
  ∀ entry ∈ sender.arq.unacked.entries, entry.1 ∉ receiver.accepted

theorem Linked.settled_iff (linked : Linked sender receiver flow) :
    Settled sender receiver ↔ ∀ number ∈ flow.outstanding, number ∉ flow.accepted := by
  constructor
  · intro settled number held isAccepted
    rcases (linked.sends.outstanding_iff number).mp held with ⟨entry, entryMem, rfl⟩
    rcases (linked.receives.accepted_iff _).mp isAccepted with ⟨seq, seqMem, seqEq⟩
    rw [UInt32.toNat_inj.mp seqEq] at seqMem
    exact settled entry entryMem seqMem
  · intro apart entry entryMem isAccepted
    exact apart _ (linked.sends.key_mem entryMem)
      ((linked.receives.accepted_iff _).mpr ⟨entry.1, isAccepted, rfl⟩)

/-- It stays so until something more is accepted. -/
theorem Linked.settled_of_steps (linked : Linked sender receiver flow)
    (moves : FlowSteps flow next) (after : Linked sender' receiver' next)
    (sameAccepted : receiver'.accepted = receiver.accepted) (settled : Settled sender receiver) :
    Settled sender' receiver' := by
  rw [linked.settled_iff] at settled
  rw [after.settled_iff]
  intro number held isAccepted
  have wasAccepted : number ∈ flow.accepted := by
    rw [linked.receives.accepted_iff, ← sameAccepted]
    exact (after.receives.accepted_iff number).mp isAccepted
  rcases (Flow.outstanding_or_queued_of_steps moves).2 number held with old | fresh
  · exact settled number old wasAccepted
  · have below := linked.valid.accepted_sent number wasAccepted
    have := linked.valid.sent_le_queued
    omega

/-- The acknowledgement of the present window settles everything. -/
theorem Linked.settled_of_ack (linked : Linked sender receiver flow)
    (few : sender.fragmentsEnqueued ≤ 2 ^ 32 - 1000000) :
    Settled (sender.receive (encodeAck receiver.arq.recvBase receiver.arq.recvBits)) receiver := by
  have tracks := linked.sends.onAck linked.valid (linked.queued_le few) subset_rfl
    linked.receives.window
  rw [receive_encodeAck]
  intro entry entryMem isAccepted
  have held := tracks.key_mem entryMem
  exact (Finset.mem_sdiff.mp held).2
    ((linked.receives.accepted_iff _).mpr ⟨entry.1, isAccepted, rfl⟩)

end Arq

/-! ### The answer to a frame -/

/-- What an endpoint answers to a frame. -/
def Arq.answer (arq : Arq) (frame : Bytes) : List Bytes :=
  match (arq.ingest frame).1 with
  | .ok (some ack) => [ack]
  | _ => []

theorem Arq.isAck_of_mem_answer {arq : Arq} {frame ack : Bytes} (ackMem : ack ∈ arq.answer frame) :
    IsAck ack := by
  unfold answer at ackMem
  split at ackMem
  · rename_i found resultEq
    rw [List.mem_singleton.mp ackMem]
    exact isAck_of_ingest (Prod.ext resultEq rfl)
  · cases ackMem

theorem Arq.answer_data {arq : Arq} {frame payload : Bytes} {seq : UInt32} {fragId : UInt16}
    {index total : UInt8}
    (decoded : decodeInner frame = .ok (.data seq fragId index total payload)) :
    arq.answer frame = [encodeAck (arq.ingest frame).2.recvBase (arq.ingest frame).2.recvBits] := by
  simp only [answer, ingest_data arq decoded]

theorem Arq.answer_ack (arq : Arq) (base : UInt32) (bits : UInt64) :
    arq.answer (encodeAck base bits) = [] := by
  simp only [answer, ingest_encodeAck]

theorem UdpSession.handleIncoming_answers (crypto : OnionCrypto) {cipher : NoiseCipher}
    {session : UdpSession} {env : SendEnv} {raw frame : Bytes}
    (opened : session.opens cipher (.handleIncoming env raw) = some frame) :
    Attempts (session.arq.answer frame) (handleIncoming crypto cipher session env raw).2.1
      (handleIncoming crypto cipher session env raw).2.2 := by
  rcases opens_eq_some_iff.mp opened with ⟨body, other, decoded, read⟩
  have arqEq : (session.notePeer other).arq = session.arq := by cases other <;> rfl
  have openMessageEq := Noise.openMessage_of_ok read
  rw [← noise_notePeer session other] at openMessageEq
  simp only [handleIncoming, decoded, openMessageEq, arqEq, Arq.answer]
  cases ingested : session.arq.ingest frame with
  | mk result arq =>
      rcases result with error | (_ | ack)
      · exact ⟨List.prefix_rfl, fun _ _ => rfl⟩
      · exact ⟨List.prefix_rfl, fun _ _ => rfl⟩
      · apply SealsInTurn.attempts
        apply sealAndSend_inTurn
        rcases Arq.isAck_of_ingest ingested with ⟨base, bits, rfl⟩
        rw [length_encodeAck]
        decide

/-! ### Word of what was accepted is on its way -/

namespace Party

variable {crypto : OnionCrypto} {cipher : NoiseCipher} {sender receiving : Party}
  {source target : Endpoint}

/--
As long as the receiver is alive, what it has accepted is settled, or the acknowledgement
of its present window is on its way back.
-/
def Answered (sender receiving : Party) (source target : Endpoint) : Prop :=
  receiving.Live → Arq.Settled source target ∨
    encodeAck target.arq.recvBase target.arq.recvBits ∈ receiving.awaited sender

theorem Live.of_perform {party : Party} {op : SessionOp}
    (live : (party.perform crypto cipher op).Live) : party.Live := by
  have advances := UdpSession.perform_advances crypto cipher party.session op
  have usable : _ < maxNonce := live.usable
  rw [perform, advances.emits.final_eq] at usable
  exact ⟨fun emission mem => live.sent emission (List.mem_append_left _ mem), by omega⟩

theorem awaited_of_closed {op : SessionOp} (closed : sender.session.opens cipher op = none) :
    receiving.awaited (sender.perform crypto cipher op) = receiving.awaited sender := by
  simp only [awaited, perform, closed, Option.toList_none, List.append_nil]

/-- What a party has sealed is on its way, if all of it was sent. -/
theorem awaited_perform_of_sent {first : ℕ} (follows : Follows cipher first receiving sender)
    (live : receiving.Live) {op : SessionOp}
    (allSent : ∀ emission ∈ (UdpSession.perform crypto cipher receiving.session op).2,
      emission.sent.isOk = true) :
    (receiving.perform crypto cipher op).awaited sender = receiving.awaited sender ++
      (UdpSession.perform crypto cipher receiving.session op).2.map Emission.plaintext := by
  rw [awaited_perform_of_live follows live, List.takeWhile_eq_self_iff.mpr allSent]

theorem awaited_perform_of_live_after {first : ℕ}
    (follows : Follows cipher first receiving sender) {op : SessionOp}
    (live : (receiving.perform crypto cipher op).Live) :
    (receiving.perform crypto cipher op).awaited sender = receiving.awaited sender ++
      (UdpSession.perform crypto cipher receiving.session op).2.map Emission.plaintext :=
  awaited_perform_of_sent follows live.of_perform
    fun emission mem => live.sent emission (List.mem_append_right _ mem)

variable {first firstBack level final : ℕ} {flow next : Flow} {op : SessionOp}

/-- Whatever the sender does, and in particular if it reads the acknowledgement. -/
theorem Answered.perform_sender (answered : Answered sender receiving source target)
    (linked : Arq.Linked source target flow)
    (few : source.fragmentsEnqueued ≤ 2 ^ 32 - 1000000)
    (followsBack : Follows cipher firstBack receiving sender) (lawful : cipher.Lawful)
    (moves : Arq.FlowSteps flow next)
    (after : Arq.Linked (sender.drive crypto cipher source op) target next)
    (genuine : ∀ frame, sender.session.opens cipher op = some frame →
      ∃ emission ∈ receiving.emissions, emission.sent.isOk = true ∧
        (sender.session.noise.openMessage cipher emission.body).1 = .ok frame) :
    Answered (sender.perform crypto cipher op) receiving (sender.drive crypto cipher source op)
      target := by
  intro live
  rcases answered live with settled | onWay
  · exact Or.inl (linked.settled_of_steps moves after rfl settled)
  · cases opened : sender.session.opens cipher op with
    | none =>
        rw [awaited_of_closed opened]
        exact Or.inr onWay
    | some frame =>
        rw [awaited_of_opened crypto followsBack lawful opened (genuine frame opened)] at onWay
        rcases List.mem_cons.mp onWay with rfl | inRest
        · left
          simp only [drive, opened]
          exact linked.settled_of_ack few
        · exact Or.inr inRest

/-- A receiver which opens a fragment answers with its new window. -/
theorem ack_mem_awaited (isMatch : receiving.Matches target)
    (followsBack : Follows cipher firstBack receiving sender) {frame : Bytes}
    (opened : receiving.session.opens cipher op = some frame) {seq : UInt32} {fragId : UInt16}
    {index total : UInt8} {payload : Bytes}
    (decoded : decodeInner frame = .ok (.data seq fragId index total payload))
    (live : (receiving.perform crypto cipher op).Live) :
    encodeAck (target.receive frame).arq.recvBase (target.receive frame).arq.recvBits ∈
      (receiving.perform crypto cipher op).awaited sender := by
  cases op with
  | handleIncoming env raw =>
      have attempts := UdpSession.handleIncoming_answers crypto opened
      have sealedEq := attempts.complete
        (fun emission mem => live.sent emission (List.mem_append_right _ mem)) live.usable
      have arqEq : (target.receive frame).arq = (receiving.session.arq.ingest frame).2 := by
        rw [← isMatch.arq_eq, Arq.receive_data target decoded, Arq.ingest_data target.arq decoded]
      have answerEq : receiving.session.arq.answer frame = _ := Arq.answer_data decoded
      rw [awaited_perform_of_live_after followsBack live]
      apply List.mem_append_right
      simp only [UdpSession.perform, sealedEq, answerEq, arqEq, List.mem_singleton]
  | flush newEnvs dueEnvs now => cases opened
  | maybeCover env now random => cases opened
  | enqueue message => cases opened
  | popDelivered => cases opened
  | debugDropData count => cases opened
  | setRetxTimeout retx => cases opened
  | setCover mode now => cases opened
  | setOutboundOnion hops dest => cases opened

theorem Answered.perform_receiver (answered : Answered sender receiving source target)
    (linked : Arq.Linked source target flow) (isMatch : receiving.Matches target)
    (sendMatch : sender.Matches source)
    (orderly : Orderly sender receiving source target level final)
    (follows : Follows cipher first sender receiving)
    (followsBack : Follows cipher firstBack receiving sender) (lawful : cipher.Lawful)
    (genuine : ∀ frame, receiving.session.opens cipher op = some frame →
      ∃ emission ∈ sender.emissions, emission.sent.isOk = true ∧
        (receiving.session.noise.openMessage cipher emission.body).1 = .ok frame) :
    Answered sender (receiving.perform crypto cipher op) source
      (receiving.drive crypto cipher target op) := by
  intro live
  -- Unless a fragment is opened, the window is as before.
  have kept : (receiving.drive crypto cipher target op).receiveState = target.receiveState →
      Arq.Settled source (receiving.drive crypto cipher target op) ∨
        encodeAck (receiving.drive crypto cipher target op).arq.recvBase
          (receiving.drive crypto cipher target op).arq.recvBits ∈
          (receiving.perform crypto cipher op).awaited sender := by
    intro same
    simp only [Endpoint.receiveState, Prod.mk.injEq] at same
    rcases same with ⟨acceptedEq, baseEq, bitsEq, _⟩
    rw [Arq.Settled, acceptedEq, baseEq, bitsEq, awaited_perform_of_live_after followsBack live]
    rcases answered (Live.of_perform live) with settled | onWay
    · exact Or.inl settled
    · exact Or.inr (List.mem_append_left _ onWay)
  cases opened : receiving.session.opens cipher op with
  | none =>
      apply kept
      simp only [drive, opened]
      exact receiveState_foldl _ _
  | some frame =>
      have climbs := orderly.climbs
      rw [awaited_of_opened crypto follows lawful opened (genuine frame opened)] at climbs
      cases climbs with
      | plain isAck _ =>
          rcases isAck with ⟨base, bits, rfl⟩
          apply kept
          simp only [drive, opened, Arq.receive_encodeAck]
          rfl
      | number isFrame _ _ =>
          have short := linked.sends.short
          rw [sendMatch.enqueued_eq] at short
          rcases Arq.decodeInner_of_isFrame short isFrame with ⟨_, _, _, _, decoded⟩
          simp only [drive, opened]
          exact Or.inr (ack_mem_awaited isMatch followsBack opened decoded live)

end Party

/-! ### Runs -/

namespace Talk

variable {crypto : OnionCrypto} {cipher : NoiseCipher} {talk : Talk} {net : Net}

/-- In both directions. -/
def Answered (talk : Talk) (net : Net) : Prop :=
  ∀ side, Party.Answered (talk side) (talk side.peer) (net.endpoint side) (net.endpoint side.peer)

theorem answered_initial (talk : Talk) : talk.Answered Net.initial := by
  intro side _
  left
  intro entry entryMem
  cases side <;> cases entryMem

theorem Answered.step {first : Side → ℕ} (answered : talk.Answered net)
    (inOrder : talk.InOrder net) (inStep : talk.InStep cipher first) (lawful : cipher.Lawful)
    {event : Side × SessionOp} (genuine : talk.Genuine cipher event) (bounded : talk.Bounded)
    (boundedAfter : (talk.step crypto cipher event).Bounded) :
    (talk.step crypto cipher event).Answered (talk.drive crypto cipher net event) := by
  rcases inOrder with ⟨tracked, _, orderly⟩
  rcases tracked.linked bounded with ⟨flows, linked⟩
  have trackedAfter := tracked.step crypto inStep lawful genuine
  have fewAfter := trackedAfter.isMatch.bounded boundedAfter
  rcases tracked.isMatch.exists_actions crypto inStep lawful genuine with ⟨actions, actionsEq⟩
  rw [← actionsEq] at fewAfter
  rcases Net.linkedBy_steps linked actions fewAfter with ⟨nexts, moves, linkedAfter⟩
  rw [actionsEq] at linkedAfter
  rcases event with ⟨side, op⟩
  have few := tracked.isMatch.bounded bounded
  have followsBack := inStep side.peer
  have answeredBack := answered side.peer
  have orderlyBack := orderly side.peer
  have linkedBack := linked side.peer
  have afterSide := linkedAfter side
  rw [Side.peer_peer] at followsBack answeredBack orderlyBack linkedBack
  rw [drive, Net.endpoint_set_self, Net.endpoint_set_peer] at afterSide
  intro target
  rcases side.eq_or_eq_peer target with rfl | rfl
  · rw [step_self, step_peer, drive, Net.endpoint_set_self, Net.endpoint_set_peer]
    exact (answered target).perform_sender (linked target) (few target) followsBack lawful
      (moves target) afterSide fun frame opened => genuine.exists_emission opened
  · rw [step_peer, drive, Net.endpoint_set_peer, Side.peer_peer, step_self, Net.endpoint_set_self]
    rcases orderlyBack with ⟨level, final, ordered⟩
    exact answeredBack.perform_receiver linkedBack (tracked.isMatch side)
      (tracked.isMatch side.peer) ordered followsBack (inStep side) lawful
      fun frame opened => genuine.exists_emission opened

/--
If nothing is on its way between two parties which are alive, then whatever was sent is
acknowledged.
-/
theorem InOrder.unsent_of_quiet (inOrder : talk.InOrder net) (answered : talk.Answered net)
    (bounded : talk.Bounded) (live : ∀ side, (talk side).Live)
    (quiet : ∀ side, (talk side).awaited (talk side.peer) = []) (side : Side) :
    ∀ entry ∈ (net.endpoint side).arq.unacked.entries, entry.2.isSent = false := by
  rcases inOrder.tracked.linked bounded with ⟨flows, linked⟩
  rcases inOrder.orderly side with ⟨level, final, ordered⟩
  have climbs := ordered.climbs
  rw [quiet side] at climbs
  cases climbs
  have quietBack := quiet side.peer
  rw [Side.peer_peer] at quietBack
  have settled : Arq.Settled (net.endpoint side) (net.endpoint side.peer) := by
    apply (answered side (live side.peer)).resolve_right
    rw [quietBack]
    exact List.not_mem_nil
  intro entry entryMem
  by_contra isSent
  have numberLt := ((linked side).sends.slot entry entryMem).2.mp (by simpa using isSent)
  rw [← (linked side).sentCount_eq, ← ordered.live (live side)] at numberLt
  rcases (ordered.inOrder.receives.accepted_iff _).mp (Finset.mem_range.mpr numberLt) with
    ⟨seq, seqMem, seqEq⟩
  rw [UInt32.toNat_inj.mp seqEq] at seqMem
  exact settled entry entryMem seqMem

/-- The window of the receiver then starts at the first fragment which was not sent yet. -/
theorem InOrder.recvBase_of_quiet (inOrder : talk.InOrder net) (answered : talk.Answered net)
    (bounded : talk.Bounded) (live : ∀ side, (talk side).Live)
    (quiet : ∀ side, (talk side).awaited (talk side.peer) = []) (side : Side) :
    (talk side.peer).session.arq.recvBase.toNat + (talk side).session.arq.unackedLen =
      Arq.totalFragments (talk side).enqueued := by
  have noneSent := inOrder.unsent_of_quiet answered bounded live quiet side
  rcases inOrder.tracked.linked bounded with ⟨flows, linked⟩
  rcases inOrder.orderly side with ⟨level, final, ordered⟩
  have isMatch := inOrder.tracked.isMatch
  have climbs := ordered.climbs
  rw [quiet side] at climbs
  cases climbs
  have levelEq := (ordered.live (live side)).trans (linked side).sentCount_eq
  rcases (linked side).sends.split (linked side).valid with
    ⟨before, after, entriesEq, beforeSent, _, keysEq, _⟩
  have beforeEq : before = [] := by
    apply List.eq_nil_iff_forall_not_mem.mpr
    intro entry entryMem
    have unsent := noneSent entry (by simp [entriesEq, entryMem])
    rw [beforeSent entry entryMem] at unsent
    cases unsent
  have unackedEq : (net.endpoint side).arq.unackedLen =
      (flows side).queued - (flows side).sent := by
    have lengths := congrArg List.length keysEq
    rw [List.length_map, List.length_range'] at lengths
    rw [Arq.unackedLen, OrderedMap.length, entriesEq, beforeEq, List.nil_append, lengths]
  have baseEq := ordered.inOrder.receives.window.base_eq
  rw [firstMissing_range] at baseEq
  have queuedEq := (linked side).sends.queued_eq
  rw [Endpoint.fragmentsEnqueued, (isMatch side).enqueued_eq] at queuedEq
  have sentLe := (linked side).valid.sent_le_queued
  have few := bounded side
  rw [← (isMatch side).arq_eq, ← (isMatch side.peer).arq_eq, unackedEq, baseEq,
    UInt32.toNat_ofNat_of_lt' (by simp only [UInt32.size]; omega)]
  omega

/-- And everything is acknowledged, if all of it was sent. -/
theorem InOrder.allAcked_of_quiet (inOrder : talk.InOrder net) (answered : talk.Answered net)
    (bounded : talk.Bounded) (live : ∀ side, (talk side).Live)
    (quiet : ∀ side, (talk side).awaited (talk side.peer) = []) {side : Side}
    (allSent : (net.endpoint side).fragmentsEnqueued ≤ (net.endpoint side).sentCount) :
    (talk side).session.arq.unackedLen = 0 := by
  rcases inOrder.tracked.linked bounded with ⟨flows, linked⟩
  rw [← (inOrder.tracked.isMatch side).arq_eq]
  refine List.length_eq_zero_iff.mpr (List.eq_nil_iff_forall_not_mem.mpr ?_)
  intro entry entryMem
  have unsent := inOrder.unsent_of_quiet answered bounded live quiet side entry entryMem
  have below := (linked side).sends.key_lt (linked side).valid entryMem
  rw [(linked side).sentCount_eq, ← (linked side).sends.queued_eq] at allSent
  rw [((linked side).sends.slot entry entryMem).2.mpr (by omega)] at unsent
  cases unsent

theorem InOrder.steps_answered (inOrder : talk.InOrder net) (answered : talk.Answered net)
    {first : Side → ℕ} (inStep : talk.InStep cipher first) (lawful : cipher.Lawful)
    {events : List (Side × SessionOp)} (unforged : talk.Unforged crypto cipher events)
    (dropless : ∀ event ∈ events, ¬UdpSession.Drops event.2)
    (bounded : (talk.steps crypto cipher events).Bounded) :
    ∃ after, (talk.steps crypto cipher events).InOrder after ∧
      (talk.steps crypto cipher events).Answered after := by
  induction events generalizing talk net with
  | nil => exact ⟨net, inOrder, answered⟩
  | cons event rest ih =>
      have boundedNow : talk.Bounded := Bounded.of_steps (event :: rest) bounded
      have boundedNext : (talk.step crypto cipher event).Bounded := Bounded.of_steps rest bounded
      exact ih
        (inOrder.step inStep lawful unforged.1 (dropless event List.mem_cons_self) boundedNow
          boundedNext)
        (answered.step inOrder inStep lawful unforged.1 boundedNow boundedNext)
        (inStep.step lawful unforged.1) unforged.2
        (fun other otherMem => dropless other (List.mem_cons_of_mem _ otherMem)) bounded

/--
In every run over a hostile network which forges nothing and in which no drops are asked
for: if both sides are alive and nothing is on its way, then every fragment which was sent
is acknowledged, and the peer expects just the first one which was not sent yet.
-/
theorem acknowledged_when_quiet (crypto : OnionCrypto) {cipher : NoiseCipher}
    (lawful : cipher.Lawful) {talk : Talk} (fresh : talk.Fresh)
    (events : List (Side × SessionOp)) (unforged : talk.Unforged crypto cipher events)
    (dropless : ∀ event ∈ events, ¬UdpSession.Drops event.2)
    (bounded : (talk.steps crypto cipher events).Bounded)
    (live : ∀ side, (talk.steps crypto cipher events side).Live)
    (quiet : ∀ side, (talk.steps crypto cipher events side).awaited
      (talk.steps crypto cipher events side.peer) = []) (side : Side) :
    (∀ entry ∈ (talk.steps crypto cipher events side).session.arq.unacked.entries,
        entry.2.isSent = false) ∧
      (talk.steps crypto cipher events side.peer).session.arq.recvBase.toNat +
          (talk.steps crypto cipher events side).session.arq.unackedLen =
        Arq.totalFragments (talk.steps crypto cipher events side).enqueued := by
  rcases fresh.inOrder.steps_answered (answered_initial talk) fresh.inStep lawful unforged dropless
    bounded with ⟨net, inOrder, answered⟩
  refine ⟨?_, inOrder.recvBase_of_quiet answered bounded live quiet side⟩
  rw [← (inOrder.tracked.isMatch side).arq_eq]
  exact inOrder.unsent_of_quiet answered bounded live quiet side

theorem acknowledged_when_quiet_acknowledged :
    (sampleTalk.steps Onion.sampleCrypto tagCipher acknowledged .left).enqueued = [[7]] ∧
    (sampleTalk.steps Onion.sampleCrypto tagCipher acknowledged
        .right).session.arq.recvBase.toNat +
      (sampleTalk.steps Onion.sampleCrypto tagCipher acknowledged .left).session.arq.unackedLen =
        Arq.totalFragments
          (sampleTalk.steps Onion.sampleCrypto tagCipher acknowledged .left).enqueued := by
  have unforged : sampleTalk.Unforged Onion.sampleCrypto tagCipher acknowledged := by
    decide +kernel
  have dropless : ∀ event ∈ acknowledged, ¬UdpSession.Drops event.2 := by
    simp [acknowledged, replayed, sampleSend, UdpSession.Drops]
  have bounded : (sampleTalk.steps Onion.sampleCrypto tagCipher acknowledged).Bounded := by
    intro side
    cases side <;> decide +kernel
  have live : ∀ side, (sampleTalk.steps Onion.sampleCrypto tagCipher acknowledged side).Live := by
    intro side
    cases side <;> exact ⟨by decide +kernel, by decide +kernel⟩
  have quiet : ∀ side, (sampleTalk.steps Onion.sampleCrypto tagCipher acknowledged side).awaited
      (sampleTalk.steps Onion.sampleCrypto tagCipher acknowledged side.peer) = [] := by
    intro side
    cases side <;> decide +kernel
  exact ⟨by decide +kernel, (acknowledged_when_quiet Onion.sampleCrypto tagCipher_lawful
    sampleTalk_fresh acknowledged unforged dropless bounded live quiet .left).2⟩

end Talk

end Ppose

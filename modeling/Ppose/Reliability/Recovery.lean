import Ppose.Reliability.InOrder
import Ppose.Reliability.Retries

/-!
# Recovery after an outage

Safety says what does not go wrong; here is what can still go right.  Take any state which
two endpoints can reach, and let everything be lost which is under way.  At any instant at
which the timers of a side have run out while its frames have attempts left, all that the
side has queued can still get through (`recovers_after_outage`): one call of
`takeRetransmits` hands out every frame in flight, lowest first, so that each of them falls
in the window of the receiver when it comes; the last acknowledgement covers all of them;
and then nothing is in flight, and the rest goes out window by window.

That nothing of before the outage is needed is stated by the actions: they deliver frames
only which were emitted since (`Action.Since`).
-/

namespace Ppose

namespace Arq

/-- The action hands out frames at `now`, or delivers one which was emitted after `start`. -/
def Action.Since (start : Net) (now : Instant) : Action → Prop
  | .perform _ op => op = .takeRetransmits now ∨ op = .takeNewSends now
  | .deliver side index => (start.endpoint side.peer).emitted.length ≤ index

namespace Net

/-- Actions since `start` lead from one state to the other. -/
def LeadsTo (start : Net) (now : Instant) : Net → Net → Prop :=
  Relation.ReflTransGen fun before after =>
    ∃ action : Action, action.Since start now ∧ after = before.step action

/-- A state which two endpoints reach with few enough fragments. -/
structure Usable (net : Net) : Prop where
  reached : ∃ actions, net = run actions
  bounded : net.Bounded

variable {start net after : Net} {side : Side} {now : Instant}

theorem LeadsTo.trans {middle : Net} (leads : LeadsTo start now net middle)
    (rest : LeadsTo start now middle after) : LeadsTo start now net after :=
  Relation.ReflTransGen.trans leads rest

theorem enqueued_of_since {action : Action} (since : action.Since start now) (net : Net)
    (side : Side) :
    ((net.step action).endpoint side).enqueued = (net.endpoint side).enqueued := by
  cases action with
  | perform actor op =>
      rcases actor.eq_or_eq_peer side with rfl | rfl
      · rw [step, endpoint_set_self]
        rcases since with rfl | rfl
        · simp only [Endpoint.perform, Endpoint.takeRetransmits]
          split <;> rfl
        · rfl
      · rw [step, endpoint_set_peer]
  | deliver actor index =>
      simp only [step]
      split
      · rcases actor.eq_or_eq_peer side with rfl | rfl
        · rw [endpoint_set_self, Endpoint.enqueued_receive]
        · rw [endpoint_set_peer]
      · rfl

theorem Usable.step {action : Action} (usable : net.Usable) (since : action.Since start now) :
    (net.step action).Usable := by
  rcases usable with ⟨⟨actions, rfl⟩, bounded⟩
  refine ⟨⟨actions ++ [action], ?_⟩, ?_⟩
  · exact (steps_append initial actions [action]).symm
  · intro side
    rw [Endpoint.fragmentsEnqueued, enqueued_of_since since]
    exact bounded side

theorem Usable.leads (usable : net.Usable) (leads : LeadsTo start now net after) :
    after.Usable ∧ ∀ side, (after.endpoint side).enqueued = (net.endpoint side).enqueued := by
  induction leads with
  | refl => exact ⟨usable, fun _ => rfl⟩
  | tail _ move ih =>
      rcases move with ⟨action, since, rfl⟩
      refine ⟨ih.1.step since, ?_⟩
      intro side
      rw [enqueued_of_since since, ih.2 side]

theorem Usable.exists_linked (usable : net.Usable) : ∃ flows, net.LinkedBy flows := by
  rcases usable.reached with ⟨actions, rfl⟩
  exact linkedBy_run actions usable.bounded

/-- Actions since a later state are actions since an earlier one. -/
theorem LeadsTo.exists_actions (leads : LeadsTo start now net after) :
    ∃ actions : List Action, (∀ action ∈ actions, action.Since start now) ∧
      after = net.steps actions := by
  induction leads with
  | refl => exact ⟨[], by simp, rfl⟩
  | tail _ move ih =>
      rcases move with ⟨action, since, rfl⟩
      rcases ih with ⟨actions, allSince, rfl⟩
      refine ⟨actions ++ [action], ?_, (steps_append net actions [action]).symm⟩
      intro other otherMem
      rcases List.mem_append.mp otherMem with old | new
      · exact allSince other old
      · rw [List.mem_singleton.mp new]
        exact since

/-! ### Frames in order, and the last acknowledgement -/

theorem endpoint_set_of_peer (net : Net) (endpoint : Endpoint) (side : Side) :
    (net.set endpoint side.peer).endpoint side = net.endpoint side := by
  cases side <;> rfl

theorem leads_deliver (now : Instant) {index : ℕ} {frame : Bytes}
    (present : (net.endpoint side.peer).emitted[index]? = some frame)
    (since : (start.endpoint side.peer).emitted.length ≤ index) :
    LeadsTo start now net (net.set ((net.endpoint side).receive frame) side) := by
  refine Relation.ReflTransGen.single ⟨.deliver side index, since, ?_⟩
  simp only [step, present]

/-- The last frame which an endpoint has emitted is the state of its window. -/
def Acknowledges (start : Net) (side : Side) (endpoint : Endpoint) : Prop :=
  ∃ earlier, endpoint.emitted =
      earlier ++ [encodeAck endpoint.arq.recvBase endpoint.arq.recvBits] ∧
    (start.endpoint side).emitted.length ≤ earlier.length

/--
Frames which arrive in the order of their numbers are all accepted, if what is missing
below them is among them.
-/
theorem exists_delivered (now : Instant) (usable : net.Usable) {bound : ℕ} {numbers : List ℕ}
    {frames earlier : List Bytes} {accepted : Finset ℕ}
    (emittedEq : (net.endpoint side).emitted = earlier ++ frames)
    (earlierLe : (start.endpoint side).emitted.length ≤ earlier.length)
    (ackLe : (start.endpoint side.peer).emitted.length ≤
      (net.endpoint side.peer).emitted.length)
    (areFrames : List.Forall₂ (IsFrame (net.endpoint side).enqueued) numbers frames)
    (short : ∀ message ∈ (net.endpoint side).enqueued, fragCount message ≤ 255)
    (boundLe : bound ≤ (net.endpoint side).fragmentsEnqueued)
    (sorted : numbers.Pairwise (· < ·)) (below : ∀ number ∈ numbers, number < bound)
    (acceptedBelow : ∀ number ∈ accepted, number < bound)
    (covered : ∀ number < bound, number ∈ accepted ∨ number ∈ numbers)
    (receives : Receives (net.endpoint side).enqueued (net.endpoint side.peer) accepted) :
    ∃ after, LeadsTo start now net after ∧ after.endpoint side = net.endpoint side ∧
      Receives (net.endpoint side).enqueued (after.endpoint side.peer) (Finset.range bound) ∧
      (numbers = [] ∧ after = net ∨ Acknowledges start side.peer (after.endpoint side.peer)) := by
  induction numbers generalizing net frames earlier accepted with
  | nil =>
      have acceptedEq : accepted = Finset.range bound := by
        ext number
        rw [Finset.mem_range]
        exact ⟨acceptedBelow number, fun numberLt =>
          (covered number numberLt).resolve_right (by simp)⟩
      rw [acceptedEq] at receives
      exact ⟨net, .refl, rfl, receives, Or.inl ⟨rfl, rfl⟩⟩
  | cons number rest ih =>
      cases areFrames with
      | cons isFrame restFrames =>
          rename_i frame frames
          have few := usable.bounded side
          have numberLt : number < bound := below number List.mem_cons_self
          rcases List.pairwise_cons.mp sorted with ⟨numberFirst, restSorted⟩
          -- All smaller numbers were accepted, so the number is in the window.
          have lowerAccepted : Finset.range number ⊆ accepted := by
            intro other otherLt
            rw [Finset.mem_range] at otherLt
            rcases covered other (otherLt.trans numberLt) with isAccepted | listed
            · exact isAccepted
            · rcases List.mem_cons.mp listed with rfl | inRest
              · exact absurd otherLt (lt_irrefl _)
              · exact absurd (numberFirst other inRest) (not_lt.mpr otherLt.le)
          have missingGe := le_firstMissing lowerAccepted
          have missingLe : firstMissing accepted ≤ bound :=
            firstMissing_le fun isAccepted => lt_irrefl _ (acceptedBelow bound isAccepted)
          have arrived : arrive accepted number = insert number accepted := by
            apply if_pos
            simp only [receiveWindow]
            omega
          rcases receives.receive_frame short (by simp only [receiveWindow]; omega) (by omega)
            isFrame with ⟨received, ackEq⟩
          rw [arrived] at received
          have present : (net.endpoint side.peer.peer).emitted[earlier.length]? = some frame := by
            rw [Side.peer_peer, emittedEq]
            simp
          have moves := leads_deliver now present (by rw [Side.peer_peer]; exact earlierLe)
          have usableNext := (usable.leads moves).1
          have sideEq := net.endpoint_set_of_peer ((net.endpoint side.peer).receive frame) side
          have peerEq := net.endpoint_set_self ((net.endpoint side.peer).receive frame) side.peer
          rcases @ih _ usableNext frames (earlier ++ [frame]) (insert number accepted)
              (by rw [sideEq, emittedEq, List.append_assoc]; rfl)
              (by rw [List.length_append]; omega)
              (by rw [peerEq, ackEq, List.length_append]; omega)
              (by rw [sideEq]; exact restFrames) (by rw [sideEq]; exact short)
              (by rw [sideEq]; exact boundLe) restSorted
              (fun other otherMem => below other (List.mem_cons_of_mem _ otherMem))
              (by
                intro other otherMem
                rcases Finset.mem_insert.mp otherMem with rfl | old
                · exact numberLt
                · exact acceptedBelow other old)
              (by
                intro other otherLt
                rcases covered other otherLt with isAccepted | listed
                · exact Or.inl (Finset.mem_insert_of_mem isAccepted)
                · rcases List.mem_cons.mp listed with rfl | inRest
                  · exact Or.inl (Finset.mem_insert_self _ _)
                  · exact Or.inr inRest)
              (by rw [sideEq, peerEq]; exact received) with
            ⟨after, leads, afterEq, finalReceives, finalAck⟩
          rw [sideEq] at afterEq finalReceives
          refine ⟨after, moves.trans leads, afterEq, finalReceives, Or.inr ?_⟩
          rcases finalAck with ⟨_, rfl⟩ | acknowledged
          · rw [peerEq]
            exact ⟨_, ackEq, ackLe⟩
          · exact acknowledged

/-- The frames in flight, by their numbers. -/
def InFlight (endpoint : Endpoint) (number : ℕ) : Prop :=
  ∃ entry ∈ endpoint.arq.unacked.entries, entry.2.isSent = true ∧ entry.1.toNat = number

/-- If all frames in flight arrive in order, nothing is in flight any more. -/
theorem exists_round (usable : net.Usable) {numbers : List ℕ} {frames earlier : List Bytes}
    (emittedEq : (net.endpoint side).emitted = earlier ++ frames)
    (earlierLe : (start.endpoint side).emitted.length ≤ earlier.length)
    (ackLe : (start.endpoint side.peer).emitted.length ≤
      (net.endpoint side.peer).emitted.length)
    (areFrames : List.Forall₂ (IsFrame (net.endpoint side).enqueued) numbers frames)
    (sorted : numbers.Pairwise (· < ·))
    (inFlightIff : ∀ number, number ∈ numbers ↔ InFlight (net.endpoint side) number) :
    ∃ after, LeadsTo start now net after ∧
      (∀ entry ∈ (after.endpoint side).arq.unacked.entries, entry.2.isSent = false) ∧
      (after.endpoint side).sentCount = (net.endpoint side).sentCount := by
  rcases usable.exists_linked with ⟨flows, linked⟩
  have sends := (linked side).sends
  have valid := (linked side).valid
  have inFlightBelow : ∀ number, InFlight (net.endpoint side) number →
      number < (flows side).sent := by
    rintro number ⟨entry, entryMem, isSent, rfl⟩
    exact (sends.slot entry entryMem).2.mp isSent
  have covered : ∀ number < (flows side).sent,
      number ∈ (flows side).accepted ∨ number ∈ numbers := by
    intro number numberLt
    by_cases held : number ∈ (flows side).outstanding
    · right
      rcases (sends.outstanding_iff number).mp held with ⟨entry, entryMem, rfl⟩
      exact (inFlightIff _).mpr ⟨entry, entryMem, (sends.slot entry entryMem).2.mpr numberLt, rfl⟩
    · exact Or.inl (valid.forgotten_accepted number (numberLt.trans_le valid.sent_le_queued) held)
  have boundLe : (flows side).sent ≤ (net.endpoint side).fragmentsEnqueued := by
    rw [← sends.queued_eq]
    exact valid.sent_le_queued
  rcases exists_delivered now usable emittedEq earlierLe ackLe areFrames sends.short boundLe sorted
    (fun number listed => inFlightBelow number ((inFlightIff number).mp listed))
    valid.accepted_sent covered (linked side).receives.receives with
    ⟨middle, leads, sideEq, received, ⟨rfl, rfl⟩ | ⟨acks, acksEq, acksLe⟩⟩
  · refine ⟨_, .refl, ?_, rfl⟩
    intro entry entryMem
    by_contra isSent
    have listed := (inFlightIff _).mpr ⟨entry, entryMem, by simpa using isSent, rfl⟩
    cases listed
  · have usableMiddle := (usable.leads leads).1
    rcases usableMiddle.exists_linked with ⟨flows', linked'⟩
    have linkedSide := linked' side
    have linkedBack := linked' side.peer
    rw [Side.peer_peer] at linkedBack
    have few := usableMiddle.bounded side
    have sentEq : (flows side).sent = (flows' side).sent := by
      rw [← (linked side).sentCount_eq, ← linkedSide.sentCount_eq, sideEq]
    have acceptedEq : (flows' side).accepted = Finset.range (flows side).sent := by
      ext number
      rw [linkedSide.receives.accepted_iff, received.accepted_iff]
    have present : (middle.endpoint side.peer).emitted[acks.length]? =
        some (encodeAck (middle.endpoint side.peer).arq.recvBase
          (middle.endpoint side.peer).arq.recvBits) := by
      rw [acksEq]
      exact List.getElem?_concat_length
    have ackMem := List.mem_of_getElem? present
    have counted := linkedSide.sentCount_receive linkedBack few ackMem
    have tracks := linkedSide.sends.onAck linkedSide.valid (linkedSide.queued_le few)
      acceptedEq.symm.subset received.window
    rw [sideEq] at counted
    refine ⟨_, leads.trans (leads_deliver now present acksLe), ?_, ?_⟩
    · rw [endpoint_set_self, receive_encodeAck]
      intro entry entryMem
      have held := tracks.key_mem entryMem
      by_contra isSent
      have numberLt := (tracks.slot entry entryMem).2.mp (by simpa using isSent)
      simp only [Finset.mem_sdiff, Finset.mem_range, sentEq] at held
      exact held.2 numberLt
    · rw [endpoint_set_self, sideEq]
      exact counted

/-! ### The rest goes out window by window -/

theorem emitted_length_le (action : Action) (net : Net) (side : Side) :
    (net.endpoint side).emitted.length ≤ ((net.step action).endpoint side).emitted.length := by
  cases action with
  | perform actor op =>
      rcases actor.eq_or_eq_peer side with rfl | rfl
      · rw [step, endpoint_set_self]
        cases op with
        | enqueue message =>
            simp only [Endpoint.perform, Endpoint.enqueue]
            split <;> exact le_rfl
        | takeRetransmits now =>
            simp only [Endpoint.perform, Endpoint.takeRetransmits]
            split
            · simp
            · exact le_rfl
        | takeNewSends now => simp [Endpoint.perform, Endpoint.takeNewSends]
        | takeAck => simp [Endpoint.perform, Endpoint.takeAck]
        | popDelivered => exact le_rfl
        | setRetx retx => exact le_rfl
      · rw [step, endpoint_set_peer]
  | deliver actor index =>
      simp only [step]
      split
      · rcases actor.eq_or_eq_peer side with rfl | rfl
        · rw [endpoint_set_self]
          unfold Endpoint.receive
          split
          · simp
          · exact le_rfl
        · rw [endpoint_set_peer]
      · exact le_rfl

theorem LeadsTo.emitted_length_le (leads : LeadsTo start now net after) (side : Side) :
    (net.endpoint side).emitted.length ≤ (after.endpoint side).emitted.length := by
  induction leads with
  | refl => exact le_rfl
  | tail _ move ih =>
      rcases move with ⟨action, _, rfl⟩
      exact ih.trans (Net.emitted_length_le action _ side)

theorem leads_perform {op : LocalOp}
    (isSend : op = .takeRetransmits now ∨ op = .takeNewSends now) (net : Net) (side : Side) :
    LeadsTo start now net (net.set ((net.endpoint side).perform op) side) :=
  Relation.ReflTransGen.single ⟨.perform side op, isSend, rfl⟩

/-- With nothing in flight, the next window of frames is all that is in flight. -/
theorem inFlight_takeNewSends {sender receiver : Endpoint} {flow : Flow}
    (linked : Linked sender receiver flow) (now : Instant)
    (noneSent : ∀ entry ∈ sender.arq.unacked.entries, entry.2.isSent = false) (number : ℕ) :
    number ∈ List.range' sender.sentCount (sender.arq.takeNewSends now).1.length ↔
      InFlight (sender.takeNewSends now) number := by
  have valid := linked.valid
  have tracks := linked.sends.takeNewSends valid now
  have lengthEq : freshCount flow = (sender.arq.takeNewSends now).1.length := by
    simpa using (takeNewSends_frames linked.sends valid now).length_eq
  have freshLe : freshCount flow ≤ flow.queued - flow.sent := Nat.min_le_right _ _
  have sentLe := valid.sent_le_queued
  rw [List.mem_range'_1, linked.sentCount_eq, ← lengthEq]
  constructor
  · rintro ⟨notSent, isFresh⟩
    have held : number ∈ flow.outstanding :=
      valid.mem_outstanding_of_unsent notSent (by omega)
    rcases (tracks.outstanding_iff number).mp held with ⟨entry, entryMem, rfl⟩
    exact ⟨entry, entryMem, (tracks.slot entry entryMem).2.mpr isFresh, rfl⟩
  · rintro ⟨entry, entryMem, isSent, rfl⟩
    refine ⟨?_, (tracks.slot entry entryMem).2.mp isSent⟩
    rcases (linked.sends.outstanding_iff _).mp (tracks.key_mem entryMem) with
      ⟨old, oldMem, keyEq⟩
    have unsent := noneSent old oldMem
    by_contra below
    rw [(linked.sends.slot old oldMem).2.mpr (by omega)] at unsent
    cases unsent

/-- With nothing in flight, `takeNewSends` hands out a frame if there is any. -/
theorem length_takeNewSends {sender receiver : Endpoint} {flow : Flow}
    (linked : Linked sender receiver flow) (now : Instant)
    (noneSent : ∀ entry ∈ sender.arq.unacked.entries, entry.2.isSent = false) :
    (sender.arq.takeNewSends now).1.length =
      min windowSize (sender.fragmentsEnqueued - sender.sentCount) := by
  have noneInFlight : flow.inFlight = ∅ := by
    rw [← Finset.card_eq_zero, ← inFlightSent_eq linked.sends linked.valid, inFlightSent,
      List.countP_eq_zero]
    simpa using noneSent
  have lengthEq : freshCount flow = (sender.arq.takeNewSends now).1.length := by
    simpa using (takeNewSends_frames linked.sends linked.valid now).length_eq
  rw [← lengthEq, freshCount, noneInFlight, linked.sentCount_eq, ← linked.sends.queued_eq,
    Finset.card_empty, Nat.sub_zero]

/-- With nothing in flight, all that is queued gets through. -/
theorem exists_drained (usable : net.Usable)
    (earlier : ∀ side,
      (start.endpoint side).emitted.length ≤ (net.endpoint side).emitted.length)
    (noneSent : ∀ entry ∈ (net.endpoint side).arq.unacked.entries, entry.2.isSent = false) :
    ∃ after, LeadsTo start now net after ∧ (after.endpoint side).arq.unackedLen = 0 := by
  induction left : (net.endpoint side).fragmentsEnqueued - (net.endpoint side).sentCount
    using Nat.strong_induction_on generalizing net with
  | _ left ih =>
      subst left
      rcases usable.exists_linked with ⟨flows, linked⟩
      have linkedSide := linked side
      have lengthEq := length_takeNewSends linkedSide now noneSent
      rcases Nat.eq_zero_or_pos
        ((net.endpoint side).fragmentsEnqueued - (net.endpoint side).sentCount) with none | some
      · -- Every number was sent, and none of them is in flight, so none is left.
        refine ⟨net, .refl, List.length_eq_zero_iff.mpr (List.eq_nil_iff_forall_not_mem.mpr ?_)⟩
        intro entry entryMem
        have below := linkedSide.valid.outstanding_queued _ (linkedSide.sends.key_mem entryMem)
        have unsent := noneSent entry entryMem
        rw [linkedSide.sentCount_eq, ← linkedSide.sends.queued_eq] at none
        rw [(linkedSide.sends.slot entry entryMem).2.mpr (by omega)] at unsent
        cases unsent
      rcases linkedSide.takeNewSends_climbs now with ⟨areFrames, sentEq⟩
      have moves : LeadsTo start now net (net.set ((net.endpoint side).takeNewSends now) side) :=
        leads_perform (Or.inr rfl) net side
      rcases usable.leads moves with ⟨usableNext, enqueuedEq⟩
      have sideEq := net.endpoint_set_self ((net.endpoint side).takeNewSends now) side
      have peerEq := net.endpoint_set_peer ((net.endpoint side).takeNewSends now) side
      rcases @exists_round start _ side now usableNext _ _ (net.endpoint side).emitted
          (by rw [sideEq]; rfl) (earlier side) (by rw [peerEq]; exact earlier side.peer)
          (by rw [enqueuedEq]; exact areFrames) List.pairwise_lt_range'
          (by
            intro number
            rw [sideEq]
            exact inFlight_takeNewSends linkedSide now noneSent number) with
        ⟨middle, leads, noneSentMiddle, sentMiddle⟩
      rw [sideEq, sentEq] at sentMiddle
      rcases usableNext.leads leads with ⟨usableMiddle, enqueuedMiddle⟩
      have totalEq : (middle.endpoint side).fragmentsEnqueued =
          (net.endpoint side).fragmentsEnqueued := by
        rw [Endpoint.fragmentsEnqueued, enqueuedMiddle, enqueuedEq, Endpoint.fragmentsEnqueued]
      have fewer : (middle.endpoint side).fragmentsEnqueued - (middle.endpoint side).sentCount <
          (net.endpoint side).fragmentsEnqueued - (net.endpoint side).sentCount := by
        have windowPos : 0 < windowSize := by decide
        rw [sentMiddle, totalEq]
        omega
      rcases ih _ fewer usableMiddle
          (fun target => (earlier target).trans
            ((moves.trans leads).emitted_length_le target)) noneSentMiddle rfl with
        ⟨after, rest, drained⟩
      exact ⟨after, (moves.trans leads).trans rest, drained⟩

/-! ### What was in flight is sent again -/

/-- If all timers have run out and attempts are left, every frame in flight is handed out. -/
theorem takeRetransmits_all {arq : Arq}
    (due : ∀ entry ∈ arq.unacked.entries, entry.2.isSent = true →
      isDue now arq.retx entry = true ∧ entry.2.attempts < arq.maxAttempts) :
    ∃ unacked, arq.takeRetransmits now =
        (.ok ((arq.unacked.entries.filter (isDue now arq.retx)).map (·.2.plaintext)),
          { arq with unacked := unacked }) ∧
      unacked.entries = arq.unacked.entries.map (resentIfDue now arq.retx) := by
  have walk := retransmitsWalk_retransmitsLoop now arq.retx arq.maxAttempts arq.unacked.entries
  have keysEq := retransmitsLoop_keys now arq.retx arq.maxAttempts arq.unacked.entries
  rw [takeRetransmits_eq rfl keysEq]
  generalize retransmitsLoop now arq.retx arq.maxAttempts arq.unacked.entries = result
    at walk keysEq ⊢
  cases walk with
  | resends attemptsLeft => exact ⟨_, rfl, rfl⟩
  | givesUp split attemptsLeft isLate exhausted =>
      rename_i before after entry
      rcases exists_sent_of_isDue isLate with ⟨last, sent, _⟩
      have left := (due entry (by simp [split]) (by simp [Outgoing.isSent, sent])).2
      exact absurd exhausted (UInt8.not_le.mpr left)

/-- Everything in flight arrives after it was sent again, and nothing is in flight. -/
theorem exists_resent (usable : net.Usable)
    (earlier : ∀ side,
      (start.endpoint side).emitted.length ≤ (net.endpoint side).emitted.length)
    (due : ∀ entry ∈ (net.endpoint side).arq.unacked.entries, entry.2.isSent = true →
      isDue now (net.endpoint side).arq.retx entry = true ∧
        entry.2.attempts < (net.endpoint side).arq.maxAttempts) :
    ∃ after, LeadsTo start now net after ∧
      ∀ entry ∈ (after.endpoint side).arq.unacked.entries, entry.2.isSent = false := by
  rcases usable.exists_linked with ⟨flows, linked⟩
  have slot := (linked side).sends.slot
  rcases takeRetransmits_all due with ⟨unacked, takes, entriesEq⟩
  have moves : LeadsTo start now net (net.set ((net.endpoint side).takeRetransmits now) side) :=
    leads_perform (Or.inl rfl) net side
  rcases usable.leads moves with ⟨usableNext, enqueuedEq⟩
  have sideEq := net.endpoint_set_self ((net.endpoint side).takeRetransmits now) side
  have peerEq := net.endpoint_set_peer ((net.endpoint side).takeRetransmits now) side
  have resentEq : (net.endpoint side).takeRetransmits now =
      { net.endpoint side with
        arq := { (net.endpoint side).arq with unacked := unacked }
        emitted := (net.endpoint side).emitted ++
          (((net.endpoint side).arq.unacked.entries.filter
            (isDue now (net.endpoint side).arq.retx)).map (·.2.plaintext)) } := by
    simp only [Endpoint.takeRetransmits, takes]
  have isSent_iff : ∀ entry ∈ (net.endpoint side).arq.unacked.entries,
      isDue now (net.endpoint side).arq.retx entry = true ↔ entry.2.isSent = true := by
    intro entry entryMem
    refine ⟨?_, fun isSent => (due entry entryMem isSent).1⟩
    intro isLate
    rcases exists_sent_of_isDue isLate with ⟨last, sent, _⟩
    simp [Outgoing.isSent, sent]
  rcases @exists_round start _ side now usableNext
      (((net.endpoint side).arq.unacked.entries.filter
        (isDue now (net.endpoint side).arq.retx)).map (·.1.toNat)) _ (net.endpoint side).emitted
      (by rw [sideEq, resentEq]) (earlier side) (by rw [peerEq]; exact earlier side.peer)
      (by
        rw [enqueuedEq, List.forall₂_map_left_iff, List.forall₂_map_right_iff, List.forall₂_same]
        intro entry entryMem
        exact (slot entry (List.mem_of_mem_filter entryMem)).1)
      (by
        refine List.Pairwise.sublist (List.filter_sublist.map _) ?_
        exact unacked_keys_sorted (net.endpoint side).arq)
      (by
        intro number
        rw [sideEq, resentEq]
        simp only [InFlight, entriesEq, List.mem_map, List.mem_filter]
        constructor
        · rintro ⟨entry, ⟨entryMem, isLate⟩, rfl⟩
          refine ⟨_, ⟨entry, entryMem, rfl⟩, ?_, ?_⟩
          · rw [isSent_resentIfDue]
            exact (isSent_iff entry entryMem).mp isLate
          · rw [resentIfDue_fst]
        · rintro ⟨_, ⟨entry, entryMem, rfl⟩, isSent, rfl⟩
          rw [isSent_resentIfDue] at isSent
          exact ⟨entry, ⟨entryMem, (isSent_iff entry entryMem).mpr isSent⟩,
            by rw [resentIfDue_fst]⟩) with
    ⟨after, leads, noneSent, _⟩
  exact ⟨after, moves.trans leads, noneSent⟩

/--
From every state which two endpoints can reach, whatever is lost of what is under way: at an
instant at which the retransmit timers of a side have run out and its frames have attempts
left, calls of `takeRetransmits` and `takeNewSends` at that instant and the arrival of what
they and the answers to them emit are enough for every message queued at that side to be
delivered exactly once and acknowledged.
-/
theorem recovers_after_outage (actions : List Action) (side : Side) (now : Instant)
    (bounded : (run actions).Bounded)
    (due : ∀ entry ∈ ((run actions).endpoint side).arq.unacked.entries, entry.2.isSent = true →
      isDue now ((run actions).endpoint side).arq.retx entry = true ∧
        entry.2.attempts < ((run actions).endpoint side).arq.maxAttempts) :
    ∃ more : List Action, (∀ action ∈ more, action.Since (run actions) now) ∧
      ((run (actions ++ more)).endpoint side).arq.unackedLen = 0 ∧
      ((run (actions ++ more)).endpoint side).enqueued =
        ((run actions).endpoint side).enqueued ∧
      ((run (actions ++ more)).endpoint side.peer).pushed.Perm
        ((run actions).endpoint side).enqueued := by
  have usable : (run actions).Usable := ⟨⟨actions, rfl⟩, bounded⟩
  rcases @exists_resent (run actions) _ _ _ usable (fun _ => le_rfl) due with
    ⟨middle, resends, noneSent⟩
  rcases exists_drained (usable.leads resends).1
    (fun target => LeadsTo.emitted_length_le resends target) noneSent with ⟨after, rest, drained⟩
  have leads := LeadsTo.trans resends rest
  rcases usable.leads leads with ⟨usableAfter, enqueuedEq⟩
  rcases usableAfter.exists_linked with ⟨flows, linked⟩
  have pushed := (linked side).receives.reassembly.pushed_perm fun number wasQueued =>
    (linked side).accepted_of_allAcked drained wasQueued
  rcases leads.exists_actions with ⟨more, since, rfl⟩
  have runEq : run (actions ++ more) = (run actions).steps more := steps_append initial actions more
  rw [enqueuedEq] at pushed
  refine ⟨more, since, ?_⟩
  rw [runEq]
  exact ⟨drained, enqueuedEq side, pushed⟩

/-- The left side sends a message, which is lost, and queues another one. -/
def outage : List Action :=
  [.perform .left (.enqueue [1, 2, 3]), .perform .left (.takeNewSends 0),
    .perform .left (.enqueue [4])]

theorem recovers_after_outage_lost :
    ((run outage).endpoint .left).arq.unackedLen = 2 ∧
    ((run outage).endpoint .right).pushed = [] ∧
    ∃ more : List Action, (∀ action ∈ more, action.Since (run outage) 200000000) ∧
      ((run (outage ++ more)).endpoint .left).arq.unackedLen = 0 ∧
      ((run (outage ++ more)).endpoint .left).enqueued = ((run outage).endpoint .left).enqueued ∧
      ((run (outage ++ more)).endpoint .right).pushed.Perm
        ((run outage).endpoint .left).enqueued :=
  ⟨by decide +kernel, by decide +kernel,
    recovers_after_outage outage .left 200000000 (by decide +kernel) (by decide +kernel)⟩

end Net

end Arq

end Ppose

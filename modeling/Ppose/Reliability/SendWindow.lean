import Ppose.Reliability.Tracking

/-!
# Send window against receive window

`takeNewSends` limits how many frames are in flight: sent and not acknowledged.
`markReceived` limits how far above its base a number may lie.  The two limits
agree as long as little above the peer's base was acknowledged selectively.  A
frame acknowledged above a hole leaves the count of the sender but not the window
of the receiver, so behind one missing frame the sender can run past the window.

`LeavesRoom` is the condition on the state before a call under which every frame
the call emits is inside the peer's window; a run keeps all first transmissions
inside exactly if the condition holds at each of its calls (`firstSendsFit_iff`).
-/

namespace Ppose

namespace Arq

/-- How many never-sent frames `takeNewSends` may emit. -/
def freeSlots (arq : Arq) : ℕ :=
  min (windowSize - arq.inFlightSent)
    (arq.unacked.entries.countP fun entry => entry.2.isSent = false)

/-- The frames queued from number `base` on which have left `unacked`. -/
def ackedFrom (arq : Arq) (base : UInt32) : Finset ℕ :=
  (Finset.range (arq.nextSeq - base).toNat).filter fun offset =>
    base + UInt32.ofNat offset ∉ arq.unacked.keys

/-- The frames queued from number `base` on which were sent and are still in `unacked`. -/
def inFlightFrom (arq : Arq) (base : UInt32) : Finset ℕ :=
  (Finset.range (arq.nextSeq - base).toNat).filter fun offset =>
    ∃ entry ∈ arq.unacked.entries,
      entry.1 = base + UInt32.ofNat offset ∧ entry.2.isSent = true

/--
There is nothing to send, or the frames from `base` on which were acknowledged or
are in flight leave room in the receive window for all of it.
-/
def LeavesRoom (arq : Arq) (base : UInt32) : Prop :=
  freeSlots arq = 0 ∨
    (ackedFrom arq base).card + (inFlightFrom arq base).card + freeSlots arq ≤ receiveWindow

instance (arq : Arq) (base : UInt32) : Decidable (LeavesRoom arq base) :=
  inferInstanceAs (Decidable (freeSlots arq = 0 ∨
    (ackedFrom arq base).card + (inFlightFrom arq base).card + freeSlots arq ≤ receiveWindow))

variable {sender receiver : Endpoint} {flow : Flow}

theorem freeSlots_eq (tracks : SenderTracks sender flow) (valid : ValidFlow flow) :
    freeSlots sender.arq = freshCount flow := by
  rcases tracks.split valid with ⟨before, after, entriesEq, beforeSent, afterUnsent, keysEq, _⟩
  have afterLength : after.length = flow.queued - flow.sent := by
    simpa using congrArg List.length keysEq
  have unsentCount : sender.arq.unacked.entries.countP (fun entry => entry.2.isSent = false) =
      flow.queued - flow.sent := by
    rw [entriesEq, List.countP_append, List.countP_eq_zero.mpr (by simpa using beforeSent),
      List.countP_eq_length.mpr (by simpa using afterUnsent), afterLength, Nat.zero_add]
  rw [freeSlots, freshCount, inFlightSent_eq tracks valid, unsentCount]

theorem disjoint_ackedFrom_inFlightFrom (arq : Arq) (base : UInt32) :
    Disjoint (ackedFrom arq base) (inFlightFrom arq base) := by
  apply Finset.disjoint_left.mpr
  intro offset isAcked isInFlight
  rcases (Finset.mem_filter.mp isInFlight).2 with ⟨entry, entryMem, keyEq, _⟩
  apply (Finset.mem_filter.mp isAcked).2
  rw [← keyEq]
  exact List.mem_map_of_mem entryMem

/-- The number of frames queued from the peer's base on. -/
theorem Linked.toNat_nextSeq_sub (linked : Linked sender receiver flow)
    (bounded : sender.fragmentsEnqueued ≤ 2 ^ 32 - 1000000) :
    (sender.arq.nextSeq - receiver.arq.recvBase).toNat =
      flow.queued - firstMissing flow.accepted := by
  have queuedLe := linked.queued_le bounded
  rw [linked.sends.nextSeq_eq, linked.receives.window.base_eq]
  apply toNat_ofNat_sub_ofNat_of_le
    (linked.valid.firstMissing_le_sent.trans linked.valid.sent_le_queued)
  omega

theorem Linked.toNat_recvBase_add (linked : Linked sender receiver flow)
    (bounded : sender.fragmentsEnqueued ≤ 2 ^ 32 - 1000000) {offset : ℕ}
    (offsetLt : offset < flow.queued - firstMissing flow.accepted) :
    (receiver.arq.recvBase + UInt32.ofNat offset).toNat = firstMissing flow.accepted + offset := by
  have queuedLe := linked.queued_le bounded
  rw [linked.receives.window.base_eq, ← UInt32.ofNat_add, UInt32.toNat_ofNat']
  omega

/-- The frames acknowledged or in flight above the peer's base are those sent. -/
theorem Linked.ahead_eq_range (linked : Linked sender receiver flow)
    (bounded : sender.fragmentsEnqueued ≤ 2 ^ 32 - 1000000) :
    ackedFrom sender.arq receiver.arq.recvBase ∪ inFlightFrom sender.arq receiver.arq.recvBase =
      Finset.range (flow.sent - firstMissing flow.accepted) := by
  have sentLe := linked.valid.sent_le_queued
  ext offset
  rw [Finset.mem_union, ackedFrom, inFlightFrom, Finset.mem_filter, Finset.mem_filter,
    ← and_or_left, Finset.mem_range, linked.toNat_nextSeq_sub bounded, Finset.mem_range]
  constructor
  · rintro ⟨offsetLt, isAcked | ⟨entry, entryMem, keyEq, isSent⟩⟩
    · -- A number not yet sent is still held, so it was not acknowledged.
      by_contra unsent
      have isHeld := linked.valid.mem_outstanding_of_unsent
        (show flow.sent ≤ firstMissing flow.accepted + offset by omega) (by omega)
      rcases (linked.sends.outstanding_iff _).mp isHeld with ⟨entry, entryMem, keyEq⟩
      apply isAcked
      rw [← linked.toNat_recvBase_add bounded offsetLt] at keyEq
      rw [← UInt32.toNat_inj.mp keyEq]
      exact List.mem_map_of_mem entryMem
    · have below := (linked.sends.slot entry entryMem).2.mp isSent
      rw [keyEq, linked.toNat_recvBase_add bounded offsetLt] at below
      omega
  · intro offsetLt
    refine ⟨by omega, ?_⟩
    by_cases isHeld : receiver.arq.recvBase + UInt32.ofNat offset ∈ sender.arq.unacked.keys
    · rcases List.mem_map.mp isHeld with ⟨entry, entryMem, keyEq⟩
      refine Or.inr ⟨entry, entryMem, keyEq, (linked.sends.slot entry entryMem).2.mpr ?_⟩
      rw [keyEq, linked.toNat_recvBase_add bounded (by omega)]
      omega
    · exact Or.inl isHeld

theorem Linked.card_ahead (linked : Linked sender receiver flow)
    (bounded : sender.fragmentsEnqueued ≤ 2 ^ 32 - 1000000) :
    (ackedFrom sender.arq receiver.arq.recvBase).card +
      (inFlightFrom sender.arq receiver.arq.recvBase).card =
        flow.sent - firstMissing flow.accepted := by
  rw [← Finset.card_union_of_disjoint (disjoint_ackedFrom_inFlightFrom _ _),
    linked.ahead_eq_range bounded, Finset.card_range]

/-- The frames of one call are inside the peer's window exactly if there is room for them. -/
theorem Linked.newSends_fit_iff (linked : Linked sender receiver flow)
    (bounded : sender.fragmentsEnqueued ≤ 2 ^ 32 - 1000000) (now : Instant) :
    (∀ frame ∈ (sender.arq.takeNewSends now).1, ∀ seq fragId index total payload,
      decodeInner frame = .ok (.data seq fragId index total payload) →
        seq - receiver.arq.recvBase < 64) ↔
      LeavesRoom sender.arq receiver.arq.recvBase := by
  have queuedLe := linked.queued_le bounded
  have sentLe := linked.valid.sent_le_queued
  have missingLe := linked.valid.firstMissing_le_sent
  have freshLe : freshCount flow ≤ flow.queued - flow.sent := Nat.min_le_right _ _
  have inside : ∀ offset < freshCount flow,
      (UInt32.ofNat (flow.sent + offset) - receiver.arq.recvBase < 64 ↔
        flow.sent + offset < firstMissing flow.accepted + 64) := by
    intro offset offsetLt
    have distance := toNat_ofNat_sub_ofNat_of_le
      (show firstMissing flow.accepted ≤ flow.sent + offset by omega) (by omega)
    rw [linked.receives.window.base_eq, UInt32.lt_iff_toNat_lt, distance]
    change _ < 64 ↔ _
    omega
  have ahead := linked.card_ahead bounded
  rw [LeavesRoom, ahead, freeSlots_eq linked.sends linked.valid, receiveWindow]
  constructor
  · intro fit
    rcases Nat.eq_zero_or_pos (freshCount flow) with none | some
    · exact Or.inl none
    · right
      rcases exists_newSend_of_number linked.sends linked.valid now
        (show freshCount flow - 1 < freshCount flow by omega) with ⟨frame, frameMem, isFrame⟩
      rcases decodeInner_of_isFrame linked.sends.short isFrame with
        ⟨fragId, index, total, payload, decoded⟩
      have lastFits := fit frame frameMem _ _ _ _ _ decoded
      rw [inside _ (by omega)] at lastFits
      omega
  · intro room frame frameMem seq fragId index total payload decoded
    rcases exists_number_of_newSend linked.sends linked.valid frameMem with
      ⟨offset, offsetLt, isFrame⟩
    rcases decodeInner_of_isFrame linked.sends.short isFrame with ⟨_, _, _, _, decoded'⟩
    rw [decoded', Except.ok.injEq, InnerFrame.data.injEq] at decoded
    rw [← decoded.1, inside offset offsetLt]
    omega

namespace Net

/-- Every first transmission of one side lies inside its peer's receive window when emitted. -/
def FirstSendsFit (actions : List Action) (side : Side) : Prop :=
  ∀ before now, before ++ [.perform side (.takeNewSends now)] <+: actions →
    ∀ frame ∈ (((run before).endpoint side).arq.takeNewSends now).1,
    ∀ seq fragId index total payload,
      decodeInner frame = .ok (.data seq fragId index total payload) →
        seq - ((run before).endpoint side.peer).arq.recvBase < 64

theorem Bounded.of_prefix {before actions : List Action} (isPrefix : before <+: actions)
    (bounded : (run actions).Bounded) : (run before).Bounded := by
  rcases isPrefix with ⟨after, rfl⟩
  rw [run, steps_append] at bounded
  exact Bounded.of_steps bounded

/--
A run keeps the first transmissions of a side inside its peer's window exactly if
each of its calls to `takeNewSends` leaves room in that window.
-/
theorem firstSendsFit_iff (actions : List Action) (side : Side) (bounded : (run actions).Bounded) :
    FirstSendsFit actions side ↔
      ∀ before now, before ++ [.perform side (.takeNewSends now)] <+: actions →
        LeavesRoom ((run before).endpoint side).arq
          ((run before).endpoint side.peer).arq.recvBase := by
  apply forall_congr'
  intro before
  apply forall_congr'
  intro now
  apply imp_congr_right
  intro isPrefix
  have boundedBefore := Bounded.of_prefix ((List.prefix_append _ _).trans isPrefix) bounded
  rcases linkedBy_run before boundedBefore with ⟨flows, linked⟩
  exact (linked side).newSends_fit_iff (boundedBefore side) now

/--
The first and the third of five messages are lost, the others acknowledged one by one, and
two more are queued and sent.
-/
def twoHoles : List Action :=
  List.replicate 5 (.perform .left (.enqueue [1])) ++ [.perform .left (.takeNewSends 0)] ++
    [1, 3, 4].map (.deliver .right) ++ [0, 1, 2].map (.deliver .left) ++
    List.replicate 2 (.perform .left (.enqueue [2])) ++ [.perform .left (.takeNewSends 0)]

theorem firstSendsFit_iff_twoHoles :
    (run twoHoles).Bounded ∧
      ((run twoHoles).endpoint .left).arq.unacked.entries.map Prod.fst = [0, 2, 5, 6] ∧
      ((run twoHoles).endpoint .right).arq.recvBase = 0 ∧ FirstSendsFit twoHoles .left := by
  have evaluated : (run twoHoles).Bounded ∧
      ((run twoHoles).endpoint .left).arq.unacked.entries.map Prod.fst = [0, 2, 5, 6] ∧
      ((run twoHoles).endpoint .right).arq.recvBase = 0 := by
    decide +kernel
  have leaves : ∀ before ∈ twoHoles.inits, LeavesRoom ((run before).endpoint .left).arq
      ((run before).endpoint .right).arq.recvBase := by
    decide +kernel
  rcases evaluated with ⟨bounded, waiting, baseEq⟩
  refine ⟨bounded, waiting, baseEq, (firstSendsFit_iff _ .left bounded).mpr ?_⟩
  intro before now isPrefix
  exact leaves before ((List.mem_inits _ _).mpr ((List.prefix_append _ _).trans isPrefix))

/--
The first of 66 messages is lost; all others arrive and are acknowledged, two
windows in a row.
-/
def oneHole : List Action :=
  List.replicate 66 (.perform .left (.enqueue [])) ++ [.perform .left (.takeNewSends 0)] ++
    (List.range' 1 31).map (.deliver .right) ++
    [.deliver .left 30, .perform .left (.takeNewSends 0)] ++
    (List.range' 32 31).map (.deliver .right) ++ [.deliver .left 61]

set_option maxRecDepth 10000 in
theorem oneHole_overruns :
    (run (oneHole ++ [.perform .left (.takeNewSends 0)])).Bounded ∧
      ¬FirstSendsFit (oneHole ++ [.perform .left (.takeNewSends 0)]) .left := by
  have evaluated : (run (oneHole ++ [.perform .left (.takeNewSends 0)])).Bounded ∧
      encodeData 64 0 0 1 [] ∈ (((run oneHole).endpoint .left).arq.takeNewSends 0).1 ∧
      ((run oneHole).endpoint .right).arq.recvBase = 0 := by
    decide +kernel
  rcases evaluated with ⟨bounded, emitted, baseEq⟩
  refine ⟨bounded, ?_⟩
  intro fit
  have fits := fit oneHole 0 List.prefix_rfl (encodeData 64 0 0 1 []) emitted
    64 0 0 1 [] (decodeInner_encodeData 64 0 [] (by decide))
  rw [Side.peer, baseEq] at fits
  exact absurd fits (by decide)

end Net

end Arq

end Ppose

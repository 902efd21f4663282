import Ppose.Foundations.ClimbingStream
import Ppose.Reliability.Delivery

/-!
# Delivery in order

Selective repeat accepts fragments in any order, and a message is delivered when its last
fragment comes; so over a channel which reorders, messages overtake each other.  They
do not if the stream of frames which arrives climbs: then the accepted numbers are an
initial segment at any time (`ReceivesInOrder`), a message is complete only if all
earlier ones are, and what was delivered is the beginning of what was queued.

On the other end, how many numbers were sent for the first time can be read off the
endpoint (`Endpoint.sentCount`).
-/

namespace Ppose

namespace Arq

variable {sender receiver : Endpoint} {flow : Flow} {messages : List Bytes} {level : ℕ}

/-! ### The receiving end -/

/-- The receiving end has accepted the numbers below a level, and delivered in order. -/
structure ReceivesInOrder (messages : List Bytes) (receiver : Endpoint) (level : ℕ) : Prop where
  receives : Receives messages receiver (Finset.range level)
  pushed_prefix : receiver.pushed <+: messages

/-- The positions of the complete messages are those below their number. -/
theorem perm_range_of_lower {order : List ℕ} (nodup : order.Nodup)
    (lower : ∀ later ∈ order, ∀ earlier < later, earlier ∈ order) :
    order.Perm (List.range order.length) := by
  have inside : order.toFinset ⊆ Finset.range order.length := by
    intro position positionMem
    rw [List.mem_toFinset] at positionMem
    have upTo : Finset.range (position + 1) ⊆ order.toFinset := by
      intro earlier earlierLt
      rw [Finset.mem_range, Nat.lt_succ_iff] at earlierLt
      rw [List.mem_toFinset]
      rcases earlierLt.lt_or_eq with before | rfl
      · exact lower position positionMem earlier before
      · exact positionMem
    have cardLe := Finset.card_le_card upTo
    rw [Finset.card_range, List.toFinset_card_of_nodup nodup] at cardLe
    exact Finset.mem_range.mpr cardLe
  have same : order.toFinset = Finset.range order.length := by
    apply Finset.eq_of_subset_of_card_le inside
    rw [Finset.card_range, List.toFinset_card_of_nodup nodup]
  rw [List.perm_ext_iff_of_nodup nodup List.nodup_range]
  intro position
  rw [← List.mem_toFinset, same, Finset.mem_range, List.mem_range]

/-- With an initial segment accepted, the complete messages are the first ones. -/
theorem Reassembly.pushed_perm_take {fragments : AList fun _ : UInt16 => FragBuf}
    {pushed : List Bytes} (reassembly : Reassembly messages (Finset.range level) fragments pushed) :
    pushed.length ≤ messages.length ∧ pushed.Perm (messages.take pushed.length) := by
  rcases reassembly.pushed_complete with ⟨order, nodup, rfl, orderIff⟩
  have inside : ∀ position ∈ order, position < messages.length := by
    intro position positionMem
    rcases (orderIff position).mp positionMem with ⟨message, present, _⟩
    exact (List.getElem?_eq_some_iff.mp present).1
  have lower : ∀ later ∈ order, ∀ earlier < later, earlier ∈ order := by
    intro later laterMem earlier earlierLt
    rcases (orderIff later).mp laterMem with ⟨message, _, complete⟩
    have earlierIn : earlier < messages.length := earlierLt.trans (inside later laterMem)
    refine (orderIff earlier).mpr ⟨messages[earlier], List.getElem?_eq_getElem earlierIn, ?_⟩
    intro index indexLt
    have before := startOf_add_le (List.getElem?_eq_getElem earlierIn) earlierLt
    have first := complete 0 (fragCount_pos message)
    rw [Finset.mem_range] at first ⊢
    omega
  have orderPerm := perm_range_of_lower nodup lower
  have lengthLe : order.length ≤ messages.length := by
    rcases Nat.eq_zero_or_pos order.length with none | some
    · omega
    · have last : order.length - 1 ∈ order :=
        orderPerm.symm.subset (List.mem_range.mpr (by omega))
      have := inside _ last
      omega
  have takeEq : (List.range order.length).map (fun position => messages.getD position []) =
      messages.take order.length := by
    apply List.ext_getElem
    · simp [lengthLe]
    · intro position positionLt _
      simp only [List.length_map, List.length_range] at positionLt
      simp [positionLt.trans_le lengthLe]
  rw [List.length_map]
  exact ⟨lengthLe, (orderPerm.map _).trans (.of_eq takeEq)⟩

/-- A list which grows by one item at most and is a beginning up to order is a beginning. -/
theorem prefix_of_perm_take {α : Type*} {items whole : List α} {item : α}
    (isPrefix : items <+: whole) (inside : (items ++ [item]).length ≤ whole.length)
    (perm : (items ++ [item]).Perm (whole.take (items ++ [item]).length)) :
    items ++ [item] <+: whole := by
  rcases isPrefix with ⟨rest, rfl⟩
  cases rest with
  | nil => simp at inside
  | cons next rest =>
      rw [List.length_append, List.length_singleton, List.take_length_add_append,
        List.perm_append_left_iff] at perm
      simp only [List.take_succ_cons, List.take_zero, List.perm_singleton] at perm
      cases perm
      exact ⟨rest, by simp⟩

/-- An arriving frame completes one message at most. -/
theorem pushed_receive_cases (endpoint : Endpoint) (frame : Bytes) :
    (endpoint.receive frame).pushed = endpoint.pushed ∨
      ∃ message, (endpoint.receive frame).pushed = endpoint.pushed ++ [message] := by
  rcases decodeInner_cases frame with
    ⟨seq, fragId, index, total, payload, _, _, decoded⟩ | ⟨base, bits, _, decoded⟩ |
    ⟨error, decoded⟩
  · rw [receive_data endpoint decoded]
    rcases markReceived_snd endpoint.arq seq with ⟨recvBase, recvBits, marked⟩
    simp only [Endpoint.pushed, onData, marked, acceptFragment]
    split_ifs
    · exact Or.inr ⟨_, by rw [List.append_assoc]⟩
    · exact Or.inl rfl
    · exact Or.inr ⟨_, by rw [List.append_assoc]⟩
    · exact Or.inl rfl
    · exact Or.inl rfl
  · left
    rw [receive_ack endpoint decoded]
    rfl
  · left
    rw [receive_error endpoint decoded]

/-- The bitmap holds what was accepted out of order. -/
theorem Represents.bits_eq_zero {base : UInt32} {bits : UInt64}
    (represents : Represents base bits (Finset.range level)) : bits = 0 := by
  rw [← UInt64.toNat_inj]
  apply Nat.eq_of_testBit_eq
  intro index
  have unset := represents.bit_iff_of_any index
  simp only [firstMissing_range, Finset.mem_range] at unset
  simpa using unset

namespace ReceivesInOrder

theorem initial : ReceivesInOrder [] Endpoint.initial 0 :=
  ⟨receives_initial, List.prefix_rfl⟩

theorem congr {other : Endpoint} (inOrder : ReceivesInOrder messages receiver level)
    (same : other.receiveState = receiver.receiveState) :
    ReceivesInOrder messages other level := by
  refine ⟨inOrder.receives.congr same, ?_⟩
  simp only [Endpoint.receiveState, Prod.mk.injEq] at same
  rw [same.2.2.2.2]
  exact inOrder.pushed_prefix

theorem append (inOrder : ReceivesInOrder messages receiver level)
    (queued : level ≤ totalFragments messages) (added : Bytes) :
    ReceivesInOrder (messages ++ [added]) receiver level := by
  refine ⟨inOrder.receives.append ?_ added, inOrder.pushed_prefix.trans (List.prefix_append _ _)⟩
  intro number numberMem
  exact (Finset.mem_range.mp numberMem).trans_le queued

/-- Whatever the endpoint is given, its messages stay in order if it accepts in order. -/
theorem of_receives {frame : Bytes} {next : ℕ} (inOrder : ReceivesInOrder messages receiver level)
    (receives : Receives messages (receiver.receive frame) (Finset.range next)) :
    ReceivesInOrder messages (receiver.receive frame) next := by
  refine ⟨receives, ?_⟩
  rcases receives.reassembly.pushed_perm_take with ⟨lengthLe, perm⟩
  rcases pushed_receive_cases receiver frame with same | ⟨message, added⟩
  · rw [same]
    exact inOrder.pushed_prefix
  · rw [added] at lengthLe perm ⊢
    exact prefix_of_perm_take inOrder.pushed_prefix lengthLe perm

theorem receive_ack (inOrder : ReceivesInOrder messages receiver level) (base : UInt32)
    (bits : UInt64) : ReceivesInOrder messages (receiver.receive (encodeAck base bits)) level := by
  apply inOrder.congr
  rw [receive_encodeAck]
  rfl

/-- A frame which is not ahead of the level takes the level past its number. -/
theorem receive_frame (inOrder : ReceivesInOrder messages receiver level)
    (short : ∀ message ∈ messages, fragCount message ≤ 255)
    (few : totalFragments messages ≤ 2 ^ 32 - 1000000) {number : ℕ} {frame : Bytes}
    (isFrame : IsFrame messages number frame) (notAhead : number ≤ level)
    (queued : level ≤ totalFragments messages) :
    ReceivesInOrder messages (receiver.receive frame) (max level (number + 1)) := by
  have below := isFrame.lt_total
  have received := (inOrder.receives.receive_frame short
    (by simp only [firstMissing_range, receiveWindow]; omega) (by omega) isFrame).1
  apply inOrder.of_receives
  have arrived : arrive (Finset.range level) number = Finset.range (max level (number + 1)) := by
    have near : number < level + receiveWindow := by simp only [receiveWindow]; omega
    simp only [arrive, firstMissing_range, if_pos near]
    ext other
    simp only [Finset.mem_insert, Finset.mem_range]
    omega
  rwa [arrived] at received

end ReceivesInOrder

/-! ### The sending end -/

/-- How many numbers were sent for the first time. -/
def Endpoint.sentCount (endpoint : Endpoint) : ℕ :=
  endpoint.fragmentsEnqueued -
    endpoint.arq.unacked.entries.countP fun entry => entry.2.isSent = false

theorem SenderTracks.sentCount_eq (tracks : SenderTracks sender flow) (valid : ValidFlow flow) :
    sender.sentCount = flow.sent := by
  rcases tracks.split valid with ⟨before, after, entriesEq, beforeSent, afterUnsent, keysEq, _⟩
  have afterLength : after.length = flow.queued - flow.sent := by
    simpa using congrArg List.length keysEq
  have unsentEq : (sender.arq.unacked.entries.countP fun entry => entry.2.isSent = false) =
      flow.queued - flow.sent := by
    rw [entriesEq, List.countP_append, List.countP_eq_zero.mpr (by simpa using beforeSent),
      List.countP_eq_length.mpr (by simpa using afterUnsent), afterLength, Nat.zero_add]
  have := valid.sent_le_queued
  rw [Endpoint.sentCount, unsentEq, ← tracks.queued_eq]
  omega

theorem Linked.sentCount_eq (linked : Linked sender receiver flow) :
    sender.sentCount = flow.sent :=
  linked.sends.sentCount_eq linked.valid

/-- The next first transmissions carry the next numbers. -/
theorem Linked.takeNewSends_climbs (linked : Linked sender receiver flow) (now : Instant) :
    List.Forall₂ (IsFrame sender.enqueued)
        (List.range' sender.sentCount (sender.arq.takeNewSends now).1.length)
        (sender.arq.takeNewSends now).1 ∧
      (sender.takeNewSends now).sentCount =
        sender.sentCount + (sender.arq.takeNewSends now).1.length := by
  have frames := takeNewSends_frames linked.sends linked.valid now
  have lengthEq : freshCount flow = (sender.arq.takeNewSends now).1.length := by
    simpa using frames.length_eq
  have move := step_sendFresh linked.valid
  have after := (linked.sends.takeNewSends linked.valid now).sentCount_eq
    (linked.reachable.step move).valid
  rw [linked.sentCount_eq, ← lengthEq]
  exact ⟨frames, after⟩

/-- Retransmissions repeat numbers which were sent before. -/
theorem Linked.takeRetransmits_repeats (linked : Linked sender receiver flow) {now : Instant}
    {due : List Bytes} {arq : Arq} (takes : sender.arq.takeRetransmits now = (.ok due, arq)) :
    ∀ frame ∈ due, ∃ number < sender.sentCount, IsFrame sender.enqueued number frame := by
  intro frame frameMem
  rcases mem_retransmitsLoop_frames (congrArg Prod.fst takes) frameMem with
    ⟨entry, entryMem, isSent, rfl⟩
  rcases linked.sends.slot entry entryMem with ⟨isFrame, sentIff⟩
  rw [linked.sentCount_eq]
  exact ⟨_, sentIff.mp isSent, isFrame⟩

theorem Linked.sentCount_takeRetransmits (linked : Linked sender receiver flow) (now : Instant) :
    (sender.takeRetransmits now).sentCount = sender.sentCount := by
  rw [linked.sentCount_eq]
  exact (linked.sends.takeRetransmits now).sentCount_eq linked.valid

/-- Nothing but `takeNewSends` sends a number for the first time. -/
theorem Linked.sentCount_perform (linked : Linked sender receiver flow) (op : LocalOp)
    (bounded : (sender.perform op).fragmentsEnqueued ≤ 2 ^ 32 - 1000000)
    (notNew : ∀ now, op ≠ .takeNewSends now) :
    (sender.perform op).sentCount = sender.sentCount := by
  cases op with
  | takeNewSends now => exact absurd rfl (notNew now)
  | enqueue message =>
      rcases enqueued_enqueue sender message with ⟨short, _⟩ | unchanged
      · have move : Flow.Step windowSize receiveWindow flow _ := .enqueue (fragCount message)
        rw [linked.sentCount_eq]
        exact (linked.sends.enqueue linked.valid short bounded).sentCount_eq
          (linked.reachable.step move).valid
      · simp only [Endpoint.perform, unchanged]
  | takeRetransmits now => exact linked.sentCount_takeRetransmits now
  | takeAck =>
      rcases takeAck_eq sender.arq with ⟨pendingAck, arqEq⟩
      simp only [Endpoint.perform, Endpoint.takeAck, arqEq]
      rfl
  | popDelivered =>
      rcases popDelivered_eq sender.arq with ⟨delivered, arqEq⟩
      simp only [Endpoint.perform, Endpoint.popDelivered, arqEq]
      rfl
  | setRetx retx => rfl

/-- What arrives at the sending end does not change what it has sent. -/
theorem Linked.sentCount_receive {reverse : Flow} (linked : Linked sender receiver flow)
    (linkedBack : Linked receiver sender reverse)
    (bounded : sender.fragmentsEnqueued ≤ 2 ^ 32 - 1000000) {frame : Bytes}
    (frameMem : frame ∈ receiver.emitted) :
    (sender.receive frame).sentCount = sender.sentCount := by
  rw [linked.sentCount_eq]
  rcases linkedBack.sends.decodes frameMem with
    ⟨base, bits, rfl⟩ | ⟨seq, fragId, index, total, payload, decoded⟩
  · rcases linked.receives.acks base bits frameMem with ⟨report, made, represents⟩
    have move : Flow.Step windowSize receiveWindow flow _ := .learn report made
    rw [receive_encodeAck]
    exact (linked.sends.onAck linked.valid (linked.queued_le bounded)
      (linked.valid.reports_subset report made) represents).sentCount_eq
      (linked.reachable.step move).valid
  · exact (linked.sends.receive_data decoded).sentCount_eq linked.valid

end Arq

end Ppose

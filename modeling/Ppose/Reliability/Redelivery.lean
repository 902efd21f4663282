import Ppose.Reliability.Delivery

/-!
# Redelivery

A fragment which arrives again after it was accepted changes nothing but the
pending mark, and the acknowledgement it provokes still does its work: whenever
it reaches the sender, the fragment is gone from `unacked`.

The second part needs a bound on how far the base of the receive window can run
ahead of a frame the sender still holds, since `acked` gives up 1000000 below the
base.  The flow invariant bounds it by the two window sizes
(`Flow.Valid.sent_le`).
-/

namespace Ppose

namespace Arq

variable {sender receiver : Endpoint} {flow : Flow}

/-- Ingesting a fragment already accepted only sets the pending mark. -/
theorem Linked.ingest_accepted (linked : Linked sender receiver flow)
    (bounded : sender.fragmentsEnqueued ≤ 2 ^ 32 - 1000000) {frame payload : Bytes} {seq : UInt32}
    {fragId : UInt16} {index total : UInt8} (frameMem : frame ∈ sender.emitted)
    (decoded : decodeInner frame = .ok (.data seq fragId index total payload))
    (wasAccepted : seq ∈ receiver.accepted) :
    receiver.arq.ingest frame =
      (.ok (some (encodeAck receiver.arq.recvBase receiver.arq.recvBits)),
        { receiver.arq with pendingAck := true }) := by
  rcases linked.sends.number_of_data frameMem decoded with ⟨number, wasSent, rfl⟩
  have := linked.queued_le bounded
  have := linked.valid.sent_le_queued
  have := linked.valid.firstMissing_le_sent
  have numberNat : (UInt32.ofNat number).toNat = number := by
    rw [UInt32.toNat_ofNat']
    omega
  have known : number ∈ flow.accepted :=
    (linked.receives.accepted_iff number).mpr ⟨_, wasAccepted, numberNat⟩
  have marked := markReceived_stale linked.receives.window
    (by simp only [receiveWindow]; omega) (by omega) (Or.inl known)
  simp [ingest_data receiver.arq decoded, onData, marked]

theorem Linked.onAck_forgets (linked : Linked sender receiver flow)
    (bounded : sender.fragmentsEnqueued ≤ 2 ^ 32 - 1000000) {report : Finset ℕ}
    (subset : report ⊆ flow.accepted) {base : UInt32} {bits : UInt64}
    (represents : Represents base bits report) {seq : UInt32} (reported : seq.toNat ∈ report) :
    seq ∉ (sender.arq.onAck base bits).unacked.keys := by
  have tracks := linked.sends.onAck linked.valid (linked.queued_le bounded) subset represents
  intro isHeld
  rcases List.mem_map.mp isHeld with ⟨entry, entryMem, rfl⟩
  exact (Finset.mem_sdiff.mp (tracks.key_mem entryMem)).2 reported

namespace Net

/--
In every run, delivering again a fragment which was accepted before leaves the
receive state and the outgoing frames of the receiver alone and returns an
acknowledgement; ingesting that acknowledgement at the sender, at once or after
any continuation of the run, leaves the fragment's number absent from `unacked`.
-/
theorem redelivery_idempotent (actions later : List Action) (side : Side) (index : ℕ)
    (bounded : (run (actions ++ .deliver side.peer index :: later)).Bounded)
    {frame payload : Bytes} {seq : UInt32} {fragId : UInt16} {fragIndex total : UInt8}
    (emitted : ((run actions).endpoint side).emitted[index]? = some frame)
    (decoded : decodeInner frame = .ok (.data seq fragId fragIndex total payload))
    (wasAccepted : seq ∈ ((run actions).endpoint side.peer).accepted) :
    ∃ ack arq, ((run actions).endpoint side.peer).arq.ingest frame = (.ok (some ack), arq) ∧
      arq.recvBase = ((run actions).endpoint side.peer).arq.recvBase ∧
      arq.recvBits = ((run actions).endpoint side.peer).arq.recvBits ∧
      arq.fragments = ((run actions).endpoint side.peer).arq.fragments ∧
      arq.delivered = ((run actions).endpoint side.peer).arq.delivered ∧
      arq.unacked = ((run actions).endpoint side.peer).arq.unacked ∧
      seq ∉ (((run actions).endpoint side).arq.ingest ack).2.unacked.keys ∧
      seq ∉ (((run (actions ++ .deliver side.peer index :: later)).endpoint side).arq.ingest
        ack).2.unacked.keys := by
  have splits : run (actions ++ .deliver side.peer index :: later) =
      (run actions).steps (.deliver side.peer index :: later) := steps_append _ _ _
  rw [splits] at bounded ⊢
  have boundedNow := Bounded.of_steps bounded
  rcases linkedBy_run actions boundedNow with ⟨flows, linked⟩
  rcases linkedBy_steps linked _ bounded with ⟨nexts, moves, linkedLater⟩
  have frameMem := List.mem_of_getElem? emitted
  have ingested := (linked side).ingest_accepted (boundedNow side) frameMem decoded wasAccepted
  refine ⟨_, _, ingested, rfl, rfl, rfl, rfl, rfl, ?_⟩
  have reported : seq.toNat ∈ (flows side).accepted :=
    ((linked side).receives.accepted_iff _).mpr ⟨seq, wasAccepted, rfl⟩
  have represents := (linked side).receives.window
  rw [ingest_encodeAck, ingest_encodeAck]
  refine ⟨?_, ?_⟩
  · exact (linked side).onAck_forgets (boundedNow side) subset_rfl represents reported
  · exact (linkedLater side).onAck_forgets (bounded side)
      (Flow.accepted_subset_of_steps (moves side)) represents reported

/-- The left side sends a message, which arrives while its acknowledgement is lost. -/
def unacknowledged : List Action :=
  [.perform .left (.enqueue [1, 2, 3]), .perform .left (.takeNewSends 0), .deliver .right 0]

theorem redelivery_idempotent_unacknowledged :
    (0 : UInt32) ∈ ((run unacknowledged).endpoint .left).arq.unacked.keys ∧
    ∃ ack arq, ((run unacknowledged).endpoint .right).arq.ingest
          (encodeData 0 1 0 1 [1, 2, 3]) = (.ok (some ack), arq) ∧
      arq.recvBase = ((run unacknowledged).endpoint .right).arq.recvBase ∧
      arq.recvBits = ((run unacknowledged).endpoint .right).arq.recvBits ∧
      arq.fragments = ((run unacknowledged).endpoint .right).arq.fragments ∧
      arq.delivered = ((run unacknowledged).endpoint .right).arq.delivered ∧
      arq.unacked = ((run unacknowledged).endpoint .right).arq.unacked ∧
      0 ∉ (((run unacknowledged).endpoint .left).arq.ingest ack).2.unacked.keys ∧
      0 ∉ (((run (unacknowledged ++ .deliver .right 0 ::
        [.perform .left (.enqueue [4])])).endpoint .left).arq.ingest ack).2.unacked.keys :=
  ⟨by decide +kernel,
    redelivery_idempotent unacknowledged [.perform .left (.enqueue [4])] .left 0
      (by decide +kernel) (by decide +kernel)
      (decodeInner_encodeData 0 1 [1, 2, 3] (by decide)) (by decide +kernel)⟩

end Net

end Arq

end Ppose

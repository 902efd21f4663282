import Ppose.Reliability.Network
import Ppose.Reliability.Operations
import Ppose.Reliability.Reassembly

/-!
# The two ends of one direction

What holds at the two ends of one direction whatever acknowledgements, and
whatever else, the sending end is given.  The sending end holds and emits frames
of the messages it enqueued only (`Frames`), since an acknowledgement can do no
more than remove entries.  The receiving end, as long as it is given such frames,
represents the set of numbers it has accepted and has reassembled what they allow
(`Receives`).

Neither depends on the sending window, nor on the numbers the receiving end itself
has used up as a sender.
-/

namespace Ppose

namespace Arq

variable {sender receiver : Endpoint} {messages : List Bytes} {accepted : Finset ℕ}

theorem IsFrame.lt_total {number : ℕ} {frame : Bytes} (isFrame : IsFrame messages number frame) :
    number < totalFragments messages := by
  rcases isFrame with ⟨position, message, index, chunk, present, piece, rfl, _⟩
  exact startOf_add_lt_total present (index_lt_of_piece piece)

/-! ### What arrives at an endpoint -/

theorem receive_error (endpoint : Endpoint) {frame : Bytes} {error : FrameError}
    (decoded : decodeInner frame = .error error) : endpoint.receive frame = endpoint := by
  simp [Endpoint.receive, ingest, decoded]

theorem receive_ack (endpoint : Endpoint) {frame : Bytes} {base : UInt32} {bits : UInt64}
    (decoded : decodeInner frame = .ok (.ack base bits)) :
    endpoint.receive frame = { endpoint with arq := endpoint.arq.onAck base bits } := by
  simp [Endpoint.receive, ingest, Endpoint.acceptedBy, decoded]

theorem receive_data (endpoint : Endpoint) {frame payload : Bytes} {seq : UInt32}
    {fragId : UInt16} {index total : UInt8}
    (decoded : decodeInner frame = .ok (.data seq fragId index total payload)) :
    endpoint.receive frame =
      { endpoint with
        arq := { endpoint.arq.onData seq fragId index total payload with pendingAck := true }
        emitted := endpoint.emitted ++
          [encodeAck (endpoint.arq.onData seq fragId index total payload).recvBase
            (endpoint.arq.onData seq fragId index total payload).recvBits]
        accepted := endpoint.accepted ++
          if (endpoint.arq.markReceived seq).1 then [seq] else [] } := by
  simp [Endpoint.receive, ingest_data endpoint.arq decoded, Endpoint.acceptedBy, decoded]

/-! ### The sending end -/

/-- An endpoint holds and emits frames of its own messages, and acknowledgements. -/
structure Frames (sender : Endpoint) : Prop where
  nextSeq_eq : sender.arq.nextSeq = UInt32.ofNat sender.fragmentsEnqueued
  nextFragId_eq : sender.arq.nextFragId = fragIdAfter sender.enqueued
  short : ∀ message ∈ sender.enqueued, fragCount message ≤ 255
  slot : ∀ entry ∈ sender.arq.unacked.entries,
    IsFrame sender.enqueued entry.1.toNat entry.2.plaintext
  emitted : ∀ frame ∈ sender.emitted, (∃ base bits, frame = encodeAck base bits) ∨
    ∃ number, IsFrame sender.enqueued number frame

theorem frames_initial : Frames Endpoint.initial := by
  constructor <;>
    simp [Endpoint.initial, Arq.new, Endpoint.fragmentsEnqueued, totalFragments, OrderedMap.empty,
      fragIdAfter]

/-- Nothing but queueing a message makes new frames. -/
theorem Frames.congr {other : Endpoint} (frames : Frames sender)
    (enqueued : other.enqueued = sender.enqueued)
    (nextSeq : other.arq.nextSeq = sender.arq.nextSeq)
    (nextFragId : other.arq.nextFragId = sender.arq.nextFragId)
    (slot : ∀ entry ∈ other.arq.unacked.entries, ∃ old ∈ sender.arq.unacked.entries,
      old.1 = entry.1 ∧ old.2.plaintext = entry.2.plaintext)
    (emitted : ∀ frame ∈ other.emitted, frame ∈ sender.emitted ∨
      (∃ base bits, frame = encodeAck base bits) ∨
        ∃ entry ∈ sender.arq.unacked.entries, frame = entry.2.plaintext) : Frames other := by
  constructor
  · rw [nextSeq, frames.nextSeq_eq, Endpoint.fragmentsEnqueued, Endpoint.fragmentsEnqueued,
      enqueued]
  · rw [nextFragId, frames.nextFragId_eq, enqueued]
  · rw [enqueued]
    exact frames.short
  · intro entry entryMem
    rcases slot entry entryMem with ⟨old, oldMem, keyEq, plaintextEq⟩
    rw [enqueued, ← keyEq, ← plaintextEq]
    exact frames.slot old oldMem
  · intro frame frameMem
    rw [enqueued]
    rcases emitted frame frameMem with old | ack | ⟨entry, entryMem, rfl⟩
    · exact frames.emitted frame old
    · exact Or.inl ack
    · exact Or.inr ⟨_, frames.slot entry entryMem⟩

/-- The entries queued for a message are appended to those of the sender. -/
theorem Frames.enqueue_eq (frames : Frames sender) {message : Bytes}
    (short : fragCount message ≤ 255)
    (fits : sender.fragmentsEnqueued + fragCount message ≤ 2 ^ 32) :
    ∃ unacked,
      sender.enqueue message =
        { sender with
          arq :=
            { sender.arq with
              nextFragId := fragIdAfter (sender.enqueued ++ [message])
              nextSeq := UInt32.ofNat (sender.fragmentsEnqueued + fragCount message)
              unacked }
          enqueued := sender.enqueued ++ [message] } ∧
      unacked.entries = sender.arq.unacked.entries ++
        queuedEntries (fragIdOf (sender.enqueued ++ [message]) sender.enqueued.length message)
          (UInt8.ofNat (fragCount message)) sender.fragmentsEnqueued 0 (piecesOf message) := by
  have fragIdEq : fragIdOf (sender.enqueued ++ [message]) sender.enqueued.length message =
      if message = [] then 0 else sender.arq.nextFragId := by
    rw [fragIdOf, List.take_left' rfl, frames.nextFragId_eq]
  rcases enqueueChunks_eq (if message = [] then 0 else sender.arq.nextFragId)
      (UInt8.ofNat (fragCount message))
      { sender.arq with
        nextFragId := if message = [] then sender.arq.nextFragId
          else succFragId sender.arq.nextFragId }
      sender.fragmentsEnqueued 0 (piecesOf message) frames.nextSeq_eq fits
      (List.append_nil _).symm (fun entry entryMem => (frames.slot entry entryMem).lt_total)
      (by simp) with
    ⟨unacked, chunksEq, entriesEq⟩
  refine ⟨unacked, ?_, ?_⟩
  · rw [fragIdAfter_append_singleton, ← frames.nextFragId_eq]
    simp only [Endpoint.enqueue, enqueue_ok sender.arq short, chunksEq]
    rfl
  · rw [fragIdEq]
    simpa using entriesEq

/-- Every entry queued for a new message carries its frame and was never sent. -/
theorem isFrame_of_queued {message : Bytes} {entry : UInt32 × Outgoing}
    (fits : totalFragments messages + fragCount message ≤ 2 ^ 32)
    (entryMem : entry ∈ queuedEntries (fragIdOf (messages ++ [message]) messages.length message)
      (UInt8.ofNat (fragCount message)) (totalFragments messages) 0 (piecesOf message)) :
    IsFrame (messages ++ [message]) entry.1.toNat entry.2.plaintext ∧
      entry.2.isSent = false ∧ totalFragments messages ≤ entry.1.toNat := by
  rcases mem_queuedEntries.mp entryMem with ⟨offset, chunk, piece, rfl⟩
  have offsetLt := index_lt_of_piece piece
  have keyNat : (UInt32.ofNat (totalFragments messages + offset)).toNat =
      totalFragments messages + offset := by
    rw [UInt32.toNat_ofNat']
    omega
  have startEq : startOf (messages ++ [message]) messages.length = totalFragments messages := by
    rw [startOf_append [message] le_rfl, startOf_length]
  refine ⟨⟨messages.length, message, offset, chunk, by simp, piece, ?_, ?_⟩, rfl, ?_⟩
  · rw [keyNat, startEq]
  · rw [frameOf, startEq, Nat.zero_add]
  · rw [keyNat]
    omega

/-- What `enqueue` does to the history of an endpoint. -/
theorem enqueued_enqueue (endpoint : Endpoint) (message : Bytes) :
    (fragCount message ≤ 255 ∧ (endpoint.enqueue message).enqueued =
      endpoint.enqueued ++ [message]) ∨ endpoint.enqueue message = endpoint := by
  by_cases short : fragCount message ≤ 255
  · left
    simp [Endpoint.enqueue, enqueue_ok endpoint.arq short, short]
  · right
    simp [Endpoint.enqueue, enqueue_tooLarge (not_le.mp short)]

theorem Endpoint.enqueued_perform_cases (endpoint : Endpoint) (op : LocalOp) :
    (endpoint.perform op).enqueued = endpoint.enqueued ∨
      ∃ message, (endpoint.perform op).enqueued = endpoint.enqueued ++ [message] := by
  cases op with
  | enqueue message =>
      rcases enqueued_enqueue endpoint message with ⟨_, added⟩ | unchanged
      · exact Or.inr ⟨message, added⟩
      · left
        simp only [Endpoint.perform, unchanged]
  | takeRetransmits now =>
      left
      simp only [Endpoint.perform, Endpoint.takeRetransmits]
      split <;> rfl
  | takeNewSends now => exact Or.inl rfl
  | takeAck => exact Or.inl rfl
  | popDelivered => exact Or.inl rfl
  | setRetx retx => exact Or.inl rfl

theorem Frames.enqueue (frames : Frames sender) (message : Bytes)
    (bounded : (sender.enqueue message).fragmentsEnqueued ≤ 2 ^ 32) :
    Frames (sender.enqueue message) := by
  rcases enqueued_enqueue sender message with ⟨short, enqueuedEq⟩ | unchanged
  · have totalEq : (sender.enqueue message).fragmentsEnqueued =
        sender.fragmentsEnqueued + fragCount message := by
      rw [Endpoint.fragmentsEnqueued, enqueuedEq, totalFragments_append,
        totalFragments_singleton, Endpoint.fragmentsEnqueued]
    have fits : sender.fragmentsEnqueued + fragCount message ≤ 2 ^ 32 := totalEq ▸ bounded
    rcases frames.enqueue_eq short fits with ⟨unacked, resultEq, entriesEq⟩
    rw [resultEq] at totalEq ⊢
    constructor
    · rw [totalEq]
    · rfl
    · intro other otherMem
      rcases List.mem_append.mp otherMem with old | new
      · exact frames.short other old
      · rw [List.mem_singleton.mp new]
        exact short
    · intro entry entryMem
      simp only [entriesEq] at entryMem
      rcases List.mem_append.mp entryMem with old | new
      · exact (frames.slot entry old).append [message]
      · exact (isFrame_of_queued fits new).1
    · intro frame frameMem
      rcases frames.emitted frame frameMem with ack | ⟨number, isFrame⟩
      · exact Or.inl ack
      · exact Or.inr ⟨number, isFrame.append [message]⟩
  · rwa [unchanged]

/-- A call of `takeRetransmits` rewrites the entries and emits plaintexts of theirs, if any. -/
theorem takeRetransmits_emits (endpoint : Endpoint) (now : Instant) :
    ∃ unacked frames,
      endpoint.takeRetransmits now =
        { endpoint with
          arq := { endpoint.arq with unacked }
          emitted := endpoint.emitted ++ frames } ∧
      unacked.entries = (retransmitsLoop now endpoint.arq.retx endpoint.arq.maxAttempts
        endpoint.arq.unacked.entries).2 ∧
      ∀ frame ∈ frames, ∃ entry ∈ endpoint.arq.unacked.entries, entry.2.isSent = true ∧
        frame = entry.2.plaintext := by
  cases resultEq : endpoint.arq.takeRetransmits now with
  | mk result arq =>
      have arqEq : _ = arq := congrArg Prod.snd resultEq
      simp only [Arq.takeRetransmits] at arqEq
      cases result with
      | error giveUp =>
          refine ⟨arq.unacked, [], ?_, by rw [← arqEq]; rfl, by simp⟩
          simp only [Endpoint.takeRetransmits, resultEq, ← arqEq, List.append_nil]
      | ok frames =>
          refine ⟨arq.unacked, frames, ?_, by rw [← arqEq]; rfl, ?_⟩
          · simp only [Endpoint.takeRetransmits, resultEq, ← arqEq]
          · intro frame frameMem
            exact mem_retransmitsLoop_frames (congrArg Prod.fst resultEq) frameMem

/-- What an endpoint emits on its own: plaintexts it holds and the state of its window. -/
theorem Endpoint.mem_emitted_perform (endpoint : Endpoint) (op : LocalOp) {frame : Bytes}
    (frameMem : frame ∈ (endpoint.perform op).emitted) :
    frame ∈ endpoint.emitted ∨
      (∃ entry ∈ endpoint.arq.unacked.entries, frame = entry.2.plaintext) ∨
      frame = encodeAck endpoint.arq.recvBase endpoint.arq.recvBits := by
  cases op with
  | enqueue message =>
      left
      simp only [Endpoint.perform, Endpoint.enqueue] at frameMem
      split at frameMem <;> exact frameMem
  | takeNewSends now =>
      rcases List.mem_append.mp frameMem with old | new
      · exact Or.inl old
      · exact Or.inr (Or.inl (mem_newSendsLoop_frames new))
  | takeRetransmits now =>
      rcases takeRetransmits_emits endpoint now with ⟨unacked, out, resultEq, _, outMem⟩
      simp only [Endpoint.perform, resultEq] at frameMem
      rcases List.mem_append.mp frameMem with old | new
      · exact Or.inl old
      · rcases outMem frame new with ⟨entry, entryMem, _, frameEq⟩
        exact Or.inr (Or.inl ⟨entry, entryMem, frameEq⟩)
  | takeAck =>
      rcases List.mem_append.mp frameMem with old | new
      · exact Or.inl old
      · exact Or.inr (Or.inr (mem_takeAck new))
  | popDelivered => exact Or.inl frameMem
  | setRetx retx => exact Or.inl frameMem

/-- Every operation of the sending end keeps to the frames of its messages. -/
theorem Frames.perform (frames : Frames sender) (op : LocalOp)
    (bounded : (sender.perform op).fragmentsEnqueued ≤ 2 ^ 32) : Frames (sender.perform op) := by
  have emitted : ∀ frame ∈ (sender.perform op).emitted, frame ∈ sender.emitted ∨
      (∃ base bits, frame = encodeAck base bits) ∨
        ∃ entry ∈ sender.arq.unacked.entries, frame = entry.2.plaintext := by
    intro frame frameMem
    rcases sender.mem_emitted_perform op frameMem with old | held | ack
    · exact Or.inl old
    · exact Or.inr (Or.inr held)
    · exact Or.inr (Or.inl ⟨_, _, ack⟩)
  cases op with
  | enqueue message => exact frames.enqueue message bounded
  | takeNewSends now =>
      exact frames.congr rfl rfl rfl
        (fun entry => exists_of_contents_eq (contents_newSendsLoop now _ _)) emitted
  | takeRetransmits now =>
      rcases takeRetransmits_emits sender now with ⟨unacked, out, resultEq, entriesEq, _⟩
      simp only [Endpoint.perform, resultEq] at emitted ⊢
      refine frames.congr rfl rfl rfl ?_ emitted
      intro entry
      simp only [entriesEq]
      exact exists_of_contents_eq (contents_retransmitsLoop now _ _ _)
  | takeAck =>
      rcases takeAck_eq sender.arq with ⟨pendingAck, arqEq⟩
      simp only [Endpoint.perform, Endpoint.takeAck, arqEq] at emitted ⊢
      exact frames.congr rfl rfl rfl (fun entry entryMem => ⟨entry, entryMem, rfl, rfl⟩) emitted
  | popDelivered =>
      rcases popDelivered_eq sender.arq with ⟨delivered, arqEq⟩
      simp only [Endpoint.perform, Endpoint.popDelivered, arqEq] at emitted ⊢
      exact frames.congr rfl rfl rfl (fun entry entryMem => ⟨entry, entryMem, rfl, rfl⟩) emitted
  | setRetx retx =>
      exact frames.congr rfl rfl rfl (fun entry entryMem => ⟨entry, entryMem, rfl, rfl⟩) emitted

/-- So does every byte string which arrives there. -/
theorem Frames.receive (frames : Frames sender) (bytes : Bytes) :
    Frames (sender.receive bytes) := by
  rcases decodeInner_cases bytes with
    ⟨seq, fragId, index, total, payload, _, _, decoded⟩ | ⟨base, bits, _, decoded⟩ |
    ⟨error, decoded⟩
  · rcases onData_eq sender.arq seq fragId index total payload with
      ⟨recvBase, recvBits, fragments, delivered, dataEq⟩
    rw [receive_data sender decoded, dataEq]
    refine frames.congr rfl rfl rfl (fun entry entryMem => ⟨entry, entryMem, rfl, rfl⟩) ?_
    intro frame frameMem
    rcases List.mem_append.mp frameMem with old | new
    · exact Or.inl old
    · exact Or.inr (Or.inl ⟨_, _, List.mem_singleton.mp new⟩)
  · rw [receive_ack sender decoded]
    refine frames.congr rfl rfl rfl ?_ fun frame frameMem => Or.inl frameMem
    intro entry entryMem
    exact ⟨entry, List.mem_of_mem_filter entryMem, rfl, rfl⟩
  · rwa [receive_error sender decoded]

/-! ### The receiving end -/

/-- The state of an endpoint its receiving direction depends on. -/
def Endpoint.receiveState (endpoint : Endpoint) :
    List UInt32 × UInt32 × UInt64 × (AList fun _ : UInt16 => FragBuf) × List Bytes :=
  (endpoint.accepted, endpoint.arq.recvBase, endpoint.arq.recvBits, endpoint.arq.fragments,
    endpoint.pushed)

theorem Endpoint.pushed_popDelivered (endpoint : Endpoint) :
    endpoint.popDelivered.pushed = endpoint.pushed := by
  cases deliveredEq : endpoint.arq.delivered with
  | nil => simp [Endpoint.popDelivered, Arq.popDelivered, Endpoint.pushed, deliveredEq]
  | cons message rest =>
      simp [Endpoint.popDelivered, Arq.popDelivered, Endpoint.pushed, deliveredEq]

/-- What an endpoint does on its own leaves its receiving direction alone. -/
theorem Endpoint.receiveState_perform (endpoint : Endpoint) (op : LocalOp) :
    (endpoint.perform op).receiveState = endpoint.receiveState := by
  cases op with
  | enqueue message =>
      by_cases short : fragCount message ≤ 255
      · have resultEq := enqueue_ok endpoint.arq short
        rcases enqueueChunks_frame 0 (piecesOf message) _ with ⟨nextSeq, unacked, arqEq⟩
        rw [arqEq] at resultEq
        simp only [Endpoint.perform, Endpoint.enqueue, resultEq]
        rfl
      · simp [Endpoint.perform, Endpoint.enqueue, enqueue_tooLarge (not_le.mp short)]
  | takeNewSends now => rfl
  | takeRetransmits now =>
      rcases takeRetransmits_emits endpoint now with ⟨unacked, out, resultEq, _, _⟩
      simp only [Endpoint.perform, resultEq]
      rfl
  | takeAck =>
      rcases takeAck_eq endpoint.arq with ⟨pendingAck, arqEq⟩
      simp only [Endpoint.perform, Endpoint.takeAck, arqEq]
      rfl
  | popDelivered =>
      rcases popDelivered_eq endpoint.arq with ⟨delivered, arqEq⟩
      have pushedEq := endpoint.pushed_popDelivered
      simp only [Endpoint.popDelivered, arqEq] at pushedEq
      simp only [Endpoint.perform, Endpoint.popDelivered, arqEq, Endpoint.receiveState, pushedEq]
  | setRetx retx => rfl

/-- The receiving end has accepted the given numbers and reassembled what they allow. -/
structure Receives (messages : List Bytes) (receiver : Endpoint) (accepted : Finset ℕ) :
    Prop where
  accepted_iff : ∀ number, number ∈ accepted ↔ ∃ seq ∈ receiver.accepted, seq.toNat = number
  window : Represents receiver.arq.recvBase receiver.arq.recvBits accepted
  reassembly : Reassembly messages accepted receiver.arq.fragments receiver.pushed

theorem receives_initial : Receives [] Endpoint.initial ∅ where
  accepted_iff := by simp [Endpoint.initial]
  window := by simpa [Endpoint.initial, Arq.new] using represents_range 0
  reassembly := Reassembly.initial

theorem Receives.congr {other : Endpoint} (receives : Receives messages receiver accepted)
    (same : other.receiveState = receiver.receiveState) : Receives messages other accepted := by
  simp only [Endpoint.receiveState, Prod.mk.injEq] at same
  rcases same with ⟨acceptedEq, recvBase, recvBits, fragments, pushed⟩
  constructor
  · rw [acceptedEq]
    exact receives.accepted_iff
  · rw [recvBase, recvBits]
    exact receives.window
  · rw [fragments, pushed]
    exact receives.reassembly

/-- Queueing one more message changes nothing for the receiving end. -/
theorem Receives.append (receives : Receives messages receiver accepted)
    (queued : ∀ number ∈ accepted, number < totalFragments messages) (added : Bytes) :
    Receives (messages ++ [added]) receiver accepted :=
  ⟨receives.accepted_iff, receives.window, receives.reassembly.append queued added⟩

/-- A fragment which the window takes as new is stored. -/
theorem Receives.store (receives : Receives messages receiver accepted)
    (short : ∀ message ∈ messages, fragCount message ≤ 255) {position index : ℕ}
    {message chunk : Bytes} (present : messages[position]? = some message)
    (piece : (piecesOf message)[index]? = some chunk) {number : ℕ}
    (numberEq : number = startOf messages position + index) (below : number < 2 ^ 32)
    (fresh : number ∉ accepted) (inWindow : number < firstMissing accepted + receiveWindow)
    {base : UInt32} {bits : UInt64} (represents : Represents base bits (insert number accepted)) :
    Receives messages
      { receiver with
        arq := Arq.acceptFragment { receiver.arq with recvBase := base, recvBits := bits }
          (fragIdOf messages position message) (UInt8.ofNat index)
          (UInt8.ofNat (fragCount message)) chunk
        accepted := receiver.accepted ++ [UInt32.ofNat number] }
      (insert number accepted) := by
  have reassembled := Reassembly.acceptFragment
    { receiver.arq with recvBase := base, recvBits := bits } receives.reassembly short
    receives.window.windowed present piece (numberEq ▸ fresh) (numberEq ▸ inWindow)
  rw [← numberEq] at reassembled
  refine ⟨?_, ?_, reassembled⟩
  · intro other
    have numberNat : (UInt32.ofNat number).toNat = number := by
      rw [UInt32.toNat_ofNat']
      omega
    simp only [Finset.mem_insert, receives.accepted_iff, List.mem_append, List.mem_singleton,
      or_and_right, exists_or, exists_eq_left, numberNat]
    rw [or_comm, eq_comm]
  · rcases acceptFragment_eq { receiver.arq with recvBase := base, recvBits := bits }
        (fragIdOf messages position message) (UInt8.ofNat index)
        (UInt8.ofNat (fragCount message)) chunk with
      ⟨fragments, delivered, storedEq⟩
    rw [storedEq]
    exact represents

/-- An arriving frame is accepted if it is new and in the window, and acknowledged. -/
theorem Receives.receive_frame (receives : Receives messages receiver accepted)
    (short : ∀ message ∈ messages, fragCount message ≤ 255) {number : ℕ} {frame : Bytes}
    (missingLe : firstMissing accepted ≤ 2 ^ 32 - receiveWindow) (below : number < 2 ^ 32)
    (isFrame : IsFrame messages number frame) :
    Receives messages (receiver.receive frame) (arrive accepted number) ∧
      (receiver.receive frame).emitted = receiver.emitted ++
        [encodeAck (receiver.receive frame).arq.recvBase
          (receiver.receive frame).arq.recvBits] := by
  rcases isFrame with ⟨position, message, index, chunk, present, piece, numberEq, frameEq⟩
  have decoded := decodeInner_frameOf messages position piece
    (short message (List.mem_of_getElem? present))
  rw [← frameEq, ← numberEq] at decoded
  rw [Arq.receive_data receiver decoded]
  refine ⟨?_, rfl⟩
  rcases markReceived_cases receives.window (by simp only [receiveWindow] at missingLe ⊢; omega)
      (by omega : number < firstMissing accepted + 2 ^ 32) with
    ⟨fresh, inWindow, arrived, base, bits, represents, marked⟩ | ⟨_, arrived, marked⟩
  · rw [arrived]
    apply (receives.store short present piece numberEq below fresh inWindow represents).congr
    simp only [Endpoint.receiveState, Endpoint.pushed, onData, marked, if_true]
  · rw [arrived]
    apply receives.congr
    simp [Endpoint.receiveState, Endpoint.pushed, onData, marked]

end Arq

end Ppose

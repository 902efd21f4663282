import Ppose.Reliability.Layout

/-!
# What the sending operations do to the outgoing frames

One specification for each operation on `unacked`: `enqueue` adds the fragments of
the message under the next sequence numbers, `takeNewSends` marks and emits the
first never-sent entries that fit in the window, `takeRetransmits` keeps keys,
plaintexts and the sent mark and emits sent plaintexts only.
-/

namespace Ppose

namespace Arq

def queuedEntries (fragId : UInt16) (total : UInt8) :
    ℕ → ℕ → List Bytes → List (UInt32 × Outgoing)
  | _, _, [] => []
  | number, index, chunk :: rest =>
      (UInt32.ofNat number,
        { plaintext := encodeData (UInt32.ofNat number) fragId (UInt8.ofNat index) total chunk
          lastSent := none
          attempts := 0 }) ::
        queuedEntries fragId total (number + 1) (index + 1) rest

section Queueing

variable {fragId : UInt16} {total : UInt8}

theorem getElem?_queuedEntries (number index : ℕ) (pieces : List Bytes) (offset : ℕ) :
    (queuedEntries fragId total number index pieces)[offset]? =
      pieces[offset]?.map fun chunk => (UInt32.ofNat (number + offset),
        { plaintext := encodeData (UInt32.ofNat (number + offset)) fragId
            (UInt8.ofNat (index + offset)) total chunk
          lastSent := none
          attempts := 0 }) := by
  induction pieces generalizing number index offset with
  | nil => simp [queuedEntries]
  | cons chunk rest ih =>
      cases offset with
      | zero => simp [queuedEntries]
      | succ offset =>
          have numberEq : number + (offset + 1) = number + 1 + offset := by omega
          have indexEq : index + (offset + 1) = index + 1 + offset := by omega
          simp only [queuedEntries, List.getElem?_cons_succ, ih, numberEq, indexEq]

theorem mem_queuedEntries {number index : ℕ} {pieces : List Bytes} {entry : UInt32 × Outgoing} :
    entry ∈ queuedEntries fragId total number index pieces ↔
      ∃ offset chunk, pieces[offset]? = some chunk ∧
        entry = (UInt32.ofNat (number + offset),
          { plaintext := encodeData (UInt32.ofNat (number + offset)) fragId
              (UInt8.ofNat (index + offset)) total chunk
            lastSent := none
            attempts := 0 }) := by
  rw [List.mem_iff_getElem?]
  apply exists_congr
  intro offset
  rw [getElem?_queuedEntries, Option.map_eq_some_iff]
  exact exists_congr fun chunk => and_congr_right fun _ => eq_comm

/-- Queueing chunks inserts their entries between smaller and larger keys. -/
theorem enqueueChunks_eq (fragId : UInt16) (total : UInt8) (arq : Arq) (number index : ℕ)
    (pieces : List Bytes) {lower upper : List (UInt32 × Outgoing)}
    (nextSeq : arq.nextSeq = UInt32.ofNat number)
    (fits : number + pieces.length ≤ 2 ^ 32)
    (entries : arq.unacked.entries = lower ++ upper)
    (below : ∀ entry ∈ lower, entry.1.toNat < number)
    (above : ∀ entry ∈ upper, number + pieces.length ≤ entry.1.toNat) :
    ∃ unacked, enqueueChunks fragId total index pieces arq =
        { arq with nextSeq := UInt32.ofNat (number + pieces.length), unacked } ∧
      unacked.entries = lower ++ queuedEntries fragId total number index pieces ++ upper := by
  induction pieces generalizing arq number index lower with
  | nil => exact ⟨arq.unacked, by simp [enqueueChunks, ← nextSeq], by simp [queuedEntries, entries]⟩
  | cons chunk rest ih =>
      rw [List.length_cons] at fits above
      have numberNat : (UInt32.ofNat number).toNat = number := by
        rw [UInt32.toNat_ofNat']
        omega
      have inserted : (arq.queueFragment fragId (UInt8.ofNat index) total chunk).unacked.entries =
          (lower ++ queuedEntries fragId total number index [chunk]) ++ upper := by
        simp only [queueFragment, OrderedMap.insert, entries, nextSeq, queuedEntries,
          List.append_assoc, List.cons_append, List.nil_append]
        apply OrderedMap.insertEntry_append
        · intro entry entryMem
          rw [UInt32.lt_iff_toNat_lt, numberNat]
          exact below entry entryMem
        · intro entry entryMem
          rw [UInt32.lt_iff_toNat_lt, numberNat]
          have := above entry entryMem
          omega
      rcases ih (arq.queueFragment fragId (UInt8.ofNat index) total chunk)
          (number + 1) (index + 1) (by simp [queueFragment, nextSeq, UInt32.ofNat_add])
          (by omega) inserted
          (by
            intro entry entryMem
            rcases List.mem_append.mp entryMem with old | new
            · have := below entry old
              omega
            · simp only [queuedEntries, List.mem_singleton] at new
              rw [new, numberNat]
              omega)
          (by
            intro entry entryMem
            have := above entry entryMem
            omega) with
        ⟨unacked, resultEq, entriesEq⟩
      refine ⟨unacked, ?_, ?_⟩
      · rw [enqueueChunks, resultEq, List.length_cons]
        simp only [queueFragment, Arq.mk.injEq, and_true]
        congr 1
        omega
      · rw [entriesEq]
        simp [queuedEntries]

/-- Queueing chunks touches the outgoing frames and the next number only. -/
theorem enqueueChunks_frame (index : ℕ) (pieces : List Bytes) (arq : Arq) :
    ∃ nextSeq unacked, enqueueChunks fragId total index pieces arq =
      { arq with nextSeq, unacked } := by
  induction pieces generalizing index arq with
  | nil => exact ⟨arq.nextSeq, arq.unacked, rfl⟩
  | cons chunk rest ih =>
      rcases ih (index + 1) (arq.queueFragment fragId (UInt8.ofNat index) total chunk) with
        ⟨nextSeq, unacked, restEq⟩
      exact ⟨nextSeq, unacked, by rw [enqueueChunks, restEq, queueFragment]⟩

end Queueing

theorem chunks_length_eq_fragCount {message : Bytes} (nonempty : message ≠ []) :
    (chunks maxPayload message).length = fragCount message := by
  simp [fragCount, piecesOf, nonempty]

theorem enqueue_tooLarge {arq : Arq} {message : Bytes} (long : 255 < fragCount message) :
    arq.enqueue message = (.error .tooLarge, arq) := by
  have nonempty : message ≠ [] := by
    rintro rfl
    simp [fragCount, piecesOf] at long
  rw [← chunks_length_eq_fragCount nonempty] at long
  simp [enqueue, nonempty, long]

/-- `enqueue` queues the pieces of any other message under one fragment identifier. -/
theorem enqueue_ok (arq : Arq) {message : Bytes} (short : fragCount message ≤ 255) :
    arq.enqueue message = (.ok (),
      enqueueChunks (if message = [] then 0 else arq.nextFragId) (UInt8.ofNat (fragCount message))
        0 (piecesOf message)
        { arq with
          nextFragId := if message = [] then arq.nextFragId else succFragId arq.nextFragId }) := by
  by_cases empty : message = []
  · subst empty
    simp [enqueue, enqueueOne, fragCount, piecesOf, enqueueChunks]
  · have fits : ¬255 < fragCount message := by omega
    simp only [enqueue, if_neg empty, if_neg fits, chunks_length_eq_fragCount empty, piecesOf]

def markSent (now : Instant) (entry : UInt32 × Outgoing) : UInt32 × Outgoing :=
  (entry.1, { entry.2 with lastSent := some now, attempts := 1 })

/-- The walk over entries whose sent ones come first. -/
theorem newSendsLoop_append (now : Instant) (sent : ℕ) {before after : List (UInt32 × Outgoing)}
    (beforeSent : ∀ entry ∈ before, entry.2.isSent = true)
    (afterUnsent : ∀ entry ∈ after, entry.2.isSent = false) :
    newSendsLoop now sent (before ++ after) =
      ((after.take (windowSize - sent)).map fun entry => entry.2.plaintext,
        before ++ ((after.take (windowSize - sent)).map (markSent now) ++
          after.drop (windowSize - sent))) := by
  induction before with
  | nil =>
      rw [List.nil_append, List.nil_append]
      induction after generalizing sent with
      | nil => simp [newSendsLoop]
      | cons entry rest ih =>
          rcases entry with ⟨seq, slot⟩
          have unsent : slot.isSent = false := afterUnsent (seq, slot) (by simp)
          by_cases full : windowSize ≤ sent
          · simp [newSendsLoop, full, Nat.sub_eq_zero_of_le full]
          · have room : windowSize - sent = windowSize - (sent + 1) + 1 := by omega
            simp only [newSendsLoop, if_neg full, unsent]
            rw [ih (sent + 1) fun other otherMem => afterUnsent other (by simp [otherMem]), room]
            simp [markSent]
  | cons entry rest ih =>
      rcases entry with ⟨seq, slot⟩
      have isSent : slot.isSent = true := beforeSent (seq, slot) (by simp)
      have restEq := ih fun other otherMem => beforeSent other (by simp [otherMem])
      by_cases full : windowSize ≤ sent
      · simp [newSendsLoop, full, Nat.sub_eq_zero_of_le full]
      · simp only [List.cons_append, newSendsLoop, if_neg full, isSent, if_true, restEq]

/-- The keys and plaintexts of outgoing entries, in order. -/
def contents (entries : List (UInt32 × Outgoing)) : List (UInt32 × Bytes) :=
  entries.map fun entry => (entry.1, entry.2.plaintext)

theorem exists_of_contents_eq {before after : List (UInt32 × Outgoing)}
    (same : contents before = contents after) {entry : UInt32 × Outgoing}
    (entryMem : entry ∈ before) :
    ∃ other ∈ after, other.1 = entry.1 ∧ other.2.plaintext = entry.2.plaintext := by
  have content : (entry.1, entry.2.plaintext) ∈ contents after :=
    same ▸ List.mem_map_of_mem entryMem
  rcases List.mem_map.mp content with ⟨other, otherMem, otherEq⟩
  simp only [Prod.mk.injEq] at otherEq
  exact ⟨other, otherMem, otherEq.1, otherEq.2⟩

theorem contents_newSendsLoop (now : Instant) (sent : ℕ) (entries : List (UInt32 × Outgoing)) :
    contents (newSendsLoop now sent entries).2 = contents entries := by
  fun_induction newSendsLoop now sent entries with
  | case1 => rfl
  | case2 => rfl
  | case3 sent seq slot rest room isSent out entries' walk ih => simp_all [contents]
  | case4 sent seq slot rest room unsent out entries' walk ih => simp_all [contents]

theorem contents_retransmitsLoop (now : Instant) (retx : Duration) (maxAttempts : UInt8)
    (entries : List (UInt32 × Outgoing)) :
    contents (retransmitsLoop now retx maxAttempts entries).2 = contents entries := by
  fun_induction retransmitsLoop now retx maxAttempts entries with
  | case1 => rfl
  | case2 seq slot rest unsent result entries' walk ih => simp_all [contents]
  | case3 seq slot rest last sent notDue result entries' walk ih => simp_all [contents]
  | case4 => rfl
  | case5 seq slot rest last sent due notExhausted result entries' walk ih =>
      simp_all [contents]

theorem mem_newSendsLoop_frames {now : Instant} {sent : ℕ} {entries : List (UInt32 × Outgoing)}
    {frame : Bytes} (frameMem : frame ∈ (newSendsLoop now sent entries).1) :
    ∃ entry ∈ entries, frame = entry.2.plaintext := by
  fun_induction newSendsLoop now sent entries with
  | case1 => simp at frameMem
  | case2 sent seq slot rest full => simp at frameMem
  | case3 sent seq slot rest room isSent out entries' walk ih =>
      rcases ih (by simpa [walk] using frameMem) with ⟨entry, entryMem, same⟩
      exact ⟨entry, by simp [entryMem], same⟩
  | case4 sent seq slot rest room unsent out entries' walk ih =>
      rcases List.mem_cons.mp frameMem with rfl | inRest
      · exact ⟨(seq, slot), by simp, rfl⟩
      · rcases ih (by simpa [walk] using inRest) with ⟨entry, entryMem, same⟩
        exact ⟨entry, by simp [entryMem], same⟩

/-- Retransmission keeps keys, plaintexts and the sent mark of every entry. -/
theorem mem_retransmitsLoop {now : Instant} {retx : Duration} {maxAttempts : UInt8}
    {entries : List (UInt32 × Outgoing)} {entry : UInt32 × Outgoing}
    (entryMem : entry ∈ (retransmitsLoop now retx maxAttempts entries).2) :
    ∃ old ∈ entries, old.1 = entry.1 ∧ old.2.plaintext = entry.2.plaintext ∧
      old.2.isSent = entry.2.isSent := by
  fun_induction retransmitsLoop now retx maxAttempts entries with
  | case1 => simp at entryMem
  | case2 seq slot rest unsent result entries' walk ih =>
      rcases List.mem_cons.mp entryMem with rfl | inRest
      · exact ⟨(seq, slot), by simp, rfl, rfl, rfl⟩
      · rcases ih (by simpa [walk] using inRest) with ⟨old, oldMem, same⟩
        exact ⟨old, by simp [oldMem], same⟩
  | case3 seq slot rest last sent notDue result entries' walk ih =>
      rcases List.mem_cons.mp entryMem with rfl | inRest
      · exact ⟨(seq, slot), by simp, rfl, rfl, rfl⟩
      · rcases ih (by simpa [walk] using inRest) with ⟨old, oldMem, same⟩
        exact ⟨old, by simp [oldMem], same⟩
  | case4 seq slot rest last sent due exhausted =>
      exact ⟨entry, entryMem, rfl, rfl, rfl⟩
  | case5 seq slot rest last sent due notExhausted result entries' walk ih =>
      rcases List.mem_cons.mp entryMem with rfl | inRest
      · exact ⟨(seq, slot), by simp, rfl, rfl, by simp [Outgoing.isSent, sent]⟩
      · rcases ih (by simpa [walk] using inRest) with ⟨old, oldMem, same⟩
        exact ⟨old, by simp [oldMem], same⟩

theorem mem_retransmitsLoop_frames {now : Instant} {retx : Duration} {maxAttempts : UInt8}
    {entries : List (UInt32 × Outgoing)} {frames : List Bytes} {frame : Bytes}
    (ok : (retransmitsLoop now retx maxAttempts entries).1 = .ok frames)
    (frameMem : frame ∈ frames) :
    ∃ entry ∈ entries, entry.2.isSent = true ∧ frame = entry.2.plaintext := by
  fun_induction retransmitsLoop now retx maxAttempts entries generalizing frames with
  | case1 =>
      simp only [Except.ok.injEq] at ok
      subst ok
      simp at frameMem
  | case2 seq slot rest unsent result entries' walk ih =>
      rcases ih (by simpa [walk] using ok) frameMem with ⟨entry, entryMem, found⟩
      exact ⟨entry, by simp [entryMem], found⟩
  | case3 seq slot rest last sent notDue result entries' walk ih =>
      rcases ih (by simpa [walk] using ok) frameMem with ⟨entry, entryMem, found⟩
      exact ⟨entry, by simp [entryMem], found⟩
  | case4 seq slot rest last sent due exhausted => simp at ok
  | case5 seq slot rest last sent due notExhausted result entries' walk ih =>
      cases result with
      | error error => simp [Except.map] at ok
      | ok rest' =>
          simp only [Except.map, Except.ok.injEq] at ok
          subst ok
          rcases List.mem_cons.mp frameMem with rfl | inRest
          · exact ⟨(seq, slot), by simp, by simp [Outgoing.isSent, sent], rfl⟩
          · rcases ih (by simp [walk]) inRest with ⟨entry, entryMem, found⟩
            exact ⟨entry, by simp [entryMem], found⟩

@[simp]
theorem ingest_encodeAck (arq : Arq) (base : UInt32) (bits : UInt64) :
    arq.ingest (encodeAck base bits) = (.ok none, arq.onAck base bits) := by
  simp [ingest]

/-- A DATA frame is processed, then the window is acknowledged. -/
theorem ingest_data (arq : Arq) {frame payload : Bytes} {seq : UInt32} {fragId : UInt16}
    {index total : UInt8}
    (decoded : decodeInner frame = .ok (.data seq fragId index total payload)) :
    arq.ingest frame =
      (.ok (some (encodeAck (arq.onData seq fragId index total payload).recvBase
        (arq.onData seq fragId index total payload).recvBits)),
        { arq.onData seq fragId index total payload with pendingAck := true }) := by
  simp only [ingest, decoded]

/-- Marking a sequence number touches the receive window only. -/
theorem markReceived_snd (arq : Arq) (seq : UInt32) :
    ∃ recvBase recvBits, (arq.markReceived seq).2 = { arq with recvBase, recvBits } := by
  unfold markReceived
  dsimp only
  split_ifs
  · exact ⟨arq.recvBase, arq.recvBits, rfl⟩
  · exact ⟨arq.recvBase, arq.recvBits, rfl⟩
  · exact ⟨_, _, rfl⟩

/-- Storing a fragment touches the reassembly map and the delivered queue only. -/
theorem acceptFragment_eq (arq : Arq) (fragId : UInt16) (index total : UInt8) (payload : Bytes) :
    ∃ fragments delivered, arq.acceptFragment fragId index total payload =
      { arq with fragments, delivered } := by
  unfold acceptFragment
  dsimp only
  split_ifs
  · exact ⟨_, _, rfl⟩
  · exact ⟨_, _, rfl⟩
  · exact ⟨_, _, rfl⟩
  · exact ⟨_, _, rfl⟩

theorem onData_eq (arq : Arq) (seq : UInt32) (fragId : UInt16) (index total : UInt8)
    (payload : Bytes) :
    ∃ recvBase recvBits fragments delivered, arq.onData seq fragId index total payload =
      { arq with recvBase, recvBits, fragments, delivered } := by
  rcases markReceived_snd arq seq with ⟨recvBase, recvBits, marked⟩
  unfold onData
  dsimp only
  split_ifs
  · rcases acceptFragment_eq (arq.markReceived seq).2 fragId index total payload with
      ⟨fragments, delivered, stored⟩
    exact ⟨recvBase, recvBits, fragments, delivered, by rw [stored, marked]⟩
  · exact ⟨recvBase, recvBits, arq.fragments, arq.delivered, marked⟩

theorem takeAck_eq (arq : Arq) :
    ∃ pendingAck, arq.takeAck.2 = { arq with pendingAck } := by
  unfold takeAck
  split_ifs
  · exact ⟨false, rfl⟩
  · exact ⟨arq.pendingAck, rfl⟩

theorem mem_takeAck {arq : Arq} {ack : Bytes} (ackMem : ack ∈ arq.takeAck.1.toList) :
    ack = encodeAck arq.recvBase arq.recvBits := by
  unfold takeAck at ackMem
  split_ifs at ackMem
  · simpa using ackMem
  · simp at ackMem

theorem popDelivered_eq (arq : Arq) :
    ∃ delivered, arq.popDelivered.2 = { arq with delivered } := by
  unfold popDelivered
  split
  · exact ⟨arq.delivered, rfl⟩
  · exact ⟨_, rfl⟩

end Arq

end Ppose

import Ppose.Reliability.Retries
import Mathlib.Data.List.Chain

/-!
# Which frames are handed out, how often and when

The number of attempts of an outgoing frame is the number of times it has been handed
out, and its time is the last of these (`Mirrors`).  Since an entry is only sent again
when its timer is due and attempts are left, no frame is handed out more than five
times, and the times are at least the retransmit timeout apart.

Frames are told apart by the sequence number in their header.
-/

namespace Ppose

namespace Arq

/-- The sequence number in the header of a DATA frame. -/
def frameSeq (frame : Bytes) : UInt32 := UInt32.ofNat (BigEndian.decode (slice frame 1 5))

theorem frameSeq_encodeData (seq : UInt32) (fragId : UInt16) (index total : UInt8)
    (payload : Bytes) : frameSeq (encodeData seq fragId index total payload) = seq := by
  rw [frameSeq, slice_seq_encodeData, BigEndian.ofNat_decode_encode_uint32]

/-! ### Handing out -/

/-- An entry may be sent: its timer is due if it was sent before, and attempts are left. -/
def MaySend (now : Instant) (retx : Duration) (slot : Outgoing) : Prop :=
  slot.attempts < defaultMaxAttempts ∧ ∀ last, slot.lastSent = some last → retx ≤ now - last

/-- Some of the entries are handed out and rewritten, the others kept. -/
inductive HandsOut (now : Instant) (retx : Duration) :
    List (UInt32 × Outgoing) → List (UInt32 × Outgoing) → List Bytes → Prop where
  | nil : HandsOut now retx [] [] []
  | keep {entry : UInt32 × Outgoing} {rest kept : List (UInt32 × Outgoing)} {frames : List Bytes}
      (handsOut : HandsOut now retx rest kept frames) :
      HandsOut now retx (entry :: rest) (entry :: kept) frames
  | send {entry : UInt32 × Outgoing} {rest kept : List (UInt32 × Outgoing)} {frames : List Bytes}
      (maySend : MaySend now retx entry.2) (handsOut : HandsOut now retx rest kept frames) :
      HandsOut now retx (entry :: rest) (resent now entry :: kept) (entry.2.plaintext :: frames)

namespace HandsOut

variable {now : Instant} {retx : Duration} {entries kept : List (UInt32 × Outgoing)}
  {frames : List Bytes}

theorem refl (entries : List (UInt32 × Outgoing)) : HandsOut now retx entries entries [] := by
  induction entries with
  | nil => exact .nil
  | cons entry rest ih => exact .keep ih

theorem append {more moreKept : List (UInt32 × Outgoing)} {moreFrames : List Bytes}
    (handsOut : HandsOut now retx entries kept frames)
    (moreOut : HandsOut now retx more moreKept moreFrames) :
    HandsOut now retx (entries ++ more) (kept ++ moreKept) (frames ++ moreFrames) := by
  induction handsOut with
  | nil => exact moreOut
  | keep _ ih => exact .keep ih
  | send maySend _ ih => exact .send maySend ih

/-- What happens to the entry and the frames of one sequence number. -/
def Traces (now : Instant) (retx : Duration) (frames : List Bytes)
    (entry after : UInt32 × Outgoing) : Prop :=
  (after = entry ∧ frames.filter (fun frame => frameSeq frame = entry.1) = []) ∨
    (MaySend now retx entry.2 ∧ after = resent now entry ∧
      frames.filter (fun frame => frameSeq frame = entry.1) = [entry.2.plaintext])

theorem mem_frames (handsOut : HandsOut now retx entries kept frames) :
    ∀ frame ∈ frames, ∃ entry ∈ entries, frame = entry.2.plaintext := by
  induction handsOut with
  | nil => simp
  | keep _ ih =>
      intro frame frameMem
      rcases ih frame frameMem with ⟨entry, entryMem, same⟩
      exact ⟨entry, List.mem_cons_of_mem _ entryMem, same⟩
  | @send entry _ _ _ _ _ ih =>
      intro frame frameMem
      rcases List.mem_cons.mp frameMem with rfl | inRest
      · exact ⟨entry, List.mem_cons_self, rfl⟩
      · rcases ih frame inRest with ⟨other, otherMem, same⟩
        exact ⟨other, List.mem_cons_of_mem _ otherMem, same⟩

theorem filter_frames_eq_nil (handsOut : HandsOut now retx entries kept frames)
    (numbered : ∀ entry ∈ entries, frameSeq entry.2.plaintext = entry.1) {seq : UInt32}
    (absent : ∀ entry ∈ entries, entry.1 ≠ seq) :
    frames.filter (fun frame => frameSeq frame = seq) = [] := by
  apply List.filter_eq_nil_iff.mpr
  intro frame frameMem
  rcases handsOut.mem_frames frame frameMem with ⟨entry, entryMem, rfl⟩
  simpa [numbered entry entryMem] using absent entry entryMem

theorem Traces.fst_eq {entry after : UInt32 × Outgoing}
    (traces : Traces now retx frames entry after) : after.1 = entry.1 := by
  rcases traces with ⟨rfl, _⟩ | ⟨_, rfl, _⟩
  · rfl
  · rfl

theorem Traces.cons_frame {entry after : UInt32 × Outgoing} {frame : Bytes}
    (traces : Traces now retx frames entry after) (other : frameSeq frame ≠ entry.1) :
    Traces now retx (frame :: frames) entry after := by
  have filterEq : (frame :: frames).filter (fun frame => frameSeq frame = entry.1) =
      frames.filter fun frame => frameSeq frame = entry.1 :=
    List.filter_cons_of_neg (by simpa using other)
  unfold Traces at traces ⊢
  rw [filterEq]
  exact traces

theorem exists_traces (handsOut : HandsOut now retx entries kept frames)
    (sorted : (entries.map Prod.fst).Pairwise (· < ·))
    (numbered : ∀ entry ∈ entries, frameSeq entry.2.plaintext = entry.1) :
    ∀ entry ∈ entries, ∃ after ∈ kept, Traces now retx frames entry after := by
  induction handsOut with
  | nil => simp
  | @keep first rest kept frames handsOut ih =>
      rw [List.map_cons, List.pairwise_cons] at sorted
      rcases List.forall_mem_cons.mp numbered with ⟨_, restNumbered⟩
      have noFrames := handsOut.filter_frames_eq_nil restNumbered fun other otherMem =>
        (sorted.1 other.1 (List.mem_map_of_mem otherMem)).ne'
      intro entry entryMem
      rcases List.mem_cons.mp entryMem with rfl | inRest
      · exact ⟨entry, List.mem_cons_self, .inl ⟨rfl, noFrames⟩⟩
      · rcases ih sorted.2 restNumbered entry inRest with ⟨after, afterMem, traces⟩
        exact ⟨after, List.mem_cons_of_mem _ afterMem, traces⟩
  | @send first rest kept frames maySend handsOut ih =>
      rw [List.map_cons, List.pairwise_cons] at sorted
      rcases List.forall_mem_cons.mp numbered with ⟨firstNumbered, restNumbered⟩
      have noFrames := handsOut.filter_frames_eq_nil restNumbered fun other otherMem =>
        (sorted.1 other.1 (List.mem_map_of_mem otherMem)).ne'
      intro entry entryMem
      rcases List.mem_cons.mp entryMem with rfl | inRest
      · refine ⟨resent now entry, List.mem_cons_self, .inr ⟨maySend, rfl, ?_⟩⟩
        rw [List.filter_cons_of_pos (by simpa using firstNumbered), noFrames]
      · rcases ih sorted.2 restNumbered entry inRest with ⟨after, afterMem, traces⟩
        have above := sorted.1 entry.1 (List.mem_map_of_mem inRest)
        refine ⟨after, List.mem_cons_of_mem _ afterMem, traces.cons_frame ?_⟩
        rw [firstNumbered]
        exact above.ne

theorem keys_eq (handsOut : HandsOut now retx entries kept frames) :
    kept.map Prod.fst = entries.map Prod.fst := by
  induction handsOut with
  | nil => rfl
  | keep _ ih => rw [List.map_cons, List.map_cons, ih]
  | send _ _ ih =>
      rw [List.map_cons, List.map_cons, ih]
      rfl

/-- Every entry which is left comes from one of the entries before. -/
theorem exists_origin (handsOut : HandsOut now retx entries kept frames)
    (sorted : (entries.map Prod.fst).Pairwise (· < ·))
    (numbered : ∀ entry ∈ entries, frameSeq entry.2.plaintext = entry.1) :
    ∀ after ∈ kept, ∃ entry ∈ entries, Traces now retx frames entry after := by
  intro after afterMem
  have keyMem : after.1 ∈ entries.map Prod.fst := by
    rw [← handsOut.keys_eq]
    exact List.mem_map_of_mem afterMem
  rcases List.mem_map.mp keyMem with ⟨entry, entryMem, keyEq⟩
  rcases handsOut.exists_traces sorted numbered entry entryMem with ⟨other, otherMem, traces⟩
  have same : other = after :=
    OrderedMap.eq_of_fst_eq (handsOut.keys_eq ▸ sorted) otherMem afterMem
      (traces.fst_eq.trans keyEq)
  exact ⟨entry, entryMem, same ▸ traces⟩

theorem sendAll (entries : List (UInt32 × Outgoing))
    (maySend : ∀ entry ∈ entries, MaySend now retx entry.2) :
    HandsOut now retx entries (entries.map (resent now))
      (entries.map fun entry => entry.2.plaintext) := by
  induction entries with
  | nil => exact .nil
  | cons entry rest ih =>
      rcases List.forall_mem_cons.mp maySend with ⟨first, others⟩
      exact .send first (ih others)

theorem of_resentIfDue (entries : List (UInt32 × Outgoing))
    (attemptsLeft : ∀ entry ∈ entries, isDue now retx entry = true →
      entry.2.attempts < defaultMaxAttempts) :
    HandsOut now retx entries (entries.map (resentIfDue now retx))
      ((entries.filter (isDue now retx)).map fun entry => entry.2.plaintext) := by
  induction entries with
  | nil => exact .nil
  | cons entry rest ih =>
      rcases List.forall_mem_cons.mp attemptsLeft with ⟨first, others⟩
      cases due : isDue now retx entry with
      | false => simpa [resentIfDue, due] using HandsOut.keep (ih others)
      | true =>
          have maySend : MaySend now retx entry.2 := by
            refine ⟨first due, ?_⟩
            intro last sent
            rcases exists_sent_of_isDue due with ⟨other, otherSent, elapsed⟩
            rw [sent, Option.some.injEq] at otherSent
            rwa [otherSent]
          simpa [resentIfDue, due] using HandsOut.send maySend (ih others)

end HandsOut

variable {now : Instant} {queued : ℕ} {arq : Arq}

theorem Orderly.handsOut_takeNewSends (orderly : Orderly now queued arq) :
    HandsOut now arq.retx arq.unacked.entries (arq.takeNewSends now).2.unacked.entries
      (arq.takeNewSends now).1 := by
  have sentFirst := orderly.sentFirst
  generalize arq.unacked.entries.takeWhile (fun entry => entry.2.isSent) = before at sentFirst
  generalize arq.unacked.entries.dropWhile (fun entry => entry.2.isSent) = after at sentFirst
  have neverSent : ∀ entry ∈ after, entry.2.lastSent = none ∧ entry.2.attempts = 0 := by
    intro entry entryMem
    have inEntries : entry ∈ arq.unacked.entries := by
      rw [sentFirst.entries_eq]
      exact List.mem_append_right _ entryMem
    have unsent : entry.2.lastSent = none := by
      simpa [Outgoing.isSent] using sentFirst.after_unsent entry entryMem
    have paced := orderly.paced entry inEntries
    simp only [Paced, unsent] at paced
    exact ⟨unsent, paced⟩
  have marked : (after.take (windowSize - before.length)).map (markSent now) =
      (after.take (windowSize - before.length)).map (resent now) := by
    apply List.map_congr_left
    intro entry entryMem
    simp only [markSent, resent, (neverSent entry (List.mem_of_mem_take entryMem)).2]
    rfl
  have maySend : ∀ entry ∈ after.take (windowSize - before.length),
      MaySend now arq.retx entry.2 := by
    intro entry entryMem
    rcases neverSent entry (List.mem_of_mem_take entryMem) with ⟨unsent, attemptsEq⟩
    refine ⟨?_, ?_⟩
    · rw [attemptsEq]
      decide
    · intro last sent
      rw [unsent] at sent
      cases sent
  rw [(sentFirst.takeNewSends now).1, (sentFirst.takeNewSends now).2, marked, sentFirst.entries_eq]
  have handsOut := (HandsOut.refl before).append
    ((HandsOut.sendAll _ maySend).append
      (HandsOut.refl (after.drop (windowSize - before.length))))
  rwa [List.take_append_drop, List.nil_append, List.append_nil] at handsOut

/-! ### The ledger mirrors the endpoint -/

/-- The hand-outs of one sequence number. -/
def sendingsOf (sendings : List Sending) (seq : UInt32) : List Sending :=
  sendings.filter fun sending => frameSeq sending.frame = seq

/-- An outgoing frame counts its hand-outs and knows the last of them. -/
structure Mirrors (history : List Sending) (slot : Outgoing) : Prop where
  length_eq : history.length = slot.attempts.toNat
  last_eq : history.getLast?.map Sending.sentAt = slot.lastSent
  frame_eq : ∀ sending ∈ history, sending.frame = slot.plaintext

/-- The hand-outs of one frame are few, alike, and far enough apart. -/
structure Disciplined (history : List Sending) : Prop where
  length_le : history.length ≤ 5
  frame_eq : ∀ first ∈ history, ∀ second ∈ history, first.frame = second.frame
  spaced : history.IsChain fun earlier later => later.retx ≤ later.sentAt - earlier.sentAt

theorem Mirrors.append {history : List Sending} {entry : UInt32 × Outgoing} {retx : Duration}
    (mirrors : Mirrors history entry.2) (maySend : MaySend now retx entry.2) :
    Mirrors (history ++ [⟨entry.2.plaintext, now, retx⟩]) (resent now entry).2 where
  length_eq := by
    have bumped := toNat_succ_attempts maySend.1
    rw [List.length_append, mirrors.length_eq, List.length_singleton]
    exact bumped.symm
  last_eq := by
    rw [List.getLast?_append]
    rfl
  frame_eq := by
    intro sending sendingMem
    rcases List.mem_append.mp sendingMem with old | new
    · exact mirrors.frame_eq sending old
    · rw [List.mem_singleton.mp new]
      rfl

theorem Disciplined.append {history : List Sending} {entry : UInt32 × Outgoing} {retx : Duration}
    (disciplined : Disciplined history) (mirrors : Mirrors history entry.2)
    (maySend : MaySend now retx entry.2) :
    Disciplined (history ++ [⟨entry.2.plaintext, now, retx⟩]) where
  length_le := by
    have left := UInt8.lt_iff_toNat_lt.mp maySend.1
    rw [List.length_append, mirrors.length_eq, List.length_singleton]
    exact left
  frame_eq := by
    have alike := (mirrors.append maySend).frame_eq
    intro first firstMem second secondMem
    rw [alike first firstMem, alike second secondMem]
  spaced := by
    apply List.isChain_append.mpr
    refine ⟨disciplined.spaced, List.isChain_singleton _, ?_⟩
    intro last lastMem new newMem
    have sent : entry.2.lastSent = some last.sentAt := by
      rw [← mirrors.last_eq, Option.mem_def.mp lastMem]
      rfl
    simp only [List.head?_cons, Option.mem_def, Option.some.injEq] at newMem
    subst newMem
    exact maySend.2 last.sentAt sent

theorem mirrors_unsent {slot : Outgoing} (unsent : slot.lastSent = none)
    (attemptsEq : slot.attempts = 0) : Mirrors [] slot where
  length_eq := by
    rw [attemptsEq]
    rfl
  last_eq := unsent.symm
  frame_eq := by simp

theorem disciplined_nil : Disciplined [] where
  length_le := Nat.zero_le _
  frame_eq := by simp
  spaced := .nil

theorem sendingsOf_append (sendings : List Sending) (frames : List Bytes) (now : Instant)
    (retx : Duration) (seq : UInt32) :
    sendingsOf (sendings ++ frames.map fun frame => ⟨frame, now, retx⟩) seq =
      sendingsOf sendings seq ++
        (frames.filter fun frame => frameSeq frame = seq).map fun frame => ⟨frame, now, retx⟩ := by
  rw [sendingsOf, List.filter_append, List.filter_map]
  rfl

/-- What the hand-outs of a ledger have to do with the frames which are outgoing. -/
structure Mirrored (ledger : Ledger) : Prop where
  numbered : ∀ entry ∈ ledger.arq.unacked.entries, frameSeq entry.2.plaintext = entry.1
  known : ∀ sending ∈ ledger.sendings,
    (frameSeq sending.frame).toNat < ledger.fragmentsEnqueued
  mirrors : ∀ entry ∈ ledger.arq.unacked.entries,
    Mirrors (sendingsOf ledger.sendings entry.1) entry.2
  disciplined : ∀ seq, Disciplined (sendingsOf ledger.sendings seq)

theorem mirrored_initial : Mirrored .initial where
  numbered := by simp [Ledger.initial, Arq.new, OrderedMap.empty]
  known := by simp [Ledger.initial]
  mirrors := by simp [Ledger.initial, Arq.new, OrderedMap.empty]
  disciplined _ := disciplined_nil

variable {ledger : Ledger}

/-- An operation which only removes outgoing frames hands out nothing. -/
theorem Mirrored.sublist (mirrored : Mirrored ledger) {other : Arq}
    (sublist : other.unacked.entries.Sublist ledger.arq.unacked.entries) :
    Mirrored { ledger with arq := other } where
  numbered entry entryMem := mirrored.numbered entry (sublist.subset entryMem)
  known := mirrored.known
  mirrors entry entryMem := mirrored.mirrors entry (sublist.subset entryMem)
  disciplined := mirrored.disciplined

/-- What one hand-out adds to the history of an entry. -/
theorem Mirrored.traces (mirrored : Mirrored ledger) {retx : Duration} {frames : List Bytes}
    {entry after : UInt32 × Outgoing} (entryMem : entry ∈ ledger.arq.unacked.entries)
    (traces : HandsOut.Traces now retx frames entry after) :
    Mirrors (sendingsOf (ledger.sendings ++ frames.map fun frame => ⟨frame, now, retx⟩) entry.1)
        after.2 ∧
      Disciplined
        (sendingsOf (ledger.sendings ++ frames.map fun frame => ⟨frame, now, retx⟩) entry.1) := by
  have mirrors := mirrored.mirrors entry entryMem
  have disciplined := mirrored.disciplined entry.1
  rw [sendingsOf_append]
  rcases traces with ⟨rfl, noFrames⟩ | ⟨maySend, rfl, oneFrame⟩
  · rw [noFrames, List.map_nil, List.append_nil]
    exact ⟨mirrors, disciplined⟩
  · rw [oneFrame, List.map_singleton]
    exact ⟨mirrors.append maySend, disciplined.append mirrors maySend⟩

/-- Handing out frames which may be sent keeps the ledger mirrored. -/
theorem Mirrored.handsOut (mirrored : Mirrored ledger)
    (orderly : Orderly now ledger.fragmentsEnqueued ledger.arq) {retx : Duration} {other : Arq}
    {frames : List Bytes}
    (handsOut : HandsOut now retx ledger.arq.unacked.entries other.unacked.entries frames) :
    Mirrored
      { ledger with
        arq := other
        sendings := ledger.sendings ++ frames.map fun frame => ⟨frame, now, retx⟩ } where
  numbered := by
    intro after afterMem
    rcases handsOut.exists_origin ledger.arq.unacked.sorted mirrored.numbered after afterMem with
      ⟨entry, entryMem, ⟨rfl, _⟩ | ⟨_, rfl, _⟩⟩
    · exact mirrored.numbered after entryMem
    · exact mirrored.numbered entry entryMem
  known := by
    intro sending sendingMem
    rcases List.mem_append.mp sendingMem with old | new
    · exact mirrored.known sending old
    · rcases List.mem_map.mp new with ⟨frame, frameMem, rfl⟩
      rcases handsOut.mem_frames frame frameMem with ⟨entry, entryMem, rfl⟩
      rw [mirrored.numbered entry entryMem]
      exact orderly.below entry entryMem
  mirrors := by
    intro after afterMem
    rcases handsOut.exists_origin ledger.arq.unacked.sorted mirrored.numbered after afterMem with
      ⟨entry, entryMem, traces⟩
    rw [traces.fst_eq]
    exact (mirrored.traces entryMem traces).1
  disciplined := by
    intro seq
    by_cases outgoing : ∃ entry ∈ ledger.arq.unacked.entries, entry.1 = seq
    · rcases outgoing with ⟨entry, entryMem, rfl⟩
      rcases handsOut.exists_traces ledger.arq.unacked.sorted mirrored.numbered entry entryMem with
        ⟨after, _, traces⟩
      exact (mirrored.traces entryMem traces).2
    · have noFrames := handsOut.filter_frames_eq_nil mirrored.numbered
        (fun entry entryMem keyEq => outgoing ⟨entry, entryMem, keyEq⟩)
      simp only [sendingsOf_append, noFrames, List.map_nil, List.append_nil]
      exact mirrored.disciplined seq

/-- A queued message brings frames which were never handed out. -/
theorem Mirrored.enqueue (mirrored : Mirrored ledger)
    (orderly : Orderly now ledger.fragmentsEnqueued ledger.arq) {message : Bytes}
    (short : fragCount message ≤ 255)
    (fits : ledger.fragmentsEnqueued + fragCount message ≤ 2 ^ 32) :
    Mirrored
      { ledger with
        arq := (ledger.arq.enqueue message).2, enqueued := ledger.enqueued ++ [message] } := by
  rcases orderly.enqueue_eq short fits with ⟨unacked, nextFragId, resultEq, entriesEq⟩
  have noSendings : ∀ seq : UInt32, ledger.fragmentsEnqueued ≤ seq.toNat →
      sendingsOf ledger.sendings seq = [] := by
    intro seq above
    apply List.filter_eq_nil_iff.mpr
    intro sending sendingMem
    have known := mirrored.known sending sendingMem
    simp only [decide_eq_true_eq]
    rintro rfl
    omega
  rw [resultEq]
  refine ⟨?_, ?_, ?_, mirrored.disciplined⟩
  · intro entry entryMem
    rw [entriesEq] at entryMem
    rcases List.mem_append.mp entryMem with old | new
    · exact mirrored.numbered entry old
    · rcases mem_queuedEntries.mp new with ⟨offset, chunk, piece, rfl⟩
      exact frameSeq_encodeData _ _ _ _ _
  · intro sending sendingMem
    have known := mirrored.known sending sendingMem
    simp only [Ledger.fragmentsEnqueued, totalFragments_append] at known ⊢
    omega
  · intro entry entryMem
    rw [entriesEq] at entryMem
    rcases List.mem_append.mp entryMem with old | new
    · exact mirrored.mirrors entry old
    · rcases mem_queuedEntries.mp new with ⟨offset, chunk, piece, rfl⟩
      have offsetLt := index_lt_of_piece piece
      rw [noSendings]
      · exact mirrors_unsent rfl rfl
      · rw [UInt32.toNat_ofNat', Nat.mod_eq_of_lt (by omega)]
        omega

/-! ### Runs -/

theorem Mirrored.takeRetransmits (mirrored : Mirrored ledger)
    (orderly : Orderly now ledger.fragmentsEnqueued ledger.arq) :
    Mirrored (ledger.step (.takeRetransmits now)) := by
  have outcome := orderly.retransmitsOutcome
  simp only [Ledger.step]
  generalize ledger.arq.takeRetransmits now = result at outcome
  cases outcome with
  | givesUp => exact mirrored
  | resends attemptsLeft entriesEq =>
      have handsOut := HandsOut.of_resentIfDue ledger.arq.unacked.entries attemptsLeft
      rw [← entriesEq] at handsOut
      exact mirrored.handsOut orderly handsOut

theorem Mirrored.step {op : ArqOp} (mirrored : Mirrored ledger)
    (orderly : Orderly now ledger.fragmentsEnqueued ledger.arq)
    (sorted : (now :: op.reads).Pairwise (· ≤ ·))
    (bounded : (ledger.step op).fragmentsEnqueued < 2 ^ 32) : Mirrored (ledger.step op) := by
  cases op with
  | enqueue message =>
      rcases ledger.step_enqueue message with ⟨short, stepEq⟩ | stepEq
      · rw [stepEq] at bounded ⊢
        simp only [Ledger.fragmentsEnqueued, totalFragments_append, totalFragments_singleton]
          at bounded
        exact mirrored.enqueue orderly short bounded.le
      · rw [stepEq]
        exact mirrored
  | takeNewSends time =>
      have notBefore := (List.pairwise_cons.mp sorted).1 time List.mem_cons_self
      have timely := orderly.wait notBefore
      exact mirrored.handsOut timely timely.handsOut_takeNewSends
  | takeRetransmits time =>
      have notBefore := (List.pairwise_cons.mp sorted).1 time List.mem_cons_self
      exact mirrored.takeRetransmits (orderly.wait notBefore)
  | ingest plaintext => exact mirrored.sublist (ledger.arq.ingest_sublist plaintext).1
  | takeAck =>
      rcases takeAck_eq ledger.arq with ⟨pendingAck, taken⟩
      simp only [Ledger.step, taken]
      exact mirrored.sublist (List.Sublist.refl _)
  | popDelivered =>
      rcases popDelivered_eq ledger.arq with ⟨delivered, popped⟩
      simp only [Ledger.step, popped]
      exact mirrored.sublist (List.Sublist.refl _)
  | setRetx retx => exact mirrored.sublist (List.Sublist.refl _)

/-- A ledger whose sequence numbers have not wrapped is orderly and mirrors its hand-outs. -/
def Ledger.IsDisciplined (now : Instant) (ledger : Ledger) : Prop :=
  ledger.fragmentsEnqueued < 2 ^ 32 →
    Orderly now ledger.fragmentsEnqueued ledger.arq ∧ Mirrored ledger

theorem isDisciplined_run {ops : List ArqOp} (monotone : ClockedRun.Monotone ArqOp.reads ops) :
    (Ledger.run ops).IsDisciplined (ClockedRun.last ArqOp.reads ops) := by
  refine ClockedRun.invariant (fun _ => ⟨orderly_new, mirrored_initial⟩) ?_ ops monotone
  intro now ledger op isDisciplined sorted bounded
  have boundedBefore := (ledger.fragmentsEnqueued_step_le op).trans_lt bounded
  rcases isDisciplined boundedBefore with ⟨orderly, mirrored⟩
  exact ⟨orderly.step sorted bounded, mirrored.step orderly sorted bounded⟩

theorem SentFirst.filter_unsent {before after : List (UInt32 × Outgoing)}
    (sentFirst : arq.SentFirst before after) :
    arq.unacked.entries.filter (fun entry => !entry.2.isSent) = after := by
  rw [sentFirst.entries_eq, List.filter_append]
  have noneBefore : before.filter (fun entry => !entry.2.isSent) = [] := by
    apply List.filter_eq_nil_iff.mpr
    intro entry entryMem
    simp [sentFirst.before_sent entry entryMem]
  have allAfter : after.filter (fun entry => !entry.2.isSent) = after := by
    apply List.filter_eq_self.mpr
    intro entry entryMem
    simp [sentFirst.after_unsent entry entryMem]
  rw [noneBefore, allAfter, List.nil_append]

/-- The first sends are the lowest-numbered frames which were never sent. -/
theorem Orderly.takeNewSends_eq (orderly : Orderly now queued arq) (time : Instant) :
    (arq.takeNewSends time).1 =
      ((arq.unacked.entries.filter fun entry => !entry.2.isSent).take
        (min (windowSize - arq.inFlightSent)
          (arq.unacked.entries.countP fun entry => !entry.2.isSent))).map
        fun entry => entry.2.plaintext := by
  have sentFirst := orderly.sentFirst
  rw [List.countP_eq_length_filter, sentFirst.filter_unsent, sentFirst.inFlightSent_eq,
    (sentFirst.takeNewSends time).1, ← List.take_eq_take_min]

/--
The discipline of sending, after any run in which the clock never goes back.  At most a
window of the outgoing frames were sent, and these come first; `takeNewSends` hands out
the lowest-numbered others up to the window; every outgoing frame mirrors its hand-outs;
and no frame is handed out more than five times, with other bytes, or too early.
-/
theorem sendDiscipline_run (ops : List ArqOp) (monotone : ClockedRun.Monotone ArqOp.reads ops)
    (bounded : (Ledger.run ops).fragmentsEnqueued < 2 ^ 32) :
    (Ledger.run ops).arq.inFlightSent ≤ windowSize ∧
    (∀ sent ∈ (Ledger.run ops).arq.unacked.entries, sent.2.isSent = true →
      ∀ unsent ∈ (Ledger.run ops).arq.unacked.entries, unsent.2.isSent = false →
        sent.1 < unsent.1) ∧
    (∀ now, ((Ledger.run ops).arq.takeNewSends now).1 =
      (((Ledger.run ops).arq.unacked.entries.filter fun entry => !entry.2.isSent).take
        (min (windowSize - (Ledger.run ops).arq.inFlightSent)
          ((Ledger.run ops).arq.unacked.entries.countP fun entry => !entry.2.isSent))).map
        fun entry => entry.2.plaintext) ∧
    (∀ entry ∈ (Ledger.run ops).arq.unacked.entries, frameSeq entry.2.plaintext = entry.1 ∧
      Mirrors (sendingsOf (Ledger.run ops).sendings entry.1) entry.2) ∧
    ∀ seq, Disciplined (sendingsOf (Ledger.run ops).sendings seq) := by
  rcases isDisciplined_run monotone bounded with ⟨orderly, mirrored⟩
  refine ⟨orderly.window, ?_, orderly.takeNewSends_eq, ?_, mirrored.disciplined⟩
  · intro sent sentMem wasSent unsent unsentMem neverSent
    by_contra notBelow
    rcases (not_lt.mp notBelow).lt_or_eq with below | same
    · have := orderly.isSent_of_lt unsentMem sentMem below wasSent
      rw [neverSent] at this
      cases this
    · have sameEntry := OrderedMap.eq_of_fst_eq (Ledger.run ops).arq.unacked.sorted
        unsentMem sentMem same
      rw [sameEntry, wasSent] at neverSent
      cases neverSent
  · intro entry entryMem
    exact ⟨mirrored.numbered entry entryMem, mirrored.mirrors entry entryMem⟩

theorem sendDiscipline_run_unanswered :
    ((sendingsOf (Ledger.run unanswered).sendings 1).map Sending.sentAt =
      [0, 200000000, 400000000, 600000000, 800000000]) ∧
    Disciplined (sendingsOf (Ledger.run unanswered).sendings 1) :=
  ⟨by decide +kernel, (sendDiscipline_run unanswered (by decide) (by decide)).2.2.2.2 1⟩

end Arq

end Ppose

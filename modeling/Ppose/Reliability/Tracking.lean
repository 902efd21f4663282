import Ppose.Reliability.OneWay
import Mathlib.Data.List.TakeWhile

/-!
# The ARQ endpoints refine selective repeat

Each direction of the two-endpoint system is tracked by an abstract
selective-repeat flow over unbounded sequence numbers: the sending endpoint holds
exactly the outstanding frames and has sent exactly the numbers below `sent`
(`SenderTracks`); the receiving endpoint's window represents the accepted set,
its acknowledgements are reports, and it has reassembled what the accepted
numbers allow (`ReceiverTracks`).

Every move of the system is matched by moves of the two flows
(`Net.linkedBy_step`), as long as no side has enqueued so many fragments that
sequence numbers become ambiguous.  All safety properties of the endpoints follow
from the flow invariant through this relation (`Net.linkedBy_run`).
-/

namespace Ppose

namespace Arq

abbrev ReachableFlow (flow : Flow) : Prop := flow.Reachable windowSize receiveWindow

abbrev ValidFlow (flow : Flow) : Prop := flow.Valid windowSize receiveWindow

/-- The sending endpoint of a direction agrees with its flow. -/
structure SenderTracks (sender : Endpoint) (flow : Flow) : Prop where
  queued_eq : flow.queued = sender.fragmentsEnqueued
  nextSeq_eq : sender.arq.nextSeq = UInt32.ofNat flow.queued
  nextFragId_eq : sender.arq.nextFragId = fragIdAfter sender.enqueued
  short : ∀ message ∈ sender.enqueued, fragCount message ≤ 255
  outstanding_iff : ∀ number, number ∈ flow.outstanding ↔
    ∃ entry ∈ sender.arq.unacked.entries, entry.1.toNat = number
  slot : ∀ entry ∈ sender.arq.unacked.entries,
    IsFrame sender.enqueued entry.1.toNat entry.2.plaintext ∧
      (entry.2.isSent = true ↔ entry.1.toNat < flow.sent)
  emitted : ∀ frame ∈ sender.emitted, (∃ base bits, frame = encodeAck base bits) ∨
    ∃ number < flow.sent, IsFrame sender.enqueued number frame

/-- The receiving endpoint of a direction agrees with its flow. -/
structure ReceiverTracks (messages : List Bytes) (receiver : Endpoint) (flow : Flow) : Prop where
  accepted_iff : ∀ number, number ∈ flow.accepted ↔ ∃ seq ∈ receiver.accepted, seq.toNat = number
  window : Represents receiver.arq.recvBase receiver.arq.recvBits flow.accepted
  acks : ∀ base bits, encodeAck base bits ∈ receiver.emitted →
    ∃ report ∈ flow.reports, Represents base bits report
  reassembly : Reassembly messages flow.accepted receiver.arq.fragments receiver.pushed

/-- The direction from `sender` to `receiver` is tracked by a flow of the protocol. -/
structure Linked (sender receiver : Endpoint) (flow : Flow) : Prop where
  reachable : ReachableFlow flow
  sends : SenderTracks sender flow
  receives : ReceiverTracks sender.enqueued receiver flow

abbrev FlowSteps : Flow → Flow → Prop := Relation.ReflTransGen (Flow.Step windowSize receiveWindow)

variable {sender receiver : Endpoint} {flow : Flow} {messages : List Bytes}

theorem encodeAck_ne_of_isFrame {number : ℕ} {frame : Bytes} {base : UInt32} {bits : UInt64}
    (short : ∀ message ∈ messages, fragCount message ≤ 255)
    (isFrame : IsFrame messages number frame) : encodeAck base bits ≠ frame := by
  rcases isFrame with ⟨position, message, index, chunk, present, piece, _, frameEq⟩
  intro same
  have decoded := decodeInner_frameOf messages position piece
    (short message (List.mem_of_getElem? present))
  rw [← frameEq, ← same, decodeInner_encodeAck] at decoded
  simp at decoded

/-- The state of an endpoint its sending direction depends on. -/
def Endpoint.sendState (endpoint : Endpoint) :
    List Bytes × UInt32 × UInt16 × OrderedMap UInt32 Outgoing :=
  (endpoint.enqueued, endpoint.arq.nextSeq, endpoint.arq.nextFragId, endpoint.arq.unacked)

theorem SenderTracks.congr {other : Endpoint} (tracks : SenderTracks sender flow)
    (same : other.sendState = sender.sendState)
    (emitted : ∀ frame ∈ other.emitted, frame ∈ sender.emitted ∨
      ∃ base bits, frame = encodeAck base bits) : SenderTracks other flow := by
  simp only [Endpoint.sendState, Prod.mk.injEq] at same
  rcases same with ⟨enqueued, nextSeq, nextFragId, unacked⟩
  constructor
  · rw [tracks.queued_eq, Endpoint.fragmentsEnqueued, Endpoint.fragmentsEnqueued, enqueued]
  · rw [nextSeq, tracks.nextSeq_eq]
  · rw [nextFragId, tracks.nextFragId_eq, enqueued]
  · rw [enqueued]
    exact tracks.short
  · rw [unacked]
    exact tracks.outstanding_iff
  · rw [unacked, enqueued]
    exact tracks.slot
  · intro frame frameMem
    rcases emitted frame frameMem with old | ack
    · rw [enqueued]
      exact tracks.emitted frame old
    · exact Or.inl ack

theorem SenderTracks.frames (tracks : SenderTracks sender flow) : Frames sender where
  nextSeq_eq := by rw [tracks.nextSeq_eq, tracks.queued_eq]
  nextFragId_eq := tracks.nextFragId_eq
  short := tracks.short
  slot entry entryMem := (tracks.slot entry entryMem).1
  emitted := by
    intro frame frameMem
    rcases tracks.emitted frame frameMem with ack | ⟨number, _, isFrame⟩
    · exact Or.inl ack
    · exact Or.inr ⟨number, isFrame⟩

theorem ReceiverTracks.receives (tracks : ReceiverTracks messages receiver flow) :
    Receives messages receiver flow.accepted :=
  ⟨tracks.accepted_iff, tracks.window, tracks.reassembly⟩

theorem ReceiverTracks.congr {other : Endpoint} (tracks : ReceiverTracks messages receiver flow)
    (same : other.receiveState = receiver.receiveState)
    (acks : ∀ base bits, encodeAck base bits ∈ other.emitted →
      encodeAck base bits ∈ receiver.emitted) : ReceiverTracks messages other flow := by
  have received := tracks.receives.congr same
  refine ⟨received.accepted_iff, received.window, ?_, received.reassembly⟩
  intro base bits ackMem
  exact tracks.acks base bits (acks base bits ackMem)

theorem ReceiverTracks.of_flow {next : Flow} (tracks : ReceiverTracks messages receiver flow)
    (accepted : next.accepted = flow.accepted) (reports : next.reports = flow.reports) :
    ReceiverTracks messages receiver next where
  accepted_iff := by
    rw [accepted]
    exact tracks.accepted_iff
  window := by
    rw [accepted]
    exact tracks.window
  acks := by
    rw [reports]
    exact tracks.acks
  reassembly := by
    rw [accepted]
    exact tracks.reassembly

theorem SenderTracks.of_flow {next : Flow} (tracks : SenderTracks sender flow)
    (queued : next.queued = flow.queued) (sent : next.sent = flow.sent)
    (outstanding : next.outstanding = flow.outstanding) : SenderTracks sender next where
  queued_eq := by rw [queued, tracks.queued_eq]
  nextSeq_eq := by rw [queued, tracks.nextSeq_eq]
  nextFragId_eq := tracks.nextFragId_eq
  short := tracks.short
  outstanding_iff := by
    rw [outstanding]
    exact tracks.outstanding_iff
  slot := by
    rw [sent]
    exact tracks.slot
  emitted := by
    rw [sent]
    exact tracks.emitted

theorem SenderTracks.key_mem (tracks : SenderTracks sender flow) {entry : UInt32 × Outgoing}
    (entryMem : entry ∈ sender.arq.unacked.entries) : entry.1.toNat ∈ flow.outstanding :=
  (tracks.outstanding_iff _).mpr ⟨entry, entryMem, rfl⟩

theorem SenderTracks.key_lt (tracks : SenderTracks sender flow) (valid : ValidFlow flow)
    {entry : UInt32 × Outgoing} (entryMem : entry ∈ sender.arq.unacked.entries) :
    entry.1.toNat < flow.queued :=
  valid.outstanding_queued _ (tracks.key_mem entryMem)

/-! ### Enqueueing -/

/-- The keys queued for a message are consecutive. -/
theorem exists_queued_key_iff {fragId : UInt16} {total : UInt8} {message : Bytes}
    {first number : ℕ} (fits : first + fragCount message ≤ 2 ^ 32) :
    (∃ entry ∈ queuedEntries fragId total first 0 (piecesOf message), entry.1.toNat = number) ↔
      first ≤ number ∧ number < first + fragCount message := by
  have keyNat : ∀ offset < fragCount message,
      (UInt32.ofNat (first + offset)).toNat = first + offset := by
    intro offset offsetLt
    rw [UInt32.toNat_ofNat']
    omega
  constructor
  · rintro ⟨entry, entryMem, keyEq⟩
    rcases mem_queuedEntries.mp entryMem with ⟨offset, chunk, piece, rfl⟩
    have offsetLt := index_lt_of_piece piece
    rw [keyNat _ offsetLt] at keyEq
    omega
  · rintro ⟨atLeast, below⟩
    have offsetLt : number - first < fragCount message := by omega
    refine ⟨_, mem_queuedEntries.mpr ⟨number - first, (piecesOf message)[number - first],
      List.getElem?_eq_getElem offsetLt, rfl⟩, ?_⟩
    rw [keyNat _ offsetLt]
    omega

theorem SenderTracks.enqueue (tracks : SenderTracks sender flow) (valid : ValidFlow flow)
    {message : Bytes} (short : fragCount message ≤ 255)
    (bounded : (sender.enqueue message).fragmentsEnqueued ≤ 2 ^ 32 - 1000000) :
    SenderTracks (sender.enqueue message)
      { flow with
        queued := flow.queued + fragCount message
        outstanding := flow.outstanding ∪
          Finset.Ico flow.queued (flow.queued + fragCount message) } := by
  have queuedEq : flow.queued = totalFragments sender.enqueued := tracks.queued_eq
  have enqueuedEq : (sender.enqueue message).enqueued = sender.enqueued ++ [message] := by
    simp [Endpoint.enqueue, enqueue_ok sender.arq short]
  have totalEq : (sender.enqueue message).fragmentsEnqueued =
      flow.queued + fragCount message := by
    rw [Endpoint.fragmentsEnqueued, enqueuedEq, totalFragments_append, totalFragments_singleton,
      queuedEq]
  have fits : flow.queued + fragCount message ≤ 2 ^ 32 := by omega
  rcases tracks.frames.enqueue_eq short (tracks.queued_eq ▸ fits) with
    ⟨unacked, resultEq, entriesEq⟩
  rw [← tracks.queued_eq] at resultEq entriesEq
  rw [resultEq] at totalEq ⊢
  constructor
  · exact totalEq.symm
  · rfl
  · rfl
  · intro other otherMem
    rcases List.mem_append.mp otherMem with old | new
    · exact tracks.short other old
    · rw [List.mem_singleton.mp new]
      exact short
  · intro number
    simp only [entriesEq, List.mem_append, or_and_right, exists_or]
    rw [Finset.mem_union, tracks.outstanding_iff, Finset.mem_Ico, exists_queued_key_iff fits]
  · intro entry entryMem
    simp only [entriesEq] at entryMem
    rcases List.mem_append.mp entryMem with old | new
    · exact ⟨(tracks.slot entry old).1.append [message], (tracks.slot entry old).2⟩
    · rw [queuedEq] at new fits
      rcases isFrame_of_queued fits new with ⟨isFrame, unsent, atLeast⟩
      refine ⟨isFrame, ?_⟩
      simp only [unsent, Bool.false_eq_true, false_iff, not_lt]
      exact valid.sent_le_queued.trans (queuedEq ▸ atLeast)
  · intro frame frameMem
    rcases tracks.emitted frame frameMem with ack | ⟨number, wasSent, isFrame⟩
    · exact Or.inl ack
    · exact Or.inr ⟨number, wasSent, isFrame.append [message]⟩

/-! ### First transmissions and retransmissions -/

theorem SenderTracks.exists_sent_first (tracks : SenderTracks sender flow) :
    ∃ before after, sender.arq.unacked.entries = before ++ after ∧
      (∀ entry ∈ before, entry.2.isSent = true) ∧ ∀ entry ∈ after, entry.2.isSent = false := by
  let isSent : UInt32 × Outgoing → Bool := fun entry => entry.2.isSent
  refine ⟨sender.arq.unacked.entries.takeWhile isSent, sender.arq.unacked.entries.dropWhile isSent,
    List.takeWhile_append_dropWhile.symm, ?_, ?_⟩
  · intro entry entryMem
    exact List.mem_takeWhile_imp (p := isSent) entryMem
  · apply OrderedMap.dropWhile_eq_false sender.arq.unacked.sorted
    intro later laterMem earlier earlierMem ordered laterSent
    have laterLt := (tracks.slot later laterMem).2.mp laterSent
    apply (tracks.slot earlier earlierMem).2.mpr
    have := UInt32.lt_iff_toNat_lt.mp ordered
    omega

theorem unacked_keys_sorted (arq : Arq) :
    (arq.unacked.entries.map fun entry => entry.1.toNat).Pairwise (· < ·) := by
  have sorted := arq.unacked.sorted
  rw [List.pairwise_map] at sorted ⊢
  exact sorted.imp fun ordered => UInt32.lt_iff_toNat_lt.mp ordered

section SentFirst

variable {before after : List (UInt32 × Outgoing)}

/-- The frames which were not sent have the numbers from `sent` on. -/
theorem SenderTracks.keys_unsent (tracks : SenderTracks sender flow) (valid : ValidFlow flow)
    (entriesEq : sender.arq.unacked.entries = before ++ after)
    (beforeSent : ∀ entry ∈ before, entry.2.isSent = true)
    (afterUnsent : ∀ entry ∈ after, entry.2.isSent = false) :
    after.map (fun entry => entry.1.toNat) =
      List.range' flow.sent (flow.queued - flow.sent) := by
  have keysSorted := unacked_keys_sorted sender.arq
  rw [entriesEq, List.map_append, List.pairwise_append] at keysSorted
  apply List.Pairwise.eq_of_mem_iff keysSorted.2.1 List.pairwise_lt_range'
  intro number
  rw [List.mem_map, List.mem_range'_1]
  constructor
  · rintro ⟨entry, entryMem, rfl⟩
    have outgoing : entry ∈ sender.arq.unacked.entries := by
      rw [entriesEq]
      exact List.mem_append_right _ entryMem
    have unsent : ¬entry.2.isSent = true := by simp [afterUnsent entry entryMem]
    rw [(tracks.slot entry outgoing).2] at unsent
    have := tracks.key_lt valid outgoing
    omega
  · rintro ⟨unsent, below⟩
    have := valid.sent_le_queued
    have held := valid.mem_outstanding_of_unsent unsent (by omega)
    rcases (tracks.outstanding_iff number).mp held with ⟨entry, entryMem, keyEq⟩
    have slot := tracks.slot entry entryMem
    rw [entriesEq] at entryMem
    rcases List.mem_append.mp entryMem with inBefore | inAfter
    · have := slot.2.mp (beforeSent entry inBefore)
      omega
    · exact ⟨entry, inAfter, keyEq⟩

/-- The frames which were sent are those in flight. -/
theorem SenderTracks.length_sent (tracks : SenderTracks sender flow)
    (entriesEq : sender.arq.unacked.entries = before ++ after)
    (beforeSent : ∀ entry ∈ before, entry.2.isSent = true)
    (afterUnsent : ∀ entry ∈ after, entry.2.isSent = false) :
    before.length = flow.inFlight.card := by
  have keysSorted := unacked_keys_sorted sender.arq
  rw [entriesEq, List.map_append, List.pairwise_append] at keysSorted
  have toFinsetEq : (before.map fun entry => entry.1.toNat).toFinset = flow.inFlight := by
    ext number
    simp only [List.mem_toFinset, List.mem_map, Flow.inFlight, Finset.mem_filter,
      tracks.outstanding_iff]
    constructor
    · rintro ⟨entry, entryMem, rfl⟩
      have outgoing : entry ∈ sender.arq.unacked.entries := by
        rw [entriesEq]
        exact List.mem_append_left _ entryMem
      exact ⟨⟨entry, outgoing, rfl⟩, (tracks.slot entry outgoing).2.mp (beforeSent entry entryMem)⟩
    · rintro ⟨⟨entry, entryMem, rfl⟩, wasSent⟩
      have isSent := (tracks.slot entry entryMem).2.mpr wasSent
      rw [entriesEq] at entryMem
      rcases List.mem_append.mp entryMem with inBefore | inAfter
      · exact ⟨entry, inBefore, rfl⟩
      · rw [afterUnsent entry inAfter] at isSent
        cases isSent
  rw [← toFinsetEq, List.toFinset_card_of_nodup (keysSorted.1.imp ne_of_lt), List.length_map]

end SentFirst

/-- The never-sent entries come last and carry consecutive numbers. -/
theorem SenderTracks.split (tracks : SenderTracks sender flow) (valid : ValidFlow flow) :
    ∃ before after, sender.arq.unacked.entries = before ++ after ∧
      (∀ entry ∈ before, entry.2.isSent = true) ∧ (∀ entry ∈ after, entry.2.isSent = false) ∧
      after.map (fun entry => entry.1.toNat) =
        List.range' flow.sent (flow.queued - flow.sent) ∧
      before.length = flow.inFlight.card := by
  rcases tracks.exists_sent_first with ⟨before, after, entriesEq, beforeSent, afterUnsent⟩
  exact ⟨before, after, entriesEq, beforeSent, afterUnsent,
    tracks.keys_unsent valid entriesEq beforeSent afterUnsent,
    tracks.length_sent entriesEq beforeSent afterUnsent⟩

/-- How many frames the next `takeNewSends` emits. -/
def freshCount (flow : Flow) : ℕ :=
  min (windowSize - flow.inFlight.card) (flow.queued - flow.sent)

def sendFresh (flow : Flow) : Flow := { flow with sent := flow.sent + freshCount flow }

theorem step_sendFresh (valid : ValidFlow flow) :
    Flow.Step windowSize receiveWindow flow (sendFresh flow) := by
  have := valid.sent_le_queued
  have := valid.inFlight_le
  apply Flow.Step.send
  · simp only [freshCount]
    omega
  · simp only [freshCount]
    omega

theorem inFlightSent_eq (tracks : SenderTracks sender flow) (valid : ValidFlow flow) :
    sender.arq.inFlightSent = flow.inFlight.card := by
  rcases tracks.split valid with ⟨before, after, entriesEq, beforeSent, afterUnsent, _, lengthEq⟩
  rw [inFlightSent, entriesEq, List.countP_append, List.countP_eq_length.mpr beforeSent,
    List.countP_eq_zero.mpr (by simpa using afterUnsent), lengthEq, Nat.add_zero]

/-- `takeNewSends` emits the frames of the next consecutive numbers, in order. -/
theorem takeNewSends_frames (tracks : SenderTracks sender flow) (valid : ValidFlow flow)
    (now : Instant) :
    List.Forall₂ (IsFrame sender.enqueued) (List.range' flow.sent (freshCount flow))
      (sender.arq.takeNewSends now).1 := by
  rcases tracks.split valid with
    ⟨before, after, entriesEq, beforeSent, afterUnsent, keysEq, _⟩
  have framesEq : (sender.arq.takeNewSends now).1 =
      (after.take (windowSize - flow.inFlight.card)).map fun entry => entry.2.plaintext := by
    simp only [takeNewSends]
    rw [inFlightSent_eq tracks valid, entriesEq, newSendsLoop_append _ _ beforeSent afterUnsent]
  have numbersEq : List.range' flow.sent (freshCount flow) =
      (after.take (windowSize - flow.inFlight.card)).map fun entry => entry.1.toNat := by
    rw [List.map_take, keysEq, freshCount]
    rcases le_total (windowSize - flow.inFlight.card) (flow.queued - flow.sent) with few | many
    · rw [Nat.min_eq_left few, List.take_range'_of_length_ge few]
    · rw [Nat.min_eq_right many, List.take_range'_of_length_le many]
  rw [framesEq, numbersEq, List.forall₂_map_left_iff, List.forall₂_map_right_iff, List.forall₂_same]
  intro entry entryMem
  refine (tracks.slot entry ?_).1
  rw [entriesEq]
  exact List.mem_append_right _ (List.mem_of_mem_take entryMem)

theorem exists_number_of_newSend (tracks : SenderTracks sender flow) (valid : ValidFlow flow)
    {now : Instant} {frame : Bytes} (frameMem : frame ∈ (sender.arq.takeNewSends now).1) :
    ∃ offset < freshCount flow, IsFrame sender.enqueued (flow.sent + offset) frame := by
  have framesSpec := takeNewSends_frames tracks valid now
  rcases List.mem_iff_getElem.mp frameMem with ⟨offset, offsetLt, rfl⟩
  have numberLt : offset < (List.range' flow.sent (freshCount flow)).length :=
    framesSpec.length_eq ▸ offsetLt
  have isFrame := framesSpec.get numberLt offsetLt
  rw [List.length_range'] at numberLt
  simp only [List.get_eq_getElem, List.getElem_range', Nat.one_mul] at isFrame
  exact ⟨offset, numberLt, isFrame⟩

theorem exists_newSend_of_number (tracks : SenderTracks sender flow) (valid : ValidFlow flow)
    (now : Instant) {offset : ℕ} (offsetLt : offset < freshCount flow) :
    ∃ frame ∈ (sender.arq.takeNewSends now).1,
      IsFrame sender.enqueued (flow.sent + offset) frame := by
  have framesSpec := takeNewSends_frames tracks valid now
  have numberLt : offset < (List.range' flow.sent (freshCount flow)).length := by
    rw [List.length_range']
    exact offsetLt
  have isFrame := framesSpec.get numberLt (framesSpec.length_eq ▸ numberLt)
  simp only [List.get_eq_getElem, List.getElem_range', Nat.one_mul] at isFrame
  exact ⟨_, List.getElem_mem _, isFrame⟩

theorem map_take_append_drop {α : Type*} {f : α → α} {p : α → Prop} [DecidablePred p]
    {count : ℕ} {items : List α}
    (first : ∀ index item, items[index]? = some item → (p item ↔ index < count)) :
    (items.take count).map f ++ items.drop count =
      items.map fun item => if p item then f item else item := by
  induction items generalizing count with
  | nil => simp
  | cons item rest ih =>
      cases count with
      | zero =>
          have kept : ∀ other ∈ item :: rest, ¬p other := by
            intro other otherMem
            rcases List.mem_iff_getElem?.mp otherMem with ⟨index, found⟩
            exact mt (first index other found).mp (Nat.not_lt_zero index)
          exact (List.map_id'' (fun _ => rfl) _).symm.trans
            (List.map_congr_left fun other otherMem => (if_neg (kept other otherMem)).symm)
      | succ count =>
          have taken : p item := (first 0 item rfl).mpr (Nat.succ_pos count)
          have restEq := @ih count fun index other found =>
            (first (index + 1) other found).trans Nat.succ_lt_succ_iff
          simp only [List.take_succ_cons, List.map_cons, List.drop_succ_cons, List.cons_append,
            restEq, if_pos taken]

/-- The entries after `takeNewSends`: the fresh ones are marked, all others are kept. -/
theorem SenderTracks.mem_takeNewSends (tracks : SenderTracks sender flow) (valid : ValidFlow flow)
    (now : Instant) (entry : UInt32 × Outgoing) :
    entry ∈ (sender.arq.takeNewSends now).2.unacked.entries ↔
      ∃ old ∈ sender.arq.unacked.entries,
        entry = if old.1.toNat < (sendFresh flow).sent ∧ old.2.isSent = false
          then markSent now old else old := by
  rcases tracks.split valid with
    ⟨before, after, entriesEq, beforeSent, afterUnsent, keysEq, _⟩
  have entriesEq' : (sender.arq.takeNewSends now).2.unacked.entries =
      before ++ ((after.take (windowSize - flow.inFlight.card)).map (markSent now) ++
        after.drop (windowSize - flow.inFlight.card)) := by
    simp only [Arq.takeNewSends, OrderedMap.rewrite]
    rw [inFlightSent_eq tracks valid, entriesEq, newSendsLoop_append _ _ beforeSent afterUnsent]
  have afterLength : after.length = flow.queued - flow.sent := by
    simpa using congrArg List.length keysEq
  have freshIff : ∀ offset old, after[offset]? = some old →
      ((old.1.toNat < (sendFresh flow).sent ∧ old.2.isSent = false) ↔
        offset < windowSize - flow.inFlight.card) := by
    intro offset old found
    have keyFound := congrArg (·[offset]?) keysEq
    have offsetLt : offset < flow.queued - flow.sent :=
      afterLength ▸ (List.getElem?_eq_some_iff.mp found).1
    simp only [List.getElem?_map, found, Option.map_some,
      List.getElem?_range' offsetLt, Option.some.injEq] at keyFound
    simp only [afterUnsent old (List.mem_of_getElem? found), and_true, keyFound, sendFresh,
      freshCount]
    omega
  rw [entriesEq', entriesEq, map_take_append_drop freshIff]
  simp only [List.mem_append, List.mem_map, or_and_right, exists_or]
  apply or_congr
  · constructor
    · intro entryMem
      exact ⟨entry, entryMem, by simp [beforeSent entry entryMem]⟩
    · rintro ⟨old, oldMem, rfl⟩
      simpa [beforeSent old oldMem] using oldMem
  · simp only [eq_comm]

theorem SenderTracks.takeNewSends (tracks : SenderTracks sender flow) (valid : ValidFlow flow)
    (now : Instant) : SenderTracks (sender.takeNewSends now) (sendFresh flow) := by
  have mapped : ∀ entry, entry ∈ (sender.takeNewSends now).arq.unacked.entries ↔ _ :=
    tracks.mem_takeNewSends valid now
  constructor
  · exact tracks.queued_eq
  · exact tracks.nextSeq_eq
  · exact tracks.nextFragId_eq
  · exact tracks.short
  · intro number
    change number ∈ flow.outstanding ↔ _
    rw [tracks.outstanding_iff]
    constructor
    · rintro ⟨old, oldMem, keyEq⟩
      refine ⟨_, (mapped _).mpr ⟨old, oldMem, rfl⟩, ?_⟩
      split_ifs <;> exact keyEq
    · rintro ⟨entry, entryMem, keyEq⟩
      rcases (mapped entry).mp entryMem with ⟨old, oldMem, rfl⟩
      refine ⟨old, oldMem, ?_⟩
      split_ifs at keyEq <;> exact keyEq
  · intro entry entryMem
    rcases (mapped entry).mp entryMem with ⟨old, oldMem, rfl⟩
    rcases tracks.slot old oldMem with ⟨isFrame, sentIff⟩
    change IsFrame sender.enqueued _ _ ∧ _
    split_ifs with fresh
    · exact ⟨isFrame, by simpa [markSent, Outgoing.isSent] using fresh.1⟩
    · refine ⟨isFrame, ?_⟩
      constructor
      · intro isSent
        have := sentIff.mp isSent
        simp only [sendFresh]
        omega
      · intro below
        by_contra unsent
        exact fresh ⟨below, by simpa using unsent⟩
  · intro frame frameMem
    rcases List.mem_append.mp frameMem with old | new
    · rcases tracks.emitted frame old with ack | ⟨number, wasSent, isFrame⟩
      · exact Or.inl ack
      · exact Or.inr ⟨number, wasSent.trans_le (Nat.le_add_right _ _), isFrame⟩
    · rcases exists_number_of_newSend tracks valid new with ⟨offset, offsetLt, isFrame⟩
      exact Or.inr ⟨flow.sent + offset, Nat.add_lt_add_left offsetLt _, isFrame⟩

theorem SenderTracks.takeRetransmits (tracks : SenderTracks sender flow) (now : Instant) :
    SenderTracks (sender.takeRetransmits now) flow := by
  rcases takeRetransmits_emits sender now with ⟨unacked, out, resultEq, entriesEq, outMem⟩
  rw [resultEq]
  refine ⟨tracks.queued_eq, tracks.nextSeq_eq, tracks.nextFragId_eq, tracks.short, ?_, ?_, ?_⟩
  · intro number
    have keyMem : ∀ list : List (UInt32 × Outgoing), (∃ entry ∈ list, entry.1.toNat = number) ↔
        ∃ key ∈ list.map Prod.fst, key.toNat = number := by
      simp
    simp only [tracks.outstanding_iff, entriesEq, keyMem, retransmitsLoop_keys]
  · intro entry entryMem
    simp only [entriesEq] at entryMem
    rcases mem_retransmitsLoop entryMem with ⟨old, oldMem, keyEq, plaintextEq, sentEq⟩
    rcases tracks.slot old oldMem with ⟨isFrame, sentIff⟩
    rw [← keyEq, ← plaintextEq, ← sentEq]
    exact ⟨isFrame, sentIff⟩
  · intro frame frameMem
    rcases List.mem_append.mp frameMem with old | new
    · exact tracks.emitted frame old
    · rcases outMem frame new with ⟨entry, entryMem, isSent, rfl⟩
      rcases tracks.slot entry entryMem with ⟨isFrame, sentIff⟩
      exact Or.inr ⟨entry.1.toNat, sentIff.mp isSent, isFrame⟩

/-! ### Acknowledgements -/

theorem SenderTracks.onAck (tracks : SenderTracks sender flow) (valid : ValidFlow flow)
    (bounded : flow.queued ≤ 2 ^ 32 - 1000000) {report : Finset ℕ}
    (subset : report ⊆ flow.accepted) {base : UInt32} {bits : UInt64}
    (represents : Represents base bits report) :
    SenderTracks { sender with arq := sender.arq.onAck base bits }
      { flow with outstanding := flow.outstanding \ report } := by
  have covered : ∀ entry ∈ sender.arq.unacked.entries,
      (acked base bits entry.1 = true ↔ entry.1.toNat ∈ report) := by
    intro entry entryMem
    have held := tracks.key_mem entryMem
    have := tracks.key_lt valid entryMem
    have := valid.sent_le held
    have := valid.firstMissing_le_sent
    have := firstMissing_mono subset
    simp only [receiveWindow, windowSize] at *
    have covers := acked_iff entry.1.toNat represents (by omega) (by omega)
    rwa [UInt32.ofNat_toNat] at covers
  have kept : ∀ entry, entry ∈ (sender.arq.onAck base bits).unacked.entries ↔
      entry ∈ sender.arq.unacked.entries ∧ entry.1.toNat ∉ report := by
    intro entry
    simp only [Arq.onAck, OrderedMap.filterKeys, List.mem_filter]
    apply and_congr_right
    intro entryMem
    rw [← covered entry entryMem]
    simp
  constructor
  · exact tracks.queued_eq
  · exact tracks.nextSeq_eq
  · exact tracks.nextFragId_eq
  · exact tracks.short
  · intro number
    rw [Finset.mem_sdiff, tracks.outstanding_iff]
    constructor
    · rintro ⟨⟨entry, entryMem, rfl⟩, unreported⟩
      exact ⟨entry, (kept entry).mpr ⟨entryMem, unreported⟩, rfl⟩
    · rintro ⟨entry, entryMem, rfl⟩
      rcases (kept entry).mp entryMem with ⟨wasMem, unreported⟩
      exact ⟨⟨entry, wasMem, rfl⟩, unreported⟩
  · intro entry entryMem
    exact tracks.slot entry ((kept entry).mp entryMem).1
  · exact tracks.emitted

theorem receive_encodeAck (endpoint : Endpoint) (base : UInt32) (bits : UInt64) :
    endpoint.receive (encodeAck base bits) =
      { endpoint with arq := endpoint.arq.onAck base bits } :=
  receive_ack endpoint (decodeInner_encodeAck base bits)

/-! ### Arriving fragments -/

theorem SenderTracks.receive_data (tracks : SenderTracks sender flow) {frame payload : Bytes}
    {seq : UInt32} {fragId : UInt16} {index total : UInt8}
    (decoded : decodeInner frame = .ok (.data seq fragId index total payload)) :
    SenderTracks (sender.receive frame) flow := by
  rcases onData_eq sender.arq seq fragId index total payload with
    ⟨recvBase, recvBits, fragments, delivered, dataEq⟩
  rw [Arq.receive_data sender decoded, dataEq]
  refine tracks.congr rfl ?_
  intro frame frameMem
  rcases List.mem_append.mp frameMem with old | new
  · exact Or.inl old
  · exact Or.inr ⟨_, _, List.mem_singleton.mp new⟩

/-- The acknowledgement of the window an endpoint is left with is a report of its flow. -/
theorem ReceiverTracks.report (tracks : ReceiverTracks messages receiver flow)
    {other : Endpoint} {accepted : Finset ℕ} (received : Receives messages other accepted)
    (acks : ∀ base bits, encodeAck base bits ∈ other.emitted →
      encodeAck base bits ∈ receiver.emitted ∨
        encodeAck base bits = encodeAck other.arq.recvBase other.arq.recvBits) :
    ReceiverTracks messages other
      { flow with accepted, reports := insert accepted flow.reports } := by
  refine ⟨received.accepted_iff, received.window, ?_, received.reassembly⟩
  intro base bits ackMem
  rcases acks base bits ackMem with old | current
  · rcases tracks.acks base bits old with ⟨report, made, represents⟩
    exact ⟨report, Set.mem_insert_of_mem _ made, represents⟩
  · have decoded := congrArg decodeInner current
    simp only [decodeInner_encodeAck, Except.ok.injEq, InnerFrame.ack.injEq] at decoded
    rw [decoded.1, decoded.2]
    exact ⟨accepted, Set.mem_insert _ _, received.window⟩

/-- An arriving fragment is matched by its acceptance, if it is new, and by a report. -/
theorem ReceiverTracks.receive_frame (tracks : ReceiverTracks messages receiver flow)
    (valid : ValidFlow flow) (short : ∀ message ∈ messages, fragCount message ≤ 255)
    (bounded : flow.queued ≤ 2 ^ 32 - 1000000) {number : ℕ} {frame : Bytes}
    (wasSent : number < flow.sent) (isFrame : IsFrame messages number frame) :
    ∃ next, FlowSteps flow next ∧
      next.queued = flow.queued ∧ next.sent = flow.sent ∧ next.outstanding = flow.outstanding ∧
      ReceiverTracks messages (receiver.receive frame) next := by
  have queuedLe := valid.sent_le_queued
  have missingLe := valid.firstMissing_le_sent
  rcases tracks.receives.receive_frame short (by simp only [receiveWindow]; omega) (by omega)
      isFrame with ⟨received, emittedEq⟩
  have reported := tracks.report received (by
    intro base bits ackMem
    rw [emittedEq] at ackMem
    rcases List.mem_append.mp ackMem with old | new
    · exact Or.inl old
    · exact Or.inr (List.mem_singleton.mp new))
  refine ⟨{ flow with
    accepted := arrive flow.accepted number
    reports := insert (arrive flow.accepted number) flow.reports }, ?_, rfl, rfl, rfl,
    reported⟩
  by_cases inWindow : number < firstMissing flow.accepted + receiveWindow
  · simp only [arrive, if_pos inWindow]
    exact (Relation.ReflTransGen.single (Flow.Step.accept number wasSent inWindow)).tail
      Flow.Step.report
  · simp only [arrive, if_neg inWindow]
    exact Relation.ReflTransGen.single Flow.Step.report

/-! ### Moves of the system -/

theorem Linked.valid (linked : Linked sender receiver flow) : ValidFlow flow :=
  linked.reachable.valid

theorem Linked.queued_le (linked : Linked sender receiver flow)
    (bounded : sender.fragmentsEnqueued ≤ 2 ^ 32 - 1000000) : flow.queued ≤ 2 ^ 32 - 1000000 := by
  rw [linked.sends.queued_eq]
  exact bounded

/-- A local operation of the sender is matched by moves of the flow. -/
theorem Linked.perform_sender (linked : Linked sender receiver flow) (op : LocalOp)
    (bounded : (sender.perform op).fragmentsEnqueued ≤ 2 ^ 32 - 1000000) :
    ∃ next, FlowSteps flow next ∧ Linked (sender.perform op) receiver next := by
  rcases linked with ⟨reachable, sends, receives⟩
  have valid : ValidFlow flow := reachable.valid
  cases op with
  | enqueue message =>
      rcases enqueued_enqueue sender message with ⟨short, enqueuedEq⟩ | unchanged
      · have move : Flow.Step windowSize receiveWindow flow _ := .enqueue (fragCount message)
        refine ⟨_, .single move, reachable.step move, sends.enqueue valid short bounded, ?_⟩
        simp only [Endpoint.perform, enqueuedEq]
        refine ⟨receives.accepted_iff, receives.window, receives.acks, ?_⟩
        apply receives.reassembly.append
        intro number isAccepted
        have := valid.accepted_sent number isAccepted
        have := valid.sent_le_queued
        rw [sends.queued_eq, Endpoint.fragmentsEnqueued] at this
        omega
      · simp only [Endpoint.perform, unchanged]
        exact ⟨flow, .refl, reachable, sends, receives⟩
  | takeNewSends now =>
      have move := step_sendFresh valid
      exact ⟨_, .single move, reachable.step move, sends.takeNewSends valid now,
        receives.of_flow rfl rfl⟩
  | takeRetransmits now =>
      refine ⟨flow, .refl, reachable, sends.takeRetransmits now, ?_⟩
      rcases takeRetransmits_emits sender now with ⟨unacked, out, resultEq, _, _⟩
      simp only [Endpoint.perform, resultEq]
      exact receives
  | takeAck =>
      rcases takeAck_eq sender.arq with ⟨pendingAck, arqEq⟩
      refine ⟨flow, .refl, reachable, ?_, receives⟩
      simp only [Endpoint.perform, Endpoint.takeAck, arqEq]
      refine sends.congr rfl ?_
      intro frame frameMem
      rcases List.mem_append.mp frameMem with old | new
      · exact Or.inl old
      · exact Or.inr ⟨_, _, mem_takeAck new⟩
  | popDelivered =>
      rcases popDelivered_eq sender.arq with ⟨delivered, arqEq⟩
      refine ⟨flow, .refl, reachable, ?_, receives⟩
      simp only [Endpoint.perform, Endpoint.popDelivered, arqEq]
      exact sends.congr rfl fun frame frameMem => Or.inl frameMem
  | setRetx retx =>
      refine ⟨flow, .refl, reachable, ?_, receives⟩
      exact sends.congr rfl fun frame frameMem => Or.inl frameMem

/-- A local operation of the receiver adds at most a report of what it has accepted. -/
theorem Linked.perform_receiver {reverse : Flow} (linked : Linked sender receiver flow)
    (linkedBack : Linked receiver sender reverse) (op : LocalOp) :
    ∃ next, FlowSteps flow next ∧ Linked sender (receiver.perform op) next := by
  rcases linked with ⟨reachable, sends, receives⟩
  have same := receiver.receiveState_perform op
  refine ⟨{ flow with reports := insert flow.accepted flow.reports },
    .single Flow.Step.report, reachable.step Flow.Step.report, sends.of_flow rfl rfl rfl, ?_⟩
  apply receives.report (receives.receives.congr same)
  intro base bits ackMem
  rcases receiver.mem_emitted_perform op ackMem with
    old | ⟨entry, entryMem, plaintextEq⟩ | current
  · exact Or.inl old
  · exact absurd plaintextEq (encodeAck_ne_of_isFrame linkedBack.sends.short
      (linkedBack.sends.slot entry entryMem).1)
  · simp only [Endpoint.receiveState, Prod.mk.injEq] at same
    right
    rw [same.2.1, same.2.2.1]
    exact current

theorem decodeInner_of_isFrame (short : ∀ message ∈ messages, fragCount message ≤ 255) {number : ℕ}
    {frame : Bytes} (isFrame : IsFrame messages number frame) :
    ∃ fragId index total payload,
      decodeInner frame = .ok (.data (UInt32.ofNat number) fragId index total payload) := by
  rcases isFrame with ⟨position, message, index, chunk, present, piece, rfl, rfl⟩
  exact ⟨_, _, _, _, decodeInner_frameOf messages position piece
    (short message (List.mem_of_getElem? present))⟩

/-- What an endpoint emits is an acknowledgement or a fragment. -/
theorem SenderTracks.decodes (tracks : SenderTracks sender flow) {frame : Bytes}
    (frameMem : frame ∈ sender.emitted) :
    (∃ base bits, frame = encodeAck base bits) ∨ ∃ seq fragId index total payload,
      decodeInner frame = .ok (.data seq fragId index total payload) := by
  rcases tracks.emitted frame frameMem with ack | ⟨number, _, isFrame⟩
  · exact Or.inl ack
  · exact Or.inr ⟨_, decodeInner_of_isFrame tracks.short isFrame⟩

/-- A fragment an endpoint has emitted carries a number sent before. -/
theorem SenderTracks.number_of_data (tracks : SenderTracks sender flow) {frame payload : Bytes}
    {seq : UInt32} {fragId : UInt16} {index total : UInt8} (frameMem : frame ∈ sender.emitted)
    (decoded : decodeInner frame = .ok (.data seq fragId index total payload)) :
    ∃ number < flow.sent, seq = UInt32.ofNat number := by
  rcases tracks.emitted frame frameMem with ⟨base, bits, rfl⟩ | ⟨number, wasSent, isFrame⟩
  · rw [decodeInner_encodeAck] at decoded
    simp at decoded
  · rcases decodeInner_of_isFrame tracks.short isFrame with ⟨_, _, _, _, decoded'⟩
    rw [decoded', Except.ok.injEq, InnerFrame.data.injEq] at decoded
    exact ⟨number, wasSent, decoded.1.symm⟩

/-- A frame arriving at the sender is matched by moves of the flow. -/
theorem Linked.receive_sender {reverse : Flow} (linked : Linked sender receiver flow)
    (linkedBack : Linked receiver sender reverse)
    (bounded : sender.fragmentsEnqueued ≤ 2 ^ 32 - 1000000) {frame : Bytes}
    (frameMem : frame ∈ receiver.emitted) :
    ∃ next, FlowSteps flow next ∧ Linked (sender.receive frame) receiver next := by
  rcases linkedBack.sends.decodes frameMem with
    ⟨base, bits, rfl⟩ | ⟨seq, fragId, index, total, payload, decoded⟩
  · rcases linked.receives.acks base bits frameMem with ⟨report, made, represents⟩
    have move : Flow.Step windowSize receiveWindow flow _ := .learn report made
    refine ⟨_, .single move, linked.reachable.step move, ?_, ?_⟩
    · rw [receive_encodeAck]
      exact linked.sends.onAck linked.valid (linked.queued_le bounded)
        (linked.valid.reports_subset report made) represents
    · rw [receive_encodeAck]
      exact linked.receives.of_flow rfl rfl
  · refine ⟨flow, .refl, linked.reachable, linked.sends.receive_data decoded, ?_⟩
    rw [Arq.receive_data sender decoded]
    exact linked.receives

theorem Linked.receive_receiver (linked : Linked sender receiver flow)
    (bounded : sender.fragmentsEnqueued ≤ 2 ^ 32 - 1000000) {frame : Bytes}
    (frameMem : frame ∈ sender.emitted) :
    ∃ next, FlowSteps flow next ∧ Linked sender (receiver.receive frame) next := by
  rcases linked.sends.emitted frame frameMem with ⟨base, bits, rfl⟩ | ⟨number, wasSent, isFrame⟩
  · refine ⟨flow, .refl, linked.reachable, linked.sends, ?_⟩
    rw [receive_encodeAck]
    exact linked.receives.congr rfl fun base bits ackMem => ackMem
  · rcases linked.receives.receive_frame linked.valid linked.sends.short
      (linked.queued_le bounded) wasSent isFrame with
      ⟨next, moves, queuedEq, sentEq, outstandingEq, receives⟩
    exact ⟨next, moves, linked.reachable.trans moves,
      linked.sends.of_flow queuedEq sentEq outstandingEq, receives⟩

namespace Net

/-- Both directions of the system are tracked by flows. -/
def LinkedBy (net : Net) (flows : Side → Flow) : Prop :=
  ∀ side, Linked (net.endpoint side) (net.endpoint side.peer) (flows side)

theorem linkedBy_initial : initial.LinkedBy fun _ => Flow.initial := by
  intro side
  have endpointEq : ∀ side, initial.endpoint side = Endpoint.initial := by
    intro side
    cases side <;> rfl
  rw [endpointEq, endpointEq]
  refine ⟨.refl, ?_, ?_⟩
  · constructor <;>
      simp [Endpoint.initial, Flow.initial, Arq.new, Endpoint.fragmentsEnqueued, totalFragments,
        OrderedMap.empty, fragIdAfter]
  · constructor
    · simp [Endpoint.initial, Flow.initial]
    · simpa [Endpoint.initial, Flow.initial, Arq.new] using represents_range 0
    · simp [Endpoint.initial]
    · exact Reassembly.initial

/-- Replacing one endpoint keeps the system linked if both its directions stay linked. -/
theorem LinkedBy.set {net : Net} {flows : Side → Flow} {side : Side} {endpoint : Endpoint}
    (outgoing : ∃ next, FlowSteps (flows side) next ∧
      Linked endpoint (net.endpoint side.peer) next)
    (incoming : ∃ next, FlowSteps (flows side.peer) next ∧
      Linked (net.endpoint side.peer) endpoint next) :
    ∃ nexts, (∀ side, FlowSteps (flows side) (nexts side)) ∧
      (net.set endpoint side).LinkedBy nexts := by
  rcases outgoing with ⟨nextOut, movesOut, linkedOut⟩
  rcases incoming with ⟨nextIn, movesIn, linkedIn⟩
  refine ⟨Function.update (fun _ => nextIn) side nextOut, ?_, ?_⟩
  · intro target
    rcases side.eq_or_eq_peer target with rfl | rfl
    · simpa using movesOut
    · simpa [Side.peer_ne] using movesIn
  · intro target
    rcases side.eq_or_eq_peer target with rfl | rfl
    · simpa using linkedOut
    · simpa [Side.peer_ne] using linkedIn

/-- Every move of the system is matched by moves of the two flows. -/
theorem linkedBy_step {net : Net} {flows : Side → Flow} (linked : net.LinkedBy flows)
    (action : Action) (bounded : (net.step action).Bounded) :
    ∃ nexts, (∀ side, FlowSteps (flows side) (nexts side)) ∧
      (net.step action).LinkedBy nexts := by
  cases action with
  | perform side op =>
      have linkedBack := linked side.peer
      rw [Side.peer_peer] at linkedBack
      apply LinkedBy.set
      · apply (linked side).perform_sender op
        simpa [step] using bounded side
      · exact linkedBack.perform_receiver (linked side) op
  | deliver side index =>
      cases frameAt : (net.endpoint side.peer).emitted[index]? with
      | none =>
          simp only [step, frameAt]
          exact ⟨flows, fun _ => .refl, linked⟩
      | some frame =>
          have frameMem := List.mem_of_getElem? frameAt
          have linkedBack := linked side.peer
          rw [Side.peer_peer] at linkedBack
          simp only [step, frameAt] at bounded ⊢
          apply LinkedBy.set
          · apply (linked side).receive_sender linkedBack _ frameMem
            simpa [Endpoint.fragmentsEnqueued] using bounded side
          · apply linkedBack.receive_receiver _ frameMem
            simpa using bounded side.peer

theorem linkedBy_steps {net : Net} {flows : Side → Flow} (linked : net.LinkedBy flows)
    (actions : List Action) (bounded : (net.steps actions).Bounded) :
    ∃ nexts, (∀ side, FlowSteps (flows side) (nexts side)) ∧
      (net.steps actions).LinkedBy nexts := by
  induction actions generalizing net flows with
  | nil => exact ⟨flows, fun _ => .refl, linked⟩
  | cons action rest ih =>
      rcases linkedBy_step linked action (Bounded.of_steps bounded) with
        ⟨middles, moves, linkedMiddle⟩
      rcases ih linkedMiddle bounded with ⟨nexts, moves', linkedNext⟩
      exact ⟨nexts, fun side => (moves side).trans (moves' side), linkedNext⟩

/-- Every bounded run is tracked by flows of the protocol. -/
theorem linkedBy_run (actions : List Action) (bounded : (run actions).Bounded) :
    ∃ flows, (run actions).LinkedBy flows := by
  rcases linkedBy_steps linkedBy_initial actions bounded with ⟨flows, _, linked⟩
  exact ⟨flows, linked⟩

end Net

end Arq

end Ppose

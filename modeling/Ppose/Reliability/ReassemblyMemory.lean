import Ppose.Reliability.OneWay

/-!
# Memory held for reassembly

An endpoint hears one peer only, over a channel which drops, duplicates, delays and
reorders.  The peer is an endpoint too, but what reaches it is left open: its
acknowledgements may be lost, forged or garbage.  Only the number of fragments the
peer enqueues is bounded.

The reassembly map of the hearing endpoint then holds exactly the longer messages
accepted in part, each with its accepted pieces in place.  Every one of them has a
fragment in the receive window, and messages do not share sequence numbers, so there
are at most 64 of them.
-/

namespace Ppose

namespace Arq

/-- An endpoint and the one peer it hears. -/
structure Hearing where
  sender : Endpoint
  receiver : Endpoint

inductive HearingAction where
  | sender (op : LocalOp)
  /-- Whatever arrives at the sending end. -/
  | feed (bytes : Bytes)
  | receiver (op : LocalOp)
  /-- The frame emitted as number `index` arrives at the receiving end. -/
  | deliver (index : ℕ)
  deriving DecidableEq, Repr

namespace Hearing

def initial : Hearing := ⟨Endpoint.initial, Endpoint.initial⟩

def step (hearing : Hearing) : HearingAction → Hearing
  | .sender op => { hearing with sender := hearing.sender.perform op }
  | .feed bytes => { hearing with sender := hearing.sender.receive bytes }
  | .receiver op => { hearing with receiver := hearing.receiver.perform op }
  | .deliver index =>
      match hearing.sender.emitted[index]? with
      | some frame => { hearing with receiver := hearing.receiver.receive frame }
      | none => hearing

def run (actions : List HearingAction) : Hearing := actions.foldl step initial

/-- The receiving end has accepted a fragment of the message enqueued at `position`. -/
def AcceptedAt (hearing : Hearing) (position index : ℕ) : Prop :=
  UInt32.ofNat (startOf hearing.sender.enqueued position + index) ∈ hearing.receiver.accepted

instance decidableAcceptedAt (hearing : Hearing) (position index : ℕ) :
    Decidable (hearing.AcceptedAt position index) :=
  inferInstanceAs (Decidable (_ ∈ hearing.receiver.accepted))

/-- A message of several fragments of which at least one but not all were accepted. -/
structure InPart (hearing : Hearing) (position : ℕ) (message : Bytes) : Prop where
  present : hearing.sender.enqueued[position]? = some message
  several : 2 ≤ fragCount message
  begun : ∃ index < fragCount message, hearing.AcceptedAt position index
  incomplete : ∃ index < fragCount message, ¬hearing.AcceptedAt position index

/-- Both ends are as the numbers accepted so far determine. -/
structure Tracked (hearing : Hearing) (accepted : Finset ℕ) : Prop where
  frames : Frames hearing.sender
  receives : Receives hearing.sender.enqueued hearing.receiver accepted
  queued : ∀ number ∈ accepted, number < hearing.sender.fragmentsEnqueued

variable {hearing : Hearing} {accepted : Finset ℕ}

theorem fragmentsEnqueued_step_le (hearing : Hearing) (action : HearingAction) :
    hearing.sender.fragmentsEnqueued ≤ (hearing.step action).sender.fragmentsEnqueued := by
  have grows : hearing.sender.enqueued <+: (hearing.step action).sender.enqueued := by
    cases action with
    | sender op => exact hearing.sender.enqueued_perform op
    | feed bytes => simp [step]
    | receiver op => exact List.prefix_rfl
    | deliver index =>
        simp only [step]
        split <;> exact List.prefix_rfl
  rcases grows with ⟨added, enqueuedEq⟩
  rw [Endpoint.fragmentsEnqueued, Endpoint.fragmentsEnqueued, ← enqueuedEq, totalFragments_append]
  exact Nat.le_add_right _ _

theorem Tracked.firstMissing_le (tracked : hearing.Tracked accepted) :
    firstMissing accepted ≤ hearing.sender.fragmentsEnqueued := by
  apply Ppose.firstMissing_le
  intro isAccepted
  exact absurd (tracked.queued _ isAccepted) (lt_irrefl _)

theorem tracked_initial : initial.Tracked ∅ where
  frames := frames_initial
  receives := receives_initial
  queued := by simp

theorem Tracked.perform_sender (tracked : hearing.Tracked accepted) (op : LocalOp)
    (bounded : (hearing.sender.perform op).fragmentsEnqueued ≤ 2 ^ 32 - 1000000) :
    (hearing.step (.sender op)).Tracked accepted := by
  have grows := hearing.fragmentsEnqueued_step_le (.sender op)
  refine ⟨tracked.frames.perform op (by omega), ?_, fun number isAccepted =>
    (tracked.queued number isAccepted).trans_le grows⟩
  simp only [step]
  rcases hearing.sender.enqueued_perform_cases op with same | ⟨message, added⟩
  · rw [same]
    exact tracked.receives
  · rw [added]
    exact tracked.receives.append tracked.queued message

theorem Tracked.receive_frame (tracked : hearing.Tracked accepted)
    (bounded : hearing.sender.fragmentsEnqueued ≤ 2 ^ 32 - 1000000) {frame : Bytes}
    (wasEmitted : frame ∈ hearing.sender.emitted) :
    ∃ next, Tracked { hearing with receiver := hearing.receiver.receive frame } next := by
  rcases tracked.frames.emitted frame wasEmitted with ⟨base, bits, rfl⟩ | ⟨number, isFrame⟩
  · refine ⟨accepted, tracked.frames, ?_, tracked.queued⟩
    rw [receive_ack hearing.receiver (decodeInner_encodeAck base bits)]
    exact tracked.receives.congr rfl
  · have numberLt : number < hearing.sender.fragmentsEnqueued := isFrame.lt_total
    have missingLe := tracked.firstMissing_le
    refine ⟨arrive accepted number, tracked.frames, ?_, ?_⟩
    · exact (tracked.receives.receive_frame tracked.frames.short
        (by simp only [receiveWindow]; omega) (by omega) isFrame).1
    · intro other otherMem
      unfold arrive at otherMem
      split_ifs at otherMem
      · rcases Finset.mem_insert.mp otherMem with rfl | old
        · exact numberLt
        · exact tracked.queued other old
      · exact tracked.queued other otherMem

/-- Every move keeps both ends determined by the accepted numbers. -/
theorem Tracked.step (tracked : hearing.Tracked accepted) (action : HearingAction)
    (bounded : (hearing.step action).sender.fragmentsEnqueued ≤ 2 ^ 32 - 1000000) :
    ∃ next, (hearing.step action).Tracked next := by
  cases action with
  | sender op => exact ⟨accepted, tracked.perform_sender op bounded⟩
  | feed bytes =>
      refine ⟨accepted, tracked.frames.receive bytes, ?_, ?_⟩
      · simpa [Hearing.step] using tracked.receives
      · simpa [Hearing.step, Endpoint.fragmentsEnqueued] using tracked.queued
  | receiver op =>
      exact ⟨accepted, tracked.frames,
        tracked.receives.congr (hearing.receiver.receiveState_perform op), tracked.queued⟩
  | deliver index =>
      cases frameAt : hearing.sender.emitted[index]? with
      | none =>
          simp only [Hearing.step, frameAt]
          exact ⟨accepted, tracked⟩
      | some frame =>
          simp only [Hearing.step, frameAt] at bounded ⊢
          exact tracked.receive_frame bounded (List.mem_of_getElem? frameAt)

theorem exists_tracked_run (actions : List HearingAction)
    (bounded : (run actions).sender.fragmentsEnqueued ≤ 2 ^ 32 - 1000000) :
    ∃ accepted, (run actions).Tracked accepted := by
  induction actions using List.reverseRecOn with
  | nil => exact ⟨∅, tracked_initial⟩
  | append_singleton actions action ih =>
      have runEq : run (actions ++ [action]) = (run actions).step action := by simp [run]
      rw [runEq] at bounded ⊢
      rcases ih (((run actions).fragmentsEnqueued_step_le action).trans bounded) with
        ⟨accepted, tracked⟩
      exact tracked.step action bounded

/-! ### What the accepted numbers say about the messages -/

section Reading

variable {position : ℕ} {message : Bytes} (tracked : hearing.Tracked accepted)
  (bounded : hearing.sender.fragmentsEnqueued ≤ 2 ^ 32 - 1000000)
  (present : hearing.sender.enqueued[position]? = some message)
include tracked bounded present

theorem acceptedAt_iff {index : ℕ} (indexLt : index < fragCount message) :
    hearing.AcceptedAt position index ↔
      startOf hearing.sender.enqueued position + index ∈ accepted := by
  have numberLt : startOf hearing.sender.enqueued position + index <
      hearing.sender.fragmentsEnqueued := startOf_add_lt_total present indexLt
  have numberNat : (UInt32.ofNat (startOf hearing.sender.enqueued position + index)).toNat =
      startOf hearing.sender.enqueued position + index := by
    rw [UInt32.toNat_ofNat']
    omega
  rw [tracked.receives.accepted_iff]
  constructor
  · intro isAccepted
    exact ⟨_, isAccepted, numberNat⟩
  · rintro ⟨seq, isAccepted, seqNat⟩
    rwa [AcceptedAt, ← seqNat, UInt32.ofNat_toNat]

theorem inPart_iff :
    hearing.InPart position message ↔
      Partly message (startOf hearing.sender.enqueued position) accepted := by
  constructor
  · rintro ⟨_, _, ⟨held, heldLt, isAccepted⟩, lacking, lackingLt, isMissing⟩
    rw [acceptedAt_iff tracked bounded present heldLt] at isAccepted
    rw [acceptedAt_iff tracked bounded present lackingLt] at isMissing
    exact ⟨⟨held, heldLt, isAccepted⟩, fun complete => isMissing (complete lacking lackingLt)⟩
  · intro partly
    rcases partly with ⟨⟨held, heldLt, isAccepted⟩, incomplete⟩
    have several := two_le_of_partly ⟨⟨held, heldLt, isAccepted⟩, incomplete⟩
    simp only [Complete, not_forall] at incomplete
    rcases incomplete with ⟨lacking, lackingLt, isMissing⟩
    refine ⟨present, several, ⟨held, heldLt, ?_⟩, lacking, lackingLt, ?_⟩
    · rwa [acceptedAt_iff tracked bounded present heldLt]
    · rwa [acceptedAt_iff tracked bounded present lackingLt]

theorem bufOf_eq :
    bufOf message (startOf hearing.sender.enqueued position) accepted =
      { total := UInt8.ofNat (fragCount message)
        parts := (piecesOf message).mapIdx fun index chunk =>
          if hearing.AcceptedAt position index then some chunk else none } := by
  simp only [bufOf, FragBuf.mk.injEq, true_and]
  apply List.ext_getElem
  · simp
  · intro index indexLt _
    simp only [List.length_mapIdx] at indexLt
    simp [acceptedAt_iff tracked bounded present indexLt]

end Reading

/-- No two messages accepted in part carry the same fragment identifier. -/
theorem InPart.unique (tracked : hearing.Tracked accepted)
    (bounded : hearing.sender.fragmentsEnqueued ≤ 2 ^ 32 - 1000000) {position other : ℕ}
    {message otherMessage : Bytes} (inPart : hearing.InPart position message)
    (otherInPart : hearing.InPart other otherMessage)
    (same : fragIdOf hearing.sender.enqueued position message =
      fragIdOf hearing.sender.enqueued other otherMessage) : position = other := by
  have partly := (inPart_iff tracked bounded inPart.present).mp inPart
  have otherPartly := (inPart_iff tracked bounded otherInPart.present).mp otherInPart
  have windowed := tracked.receives.window.windowed
  rcases exists_in_window_of_partly windowed otherPartly with ⟨index, indexLt, _, below⟩
  exact partly_unique tracked.frames.short windowed inPart.present otherInPart.present partly
    otherPartly.2 otherInPart.several ⟨index, indexLt, below⟩ same

/--
In every run in which an endpoint hears one peer only, its reassembly map has a
buffer for exactly the fragment identifiers of the messages accepted in part, each
of which belongs to one such message, and the buffer holds its accepted pieces.  So
there are at most 64 buffers, and none once all fragments were accepted.
-/
theorem fragments_run (actions : List HearingAction)
    (bounded : (run actions).sender.fragmentsEnqueued ≤ 2 ^ 32 - 1000000) :
    (∀ fragId, fragId ∈ (run actions).receiver.arq.fragments ↔
      ∃ position message, (run actions).InPart position message ∧
        fragIdOf (run actions).sender.enqueued position message = fragId) ∧
    (∀ position other message otherMessage, (run actions).InPart position message →
      (run actions).InPart other otherMessage →
      fragIdOf (run actions).sender.enqueued position message =
        fragIdOf (run actions).sender.enqueued other otherMessage → position = other) ∧
    (∀ position message, (run actions).InPart position message →
      (run actions).receiver.arq.fragments.lookup
          (fragIdOf (run actions).sender.enqueued position message) =
        some
          { total := UInt8.ofNat (fragCount message)
            parts := (piecesOf message).mapIdx fun index chunk =>
              if (run actions).AcceptedAt position index then some chunk else none }) ∧
    (run actions).receiver.arq.fragments.keys.length ≤ 64 ∧
    ((∀ position message index, (run actions).sender.enqueued[position]? = some message →
        index < fragCount message → (run actions).AcceptedAt position index) →
      (run actions).receiver.arq.fragments = ∅) := by
  rcases exists_tracked_run actions bounded with ⟨accepted, tracked⟩
  have reassembly := tracked.receives.reassembly
  refine ⟨?_, ?_, ?_, reassembly.length_keys_le tracked.receives.window.windowed, ?_⟩
  · intro fragId
    rw [reassembly.mem_fragments_iff]
    constructor
    · rintro ⟨position, message, present, partly, idEq⟩
      exact ⟨position, message, (inPart_iff tracked bounded present).mpr partly, idEq.symm⟩
    · rintro ⟨position, message, inPart, idEq⟩
      exact ⟨position, message, inPart.present,
        (inPart_iff tracked bounded inPart.present).mp inPart, idEq.symm⟩
  · intro position other message otherMessage inPart otherInPart same
    exact inPart.unique tracked bounded otherInPart same
  · intro position message inPart
    rw [← bufOf_eq tracked bounded inPart.present]
    exact reassembly.lookup_of_partly position message inPart.present
      ((inPart_iff tracked bounded inPart.present).mp inPart)
  · intro allAccepted
    apply reassembly.eq_empty_of_complete
    intro position message present index indexLt
    exact (acceptedAt_iff tracked bounded present indexLt).mp
      (allAccepted position message index present indexLt)

/-- The second of two fragments arrives and the first one is delayed. -/
def halfway : List HearingAction :=
  [.sender (.enqueue (List.replicate 1025 7)), .sender (.takeNewSends 0), .deliver 1]

theorem fragments_run_halfway :
    1 ∈ (run halfway).receiver.arq.fragments ∧
    ∃ position message, (run halfway).InPart position message ∧
      fragIdOf (run halfway).sender.enqueued position message = 1 := by
  have held : 1 ∈ (run halfway).receiver.arq.fragments := by decide +kernel
  exact ⟨held, ((fragments_run halfway (by decide +kernel)).1 1).mp held⟩

end Hearing

end Arq

end Ppose

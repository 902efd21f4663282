import Ppose.Reliability.Reassembly
import Ppose.Reliability.Operations
import Mathlib.Data.List.Forall2

/-!
# Progress without losses

A sender queues one message and is then driven over a lossless channel: every
frame of `takeNewSends` is handed to the receiver in order, and every
acknowledgement straight back, until `takeNewSends` has nothing left.

The walk over `unacked` follows the numeric order of the keys.  Past the largest
sequence number this is not the order in which the fragments were queued: the
wrapped fragments come first, and if they lie outside the receive window they are
thrown away and never sent again.  So the drive delivers the message exactly if
its numbers do not wrap or all of them fit in one receive window
(`drive_delivers_iff`).

The proof follows the two parties with sequence numbers that do not wrap: the
numbers sent, the numbers still to be sent, and the numbers accepted.
-/

namespace Ppose

namespace Arq

/-- Hand one frame to the receiver and its acknowledgement back to the sender. -/
def exchangeFrame (parties : Arq × Arq) (frame : Bytes) : Arq × Arq :=
  match parties.2.ingest frame with
  | (.ok (some ack), receiver) => ((parties.1.ingest ack).2, receiver)
  | (_, receiver) => (parties.1, receiver)

/-- Exchange frames until `takeNewSends` returns none, for at most the given number of rounds. -/
def drive (clock : ℕ → Instant) : ℕ → ℕ → Arq × Arq → Option (Arq × Arq)
  | 0, _, _ => none
  | rounds + 1, round, (sender, receiver) =>
      let (frames, sender) := sender.takeNewSends (clock round)
      if frames = [] then some (sender, receiver)
      else drive clock rounds (round + 1) (frames.foldl exchangeFrame (sender, receiver))

variable {message : Bytes} {start : ℕ} {fragId : UInt16} {accepted : Finset ℕ}

theorem subset_arrive (accepted : Finset ℕ) (number : ℕ) : accepted ⊆ arrive accepted number := by
  unfold arrive
  split_ifs
  · exact Finset.subset_insert _ _
  · exact subset_rfl

theorem subset_foldl_arrive (accepted : Finset ℕ) (numbers : List ℕ) :
    accepted ⊆ numbers.foldl arrive accepted := by
  induction numbers generalizing accepted with
  | nil => exact subset_rfl
  | cons number rest ih => exact (subset_arrive accepted number).trans (ih _)

def IsFragment (message : Bytes) (start : ℕ) (fragId : UInt16) (number : ℕ) (frame : Bytes) :
    Prop :=
  ∃ index chunk, (piecesOf message)[index]? = some chunk ∧ number = start + index ∧
    frame = encodeData (UInt32.ofNat number) fragId (UInt8.ofNat index)
      (UInt8.ofNat (fragCount message)) chunk

def IsEntry (message : Bytes) (start : ℕ) (fragId : UInt16) (number : ℕ)
    (entry : UInt32 × Outgoing) : Prop :=
  entry.1 = UInt32.ofNat number ∧ IsFragment message start fragId number entry.2.plaintext

/-- What the receiver has made of the accepted numbers. -/
structure Receiving (message : Bytes) (start : ℕ) (fragId : UInt16) (before : List Bytes)
    (accepted : Finset ℕ) (receiver : Arq) : Prop where
  window : Represents receiver.recvBase receiver.recvBits accepted
  below : Finset.range start ⊆ accepted
  above : accepted ⊆ Finset.range (start + fragCount message)
  lookup_partly : Partly message start accepted →
    receiver.fragments.lookup fragId = some (bufOf message start accepted)
  lookup_unbegun : ¬Begun message start accepted → receiver.fragments.lookup fragId = none
  delivered_eq : receiver.delivered =
    before ++ if Complete message start accepted then [message] else []

theorem Receiving.start_le {before : List Bytes} {receiver : Arq}
    (receiving : Receiving message start fragId before accepted receiver) :
    start ≤ firstMissing accepted :=
  le_firstMissing receiving.below

theorem Receiving.le_end {before : List Bytes} {receiver : Arq}
    (receiving : Receiving message start fragId before accepted receiver) :
    firstMissing accepted ≤ start + fragCount message := by
  apply firstMissing_le
  intro present
  exact lt_irrefl _ (Finset.mem_range.mp (receiving.above present))

/-- Storing a fresh fragment keeps the receiver in step with the accepted numbers. -/
theorem Receiving.acceptFragment {before : List Bytes} {receiver : Arq}
    (receiving : Receiving message start fragId before accepted receiver)
    (short : fragCount message ≤ 255) {index : ℕ} {chunk : Bytes}
    (piece : (piecesOf message)[index]? = some chunk) (fresh : start + index ∉ accepted)
    {base : UInt32} {bits : UInt64}
    (represents : Represents base bits (insert (start + index) accepted)) :
    Receiving message start fragId before (insert (start + index) accepted)
      (Arq.acceptFragment { receiver with recvBase := base, recvBits := bits } fragId
        (UInt8.ofNat index) (UInt8.ofNat (fragCount message)) chunk) := by
  have indexLt := index_lt_of_piece piece
  have notYet : ¬Complete message start accepted := fun complete => fresh (complete index indexLt)
  have begunNow : Begun message start (insert (start + index) accepted) := begun_insert indexLt
  have below' : Finset.range start ⊆ insert (start + index) accepted :=
    receiving.below.trans (Finset.subset_insert _ _)
  have above' : insert (start + index) accepted ⊆ Finset.range (start + fragCount message) := by
    apply Finset.insert_subset _ receiving.above
    rw [Finset.mem_range]
    omega
  have deliveredEq : receiver.delivered = before := by
    simpa [notYet] using receiving.delivered_eq
  rcases Nat.lt_or_ge (fragCount message) 2 with single | several
  · have one : fragCount message = 1 := by
      have := fragCount_pos message
      omega
    have complete : Complete message start (insert (start + index) accepted) :=
      complete_insert_of_single one indexLt
    rw [acceptFragment_single _ fragId piece one]
    refine ⟨represents, below', above', ?_, ?_, ?_⟩
    · intro partly
      exact absurd complete partly.2
    · intro unbegun
      exact absurd begunNow unbegun
    · rw [if_pos complete]
      change receiver.delivered ++ [message] = _
      rw [deliveredEq]
  · rcases acceptFragment_multi { receiver with recvBase := base, recvBits := bits } fragId piece
      several short (fun begun => receiving.lookup_partly ⟨begun, notYet⟩)
      receiving.lookup_unbegun with ⟨fragments, resultEq, lookupEq, _⟩
    rw [resultEq]
    by_cases complete : Complete message start (insert (start + index) accepted)
    · rw [if_pos complete]
      refine ⟨represents, below', above', ?_, ?_, ?_⟩
      · intro partly
        exact absurd complete partly.2
      · intro unbegun
        exact absurd begunNow unbegun
      · rw [if_pos complete]
        change receiver.delivered ++ [message] = _
        rw [deliveredEq]
    · rw [if_neg complete] at lookupEq ⊢
      refine ⟨represents, below', above', ?_, ?_, ?_⟩
      · intro _
        exact lookupEq
      · intro unbegun
        exact absurd begunNow unbegun
      · rw [if_neg complete, List.append_nil]
        exact deliveredEq

/-- A fragment which arrives is accepted if it is new and in the window, and acknowledged. -/
theorem Receiving.ingest {before : List Bytes} {receiver : Arq}
    (receiving : Receiving message start fragId before accepted receiver)
    (short : fragCount message ≤ 255) {number : ℕ} {frame : Bytes}
    (isFragment : IsFragment message start fragId number frame) :
    ∃ base bits receiver', receiver.ingest frame = (.ok (some (encodeAck base bits)), receiver') ∧
      Represents base bits (arrive accepted number) ∧
      Receiving message start fragId before (arrive accepted number) receiver' := by
  rcases isFragment with ⟨index, chunk, piece, rfl, rfl⟩
  have indexLt := index_lt_of_piece piece
  have startLe := receiving.start_le
  have leEnd := receiving.le_end
  have decoded := decodeInner_encodeData (UInt32.ofNat (start + index)) fragId chunk
    (show UInt8.ofNat index < UInt8.ofNat (fragCount message) by
      rw [UInt8.lt_iff_toNat_lt, UInt8.toNat_ofNat', UInt8.toNat_ofNat']
      omega)
  suffices kept : Receiving message start fragId before (arrive accepted (start + index))
      (receiver.onData (UInt32.ofNat (start + index)) fragId (UInt8.ofNat index)
        (UInt8.ofNat (fragCount message)) chunk) from
    ⟨_, _, _, ingest_data receiver decoded, kept.window, kept.window, kept.below, kept.above,
      kept.lookup_partly, kept.lookup_unbegun, kept.delivered_eq⟩
  rcases markReceived_cases receiving.window (by simp only [receiveWindow]; omega)
      (by omega : start + index < firstMissing accepted + 2 ^ 32) with
    ⟨fresh, _, arrived, base, bits, represents, marked⟩ | ⟨_, arrived, marked⟩
  · rw [arrived]
    simp only [onData, marked, if_true]
    exact receiving.acceptFragment short piece fresh represents
  · rw [arrived]
    simp only [onData, marked]
    exact receiving

/-- The sender holds the given numbers, sent ones before never-sent ones. -/
def Holding (message : Bytes) (start : ℕ) (fragId : UInt16) (sent unsent : List ℕ)
    (sender : Arq) : Prop :=
  ∃ before after, sender.unacked.entries = before ++ after ∧
    (∀ entry ∈ before, entry.2.isSent = true) ∧ (∀ entry ∈ after, entry.2.isSent = false) ∧
    List.Forall₂ (IsEntry message start fragId) sent before ∧
    List.Forall₂ (IsEntry message start fragId) unsent after

variable {sent unsent : List ℕ} {sender : Arq}

theorem Holding.onAck (holding : Holding message start fragId sent unsent sender)
    (short : fragCount message ≤ 255) {base : UInt32} {bits : UInt64}
    (represents : Represents base bits accepted) (startLe : start ≤ firstMissing accepted)
    (leEnd : firstMissing accepted ≤ start + fragCount message) :
    Holding message start fragId (sent.filter (· ∉ accepted)) (unsent.filter (· ∉ accepted))
      (sender.onAck base bits) := by
  rcases holding with ⟨before, after, entriesEq, beforeSent, afterUnsent, sentSpec, unsentSpec⟩
  have agrees : Relator.LiftFun (IsEntry message start fragId) (· ↔ ·)
      (fun number => decide (number ∉ accepted) = true)
      (fun entry => (!acked base bits entry.1) = true) := by
    rintro number entry ⟨keyEq, index, chunk, piece, rfl, _⟩
    have := index_lt_of_piece piece
    have covered := acked_iff (start + index) represents (by omega) (by omega)
    simp only [keyEq, decide_eq_true_eq, Bool.not_eq_true', ← covered, Bool.not_eq_true]
  refine ⟨before.filter fun entry => !acked base bits entry.1,
    after.filter fun entry => !acked base bits entry.1, ?_, ?_, ?_, ?_, ?_⟩
  · simp only [Arq.onAck, OrderedMap.filterKeys, entriesEq, List.filter_append]
  · exact fun entry entryMem => beforeSent entry (List.mem_of_mem_filter entryMem)
  · exact fun entry entryMem => afterUnsent entry (List.mem_of_mem_filter entryMem)
  · exact List.rel_filter agrees sentSpec
  · exact List.rel_filter agrees unsentSpec

/-- `takeNewSends` sends as many of the never-sent numbers as the window allows. -/
theorem Holding.takeNewSends (holding : Holding message start fragId sent unsent sender)
    (now : Instant) :
    List.Forall₂ (IsFragment message start fragId) (unsent.take (windowSize - sent.length))
        (sender.takeNewSends now).1 ∧
      Holding message start fragId (sent ++ unsent.take (windowSize - sent.length))
        (unsent.drop (windowSize - sent.length)) (sender.takeNewSends now).2 := by
  rcases holding with ⟨before, after, entriesEq, beforeSent, afterUnsent, sentSpec, unsentSpec⟩
  have inFlightEq : sender.inFlightSent = sent.length := by
    rw [inFlightSent, entriesEq, List.countP_append, List.countP_eq_length.mpr beforeSent,
      List.countP_eq_zero.mpr (by simpa using afterUnsent), sentSpec.length_eq, Nat.add_zero]
  have walked := newSendsLoop_append now sent.length beforeSent afterUnsent
  have takenSpec := List.forall₂_take (windowSize - sent.length) unsentSpec
  constructor
  · simp only [Arq.takeNewSends, inFlightEq, entriesEq, walked]
    rw [List.forall₂_map_right_iff]
    exact takenSpec.imp fun number entry isEntry => isEntry.2
  · refine ⟨before ++ (after.take (windowSize - sent.length)).map (markSent now),
      after.drop (windowSize - sent.length), ?_, ?_, ?_, ?_, ?_⟩
    · simp only [Arq.takeNewSends, OrderedMap.rewrite, inFlightEq, entriesEq, walked,
        List.append_assoc]
    · intro entry entryMem
      rcases List.mem_append.mp entryMem with old | new
      · exact beforeSent entry old
      · rcases List.mem_map.mp new with ⟨taken, _, rfl⟩
        rfl
    · exact fun entry entryMem => afterUnsent entry (List.mem_of_mem_drop entryMem)
    · apply List.rel_append sentSpec
      rw [List.forall₂_map_right_iff]
      exact takenSpec
    · exact List.forall₂_drop _ unsentSpec

/-- Where the two parties of a drive stand, in numbers that do not wrap. -/
structure Phase where
  sent : List ℕ
  unsent : List ℕ
  accepted : Finset ℕ

def Phase.pending (phase : Phase) : List ℕ := phase.unsent.take (windowSize - phase.sent.length)

def Phase.next (phase : Phase) : Phase where
  sent := (phase.sent ++ phase.pending).filter (· ∉ phase.pending.foldl arrive phase.accepted)
  unsent := (phase.unsent.drop (windowSize - phase.sent.length)).filter
    (· ∉ phase.pending.foldl arrive phase.accepted)
  accepted := phase.pending.foldl arrive phase.accepted

/-- The two parties stand where the phase says. -/
structure InPhase (message : Bytes) (start : ℕ) (fragId : UInt16) (before : List Bytes)
    (phase : Phase) (parties : Arq × Arq) : Prop where
  holding : Holding message start fragId phase.sent phase.unsent parties.1
  receiving : Receiving message start fragId before phase.accepted parties.2
  unaccepted : ∀ number ∈ phase.sent ++ phase.unsent, number ∉ phase.accepted

theorem filter_notMem_eq_self {numbers : List ℕ}
    (disjoint : ∀ number ∈ numbers, number ∉ accepted) :
    numbers.filter (· ∉ accepted) = numbers := by
  simpa using disjoint

theorem filter_filter_notMem {larger : Finset ℕ} (subset : accepted ⊆ larger) (numbers : List ℕ) :
    (numbers.filter (· ∉ accepted)).filter (· ∉ larger) = numbers.filter (· ∉ larger) := by
  rw [List.filter_filter]
  apply List.filter_congr
  intro number _
  have : number ∉ larger → number ∉ accepted := fun absent present => absent (subset present)
  grind

/-- Exchanging the pending frames admits their numbers and forgets what was accepted. -/
theorem InPhase.exchangeFrames {before : List Bytes} {pending : List ℕ} {frames : List Bytes}
    {phase : Phase} {parties : Arq × Arq} (short : fragCount message ≤ 255)
    (inPhase : InPhase message start fragId before phase parties)
    (framesSpec : List.Forall₂ (IsFragment message start fragId) pending frames) :
    InPhase message start fragId before
      { sent := phase.sent.filter (· ∉ pending.foldl arrive phase.accepted)
        unsent := phase.unsent.filter (· ∉ pending.foldl arrive phase.accepted)
        accepted := pending.foldl arrive phase.accepted }
      (frames.foldl exchangeFrame parties) := by
  induction framesSpec generalizing phase parties with
  | nil =>
      have sentEq := filter_notMem_eq_self fun number numberMem =>
        inPhase.unaccepted number (List.mem_append_left _ numberMem)
      have unsentEq := filter_notMem_eq_self fun number numberMem =>
        inPhase.unaccepted number (List.mem_append_right _ numberMem)
      rw [List.foldl_nil, List.foldl_nil, sentEq, unsentEq]
      exact inPhase
  | @cons number frame rest restFrames isFragment restSpec ih =>
      rcases inPhase.receiving.ingest short isFragment with
        ⟨base, bits, receiver, ingested, represents, receiving⟩
      have exchanged : exchangeFrame parties frame = (parties.1.onAck base bits, receiver) := by
        simp only [exchangeFrame, ingested, ingest_encodeAck]
      have once : InPhase message start fragId before
          { sent := phase.sent.filter (· ∉ arrive phase.accepted number)
            unsent := phase.unsent.filter (· ∉ arrive phase.accepted number)
            accepted := arrive phase.accepted number }
          (exchangeFrame parties frame) := by
        rw [exchanged]
        refine ⟨?_, receiving, ?_⟩
        · exact inPhase.holding.onAck short represents receiving.start_le receiving.le_end
        · simp only [← List.filter_append]
          intro other otherMem
          simpa using (List.mem_filter.mp otherMem).2
      have subset := subset_foldl_arrive (arrive phase.accepted number) rest
      have result := ih once
      simp only [filter_filter_notMem subset] at result
      exact result

theorem InPhase.drive_idle {before : List Bytes} {phase : Phase} {parties : Arq × Arq}
    (inPhase : InPhase message start fragId before phase parties) (idle : phase.pending = [])
    (clock : ℕ → Instant) (rounds round : ℕ) :
    ∃ final, drive clock (rounds + 1) round parties = some final ∧
      InPhase message start fragId before phase final := by
  rcases inPhase.holding.takeNewSends (clock round) with ⟨framesSpec, holding⟩
  change List.Forall₂ _ phase.pending _ at framesSpec
  change Holding _ _ _ (phase.sent ++ phase.pending) _ _ at holding
  have split : phase.pending ++ phase.unsent.drop (windowSize - phase.sent.length) = phase.unsent :=
    List.take_append_drop _ _
  rw [idle] at framesSpec holding split
  rw [List.append_nil, ← List.nil_append (phase.unsent.drop _), split] at holding
  have noFrames := List.forall₂_nil_left_iff.mp framesSpec
  refine ⟨((parties.1.takeNewSends (clock round)).2, parties.2), ?_, holding, inPhase.receiving,
    inPhase.unaccepted⟩
  simp [drive, noFrames]

theorem InPhase.drive_next {before : List Bytes} {phase : Phase} {parties : Arq × Arq}
    (short : fragCount message ≤ 255)
    (inPhase : InPhase message start fragId before phase parties) (busy : phase.pending ≠ [])
    (clock : ℕ → Instant) (round : ℕ) :
    ∃ parties', (∀ rounds, drive clock (rounds + 1) round parties =
        drive clock rounds (round + 1) parties') ∧
      InPhase message start fragId before phase.next parties' := by
  rcases inPhase.holding.takeNewSends (clock round) with ⟨framesSpec, holding⟩
  change List.Forall₂ _ phase.pending _ at framesSpec
  have someFrames : (parties.1.takeNewSends (clock round)).1 ≠ [] := by
    intro noFrames
    rw [noFrames] at framesSpec
    exact busy (List.forall₂_nil_right_iff.mp framesSpec)
  refine ⟨(parties.1.takeNewSends (clock round)).1.foldl exchangeFrame
    ((parties.1.takeNewSends (clock round)).2, parties.2),
    fun rounds => by simp [drive, someFrames], ?_⟩
  have taken : InPhase message start fragId before
      { sent := phase.sent ++ phase.pending
        unsent := phase.unsent.drop (windowSize - phase.sent.length)
        accepted := phase.accepted }
      ((parties.1.takeNewSends (clock round)).2, parties.2) := by
    refine ⟨holding, inPhase.receiving, ?_⟩
    simp only [List.append_assoc, Phase.pending, List.take_append_drop]
    exact inPhase.unaccepted
  exact taken.exchangeFrames short framesSpec

/-! ### Fragments which arrive inside the window -/

/-- Each number is new and inside the window when those before it were accepted. -/
def Arrives : Finset ℕ → List ℕ → Prop
  | _, [] => True
  | accepted, number :: rest =>
      number ∉ accepted ∧ number < firstMissing accepted + receiveWindow ∧
        Arrives (insert number accepted) rest

theorem Arrives.mem_foldl {numbers : List ℕ} (arrives : Arrives accepted numbers) (number : ℕ) :
    number ∈ numbers.foldl arrive accepted ↔ number ∈ accepted ∨ number ∈ numbers := by
  induction numbers generalizing accepted with
  | nil => simp
  | cons first rest ih =>
      rcases arrives with ⟨_, inWindow, restArrives⟩
      rw [List.foldl_cons, arrive, if_pos inWindow, ih restArrives, Finset.mem_insert,
        List.mem_cons]
      tauto

theorem Arrives.append {numbers rest : List ℕ} (arrives : Arrives accepted (numbers ++ rest)) :
    Arrives accepted numbers ∧ Arrives (numbers.foldl arrive accepted) rest := by
  induction numbers generalizing accepted with
  | nil => exact ⟨trivial, arrives⟩
  | cons first others ih =>
      rcases arrives with ⟨fresh, inWindow, restArrives⟩
      rcases ih restArrives with ⟨othersArrive, afterwards⟩
      rw [List.foldl_cons, arrive, if_pos inWindow]
      exact ⟨⟨fresh, inWindow, othersArrive⟩, afterwards⟩

theorem Arrives.notMem {numbers : List ℕ} (arrives : Arrives accepted numbers) :
    ∀ number ∈ numbers, number ∉ accepted := by
  induction numbers generalizing accepted with
  | nil => simp
  | cons first rest ih =>
      rcases arrives with ⟨fresh, _, restArrives⟩
      intro number numberMem
      rcases List.mem_cons.mp numberMem with rfl | inRest
      · exact fresh
      · exact fun present => ih restArrives number inRest (Finset.mem_insert_of_mem present)

/-- If all numbers arrive, a round sends the first of them and all of these are accepted. -/
theorem Arrives.next {unsent : List ℕ} (arrives : Arrives accepted unsent) :
    Phase.next ⟨[], unsent, accepted⟩ =
      ⟨[], unsent.drop windowSize, (unsent.take windowSize).foldl arrive accepted⟩ := by
  rw [← List.take_append_drop windowSize unsent] at arrives
  rcases arrives.append with ⟨first, later⟩
  have dropped : ∀ number ∈ unsent.drop windowSize,
      number ∉ (unsent.take windowSize).foldl arrive accepted := later.notMem
  simp only [Phase.next, Phase.pending, List.length_nil, Nat.sub_zero, List.nil_append,
    Phase.mk.injEq, and_true]
  refine ⟨?_, filter_notMem_eq_self dropped⟩
  rw [List.filter_eq_nil_iff]
  intro number numberMem
  have taken := (first.mem_foldl number).mpr (Or.inr numberMem)
  simp [taken]

/-- A drive whose numbers all arrive ends with all of them accepted and forgotten. -/
theorem InPhase.drive_arrives {before : List Bytes} {unsent : List ℕ} {parties : Arq × Arq}
    (short : fragCount message ≤ 255)
    (inPhase : InPhase message start fragId before ⟨[], unsent, accepted⟩ parties)
    (arrives : Arrives accepted unsent) (clock : ℕ → Instant) (round : ℕ) :
    ∃ rounds final, drive clock rounds round parties = some final ∧
      InPhase message start fragId before ⟨[], [], unsent.foldl arrive accepted⟩ final := by
  induction lengthEq : unsent.length using Nat.strong_induction_on
    generalizing unsent accepted parties round with
  | _ length ih =>
      subst lengthEq
      by_cases empty : unsent = []
      · subst empty
        rcases inPhase.drive_idle (by simp [Phase.pending]) clock 0 round with
          ⟨final, driven, finalPhase⟩
        exact ⟨1, final, driven, finalPhase⟩
      · have busy : Phase.pending ⟨[], unsent, accepted⟩ ≠ [] := by
          simp [Phase.pending, empty, windowSize]
        have lengthPos := List.length_pos_iff.mpr empty
        have splitArrives := arrives
        rw [← List.take_append_drop windowSize unsent] at splitArrives
        rcases inPhase.drive_next short busy clock round with ⟨parties', stepEq, nextPhase⟩
        rw [arrives.next] at nextPhase
        rcases ih (unsent.drop windowSize).length
            (by rw [List.length_drop, windowSize]; omega) nextPhase splitArrives.append.2
            (round + 1) rfl with
          ⟨rounds, final, driven, finalPhase⟩
        refine ⟨rounds + 1, final, by rw [stepEq, driven], ?_⟩
        rwa [← List.foldl_append, List.take_append_drop] at finalPhase

/-! ### A fragment which is thrown away -/

theorem mem_foldl_arrive {numbers : List ℕ} {number : ℕ}
    (present : number ∈ numbers.foldl arrive accepted) : number ∈ accepted ∨ number ∈ numbers := by
  induction numbers generalizing accepted with
  | nil => exact Or.inl present
  | cons first rest ih =>
      rcases ih present with now | later
      · unfold arrive at now
        split_ifs at now
        · rcases Finset.mem_insert.mp now with rfl | old
          · exact Or.inr List.mem_cons_self
          · exact Or.inl old
        · exact Or.inl now
      · exact Or.inr (List.mem_cons_of_mem _ later)

/-- While a number is missing, no number a window above it is accepted. -/
theorem notMem_foldl_arrive {numbers : List ℕ} {missing far : ℕ} (isMissing : missing ∉ accepted)
    (notSent : missing ∉ numbers) (isFar : missing + receiveWindow ≤ far)
    (unaccepted : far ∉ accepted) : far ∉ numbers.foldl arrive accepted := by
  induction numbers generalizing accepted with
  | nil => exact unaccepted
  | cons first rest ih =>
      rw [List.mem_cons, not_or] at notSent
      have missingLe := firstMissing_le isMissing
      have still : missing ∉ arrive accepted first := by
        intro present
        rcases mem_foldl_arrive (show missing ∈ [first].foldl arrive accepted from present) with
          old | new
        · exact isMissing old
        · exact notSent.1 (List.mem_singleton.mp new)
      apply ih still notSent.2
      unfold arrive
      split_ifs with inWindow
      · rw [Finset.mem_insert, not_or]
        exact ⟨by omega, unaccepted⟩
      · exact unaccepted

/--
The number `far` was sent in vain or will be: it is sent before `missing`, and
lies outside the window as long as `missing` is missing.
-/
structure Stranded (missing far : ℕ) (phase : Phase) : Prop where
  isFar : missing + receiveWindow ≤ far
  unaccepted : far ∉ phase.accepted
  held : far ∈ phase.sent ++ phase.unsent
  order : ∃ early late, phase.unsent = early ++ late ∧ missing ∉ early ∧ far ∉ late ∧
    (far ∈ early → missing ∉ phase.accepted)

theorem Stranded.next {missing far : ℕ} {phase : Phase} (stranded : Stranded missing far phase) :
    Stranded missing far phase.next := by
  rcases stranded with ⟨isFar, unaccepted, held, early, late, unsentEq, notEarly, notLate, waits⟩
  let count := windowSize - phase.sent.length
  have pendingEq : phase.pending = early.take count ++ late.take (count - early.length) := by
    rw [Phase.pending, unsentEq, List.take_append]
  have droppedEq : phase.unsent.drop count =
      early.drop count ++ late.drop (count - early.length) := by
    rw [unsentEq, List.drop_append]
  have farEarly : far ∉ (early.take count).foldl arrive phase.accepted := by
    by_cases isEarly : far ∈ early
    · exact notMem_foldl_arrive (waits isEarly)
        (fun present => notEarly (List.mem_of_mem_take present)) isFar unaccepted
    · intro present
      rcases mem_foldl_arrive present with old | new
      · exact unaccepted old
      · exact isEarly (List.mem_of_mem_take new)
  have farNext : far ∉ phase.pending.foldl arrive phase.accepted := by
    rw [pendingEq, List.foldl_append]
    intro present
    rcases mem_foldl_arrive present with old | new
    · exact farEarly old
    · exact notLate (List.mem_of_mem_take new)
  refine ⟨isFar, farNext, ?_, (early.drop count).filter (· ∉ phase.next.accepted),
    (late.drop (count - early.length)).filter (· ∉ phase.next.accepted), ?_, ?_, ?_, ?_⟩
  · have held' : far ∈ phase.sent ++ phase.pending ++ phase.unsent.drop count := by
      rwa [List.append_assoc, Phase.pending, List.take_append_drop]
    simp only [Phase.next, ← List.filter_append]
    exact List.mem_filter.mpr ⟨held', by simpa using farNext⟩
  · rw [← List.filter_append, ← droppedEq]
    rfl
  · exact fun present => notEarly (List.mem_of_mem_drop (List.mem_of_mem_filter present))
  · exact fun present => notLate (List.mem_of_mem_drop (List.mem_of_mem_filter present))
  · intro waiting present
    have isDropped := List.mem_of_mem_filter waiting
    have countLt : count < early.length := by
      by_contra full
      rw [List.drop_eq_nil_of_le (not_lt.mp full)] at isDropped
      exact List.not_mem_nil isDropped
    change missing ∈ phase.pending.foldl arrive phase.accepted at present
    rw [pendingEq, Nat.sub_eq_zero_of_le countLt.le, List.take_zero, List.append_nil] at present
    rcases mem_foldl_arrive present with old | new
    · exact waits (List.mem_of_mem_drop isDropped) old
    · exact notEarly (List.mem_of_mem_take new)

/-- A drive with a stranded number never ends with nothing unacknowledged. -/
theorem InPhase.drive_stranded {before : List Bytes} {phase : Phase} {parties : Arq × Arq}
    (short : fragCount message ≤ 255)
    (inPhase : InPhase message start fragId before phase parties) {missing far : ℕ}
    (stranded : Stranded missing far phase) (clock : ℕ → Instant) {rounds round : ℕ}
    {final : Arq × Arq} (driven : drive clock rounds round parties = some final) :
    final.1.unackedLen ≠ 0 := by
  induction rounds generalizing phase parties round with
  | zero => simp [drive] at driven
  | succ rounds ih =>
      by_cases idle : phase.pending = []
      · rcases inPhase.drive_idle idle clock rounds round with ⟨last, lastDriven, lastPhase⟩
        rw [lastDriven, Option.some.injEq] at driven
        subst driven
        rcases lastPhase.holding with ⟨sent, unsent, entriesEq, _, _, sentSpec, unsentSpec⟩
        have lengthPos := List.length_pos_of_mem stranded.held
        rw [unackedLen, OrderedMap.length, entriesEq, List.length_append, ← sentSpec.length_eq,
          ← unsentSpec.length_eq, ← List.length_append]
        omega
      · rcases inPhase.drive_next short idle clock round with ⟨parties', stepEq, nextPhase⟩
        rw [stepEq] at driven
        exact ih nextPhase stranded.next driven

/-! ### The start of a drive -/

theorem enqueueChunks_append (fragId : UInt16) (total : UInt8) (index : ℕ) (first rest : List Bytes)
    (arq : Arq) :
    enqueueChunks fragId total index (first ++ rest) arq =
      enqueueChunks fragId total (index + first.length) rest
        (enqueueChunks fragId total index first arq) := by
  induction first generalizing index arq with
  | nil => rfl
  | cons chunk others ih =>
      rw [List.cons_append, enqueueChunks, enqueueChunks, ih, List.length_cons]
      congr 1
      omega

theorem isEntry_queuedEntries {number skip : ℕ} {pieces : List Bytes}
    (sameSeq : UInt32.ofNat number = UInt32.ofNat (start + skip))
    (stretch : ∀ offset chunk, pieces[offset]? = some chunk →
      (piecesOf message)[skip + offset]? = some chunk) :
    List.Forall₂ (IsEntry message start fragId) (List.range' (start + skip) pieces.length)
      (queuedEntries fragId (UInt8.ofNat (fragCount message)) number skip pieces) := by
  induction pieces generalizing number skip with
  | nil => exact List.Forall₂.nil
  | cons chunk rest ih =>
      rw [List.length_cons, List.range'_succ, queuedEntries]
      refine List.Forall₂.cons ⟨sameSeq, skip, chunk, stretch 0 chunk rfl, rfl, ?_⟩ ?_
      · rw [sameSeq]
      · rw [Nat.add_assoc]
        apply ih
        · rw [UInt32.ofNat_add, sameSeq, ← UInt32.ofNat_add, Nat.add_assoc]
        · intro offset later found
          rw [Nat.add_assoc, Nat.add_comm 1]
          exact stretch (offset + 1) later found

def nextFragIdFor (sender : Arq) (message : Bytes) : UInt16 :=
  if message = [] then 0 else sender.nextFragId

theorem enqueue_snd (sender : Arq) (short : fragCount message ≤ 255) :
    (sender.enqueue message).2 = enqueueChunks (nextFragIdFor sender message)
      (UInt8.ofNat (fragCount message)) 0 (piecesOf message)
      { sender with
        nextFragId := if message = [] then sender.nextFragId
          else succFragId sender.nextFragId } := by
  rw [enqueue_ok sender short, nextFragIdFor]

theorem isSent_of_mem_queuedEntries {total : UInt8} {number index : ℕ} {pieces : List Bytes}
    {entry : UInt32 × Outgoing}
    (entryMem : entry ∈ queuedEntries fragId total number index pieces) :
    entry.2.isSent = false := by
  rcases mem_queuedEntries.mp entryMem with ⟨offset, chunk, piece, rfl⟩
  rfl

/-- The numbers of a message which does not wrap are queued in order. -/
theorem holding_enqueue (noneUnacked : sender.unacked = OrderedMap.empty)
    (nextSeq : sender.nextSeq = UInt32.ofNat start) (short : fragCount message ≤ 255)
    (fits : start + fragCount message ≤ 2 ^ 32) :
    Holding message start (nextFragIdFor sender message) []
      (List.range' start (fragCount message)) (sender.enqueue message).2 := by
  have noEntries : sender.unacked.entries = [] ++ [] := by rw [noneUnacked]; rfl
  rcases enqueueChunks_eq (nextFragIdFor sender message) (UInt8.ofNat (fragCount message))
      { sender with
        nextFragId := if message = [] then sender.nextFragId else succFragId sender.nextFragId }
      start 0 (piecesOf message) nextSeq fits noEntries (by simp) (by simp) with
    ⟨unacked, chunksEq, entriesEq⟩
  rw [List.nil_append, List.append_nil] at entriesEq
  rw [enqueue_snd sender short, chunksEq]
  refine ⟨[], _, entriesEq, by simp, fun entry => isSent_of_mem_queuedEntries, .nil, ?_⟩
  apply isEntry_queuedEntries (show UInt32.ofNat start = UInt32.ofNat (start + 0) from rfl)
  intro offset chunk piece
  rwa [Nat.zero_add]

/-- The wrapped numbers of a message are queued before the others. -/
theorem holding_enqueue_wrapping (noneUnacked : sender.unacked = OrderedMap.empty)
    (nextSeq : sender.nextSeq = UInt32.ofNat start) (short : fragCount message ≤ 255)
    {room : ℕ} (roomEq : start + room = 2 ^ 32) (wraps : room < fragCount message) :
    Holding message start (nextFragIdFor sender message) []
      (List.range' (start + room) (fragCount message - room) ++ List.range' start room)
      (sender.enqueue message).2 := by
  let fragId := nextFragIdFor sender message
  let total := UInt8.ofNat (fragCount message)
  let low := (piecesOf message).take room
  let high := (piecesOf message).drop room
  have lowLength : low.length = room := List.length_take_of_le (le_of_lt wraps)
  have highLength : high.length = fragCount message - room := List.length_drop
  have noEntries : sender.unacked.entries = [] ++ [] := by rw [noneUnacked]; rfl
  rcases enqueueChunks_eq fragId total
      { sender with
        nextFragId := if message = [] then sender.nextFragId else succFragId sender.nextFragId }
      start 0 low nextSeq (by omega) noEntries (by simp) (by simp) with
    ⟨lowUnacked, lowEq, lowEntries⟩
  rw [List.nil_append, List.append_nil] at lowEntries
  have wrapped : UInt32.ofNat (start + low.length) = UInt32.ofNat 0 := by
    rw [lowLength, roomEq]
    rfl
  rcases enqueueChunks_eq fragId total
      { sender with
        nextFragId := if message = [] then sender.nextFragId else succFragId sender.nextFragId
        nextSeq := UInt32.ofNat (start + low.length)
        unacked := lowUnacked }
      0 room high wrapped (by omega)
      (show lowUnacked.entries = [] ++ queuedEntries fragId total start 0 low from lowEntries)
      (by simp)
      (by
        intro entry entryMem
        rcases mem_queuedEntries.mp entryMem with ⟨offset, chunk, piece, rfl⟩
        have offsetLt : offset < low.length := (List.getElem?_eq_some_iff.mp piece).1
        rw [UInt32.toNat_ofNat', Nat.mod_eq_of_lt (by omega)]
        omega) with
    ⟨unacked, highEq, entriesEq⟩
  have enqueueEq : (sender.enqueue message).2 = enqueueChunks fragId total room high
      (enqueueChunks fragId total 0 low
        { sender with
          nextFragId := if message = [] then sender.nextFragId
            else succFragId sender.nextFragId }) := by
    rw [enqueue_snd sender short, ← List.take_append_drop room (piecesOf message),
      enqueueChunks_append, lowLength, Nat.zero_add]
  rw [enqueueEq, lowEq, highEq]
  refine ⟨[], _, entriesEq, by simp, ?_, .nil, ?_⟩
  · intro entry entryMem
    rcases List.mem_append.mp entryMem with isHigh | isLow
    · exact isSent_of_mem_queuedEntries isHigh
    · exact isSent_of_mem_queuedEntries isLow
  · have highSpec : List.Forall₂ (IsEntry message start fragId)
        (List.range' (start + room) high.length) (queuedEntries fragId total 0 room high) := by
      apply isEntry_queuedEntries
      · rw [roomEq]
        rfl
      · intro offset chunk piece
        rwa [List.getElem?_drop] at piece
    have lowSpec : List.Forall₂ (IsEntry message start fragId)
        (List.range' (start + 0) low.length) (queuedEntries fragId total start 0 low) := by
      apply isEntry_queuedEntries rfl
      intro offset chunk piece
      have offsetLt : offset < low.length := (List.getElem?_eq_some_iff.mp piece).1
      rw [Nat.zero_add]
      rwa [List.getElem?_take_of_lt (by omega)] at piece
    rw [highLength] at highSpec
    rw [lowLength] at lowSpec
    exact List.rel_append highSpec lowSpec

theorem receiving_initial (message : Bytes) (fragId : UInt16) {receiver : Arq}
    (recvBase : receiver.recvBase = UInt32.ofNat start)
    (recvBits : receiver.recvBits = 0) (noPartial : receiver.fragments = ∅) :
    Receiving message start fragId receiver.delivered (Finset.range start) receiver where
  window := by
    rw [recvBase, recvBits]
    exact represents_range start
  below := subset_rfl
  above := Finset.range_subset_range.mpr (Nat.le_add_right _ _)
  lookup_partly := by
    rintro ⟨⟨index, _, present⟩, _⟩
    have := Finset.mem_range.mp present
    omega
  lookup_unbegun := by
    rw [noPartial]
    exact fun _ => AList.lookup_empty _
  delivered_eq := by
    have incomplete : ¬Complete message start (Finset.range start) := by
      intro complete
      have := Finset.mem_range.mp (complete 0 (fragCount_pos message))
      omega
    rw [if_neg incomplete, List.append_nil]

/-! ### The outcome of a drive -/

theorem arrives_range' (start count : ℕ) :
    Arrives (Finset.range start) (List.range' start count) := by
  induction count generalizing start with
  | zero => exact trivial
  | succ count ih =>
      rw [List.range'_succ]
      refine ⟨by simp, ?_, ?_⟩
      · rw [firstMissing_range, receiveWindow]
        omega
      · rw [← Finset.range_add_one]
        exact ih (start + 1)

/-- Numbers which fit in one window arrive in any order. -/
theorem arrives_of_fits {numbers : List ℕ} (below : Finset.range start ⊆ accepted)
    (nodup : numbers.Nodup) (fresh : ∀ number ∈ numbers, number ∉ accepted)
    (fits : ∀ number ∈ numbers, number < start + receiveWindow) : Arrives accepted numbers := by
  induction numbers generalizing accepted with
  | nil => exact trivial
  | cons first rest ih =>
      rw [List.nodup_cons] at nodup
      have startLe := le_firstMissing below
      have firstLt := fits first List.mem_cons_self
      refine ⟨fresh first List.mem_cons_self, by omega, ?_⟩
      apply ih (below.trans (Finset.subset_insert _ _)) nodup.2
      · intro number numberMem present
        rcases Finset.mem_insert.mp present with rfl | old
        · exact nodup.1 numberMem
        · exact fresh number (List.mem_cons_of_mem _ numberMem) old
      · exact fun number numberMem => fits number (List.mem_cons_of_mem _ numberMem)

theorem fragCount_le_of_length_le (message : Bytes) {count : ℕ} (positive : 0 < count)
    (short : message.length ≤ count * maxPayload) : fragCount message ≤ count := by
  by_cases empty : message = []
  · simp only [fragCount, piecesOf, if_pos empty, List.length_singleton]
    exact positive
  · rw [← chunks_length_eq_fragCount empty, length_chunks maxPayload_pos]
    simp only [maxPayload] at short ⊢
    omega

/-- A drive whose numbers all arrive empties `unacked` and delivers exactly the message. -/
theorem drive_delivers {receiver : Arq} (short : fragCount message ≤ 255) {numbers : List ℕ}
    (holding : Holding message start fragId [] numbers sender)
    (receiving : Receiving message start fragId receiver.delivered (Finset.range start) receiver)
    (arrives : Arrives (Finset.range start) numbers)
    (covers : ∀ index < fragCount message, start + index ∈ numbers) (clock : ℕ → Instant) :
    ∃ rounds sender' receiver',
      drive clock rounds 0 (sender, receiver) = some (sender', receiver') ∧
        sender'.unackedLen = 0 ∧ receiver'.delivered = receiver.delivered ++ [message] := by
  have inPhase : InPhase message start fragId receiver.delivered
      ⟨[], numbers, Finset.range start⟩ (sender, receiver) :=
    ⟨holding, receiving, arrives.notMem⟩
  rcases inPhase.drive_arrives short arrives clock 0 with
    ⟨rounds, ⟨sender', receiver'⟩, driven, finalPhase⟩
  refine ⟨rounds, sender', receiver', driven, ?_, ?_⟩
  · rcases finalPhase.holding with ⟨before, after, entriesEq, _, _, sentSpec, unsentSpec⟩
    rw [unackedLen, OrderedMap.length, entriesEq, List.forall₂_nil_left_iff.mp sentSpec,
      List.forall₂_nil_left_iff.mp unsentSpec]
    rfl
  · have complete : Complete message start (numbers.foldl arrive (Finset.range start)) :=
      fun index indexLt => (arrives.mem_foldl _).mpr (Or.inr (covers index indexLt))
    have deliveredEq := finalPhase.receiving.delivered_eq
    rwa [if_pos complete] at deliveredEq

/-- A message which wraps and is longer than a window strands its last fragment. -/
theorem not_drive_delivers {receiver : Arq} (noneUnacked : sender.unacked = OrderedMap.empty)
    (nextSeq : sender.nextSeq = UInt32.ofNat start)
    (recvBase : receiver.recvBase = UInt32.ofNat start) (recvBits : receiver.recvBits = 0)
    (noPartial : receiver.fragments = ∅) (short : fragCount message ≤ 255)
    (startLt : start < 2 ^ 32)
    (wraps : 2 ^ 32 < start + fragCount message) (long : 64 < fragCount message)
    (clock : ℕ → Instant) {rounds : ℕ} {final : Arq × Arq}
    (driven : drive clock rounds 0 ((sender.enqueue message).2, receiver) = some final) :
    final.1.unackedLen ≠ 0 := by
  have roomEq : start + (2 ^ 32 - start) = 2 ^ 32 := by omega
  have holding := holding_enqueue_wrapping noneUnacked nextSeq short roomEq
    (show 2 ^ 32 - start < fragCount message by omega)
  have receiving := receiving_initial message (nextFragIdFor sender message) recvBase
    recvBits noPartial
  have inPhase : InPhase message start (nextFragIdFor sender message) receiver.delivered
      ⟨[], List.range' (start + (2 ^ 32 - start)) (fragCount message - (2 ^ 32 - start)) ++
        List.range' start (2 ^ 32 - start), Finset.range start⟩
      ((sender.enqueue message).2, receiver) := by
    refine ⟨holding, receiving, ?_⟩
    intro number numberMem
    simp only [List.nil_append, List.mem_append, List.mem_range'_1] at numberMem
    rw [Finset.mem_range]
    omega
  suffices stranded : Stranded start (start + fragCount message - 1) _ from
    inPhase.drive_stranded short stranded clock driven
  refine ⟨?_, ?_, ?_, _, _, rfl, ?_, ?_, ?_⟩
  · simp only [receiveWindow]
    omega
  · rw [Finset.mem_range]
    omega
  · simp only [List.nil_append, List.mem_append, List.mem_range'_1]
    omega
  · rw [List.mem_range'_1]
    omega
  · rw [List.mem_range'_1]
    omega
  · intro _
    simp

/--
A message queued at any sequence number and driven over a lossless channel ends
with nothing unacknowledged and exactly the message delivered, if and only if its
sequence numbers do not wrap or it has at most 64 fragments.
-/
theorem drive_delivers_iff (clock : ℕ → Instant) (base : UInt32) (sender receiver : Arq)
    (message : Bytes) (nextSeq : sender.nextSeq = base)
    (noneUnacked : sender.unacked = OrderedMap.empty) (recvBase : receiver.recvBase = base)
    (recvBits : receiver.recvBits = 0) (noPartial : receiver.fragments = ∅)
    (short : message.length ≤ 255 * 1024) :
    (∃ rounds sender' receiver',
      drive clock rounds 0 ((sender.enqueue message).2, receiver) = some (sender', receiver') ∧
        sender'.unackedLen = 0 ∧ receiver'.delivered = receiver.delivered ++ [message]) ↔
      base.toNat + fragCount message ≤ 2 ^ 32 ∨ fragCount message ≤ 64 := by
  have few : fragCount message ≤ 255 := fragCount_le_of_length_le message (by decide) short
  have startLt := base.toNat_lt
  rw [← UInt32.ofNat_toNat (x := base)] at nextSeq recvBase
  have receiving := receiving_initial message (nextFragIdFor sender message) recvBase
    recvBits noPartial
  constructor
  · rintro ⟨rounds, sender', receiver', driven, allAcked, _⟩
    by_contra wrapping
    rw [not_or, not_le, not_le] at wrapping
    exact not_drive_delivers noneUnacked nextSeq recvBase recvBits noPartial few startLt wrapping.1
      wrapping.2 clock driven allAcked
  · intro condition
    by_cases fits : base.toNat + fragCount message ≤ 2 ^ 32
    · apply drive_delivers few (holding_enqueue noneUnacked nextSeq few fits) receiving
        (arrives_range' _ _)
      intro index indexLt
      rw [List.mem_range'_1]
      omega
    · have small := condition.resolve_left fits
      have roomEq : base.toNat + (2 ^ 32 - base.toNat) = 2 ^ 32 := by omega
      apply drive_delivers few (holding_enqueue_wrapping noneUnacked nextSeq few roomEq (by omega))
        receiving
      · apply arrives_of_fits subset_rfl
        · rw [List.nodup_append]
          refine ⟨List.nodup_range', List.nodup_range', ?_⟩
          intro high highMem low lowMem
          rw [List.mem_range'_1] at highMem lowMem
          omega
        · intro number numberMem
          simp only [List.mem_append, List.mem_range'_1] at numberMem
          rw [Finset.mem_range]
          omega
        · intro number numberMem
          simp only [List.mem_append, List.mem_range'_1] at numberMem
          simp only [receiveWindow]
          omega
      · intro index indexLt
        simp only [List.mem_append, List.mem_range'_1]
        omega

def senderAtLast : Arq := { Arq.new with nextSeq := 4294967295 }

def receiverAtLast : Arq := { Arq.new with recvBase := 4294967295 }

/-- A message of a number of full fragments. -/
def messageOf (count : ℕ) : Bytes := List.replicate (count * 1024) 7

theorem length_messageOf (count : ℕ) : (messageOf count).length = count * 1024 :=
  List.length_replicate

theorem fragCount_messageOf {count : ℕ} (some : 0 < count) :
    fragCount (messageOf count) = count := by
  have nonempty : messageOf count ≠ [] := by
    rw [← List.length_pos_iff, length_messageOf]
    omega
  rw [← chunks_length_eq_fragCount nonempty, length_chunks maxPayload_pos, length_messageOf,
    maxPayload]
  omega

/-- The 64 fragments have the numbers 4294967295, 0, 1, and so on up to 62. -/
theorem drive_delivers_iff_wrapping :
    ∃ rounds sender' receiver',
      drive (fun _ => 0) rounds 0 ((senderAtLast.enqueue (messageOf 64)).2, receiverAtLast) =
        some (sender', receiver') ∧
        sender'.unackedLen = 0 ∧ receiver'.delivered = [] ++ [messageOf 64] :=
  (drive_delivers_iff (fun _ => 0) 4294967295 senderAtLast receiverAtLast (messageOf 64)
    rfl rfl rfl rfl rfl (by rw [length_messageOf]; decide)).mpr
      (Or.inr (fragCount_messageOf (by decide)).le)

theorem drive_loses_at_wrap :
    (messageOf 65).length ≤ 255 * 1024 ∧
      ¬∃ rounds sender' receiver',
        drive (fun _ => 0) rounds 0 ((senderAtLast.enqueue (messageOf 65)).2, receiverAtLast) =
          some (sender', receiver') ∧
          sender'.unackedLen = 0 ∧
          receiver'.delivered = receiverAtLast.delivered ++ [messageOf 65] := by
  refine ⟨by rw [length_messageOf]; decide, ?_⟩
  rintro ⟨rounds, sender', receiver', driven, allAcked, _⟩
  have nextSeq : senderAtLast.nextSeq = UInt32.ofNat 4294967295 := rfl
  have recvBase : receiverAtLast.recvBase = UInt32.ofNat 4294967295 := rfl
  have countEq : fragCount (messageOf 65) = 65 := fragCount_messageOf (by decide)
  exact not_drive_delivers rfl nextSeq recvBase rfl rfl (by omega) (by decide) (by omega)
    (by omega) _ driven allAcked

end Arq

end Ppose

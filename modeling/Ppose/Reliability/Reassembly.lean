import Ppose.Reliability.Layout
import Ppose.Reliability.Window
import Mathlib.Combinatorics.Enumerative.DoubleCounting

/-!
# Reassembly of messages from accepted fragments

`Reassembly messages accepted fragments pushed` states what the receiver has made
of the accepted sequence numbers: the messages pushed to the application are
exactly those all of whose fragments were accepted, each pushed once, and the
reassembly map holds exactly the messages accepted in part, each under its own
fragment identifier and with its accepted pieces in place.

A recycled identifier never meets a stale buffer: while a message is accepted in
part, the receive window ends less than 65535 numbers after its start
(`partly_unique`).  Accepting one more fragment therefore preserves the relation
(`Reassembly.acceptFragment`).
-/

namespace Ppose

namespace Arq

/-- The reassembly buffer of a message starting at `start`, given what was accepted. -/
def bufOf (message : Bytes) (start : ℕ) (accepted : Finset ℕ) : FragBuf where
  total := UInt8.ofNat (fragCount message)
  parts := (piecesOf message).mapIdx fun index chunk =>
    if start + index ∈ accepted then some chunk else none

/-- All fragments of the message starting at `start` were accepted. -/
def Complete (message : Bytes) (start : ℕ) (accepted : Finset ℕ) : Prop :=
  ∀ index < fragCount message, start + index ∈ accepted

def Begun (message : Bytes) (start : ℕ) (accepted : Finset ℕ) : Prop :=
  ∃ index < fragCount message, start + index ∈ accepted

/-- Some but not all fragments of the message starting at `start` were accepted. -/
def Partly (message : Bytes) (start : ℕ) (accepted : Finset ℕ) : Prop :=
  Begun message start accepted ∧ ¬Complete message start accepted

instance (message : Bytes) (start : ℕ) (accepted : Finset ℕ) :
    Decidable (Complete message start accepted) :=
  inferInstanceAs (Decidable (∀ index < fragCount message, start + index ∈ accepted))

variable {message chunk : Bytes} {start index : ℕ} {accepted : Finset ℕ}

theorem bufOf_congr {other : Finset ℕ}
    (agree : ∀ index < fragCount message, start + index ∈ accepted ↔ start + index ∈ other) :
    bufOf message start accepted = bufOf message start other := by
  simp only [bufOf, FragBuf.mk.injEq, true_and]
  apply List.ext_getElem
  · simp
  · intro index indexLt _
    simp only [List.length_mapIdx] at indexLt
    simp [agree index indexLt]

theorem bufOf_unbegun (unbegun : ¬Begun message start accepted) :
    bufOf message start accepted =
      { total := UInt8.ofNat (fragCount message)
        parts := List.replicate (fragCount message) none } := by
  simp only [bufOf, FragBuf.mk.injEq, true_and]
  apply List.ext_getElem
  · simp [fragCount]
  · intro index indexLt _
    simp only [List.length_mapIdx] at indexLt
    have absent : start + index ∉ accepted := fun present => unbegun ⟨index, indexLt, present⟩
    simp [absent]

theorem bufOf_set (piece : (piecesOf message)[index]? = some chunk) :
    (bufOf message start accepted).parts.set index (some chunk) =
      (bufOf message start (insert (start + index) accepted)).parts := by
  rcases List.getElem?_eq_some_iff.mp piece with ⟨indexLt, pieceEq⟩
  apply List.ext_getElem
  · simp [bufOf]
  · intro other otherLt _
    rw [List.getElem_set]
    split_ifs with same
    · subst same
      simp [bufOf, pieceEq]
    · have different : other ≠ index := Ne.symm same
      simp [bufOf, different]

theorem all_isSome_bufOf :
    (bufOf message start accepted).parts.all Option.isSome = true ↔
      Complete message start accepted := by
  rw [List.all_eq_true]
  constructor
  · intro allSome index indexLt
    have lengthEq : (bufOf message start accepted).parts.length = fragCount message := by
      simp [bufOf, fragCount]
    have isSome := allSome _ (List.getElem_mem (lengthEq ▸ indexLt))
    by_contra absent
    simp [bufOf, absent] at isSome
  · intro complete part partMem
    rcases List.getElem_of_mem partMem with ⟨index, indexLt, rfl⟩
    simp only [bufOf, List.length_mapIdx] at indexLt
    simp [bufOf, complete index indexLt]

theorem reduceOption_bufOf (complete : Complete message start accepted) :
    (bufOf message start accepted).parts.reduceOption = piecesOf message := by
  have parts : (bufOf message start accepted).parts = (piecesOf message).map some := by
    apply List.ext_getElem
    · simp [bufOf]
    · intro index indexLt _
      simp only [bufOf, List.length_mapIdx] at indexLt
      simp [bufOf, complete index indexLt]
  rw [parts]
  change ((piecesOf message).map some).filterMap id = piecesOf message
  simp

theorem begun_insert (indexLt : index < fragCount message) :
    Begun message start (insert (start + index) accepted) :=
  ⟨index, indexLt, Finset.mem_insert_self _ _⟩

theorem complete_insert_of_single (single : fragCount message = 1)
    (indexLt : index < fragCount message) :
    Complete message start (insert (start + index) accepted) := by
  intro other otherLt
  have : other = index := by omega
  rw [this]
  exact Finset.mem_insert_self _ _

theorem acceptFragment_single (arq : Arq) (fragId : UInt16)
    (piece : (piecesOf message)[index]? = some chunk) (single : fragCount message = 1) :
    arq.acceptFragment fragId (UInt8.ofNat index) (UInt8.ofNat (fragCount message)) chunk =
      { arq with delivered := arq.delivered ++ [message] } := by
  have chunkEq : chunk = message := by
    rcases List.length_eq_one_iff.mp single with ⟨only, onlyEq⟩
    have whole := flatten_piecesOf message
    rw [onlyEq] at whole piece
    have : index < 1 := (List.getElem?_eq_some_iff.mp piece).1
    have : index = 0 := by omega
    subst index
    simp only [List.getElem?_cons_zero, Option.some.injEq] at piece
    simpa [piece] using whole
  rw [acceptFragment, single, chunkEq]
  rfl

/-- The buffer which is found or created for a message is that of its accepted fragments. -/
theorem fragEntry_eq_bufOf (arq : Arq) (fragId : UInt16) (short : fragCount message ≤ 255)
    (begun : Begun message start accepted →
      arq.fragments.lookup fragId = some (bufOf message start accepted))
    (unbegun : ¬Begun message start accepted → arq.fragments.lookup fragId = none) :
    (arq.fragEntry fragId (UInt8.ofNat (fragCount message))).1 = bufOf message start accepted ∧
      ∀ other ≠ fragId,
        (arq.fragEntry fragId (UInt8.ofNat (fragCount message))).2.lookup other =
          arq.fragments.lookup other := by
  have totalNat : (UInt8.ofNat (fragCount message)).toNat = fragCount message := by
    rw [UInt8.toNat_ofNat']
    omega
  by_cases started : Begun message start accepted
  · simp [fragEntry, begun started]
  · refine ⟨?_, ?_⟩
    · simp [fragEntry, unbegun started, bufOf_unbegun started, totalNat]
    · intro other different
      simp [fragEntry, unbegun started, AList.lookup_insert_ne different]

/-- What one more fragment of a longer message does to the reassembly map. -/
theorem acceptFragment_multi (arq : Arq) (fragId : UInt16)
    (piece : (piecesOf message)[index]? = some chunk) (several : 2 ≤ fragCount message)
    (short : fragCount message ≤ 255)
    (begun : Begun message start accepted →
      arq.fragments.lookup fragId = some (bufOf message start accepted))
    (unbegun : ¬Begun message start accepted → arq.fragments.lookup fragId = none) :
    ∃ fragments,
      (arq.acceptFragment fragId (UInt8.ofNat index) (UInt8.ofNat (fragCount message)) chunk =
        if Complete message start (insert (start + index) accepted) then
          { arq with fragments, delivered := arq.delivered ++ [message] }
        else { arq with fragments }) ∧
      (fragments.lookup fragId =
        if Complete message start (insert (start + index) accepted) then none
        else some (bufOf message start (insert (start + index) accepted))) ∧
      ∀ other ≠ fragId, fragments.lookup other = arq.fragments.lookup other := by
  have indexLt := index_lt_of_piece piece
  rcases fragEntry_eq_bufOf arq fragId short begun unbegun with ⟨entryBuf, entryOther⟩
  have indexNat : (UInt8.ofNat index).toNat = index := by
    rw [UInt8.toNat_ofNat']
    omega
  have notOne : UInt8.ofNat (fragCount message) ≠ 1 := by
    intro one
    have totalNat := congrArg UInt8.toNat one
    rw [UInt8.toNat_ofNat', UInt8.toNat_one] at totalNat
    omega
  have partsLength : (bufOf message start accepted).parts.length = fragCount message := by
    simp [bufOf, fragCount]
  have kept : ¬((bufOf message start accepted).total ≠ UInt8.ofNat (fragCount message) ∨
      (bufOf message start accepted).parts.length ≤ (UInt8.ofNat index).toNat) := by
    rw [partsLength, indexNat]
    rintro (different | outside)
    · exact different rfl
    · omega
  have partsSet : (bufOf message start accepted).parts.set (UInt8.ofNat index).toNat (some chunk) =
      (bufOf message start (insert (start + index) accepted)).parts := by
    rw [indexNat, bufOf_set piece]
  by_cases complete : Complete message start (insert (start + index) accepted)
  · refine ⟨(arq.fragEntry fragId (UInt8.ofNat (fragCount message))).2.erase fragId, ?_, ?_, ?_⟩
    · rw [if_pos complete]
      simp only [acceptFragment, if_neg notOne, entryBuf, if_neg kept, partsSet,
        if_pos (all_isSome_bufOf.mpr complete), reduceOption_bufOf complete, flatten_piecesOf]
    · rw [if_pos complete, AList.lookup_erase]
    · intro other different
      rw [AList.lookup_erase_ne different, entryOther other different]
  · refine ⟨(arq.fragEntry fragId (UInt8.ofNat (fragCount message))).2.insert fragId
      (bufOf message start (insert (start + index) accepted)), ?_, ?_, ?_⟩
    · have incomplete : ¬(bufOf message start (insert (start + index) accepted)).parts.all
          Option.isSome = true := fun allSome => complete (all_isSome_bufOf.mp allSome)
      rw [if_neg complete]
      simp only [acceptFragment, if_neg notOne, entryBuf, if_neg kept, partsSet, if_neg incomplete]
      rfl
    · rw [if_neg complete, AList.lookup_insert]
    · intro other different
      rw [AList.lookup_insert_ne different, entryOther other different]

theorem two_le_of_partly (partly : Partly message start accepted) : 2 ≤ fragCount message := by
  rcases partly with ⟨⟨index, indexLt, present⟩, incomplete⟩
  by_contra few
  apply incomplete
  intro other otherLt
  have : other = index := by omega
  rwa [this]

theorem ne_nil_of_two_le (several : 2 ≤ fragCount message) : message ≠ [] := by
  rintro rfl
  simp [fragCount, piecesOf] at several

variable {messages : List Bytes} {position other : ℕ} {otherMessage : Bytes}

/-- Numbers in the receive window start close after any incomplete message. -/
theorem startOf_lt_of_incomplete (incomplete : ¬Complete message start accepted)
    (short : fragCount message ≤ 255) {number : ℕ}
    (inWindow : number < firstMissing accepted + receiveWindow) : number < start + 319 := by
  simp only [Complete, not_forall] at incomplete
  rcases incomplete with ⟨index, indexLt, absent⟩
  have := firstMissing_le absent
  simp only [receiveWindow] at inWindow
  omega

/-- Nearby non-empty messages carry different fragment identifiers. -/
theorem position_eq_of_fragIdOf_eq (present : messages[position]? = some message)
    (otherPresent : messages[other]? = some otherMessage) (nonempty : message ≠ [])
    (otherNonempty : otherMessage ≠ [])
    (same : fragIdOf messages position message = fragIdOf messages other otherMessage)
    (near : startOf messages position < startOf messages other + 319)
    (otherNear : startOf messages other < startOf messages position + 319) : position = other := by
  simp only [fragIdOf, if_neg nonempty, if_neg otherNonempty] at same
  rcases lt_trichotomy position other with before | rfl | after
  · have := startOf_add_le_of_same_fragId present nonempty before same
    omega
  · rfl
  · have := startOf_add_le_of_same_fragId otherPresent otherNonempty after same.symm
    omega

/-- A message accepted in part has a fragment in the receive window. -/
theorem exists_in_window_of_partly (windowed : Windowed receiveWindow accepted)
    (partly : Partly message start accepted) :
    ∃ index < fragCount message, firstMissing accepted ≤ start + index ∧
      start + index < firstMissing accepted + receiveWindow := by
  rcases partly with ⟨⟨held, heldLt, isAccepted⟩, incomplete⟩
  simp only [Complete, not_forall] at incomplete
  rcases incomplete with ⟨lacking, lackingLt, isMissing⟩
  have missingLe := firstMissing_le isMissing
  rcases Nat.lt_or_ge (start + held) (firstMissing accepted) with below | above
  · refine ⟨firstMissing accepted - start, by omega, by omega, ?_⟩
    simp only [receiveWindow]
    omega
  · exact ⟨held, heldLt, above, windowed _ isAccepted⟩

/-- While a message is accepted in part, no other message uses its fragment identifier. -/
theorem partly_unique (short : ∀ message ∈ messages, fragCount message ≤ 255)
    (windowed : Windowed receiveWindow accepted) (present : messages[position]? = some message)
    (otherPresent : messages[other]? = some otherMessage)
    (partly : Partly message (startOf messages position) accepted)
    (incomplete : ¬Complete otherMessage (startOf messages other) accepted)
    (several : 2 ≤ fragCount otherMessage)
    (arrives : ∃ index < fragCount otherMessage,
      startOf messages other + index < firstMissing accepted + receiveWindow)
    (same : fragIdOf messages position message = fragIdOf messages other otherMessage) :
    position = other := by
  rcases partly.1 with ⟨index, indexLt, begun⟩
  rcases arrives with ⟨otherIndex, _, inWindow⟩
  have shortMessage := short message (List.mem_of_getElem? present)
  have shortOther := short otherMessage (List.mem_of_getElem? otherPresent)
  have near := startOf_lt_of_incomplete incomplete shortOther (windowed _ begun)
  have otherNear := startOf_lt_of_incomplete partly.2 shortMessage inWindow
  exact position_eq_of_fragIdOf_eq present otherPresent
    (ne_nil_of_two_le (two_le_of_partly partly)) (ne_nil_of_two_le several) same
    (by omega) (by omega)

section OtherMessages

variable (present : messages[position]? = some message)
  (otherPresent : messages[other]? = some otherMessage) (different : other ≠ position)
  (indexLt : index < fragCount message)
include present otherPresent different indexLt

theorem mem_insert_other {otherIndex : ℕ} (otherLt : otherIndex < fragCount otherMessage) :
    startOf messages other + otherIndex ∈
        insert (startOf messages position + index) accepted ↔
      startOf messages other + otherIndex ∈ accepted := by
  rw [Finset.mem_insert, or_iff_right]
  intro same
  exact different (position_unique otherPresent present otherLt indexLt same).1

theorem complete_insert_other :
    Complete otherMessage (startOf messages other)
        (insert (startOf messages position + index) accepted) ↔
      Complete otherMessage (startOf messages other) accepted := by
  apply forall_congr'
  intro otherIndex
  apply imp_congr_right
  intro otherLt
  exact mem_insert_other present otherPresent different indexLt otherLt

theorem partly_insert_other :
    Partly otherMessage (startOf messages other)
        (insert (startOf messages position + index) accepted) ↔
      Partly otherMessage (startOf messages other) accepted := by
  apply and_congr
  · apply exists_congr
    intro otherIndex
    apply and_congr_right
    intro otherLt
    exact mem_insert_other present otherPresent different indexLt otherLt
  · exact not_congr (complete_insert_other present otherPresent different indexLt)

theorem bufOf_insert_other :
    bufOf otherMessage (startOf messages other)
        (insert (startOf messages position + index) accepted) =
      bufOf otherMessage (startOf messages other) accepted :=
  bufOf_congr fun _ otherLt => mem_insert_other present otherPresent different indexLt otherLt

end OtherMessages

/-- What the receiver has made of the accepted numbers of the given messages. -/
structure Reassembly (messages : List Bytes) (accepted : Finset ℕ)
    (fragments : AList fun _ : UInt16 => FragBuf) (pushed : List Bytes) : Prop where
  pushed_complete : ∃ order : List ℕ, order.Nodup ∧
    pushed = order.map (fun position => messages.getD position []) ∧
    ∀ position, position ∈ order ↔ ∃ message, messages[position]? = some message ∧
      Complete message (startOf messages position) accepted
  /-- A message accepted in part has its buffer under its own identifier. -/
  lookup_of_partly : ∀ position message, messages[position]? = some message →
    Partly message (startOf messages position) accepted →
      fragments.lookup (fragIdOf messages position message) =
        some (bufOf message (startOf messages position) accepted)
  /-- Every buffer belongs to a message accepted in part. -/
  partly_of_lookup : ∀ fragId buf, fragments.lookup fragId = some buf →
    ∃ position message, messages[position]? = some message ∧
      Partly message (startOf messages position) accepted ∧
      fragId = fragIdOf messages position message

namespace Reassembly

theorem initial : Reassembly [] ∅ ∅ [] where
  pushed_complete := ⟨[], by simp, by simp, by simp⟩
  lookup_of_partly := by simp
  partly_of_lookup := by simp

/-- A message which was begun before a further one was queued is one of the earlier messages. -/
theorem present_of_begun_append (bounded : ∀ number ∈ accepted, number < totalFragments messages)
    {added : Bytes} (present : (messages ++ [added])[position]? = some message)
    (begun : Begun message (startOf (messages ++ [added]) position) accepted) :
    messages[position]? = some message ∧
      startOf (messages ++ [added]) position = startOf messages position ∧
      fragIdOf (messages ++ [added]) position message = fragIdOf messages position message := by
  have positionLe : position < (messages ++ [added]).length :=
    (List.getElem?_eq_some_iff.mp present).1
  rw [List.length_append, List.length_singleton] at positionLe
  have positionLt : position < messages.length := by
    by_contra atEnd
    have : position = messages.length := by omega
    subst this
    rcases begun with ⟨index, _, isAccepted⟩
    rw [startOf_append [added] le_rfl, startOf_length] at isAccepted
    have := bounded _ isAccepted
    omega
  rw [List.getElem?_append_left positionLt] at present
  exact ⟨present, startOf_append [added] positionLt.le,
    fragIdOf_append [added] message positionLt.le⟩

/-- Queueing one more message changes nothing for the receiver. -/
theorem append {fragments : AList fun _ : UInt16 => FragBuf} {pushed : List Bytes}
    (reassembly : Reassembly messages accepted fragments pushed)
    (bounded : ∀ number ∈ accepted, number < totalFragments messages) (added : Bytes) :
    Reassembly (messages ++ [added]) accepted fragments pushed := by
  rcases reassembly.pushed_complete with ⟨order, nodup, pushedEq, orderIff⟩
  constructor
  · refine ⟨order, nodup, ?_, ?_⟩
    · rw [pushedEq]
      apply List.map_congr_left
      intro position positionMem
      rcases (orderIff position).mp positionMem with ⟨message, present, _⟩
      have positionLt : position < messages.length := (List.getElem?_eq_some_iff.mp present).1
      rw [List.getD_append _ _ _ _ positionLt]
    · intro position
      rw [orderIff]
      constructor
      · rintro ⟨message, present, complete⟩
        have positionLt : position < messages.length := (List.getElem?_eq_some_iff.mp present).1
        refine ⟨message, ?_, ?_⟩
        · rw [List.getElem?_append_left positionLt, present]
        · rwa [startOf_append [added] positionLt.le]
      · rintro ⟨message, present, complete⟩
        have begun : Begun message (startOf (messages ++ [added]) position) accepted :=
          ⟨0, fragCount_pos message, complete 0 (fragCount_pos message)⟩
        rcases present_of_begun_append bounded present begun with ⟨oldPresent, startEq, _⟩
        exact ⟨message, oldPresent, startEq ▸ complete⟩
  · intro position message present partly
    rcases present_of_begun_append bounded present partly.1 with ⟨oldPresent, startEq, idEq⟩
    rw [startEq] at partly ⊢
    rw [idEq]
    exact reassembly.lookup_of_partly position message oldPresent partly
  · intro fragId buf found
    rcases reassembly.partly_of_lookup fragId buf found with
      ⟨position, message, present, partly, idEq⟩
    have positionLt : position < messages.length := (List.getElem?_eq_some_iff.mp present).1
    refine ⟨position, message, ?_, ?_, ?_⟩
    · rw [List.getElem?_append_left positionLt, present]
    · rwa [startOf_append [added] positionLt.le]
    · rw [idEq, fragIdOf_append [added] message positionLt.le]

variable {fragments : AList fun _ : UInt16 => FragBuf} {pushed : List Bytes}

/-- The message completed by one more fragment is pushed after all others. -/
theorem pushed_insert (reassembly : Reassembly messages accepted fragments pushed)
    (present : messages[position]? = some message) (indexLt : index < fragCount message)
    (fresh : startOf messages position + index ∉ accepted) :
    ∃ order : List ℕ, order.Nodup ∧
      (pushed ++ if Complete message (startOf messages position)
        (insert (startOf messages position + index) accepted) then [message] else []) =
        order.map (fun position => messages.getD position []) ∧
      ∀ position', position' ∈ order ↔ ∃ message', messages[position']? = some message' ∧
        Complete message' (startOf messages position')
          (insert (startOf messages position + index) accepted) := by
  rcases reassembly.pushed_complete with ⟨order, nodup, pushedEq, orderIff⟩
  have notYet : position ∉ order := by
    intro pushedBefore
    rcases (orderIff position).mp pushedBefore with ⟨message', present', complete⟩
    rw [present, Option.some.injEq] at present'
    subst present'
    exact fresh (complete index indexLt)
  have others : ∀ other, other ≠ position → (other ∈ order ↔
      ∃ message', messages[other]? = some message' ∧ Complete message' (startOf messages other)
        (insert (startOf messages position + index) accepted)) := by
    intro other different
    rw [orderIff]
    apply exists_congr
    intro message'
    apply and_congr_right
    intro otherPresent
    exact (complete_insert_other present otherPresent different indexLt).symm
  split_ifs with complete
  · refine ⟨order ++ [position], ?_, ?_, ?_⟩
    · rw [List.nodup_append]
      refine ⟨nodup, by simp, ?_⟩
      intro earlier earlierMem last lastMem same
      rw [List.mem_singleton] at lastMem
      exact notYet (lastMem ▸ same ▸ earlierMem)
    · simp [pushedEq, List.getD_eq_getElem?_getD, present]
    · intro other
      rw [List.mem_append, List.mem_singleton]
      by_cases same : other = position
      · subst same
        simp only [or_true, true_iff]
        exact ⟨message, present, complete⟩
      · rw [others other same]
        simp [same]
  · refine ⟨order, nodup, by simpa using pushedEq, ?_⟩
    intro other
    by_cases same : other = position
    · subst same
      simp only [notYet, false_iff, not_exists, not_and]
      intro message' present'
      rw [present, Option.some.injEq] at present'
      subst present'
      exact complete
    · exact others other same

/-- A message of one fragment is pushed at once and leaves the buffers alone. -/
theorem acceptFragment_of_single (arq : Arq) {popped : List Bytes}
    (reassembly : Reassembly messages accepted arq.fragments (popped ++ arq.delivered))
    (present : messages[position]? = some message)
    (piece : (piecesOf message)[index]? = some chunk) (single : fragCount message = 1)
    (fresh : startOf messages position + index ∉ accepted) :
    Reassembly messages (insert (startOf messages position + index) accepted)
      (arq.acceptFragment (fragIdOf messages position message) (UInt8.ofNat index)
        (UInt8.ofNat (fragCount message)) chunk).fragments
      (popped ++ (arq.acceptFragment (fragIdOf messages position message) (UInt8.ofNat index)
        (UInt8.ofNat (fragCount message)) chunk).delivered) := by
  have indexLt := index_lt_of_piece piece
  have pushes := reassembly.pushed_insert present indexLt fresh
  rw [if_pos (complete_insert_of_single single indexLt)] at pushes
  have different : ∀ {set other otherMessage}, messages[other]? = some otherMessage →
      Partly otherMessage (startOf messages other) set → other ≠ position := by
    rintro set other otherMessage otherPresent partly rfl
    rw [present, Option.some.injEq] at otherPresent
    subst otherPresent
    have := two_le_of_partly partly
    omega
  rw [acceptFragment_single arq _ piece single]
  constructor
  · simpa using pushes
  · intro other otherMessage otherPresent partly
    have notThis := different otherPresent partly
    rw [partly_insert_other present otherPresent notThis indexLt] at partly
    rw [bufOf_insert_other present otherPresent notThis indexLt]
    exact reassembly.lookup_of_partly other otherMessage otherPresent partly
  · intro fragId buf found
    rcases reassembly.partly_of_lookup fragId buf found with
      ⟨other, otherMessage, otherPresent, partly, idEq⟩
    exact ⟨other, otherMessage, otherPresent, (partly_insert_other present otherPresent
      (different otherPresent partly) indexLt).mpr partly, idEq⟩

/-- A message of which nothing is accepted yet has no buffer. -/
theorem lookup_eq_none {fragments : AList fun _ : UInt16 => FragBuf}
    {pushed : List Bytes} (reassembly : Reassembly messages accepted fragments pushed)
    (present : messages[position]? = some message)
    (sameMessage : ∀ other otherMessage, messages[other]? = some otherMessage →
      Partly otherMessage (startOf messages other) accepted →
      fragIdOf messages other otherMessage = fragIdOf messages position message →
      other = position)
    (unbegun : ¬Begun message (startOf messages position) accepted) :
    fragments.lookup (fragIdOf messages position message) = none := by
  by_contra found
  rcases Option.ne_none_iff_exists'.mp found with ⟨buf, found⟩
  rcases reassembly.partly_of_lookup _ buf found with
    ⟨other, otherMessage, otherPresent, partly, idEq⟩
  have same := sameMessage other otherMessage otherPresent partly idEq.symm
  subst same
  rw [present, Option.some.injEq] at otherPresent
  subst otherPresent
  exact unbegun partly.1

/-- A further fragment of a longer message is stored in the buffer of that message alone. -/
theorem acceptFragment_of_several (arq : Arq) {popped : List Bytes}
    (reassembly : Reassembly messages accepted arq.fragments (popped ++ arq.delivered))
    (short : fragCount message ≤ 255) (present : messages[position]? = some message)
    (piece : (piecesOf message)[index]? = some chunk) (several : 2 ≤ fragCount message)
    (fresh : startOf messages position + index ∉ accepted)
    (sameMessage : ∀ other otherMessage, messages[other]? = some otherMessage →
      Partly otherMessage (startOf messages other) accepted →
      fragIdOf messages other otherMessage = fragIdOf messages position message →
      other = position) :
    Reassembly messages (insert (startOf messages position + index) accepted)
      (arq.acceptFragment (fragIdOf messages position message) (UInt8.ofNat index)
        (UInt8.ofNat (fragCount message)) chunk).fragments
      (popped ++ (arq.acceptFragment (fragIdOf messages position message) (UInt8.ofNat index)
        (UInt8.ofNat (fragCount message)) chunk).delivered) := by
  have indexLt := index_lt_of_piece piece
  have incomplete : ¬Complete message (startOf messages position) accepted :=
    fun complete => fresh (complete index indexLt)
  rcases acceptFragment_multi arq (fragIdOf messages position message) piece several short
      (fun begun => reassembly.lookup_of_partly position message present ⟨begun, incomplete⟩)
      (reassembly.lookup_eq_none present sameMessage) with
    ⟨fragments, result, ownLookup, otherLookup⟩
  have fragmentsEq : (arq.acceptFragment (fragIdOf messages position message)
      (UInt8.ofNat index) (UInt8.ofNat (fragCount message)) chunk).fragments = fragments := by
    rw [result]
    split_ifs <;> rfl
  have deliveredEq : (arq.acceptFragment (fragIdOf messages position message)
      (UInt8.ofNat index) (UInt8.ofNat (fragCount message)) chunk).delivered =
      arq.delivered ++ if Complete message (startOf messages position)
        (insert (startOf messages position + index) accepted) then [message] else [] := by
    rw [result]
    split_ifs <;> simp
  rw [fragmentsEq, deliveredEq, ← List.append_assoc]
  constructor
  · exact reassembly.pushed_insert present indexLt fresh
  · intro other otherMessage otherPresent partly
    by_cases same : other = position
    · subst same
      rw [present, Option.some.injEq] at otherPresent
      subst otherPresent
      rw [ownLookup, if_neg partly.2]
    · rw [partly_insert_other present otherPresent same indexLt] at partly
      have differentId : fragIdOf messages other otherMessage ≠
          fragIdOf messages position message :=
        fun sameId => same (sameMessage other otherMessage otherPresent partly sameId)
      rw [otherLookup _ differentId, bufOf_insert_other present otherPresent same indexLt]
      exact reassembly.lookup_of_partly other otherMessage otherPresent partly
  · intro fragId buf found
    by_cases own : fragId = fragIdOf messages position message
    · subst own
      rw [ownLookup] at found
      split_ifs at found with complete
      exact ⟨position, message, present, ⟨begun_insert indexLt, complete⟩, rfl⟩
    · rw [otherLookup _ own] at found
      rcases reassembly.partly_of_lookup fragId buf found with
        ⟨other, otherMessage, otherPresent, partly, idEq⟩
      have different : other ≠ position := by
        rintro rfl
        rw [present, Option.some.injEq] at otherPresent
        subst otherPresent
        exact own idEq
      exact ⟨other, otherMessage, otherPresent,
        (partly_insert_other present otherPresent different indexLt).mpr partly, idEq⟩

/-- Accepting one more fragment keeps the reassembly exact. -/
theorem acceptFragment (arq : Arq) {popped : List Bytes}
    (reassembly : Reassembly messages accepted arq.fragments (popped ++ arq.delivered))
    (short : ∀ message ∈ messages, fragCount message ≤ 255)
    (windowed : Windowed receiveWindow accepted)
    (present : messages[position]? = some message)
    (piece : (piecesOf message)[index]? = some chunk)
    (fresh : startOf messages position + index ∉ accepted)
    (inWindow : startOf messages position + index < firstMissing accepted + receiveWindow) :
    Reassembly messages (insert (startOf messages position + index) accepted)
      (arq.acceptFragment (fragIdOf messages position message) (UInt8.ofNat index)
        (UInt8.ofNat (fragCount message)) chunk).fragments
      (popped ++ (arq.acceptFragment (fragIdOf messages position message) (UInt8.ofNat index)
        (UInt8.ofNat (fragCount message)) chunk).delivered) := by
  have indexLt := index_lt_of_piece piece
  rcases Nat.lt_or_ge (fragCount message) 2 with few | several
  · have single : fragCount message = 1 := by
      have := fragCount_pos message
      omega
    exact reassembly.acceptFragment_of_single arq present piece single fresh
  · apply reassembly.acceptFragment_of_several arq (short message (List.mem_of_getElem? present))
      present piece several fresh
    intro other otherMessage otherPresent partly sameId
    exact partly_unique short windowed otherPresent present partly
      (fun complete => fresh (complete index indexLt)) several ⟨index, indexLt, inWindow⟩ sameId

theorem mem_fragments_iff (reassembly : Reassembly messages accepted fragments pushed)
    (fragId : UInt16) :
    fragId ∈ fragments ↔ ∃ position message, messages[position]? = some message ∧
      Partly message (startOf messages position) accepted ∧
      fragId = fragIdOf messages position message := by
  constructor
  · intro held
    rcases Option.isSome_iff_exists.mp (AList.lookup_isSome.mpr held) with ⟨buf, found⟩
    exact reassembly.partly_of_lookup fragId buf found
  · rintro ⟨position, message, present, partly, rfl⟩
    apply AList.lookup_isSome.mp
    rw [reassembly.lookup_of_partly position message present partly]
    rfl

/-- The sequence number belongs to a message which carries the fragment identifier. -/
def Carries (messages : List Bytes) (fragId : UInt16) (number : ℕ) : Prop :=
  ∃ position message index, messages[position]? = some message ∧ index < fragCount message ∧
    number = startOf messages position + index ∧ fragId = fragIdOf messages position message

theorem Carries.unique {fragId otherId : UInt16} {number : ℕ}
    (carries : Carries messages fragId number) (otherCarries : Carries messages otherId number) :
    fragId = otherId := by
  rcases carries with ⟨position, message, index, present, indexLt, numberEq, rfl⟩
  rcases otherCarries with ⟨other, otherMessage, otherIndex, otherPresent, otherLt, otherEq, rfl⟩
  rcases position_unique present otherPresent indexLt otherLt (numberEq.symm.trans otherEq) with
    ⟨rfl, _⟩
  rw [present, Option.some.injEq] at otherPresent
  rw [otherPresent]

/-- Each buffer takes up a number of the receive window for itself. -/
theorem length_keys_le (reassembly : Reassembly messages accepted fragments pushed)
    (windowed : Windowed receiveWindow accepted) : fragments.keys.length ≤ receiveWindow := by
  have carried : ∀ fragId ∈ fragments.keys.toFinset,
      ∃ number, number ∈ Finset.Ico (firstMissing accepted)
        (firstMissing accepted + receiveWindow) ∧ Carries messages fragId number := by
    intro fragId isKey
    rcases (reassembly.mem_fragments_iff fragId).mp (List.mem_toFinset.mp isKey) with
      ⟨position, message, present, partly, idEq⟩
    rcases exists_in_window_of_partly windowed partly with ⟨index, indexLt, atLeast, below⟩
    exact ⟨_, Finset.mem_Ico.mpr ⟨atLeast, below⟩, position, message, index, present, indexLt,
      rfl, idEq⟩
  have counted := Finset.card_le_card_of_forall_subsingleton (Carries messages) carried
    fun number _ fragId holds other otherHolds => holds.2.unique otherHolds.2
  rw [List.toFinset_card_of_nodup fragments.keys_nodup, Nat.card_Ico] at counted
  omega

theorem eq_empty_of_complete (reassembly : Reassembly messages accepted fragments pushed)
    (complete : ∀ position message, messages[position]? = some message →
      Complete message (startOf messages position) accepted) : fragments = ∅ := by
  have noKeys : fragments.keys = [] := by
    apply List.eq_nil_iff_forall_not_mem.mpr
    intro fragId isKey
    rcases (reassembly.mem_fragments_iff fragId).mp isKey with
      ⟨position, message, present, partly, _⟩
    exact partly.2 (complete position message present)
  apply AList.ext
  exact List.map_eq_nil_iff.mp noKeys

end Reassembly

end Arq

end Ppose

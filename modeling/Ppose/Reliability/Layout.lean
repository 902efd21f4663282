import Ppose.Reliability.Arq
import Mathlib.Algebra.BigOperators.Group.List.Basic
import Mathlib.Data.Nat.ModEq

/-!
# How messages are laid out on sequence numbers

The messages queued by one endpoint occupy consecutive runs of sequence numbers,
in the order of their `enqueue` calls.  This file describes that layout over
unbounded numbers, independently of which frames are still held or have arrived:
where a message starts, which fragment identifier it carries, and which frame
carries a given number (`IsFrame`).

Fragment identifiers are recycled after 65535 non-empty messages, each of which
occupies at least one number.  Two messages with the same identifier therefore
start at least 65535 numbers apart (`startOf_add_le_of_same_fragId`).
-/

namespace Ppose

namespace Arq

/-- The payloads of the fragments of a message; an empty message has one empty fragment. -/
def piecesOf (message : Bytes) : List Bytes :=
  if message = [] then [message] else chunks maxPayload message

def fragCount (message : Bytes) : ℕ := (piecesOf message).length

def totalFragments (messages : List Bytes) : ℕ := (messages.map fragCount).sum

/-- The sequence number of the first fragment of a message. -/
def startOf (messages : List Bytes) (position : ℕ) : ℕ := totalFragments (messages.take position)

/-- The fragment identifier counter after the given messages were queued. -/
def fragIdAfter (messages : List Bytes) : UInt16 :=
  messages.foldl (fun fragId message => if message = [] then fragId else succFragId fragId) 1

def fragIdOf (messages : List Bytes) (position : ℕ) (message : Bytes) : UInt16 :=
  if message = [] then 0 else fragIdAfter (messages.take position)

theorem maxPayload_pos : 0 < maxPayload := by decide

@[simp]
theorem flatten_piecesOf (message : Bytes) : (piecesOf message).flatten = message := by
  unfold piecesOf
  split_ifs with empty
  · simp
  · exact flatten_chunks maxPayload_pos message

theorem piecesOf_ne_nil (message : Bytes) : piecesOf message ≠ [] := by
  intro none
  have whole := flatten_piecesOf message
  rw [none] at whole
  simp only [List.flatten_nil] at whole
  subst whole
  simp [piecesOf] at none

theorem fragCount_pos (message : Bytes) : 0 < fragCount message :=
  List.length_pos_iff.mpr (piecesOf_ne_nil message)

@[simp]
theorem totalFragments_append (before after : List Bytes) :
    totalFragments (before ++ after) = totalFragments before + totalFragments after := by
  simp [totalFragments]

@[simp]
theorem totalFragments_singleton (message : Bytes) :
    totalFragments [message] = fragCount message := by
  simp [totalFragments]

theorem startOf_length (messages : List Bytes) :
    startOf messages messages.length = totalFragments messages := by
  simp [startOf]

theorem startOf_append {messages : List Bytes} (added : List Bytes) {position : ℕ}
    (old : position ≤ messages.length) :
    startOf (messages ++ added) position = startOf messages position := by
  rw [startOf, List.take_append_of_le_length old, startOf]

theorem fragIdOf_append {messages : List Bytes} (added : List Bytes) {position : ℕ}
    (message : Bytes) (old : position ≤ messages.length) :
    fragIdOf (messages ++ added) position message = fragIdOf messages position message := by
  rw [fragIdOf, List.take_append_of_le_length old, fragIdOf]

theorem fragIdAfter_append_singleton (messages : List Bytes) (message : Bytes) :
    fragIdAfter (messages ++ [message]) =
      if message = [] then fragIdAfter messages else succFragId (fragIdAfter messages) := by
  simp [fragIdAfter]

/-- A message is followed by the next one right after its last fragment. -/
theorem startOf_succ {messages : List Bytes} {position : ℕ} {message : Bytes}
    (present : messages[position]? = some message) :
    startOf messages (position + 1) = startOf messages position + fragCount message := by
  rw [startOf, startOf, List.take_add_one, present]
  simp

theorem startOf_mono {messages : List Bytes} {earlier later : ℕ} (ordered : earlier ≤ later) :
    startOf messages earlier ≤ startOf messages later := by
  rw [startOf, startOf, ← Nat.add_sub_cancel' ordered, List.take_add, totalFragments_append]
  exact Nat.le_add_right _ _

theorem startOf_add_le {messages : List Bytes} {earlier later : ℕ} {message : Bytes}
    (present : messages[earlier]? = some message) (ordered : earlier < later) :
    startOf messages earlier + fragCount message ≤ startOf messages later := by
  rw [← startOf_succ present]
  exact startOf_mono ordered

theorem startOf_add_lt_total {messages : List Bytes} {position index : ℕ} {message : Bytes}
    (present : messages[position]? = some message) (inside : index < fragCount message) :
    startOf messages position + index < totalFragments messages := by
  have positionLt : position < messages.length := by
    rcases List.getElem?_eq_some_iff.mp present with ⟨positionLt, _⟩
    exact positionLt
  have := startOf_add_le present positionLt
  rw [startOf_length] at this
  omega

/-- A sequence number determines the message and the fragment it belongs to. -/
theorem position_unique {messages : List Bytes} {position other index otherIndex : ℕ}
    {message otherMessage : Bytes} (present : messages[position]? = some message)
    (otherPresent : messages[other]? = some otherMessage) (inside : index < fragCount message)
    (otherInside : otherIndex < fragCount otherMessage)
    (same : startOf messages position + index = startOf messages other + otherIndex) :
    position = other ∧ index = otherIndex := by
  rcases lt_trichotomy position other with before | rfl | after
  · have := startOf_add_le present before
    omega
  · exact ⟨rfl, by omega⟩
  · have := startOf_add_le otherPresent after
    omega

/-- The counter of non-empty messages, modulo 65535, is the next fragment identifier. -/
theorem toNat_fragIdAfter (messages : List Bytes) :
    (fragIdAfter messages).toNat = messages.countP (· ≠ []) % 65535 + 1 := by
  induction messages using List.reverseRecOn with
  | nil => rfl
  | append_singleton messages last ih =>
      rw [fragIdAfter_append_singleton, List.countP_append]
      by_cases empty : last = []
      · simp [empty, ih]
      · have succ_toNat : (succFragId (fragIdAfter messages)).toNat =
            (messages.countP (· ≠ []) + 1) % 65535 + 1 := by
          have plusOne : (fragIdAfter messages + 1).toNat =
              (messages.countP (· ≠ []) % 65535 + 1 + 1) % 65536 := by
            rw [UInt16.toNat_add, ih]
            rfl
          unfold succFragId
          split_ifs with wrapped
          · have : (fragIdAfter messages + 1).toNat = 0 := by rw [wrapped]; rfl
            have : (1 : UInt16).toNat = 1 := rfl
            omega
          · have : (fragIdAfter messages + 1).toNat ≠ 0 := by
              intro zero
              exact wrapped (UInt16.toNat_inj.mp zero)
            omega
        simp [empty, succ_toNat]

theorem countP_le_totalFragments (messages : List Bytes) :
    messages.countP (· ≠ []) ≤ totalFragments messages := by
  induction messages with
  | nil => simp
  | cons message rest ih =>
      have := fragCount_pos message
      simp only [totalFragments, List.map_cons, List.sum_cons] at ih ⊢
      rw [List.countP_cons]
      split_ifs <;> omega

/-- Messages which carry the same recycled identifier start far apart. -/
theorem startOf_add_le_of_same_fragId {messages : List Bytes} {earlier later : ℕ}
    {message : Bytes} (present : messages[earlier]? = some message) (nonempty : message ≠ [])
    (ordered : earlier < later)
    (same : fragIdAfter (messages.take earlier) = fragIdAfter (messages.take later)) :
    startOf messages earlier + 65535 ≤ startOf messages later := by
  have split : messages.take later =
      messages.take earlier ++ (messages.drop earlier).take (later - earlier) := by
    rw [← List.take_add, Nat.add_sub_cancel' ordered.le]
  have counts : (messages.take later).countP (· ≠ []) =
      (messages.take earlier).countP (· ≠ []) +
        ((messages.drop earlier).take (later - earlier)).countP (· ≠ []) := by
    rw [split, List.countP_append]
  have positive : 0 < ((messages.drop earlier).take (later - earlier)).countP (· ≠ []) := by
    rw [List.countP_pos_iff]
    refine ⟨message, ?_, by simpa using nonempty⟩
    apply List.mem_of_getElem? (i := 0)
    rw [List.getElem?_take_of_lt (by omega), List.getElem?_drop, Nat.add_zero, present]
  have sameNat := congrArg UInt16.toNat same
  rw [toNat_fragIdAfter, toNat_fragIdAfter, counts] at sameNat
  have between := countP_le_totalFragments ((messages.drop earlier).take (later - earlier))
  have total : startOf messages later = startOf messages earlier +
      totalFragments ((messages.drop earlier).take (later - earlier)) := by
    rw [startOf, split, totalFragments_append, startOf]
  omega

/-- The frame which carries fragment `index` of the message at `position`. -/
def frameOf (messages : List Bytes) (position : ℕ) (message : Bytes) (index : ℕ)
    (chunk : Bytes) : Bytes :=
  encodeData (UInt32.ofNat (startOf messages position + index))
    (fragIdOf messages position message) (UInt8.ofNat index) (UInt8.ofNat (fragCount message)) chunk

/-- `frame` carries the sequence number `number` of the given messages. -/
def IsFrame (messages : List Bytes) (number : ℕ) (frame : Bytes) : Prop :=
  ∃ position message index chunk, messages[position]? = some message ∧
    (piecesOf message)[index]? = some chunk ∧
    number = startOf messages position + index ∧
      frame = frameOf messages position message index chunk

theorem IsFrame.append {messages : List Bytes} {number : ℕ} {frame : Bytes}
    (isFrame : IsFrame messages number frame) (added : List Bytes) :
    IsFrame (messages ++ added) number frame := by
  rcases isFrame with ⟨position, message, index, chunk, present, piece, numberEq, frameEq⟩
  have positionLt : position < messages.length := (List.getElem?_eq_some_iff.mp present).1
  refine ⟨position, message, index, chunk, ?_, piece, ?_, ?_⟩
  · rw [List.getElem?_append_left positionLt, present]
  · rw [startOf_append added positionLt.le, numberEq]
  · rw [frameOf, startOf_append added positionLt.le, fragIdOf_append added message positionLt.le,
      frameEq, frameOf]

theorem index_lt_of_piece {message chunk : Bytes} {index : ℕ}
    (piece : (piecesOf message)[index]? = some chunk) : index < fragCount message :=
  (List.getElem?_eq_some_iff.mp piece).1

theorem decodeInner_frameOf (messages : List Bytes) (position : ℕ) {index : ℕ}
    {message chunk : Bytes} (piece : (piecesOf message)[index]? = some chunk)
    (short : fragCount message ≤ 255) :
    decodeInner (frameOf messages position message index chunk) =
      .ok (.data (UInt32.ofNat (startOf messages position + index))
        (fragIdOf messages position message) (UInt8.ofNat index)
        (UInt8.ofNat (fragCount message)) chunk) := by
  apply decodeInner_encodeData
  have := index_lt_of_piece piece
  rw [UInt8.lt_iff_toNat_lt, UInt8.toNat_ofNat', UInt8.toNat_ofNat']
  omega

end Arq

end Ppose

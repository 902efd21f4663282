import Mathlib.Data.List.Nodup
import Mathlib.Data.List.Pairwise
import Mathlib.Logic.Relation
import Mathlib.Order.Basic
import Mathlib.Algebra.Order.Group.Nat
import Mathlib.Tactic.Common

/-!
# Numbered streams which are read in order

A sender numbers its items consecutively.  The channel keeps their order and may
lose any of them.  The receiver takes an item only under the number it waits for,
and waits for the next number only after it has taken one.  So the receiver takes
what arrives exactly as long as nothing sent earlier was lost
(`NumberedStream.Valid.expected_eq_iff`), and nothing sent later helps.
-/

namespace Ppose

/-- One direction between a sender and a receiver. -/
structure NumberedStream where
  next : ℕ
  /-- The number the receiver waits for. -/
  expected : ℕ
  inFlight : List ℕ
  lost : List ℕ

namespace NumberedStream

inductive Step (stream : NumberedStream) : NumberedStream → Prop where
  | send : Step stream
      { stream with next := stream.next + 1, inFlight := stream.inFlight ++ [stream.next] }
  /-- An item is numbered and does not reach the channel. -/
  | skip : Step stream
      { stream with next := stream.next + 1, lost := stream.lost ++ [stream.next] }
  | drop {index number : ℕ} (present : stream.inFlight[index]? = some number) : Step stream
      { stream with
        inFlight := stream.inFlight.eraseIdx index
        lost := stream.lost ++ [number] }
  | take {rest : List ℕ} (head : stream.inFlight = stream.expected :: rest) : Step stream
      { stream with inFlight := rest, expected := stream.expected + 1 }
  | reject {number : ℕ} {rest : List ℕ} (head : stream.inFlight = number :: rest)
      (other : stream.expected ≠ number) : Step stream { stream with inFlight := rest }

/-- Numbers are under way in order, and the missing ones are accounted for. -/
structure Valid (stream : NumberedStream) : Prop where
  expected_le_next : stream.expected ≤ stream.next
  sorted : stream.inFlight.Pairwise (· < ·)
  inFlight_bounds : ∀ number ∈ stream.inFlight,
    stream.expected ≤ number ∧ number < stream.next
  lost_bounds : ∀ number ∈ stream.lost, stream.expected ≤ number ∧ number < stream.next
  lost_notMem : ∀ number ∈ stream.lost, number ∉ stream.inFlight
  accounted : ∀ number, stream.expected ≤ number → number < stream.next →
    (∃ earlier ∈ stream.lost, earlier ≤ number) ∨ number ∈ stream.inFlight

theorem Valid.fresh (number : ℕ) : Valid ⟨number, number, [], []⟩ where
  expected_le_next := le_rfl
  sorted := List.Pairwise.nil
  inFlight_bounds := by simp
  lost_bounds := by simp
  lost_notMem := by simp
  accounted := by
    intro other above below
    exact absurd below (not_lt.mpr above)

theorem Valid.send {stream : NumberedStream} (valid : stream.Valid) :
    Valid { stream with next := stream.next + 1, inFlight := stream.inFlight ++ [stream.next] }
    where
  expected_le_next := Nat.le_succ_of_le valid.expected_le_next
  sorted := by
    apply List.pairwise_append.mpr
    refine ⟨valid.sorted, List.pairwise_singleton _ _, ?_⟩
    simp only [List.mem_singleton, forall_eq]
    intro number numberMem
    exact (valid.inFlight_bounds number numberMem).2
  inFlight_bounds := by
    intro number numberMem
    simp only [List.mem_append, List.mem_singleton] at numberMem
    rcases numberMem with old | rfl
    · exact ⟨(valid.inFlight_bounds number old).1,
        Nat.lt_succ_of_lt (valid.inFlight_bounds number old).2⟩
    · exact ⟨valid.expected_le_next, Nat.lt_succ_self _⟩
  lost_bounds := by
    intro number numberMem
    exact ⟨(valid.lost_bounds number numberMem).1,
      Nat.lt_succ_of_lt (valid.lost_bounds number numberMem).2⟩
  lost_notMem := by
    intro number numberMem
    simp only [List.mem_append, List.mem_singleton, not_or]
    exact ⟨valid.lost_notMem number numberMem,
      Nat.ne_of_lt (valid.lost_bounds number numberMem).2⟩
  accounted := by
    intro number above below
    simp only [List.mem_append, List.mem_singleton]
    rcases Nat.lt_succ_iff_lt_or_eq.mp below with old | rfl
    · rcases valid.accounted number above old with isLost | underWay
      · exact Or.inl isLost
      · exact Or.inr (Or.inl underWay)
    · exact Or.inr (Or.inr rfl)

theorem Valid.skip {stream : NumberedStream} (valid : stream.Valid) :
    Valid { stream with next := stream.next + 1, lost := stream.lost ++ [stream.next] } where
  expected_le_next := Nat.le_succ_of_le valid.expected_le_next
  sorted := valid.sorted
  inFlight_bounds := by
    intro number numberMem
    exact ⟨(valid.inFlight_bounds number numberMem).1,
      Nat.lt_succ_of_lt (valid.inFlight_bounds number numberMem).2⟩
  lost_bounds := by
    intro number numberMem
    simp only [List.mem_append, List.mem_singleton] at numberMem
    rcases numberMem with old | rfl
    · exact ⟨(valid.lost_bounds number old).1,
        Nat.lt_succ_of_lt (valid.lost_bounds number old).2⟩
    · exact ⟨valid.expected_le_next, Nat.lt_succ_self _⟩
  lost_notMem := by
    intro number numberMem
    simp only [List.mem_append, List.mem_singleton] at numberMem
    rcases numberMem with old | rfl
    · exact valid.lost_notMem number old
    · intro underWay
      exact absurd (valid.inFlight_bounds _ underWay).2 (lt_irrefl _)
  accounted := by
    intro number above below
    rcases Nat.lt_succ_iff_lt_or_eq.mp below with old | rfl
    · rcases valid.accounted number above old with ⟨earlier, earlierMem, earlierLe⟩ | underWay
      · exact Or.inl ⟨earlier, List.mem_append_left _ earlierMem, earlierLe⟩
      · exact Or.inr underWay
    · exact Or.inl ⟨stream.next, by simp, le_rfl⟩

theorem Valid.drop {stream : NumberedStream} {index number : ℕ} (valid : stream.Valid)
    (present : stream.inFlight[index]? = some number) :
    Valid { stream with
      inFlight := stream.inFlight.eraseIdx index
      lost := stream.lost ++ [number] } := by
  rcases List.getElem?_eq_some_iff.mp present with ⟨inRange, numberEq⟩
  have distinct : stream.inFlight.Nodup := valid.sorted.imp Nat.ne_of_lt
  have eraseEq : stream.inFlight.eraseIdx index = stream.inFlight.erase number := by
    rw [← numberEq, distinct.erase_getElem index inRange]
  have numberMem : number ∈ stream.inFlight := List.mem_of_getElem? present
  simp only [eraseEq]
  constructor
  · exact valid.expected_le_next
  · exact valid.sorted.sublist List.erase_sublist
  · intro other otherMem
    exact valid.inFlight_bounds other (List.mem_of_mem_erase otherMem)
  · intro other otherMem
    simp only [List.mem_append, List.mem_singleton] at otherMem
    rcases otherMem with old | rfl
    · exact valid.lost_bounds other old
    · exact valid.inFlight_bounds other numberMem
  · intro other otherMem
    simp only [List.mem_append, List.mem_singleton] at otherMem
    rw [distinct.mem_erase_iff, not_and]
    rcases otherMem with old | rfl
    · intro _
      exact valid.lost_notMem other old
    · intro different
      exact absurd rfl different
  · intro other above below
    rw [distinct.mem_erase_iff]
    rcases valid.accounted other above below with ⟨earlier, earlierMem, earlierLe⟩ | underWay
    · exact Or.inl ⟨earlier, List.mem_append_left _ earlierMem, earlierLe⟩
    · by_cases dropped : other = number
      · exact Or.inl ⟨number, by simp, Nat.le_of_eq dropped.symm⟩
      · exact Or.inr ⟨dropped, underWay⟩

/-- The receiver waits for what arrives exactly if nothing sent earlier was lost. -/
theorem Valid.expected_eq_iff {stream : NumberedStream} {number : ℕ} {rest : List ℕ}
    (valid : stream.Valid) (head : stream.inFlight = number :: rest) :
    stream.expected = number ↔ ∀ other ∈ stream.lost, number < other := by
  have numberMem : number ∈ stream.inFlight := by simp [head]
  rcases valid.inFlight_bounds number numberMem with ⟨above, below⟩
  constructor
  · intro current other otherMem
    apply lt_of_le_of_ne
    · rw [← current]
      exact (valid.lost_bounds other otherMem).1
    · rintro rfl
      exact valid.lost_notMem _ otherMem numberMem
  · intro later
    apply le_antisymm above
    rcases valid.accounted stream.expected le_rfl (lt_of_le_of_lt above below) with
      ⟨earlier, earlierMem, earlierLe⟩ | underWay
    · exact absurd (later earlier earlierMem) (not_lt.mpr (le_trans earlierLe above))
    · have sorted := valid.sorted
      rw [head] at sorted underWay
      rcases List.mem_cons.mp underWay with current | inRest
      · exact Nat.le_of_eq current.symm
      · exact Nat.le_of_lt (List.rel_of_pairwise_cons sorted inRest)

theorem Valid.take {stream : NumberedStream} {rest : List ℕ} (valid : stream.Valid)
    (head : stream.inFlight = stream.expected :: rest) :
    Valid { stream with inFlight := rest, expected := stream.expected + 1 } := by
  have sorted := valid.sorted
  have bounds := valid.inFlight_bounds
  have accounted := valid.accounted
  have lostNotMem := valid.lost_notMem
  have later := (valid.expected_eq_iff head).mp rfl
  rw [head] at sorted
  simp only [head, List.mem_cons] at bounds accounted lostNotMem
  constructor
  · exact (bounds _ (Or.inl rfl)).2
  · exact (List.pairwise_cons.mp sorted).2
  · intro number numberMem
    exact ⟨List.rel_of_pairwise_cons sorted numberMem, (bounds number (Or.inr numberMem)).2⟩
  · intro number numberMem
    exact ⟨later number numberMem, (valid.lost_bounds number numberMem).2⟩
  · intro number numberMem inRest
    exact lostNotMem number numberMem (Or.inr inRest)
  · intro number above below
    rcases accounted number (Nat.le_of_succ_le above) below with isLost | isHead | inRest
    · exact Or.inl isLost
    · exact absurd isHead (Nat.ne_of_gt above)
    · exact Or.inr inRest

theorem Valid.reject {stream : NumberedStream} {number : ℕ} {rest : List ℕ}
    (valid : stream.Valid) (head : stream.inFlight = number :: rest)
    (other : stream.expected ≠ number) : Valid { stream with inFlight := rest } := by
  have sorted := valid.sorted
  have bounds := valid.inFlight_bounds
  have accounted := valid.accounted
  have lostNotMem := valid.lost_notMem
  have notLater := mt (valid.expected_eq_iff head).mpr other
  push Not at notLater
  rw [head] at sorted
  simp only [head, List.mem_cons] at bounds accounted lostNotMem
  constructor
  · exact valid.expected_le_next
  · exact (List.pairwise_cons.mp sorted).2
  · intro number numberMem
    exact bounds number (Or.inr numberMem)
  · exact valid.lost_bounds
  · intro number numberMem inRest
    exact lostNotMem number numberMem (Or.inr inRest)
  · intro candidate above below
    rcases accounted candidate above below with isLost | isHead | inRest
    · exact Or.inl isLost
    · rw [isHead]
      exact Or.inl notLater
    · exact Or.inr inRest

theorem Valid.step {stream next : NumberedStream} (valid : stream.Valid)
    (moved : Step stream next) : next.Valid := by
  cases moved with
  | send => exact valid.send
  | skip => exact valid.skip
  | drop present => exact valid.drop present
  | take head => exact valid.take head
  | reject head other => exact valid.reject head other

theorem Valid.steps {stream final : NumberedStream} (valid : stream.Valid)
    (moved : Relation.ReflTransGen Step stream final) : final.Valid := by
  induction moved with
  | refl => exact valid
  | tail _ moved ih => exact ih.step moved

end NumberedStream

end Ppose

import Mathlib.Data.Finset.Card
import Mathlib.Data.Finset.Lattice.Basic
import Mathlib.Data.Set.Insert
import Mathlib.Order.Interval.Finset.Nat
import Mathlib.Data.Fintype.EquivFin
import Mathlib.Logic.Relation
import Mathlib.Tactic.Common

/-!
# Selective repeat over unbounded sequence numbers

One direction of a selective-repeat protocol, over a channel which may drop,
duplicate, delay and reorder everything.  Frames are numbered by naturals in the
order in which they are queued and are first sent in that order.  The sender
limits the *number* of frames sent and not known to be accepted
(`sendLimit`); the receiver limits the *range* of numbers it accepts above the
first one it is missing (`receiveWindow`).  A report carries the set of numbers
accepted when it was made and may be learnt by the sender at any later time.

The invariant `Flow.Valid` gives the two facts on which every refinement of the
protocol rests: a number the sender has forgotten was accepted, and the
transmissions of the sender never run further than `receiveWindow + sendLimit`
ahead of a number it still holds (`Flow.Valid.sent_le`).
-/

namespace Ppose

/-- The least natural number outside a finite set. -/
def firstMissing (numbers : Finset ℕ) : ℕ := Nat.find (Infinite.exists_notMem_finset numbers)

theorem firstMissing_notMem (numbers : Finset ℕ) : firstMissing numbers ∉ numbers :=
  Nat.find_spec (Infinite.exists_notMem_finset numbers)

theorem mem_of_lt_firstMissing {numbers : Finset ℕ} {number : ℕ}
    (below : number < firstMissing numbers) : number ∈ numbers := by
  by_contra missing
  exact Nat.find_min (Infinite.exists_notMem_finset numbers) below missing

theorem firstMissing_le {numbers : Finset ℕ} {number : ℕ} (missing : number ∉ numbers) :
    firstMissing numbers ≤ number :=
  Nat.find_min' (Infinite.exists_notMem_finset numbers) missing

theorem le_firstMissing {numbers : Finset ℕ} {bound : ℕ}
    (below : Finset.range bound ⊆ numbers) : bound ≤ firstMissing numbers := by
  by_contra short
  exact firstMissing_notMem numbers (below (Finset.mem_range.mpr (not_le.mp short)))

theorem firstMissing_eq {numbers : Finset ℕ} {number : ℕ} (missing : number ∉ numbers)
    (below : ∀ other < number, other ∈ numbers) : firstMissing numbers = number := by
  apply le_antisymm (firstMissing_le missing)
  by_contra short
  exact firstMissing_notMem numbers (below _ (not_le.mp short))

theorem firstMissing_mono {smaller larger : Finset ℕ} (subset : smaller ⊆ larger) :
    firstMissing smaller ≤ firstMissing larger :=
  firstMissing_le fun present => firstMissing_notMem larger (subset present)

@[simp]
theorem firstMissing_range (bound : ℕ) : firstMissing (Finset.range bound) = bound :=
  firstMissing_eq (by simp) (by simp)

/-- Every member lies less than `window` above the first missing number. -/
def Windowed (window : ℕ) (numbers : Finset ℕ) : Prop :=
  ∀ number ∈ numbers, number < firstMissing numbers + window

theorem Windowed.insert {window number : ℕ} {numbers : Finset ℕ}
    (windowed : Windowed window numbers) (inWindow : number < firstMissing numbers + window) :
    Windowed window (insert number numbers) := by
  have advances : firstMissing numbers ≤ firstMissing (Insert.insert number numbers) :=
    firstMissing_mono (Finset.subset_insert _ _)
  intro other otherMem
  rcases Finset.mem_insert.mp otherMem with rfl | old
  · omega
  · have := windowed other old
    omega

theorem Windowed.range (window bound : ℕ) : Windowed window (Finset.range bound) := by
  intro number numberMem
  rw [firstMissing_range]
  have := Finset.mem_range.mp numberMem
  omega

/-- One direction of a selective-repeat protocol. -/
structure Flow where
  queued : ℕ
  /-- How many frames were sent at least once; these are the lowest-numbered ones. -/
  sent : ℕ
  outstanding : Finset ℕ
  accepted : Finset ℕ
  /-- Every report ever made, as the accepted set it was made from. -/
  reports : Set (Finset ℕ)

namespace Flow

def initial : Flow where
  queued := 0
  sent := 0
  outstanding := ∅
  accepted := ∅
  reports := ∅

/-- The frames sent and not known to be accepted. -/
def inFlight (flow : Flow) : Finset ℕ := flow.outstanding.filter (· < flow.sent)

inductive Step (sendLimit receiveWindow : ℕ) (flow : Flow) : Flow → Prop where
  | enqueue (count : ℕ) : Step sendLimit receiveWindow flow
      { flow with
        queued := flow.queued + count
        outstanding := flow.outstanding ∪ Finset.Ico flow.queued (flow.queued + count) }
  | send (count : ℕ) (available : flow.sent + count ≤ flow.queued)
      (fits : flow.inFlight.card + count ≤ sendLimit) : Step sendLimit receiveWindow flow
      { flow with sent := flow.sent + count }
  | accept (number : ℕ) (wasSent : number < flow.sent)
      (inWindow : number < firstMissing flow.accepted + receiveWindow) :
      Step sendLimit receiveWindow flow { flow with accepted := insert number flow.accepted }
  | report : Step sendLimit receiveWindow flow
      { flow with reports := insert flow.accepted flow.reports }
  /-- Learn from a report, however old. -/
  | learn (report : Finset ℕ) (made : report ∈ flow.reports) :
      Step sendLimit receiveWindow flow { flow with outstanding := flow.outstanding \ report }

/-- The flows the two parties can bring about. -/
def Reachable (sendLimit receiveWindow : ℕ) (flow : Flow) : Prop :=
  Relation.ReflTransGen (Step sendLimit receiveWindow) initial flow

/-- The protocol invariant. -/
structure Valid (sendLimit receiveWindow : ℕ) (flow : Flow) : Prop where
  sent_le_queued : flow.sent ≤ flow.queued
  accepted_sent : ∀ number ∈ flow.accepted, number < flow.sent
  accepted_windowed : Windowed receiveWindow flow.accepted
  outstanding_queued : ∀ number ∈ flow.outstanding, number < flow.queued
  forgotten_accepted : ∀ number < flow.queued, number ∉ flow.outstanding → number ∈ flow.accepted
  reports_subset : ∀ report ∈ flow.reports, report ⊆ flow.accepted
  reports_windowed : ∀ report ∈ flow.reports, Windowed receiveWindow report
  inFlight_le : flow.inFlight.card ≤ sendLimit
  forgotten_lt : ∀ held ∈ flow.outstanding, ∀ number < flow.queued,
    number ∉ flow.outstanding → number < held + receiveWindow

variable {sendLimit receiveWindow : ℕ} {flow next : Flow}

theorem initial_valid : initial.Valid sendLimit receiveWindow where
  sent_le_queued := le_rfl
  accepted_sent := by simp [initial]
  accepted_windowed := by simp [initial, Windowed]
  outstanding_queued := by simp [initial]
  forgotten_accepted := by simp [initial]
  reports_subset := by simp [initial]
  reports_windowed := by simp [initial]
  inFlight_le := by simp [initial, inFlight]
  forgotten_lt := by simp [initial]

namespace Valid

theorem mem_outstanding_of_unsent (valid : flow.Valid sendLimit receiveWindow) {number : ℕ}
    (unsent : flow.sent ≤ number) (isQueued : number < flow.queued) :
    number ∈ flow.outstanding := by
  by_contra forgotten
  have := valid.accepted_sent number (valid.forgotten_accepted number isQueued forgotten)
  omega

theorem firstMissing_le_sent (valid : flow.Valid sendLimit receiveWindow) :
    firstMissing flow.accepted ≤ flow.sent :=
  firstMissing_le fun present => lt_irrefl _ (valid.accepted_sent _ present)

/-- Transmissions stay within `receiveWindow + sendLimit` of a number still held. -/
theorem sent_le (valid : flow.Valid sendLimit receiveWindow) {held : ℕ}
    (isHeld : held ∈ flow.outstanding) : flow.sent ≤ held + receiveWindow + sendLimit := by
  have beyond : Finset.Ico (held + receiveWindow) flow.sent ⊆ flow.inFlight := by
    intro number numberMem
    rcases Finset.mem_Ico.mp numberMem with ⟨far, wasSent⟩
    refine Finset.mem_filter.mpr ⟨?_, wasSent⟩
    by_contra forgotten
    have := valid.forgotten_lt held isHeld number
      (lt_of_lt_of_le wasSent valid.sent_le_queued) forgotten
    omega
  have few := (Finset.card_le_card beyond).trans valid.inFlight_le
  rw [Nat.card_Ico] at few
  omega

theorem enqueue (valid : flow.Valid sendLimit receiveWindow) (count : ℕ) :
    Valid sendLimit receiveWindow
      { flow with
        queued := flow.queued + count
        outstanding := flow.outstanding ∪ Finset.Ico flow.queued (flow.queued + count) } where
  sent_le_queued := valid.sent_le_queued.trans (Nat.le_add_right _ _)
  accepted_sent := valid.accepted_sent
  accepted_windowed := valid.accepted_windowed
  outstanding_queued := by
    intro number numberMem
    rcases Finset.mem_union.mp numberMem with old | fresh
    · exact (valid.outstanding_queued number old).trans_le (Nat.le_add_right _ _)
    · exact (Finset.mem_Ico.mp fresh).2
  forgotten_accepted := by
    intro number isQueued forgotten
    change number < flow.queued + count at isQueued
    simp only [Finset.mem_union, Finset.mem_Ico, not_or] at forgotten
    exact valid.forgotten_accepted number (by omega) forgotten.1
  reports_subset := valid.reports_subset
  reports_windowed := valid.reports_windowed
  inFlight_le := by
    refine le_trans (le_of_eq ?_) valid.inFlight_le
    congr 1
    ext number
    have := valid.sent_le_queued
    simp only [inFlight, Finset.mem_filter, Finset.mem_union, Finset.mem_Ico]
    constructor
    · rintro ⟨old | fresh, wasSent⟩
      · exact ⟨old, wasSent⟩
      · omega
    · rintro ⟨old, wasSent⟩
      exact ⟨Or.inl old, wasSent⟩
  forgotten_lt := by
    intro held isHeld number isQueued forgotten
    simp only [Finset.mem_union, Finset.mem_Ico, not_or] at isHeld forgotten
    change number < flow.queued + count at isQueued
    have wasQueued : number < flow.queued := by omega
    rcases isHeld with old | fresh
    · exact valid.forgotten_lt held old number wasQueued forgotten.1
    · omega

theorem send (valid : flow.Valid sendLimit receiveWindow) {count : ℕ}
    (available : flow.sent + count ≤ flow.queued)
    (fits : flow.inFlight.card + count ≤ sendLimit) :
    Valid sendLimit receiveWindow { flow with sent := flow.sent + count } where
  sent_le_queued := available
  accepted_sent := fun number present =>
    (valid.accepted_sent number present).trans_le (Nat.le_add_right _ _)
  accepted_windowed := valid.accepted_windowed
  outstanding_queued := valid.outstanding_queued
  forgotten_accepted := valid.forgotten_accepted
  reports_subset := valid.reports_subset
  reports_windowed := valid.reports_windowed
  inFlight_le := by
    have covered : ({ flow with sent := flow.sent + count } : Flow).inFlight ⊆
        flow.inFlight ∪ Finset.Ico flow.sent (flow.sent + count) := by
      intro number numberMem
      simp only [inFlight, Finset.mem_filter, Finset.mem_union, Finset.mem_Ico] at numberMem ⊢
      rcases lt_or_ge number flow.sent with before | after
      · exact Or.inl ⟨numberMem.1, before⟩
      · exact Or.inr ⟨after, numberMem.2⟩
    calc ({ flow with sent := flow.sent + count } : Flow).inFlight.card
        ≤ (flow.inFlight ∪ Finset.Ico flow.sent (flow.sent + count)).card :=
          Finset.card_le_card covered
      _ ≤ flow.inFlight.card + (Finset.Ico flow.sent (flow.sent + count)).card :=
          Finset.card_union_le _ _
      _ ≤ sendLimit := by
          rw [Nat.card_Ico]
          omega
  forgotten_lt := valid.forgotten_lt

theorem accept (valid : flow.Valid sendLimit receiveWindow) {number : ℕ}
    (wasSent : number < flow.sent)
    (inWindow : number < firstMissing flow.accepted + receiveWindow) :
    Valid sendLimit receiveWindow { flow with accepted := insert number flow.accepted } where
  sent_le_queued := valid.sent_le_queued
  accepted_sent := by
    intro other otherMem
    rcases Finset.mem_insert.mp otherMem with rfl | old
    · exact wasSent
    · exact valid.accepted_sent other old
  accepted_windowed := valid.accepted_windowed.insert inWindow
  outstanding_queued := valid.outstanding_queued
  forgotten_accepted := fun other isQueued forgotten =>
    Finset.mem_insert_of_mem (valid.forgotten_accepted other isQueued forgotten)
  reports_subset := fun report made =>
    (valid.reports_subset report made).trans (Finset.subset_insert _ _)
  reports_windowed := valid.reports_windowed
  inFlight_le := valid.inFlight_le
  forgotten_lt := valid.forgotten_lt

theorem report (valid : flow.Valid sendLimit receiveWindow) :
    Valid sendLimit receiveWindow
      { flow with reports := insert flow.accepted flow.reports } where
  sent_le_queued := valid.sent_le_queued
  accepted_sent := valid.accepted_sent
  accepted_windowed := valid.accepted_windowed
  outstanding_queued := valid.outstanding_queued
  forgotten_accepted := valid.forgotten_accepted
  reports_subset := by
    rintro report (rfl | made)
    · exact subset_rfl
    · exact valid.reports_subset report made
  reports_windowed := by
    rintro report (rfl | made)
    · exact valid.accepted_windowed
    · exact valid.reports_windowed report made
  inFlight_le := valid.inFlight_le
  forgotten_lt := valid.forgotten_lt

theorem learn (valid : flow.Valid sendLimit receiveWindow) {report : Finset ℕ}
    (made : report ∈ flow.reports) :
    Valid sendLimit receiveWindow { flow with outstanding := flow.outstanding \ report } where
  sent_le_queued := valid.sent_le_queued
  accepted_sent := valid.accepted_sent
  accepted_windowed := valid.accepted_windowed
  outstanding_queued := fun number isHeld =>
    valid.outstanding_queued number (Finset.mem_sdiff.mp isHeld).1
  forgotten_accepted := by
    intro number isQueued forgotten
    by_cases reported : number ∈ report
    · exact valid.reports_subset report made reported
    · refine valid.forgotten_accepted number isQueued fun isHeld => forgotten ?_
      exact Finset.mem_sdiff.mpr ⟨isHeld, reported⟩
  reports_subset := valid.reports_subset
  reports_windowed := valid.reports_windowed
  inFlight_le := by
    refine (Finset.card_le_card ?_).trans valid.inFlight_le
    exact Finset.filter_subset_filter _ Finset.sdiff_subset
  forgotten_lt := by
    intro held isHeld number isQueued forgotten
    rcases Finset.mem_sdiff.mp isHeld with ⟨wasHeld, unreported⟩
    by_cases reported : number ∈ report
    · have inWindow := valid.reports_windowed report made number reported
      have := firstMissing_le unreported
      omega
    · refine valid.forgotten_lt held wasHeld number isQueued fun wasHeld => forgotten ?_
      exact Finset.mem_sdiff.mpr ⟨wasHeld, reported⟩

theorem step (valid : flow.Valid sendLimit receiveWindow)
    (move : Step sendLimit receiveWindow flow next) : next.Valid sendLimit receiveWindow := by
  cases move with
  | enqueue count => exact valid.enqueue count
  | send count available fits => exact valid.send available fits
  | accept number wasSent inWindow => exact valid.accept wasSent inWindow
  | report => exact valid.report
  | learn report made => exact valid.learn made

end Valid

theorem Reachable.valid (reachable : flow.Reachable sendLimit receiveWindow) :
    flow.Valid sendLimit receiveWindow := by
  induction reachable with
  | refl => exact initial_valid
  | tail _ move ih => exact ih.step move

theorem Reachable.step (reachable : flow.Reachable sendLimit receiveWindow)
    (move : Step sendLimit receiveWindow flow next) : next.Reachable sendLimit receiveWindow :=
  reachable.tail move

/-- What the receiver has accepted stays accepted. -/
theorem Step.accepted_subset (move : Step sendLimit receiveWindow flow next) :
    flow.accepted ⊆ next.accepted := by
  cases move with
  | accept number wasSent inWindow => exact Finset.subset_insert _ _
  | enqueue count => exact subset_rfl
  | send count available fits => exact subset_rfl
  | report => exact subset_rfl
  | learn report made => exact subset_rfl

theorem accepted_subset_of_steps
    (moves : Relation.ReflTransGen (Step sendLimit receiveWindow) flow next) :
    flow.accepted ⊆ next.accepted := by
  induction moves with
  | refl => exact subset_rfl
  | tail _ move ih => exact ih.trans move.accepted_subset

/-- What is outstanding was so before, or was queued only now. -/
theorem Step.outstanding_or_queued (move : Step sendLimit receiveWindow flow next) :
    flow.queued ≤ next.queued ∧
      ∀ number ∈ next.outstanding, number ∈ flow.outstanding ∨ flow.queued ≤ number := by
  cases move with
  | enqueue count =>
      refine ⟨Nat.le_add_right _ _, ?_⟩
      intro number held
      rcases Finset.mem_union.mp held with old | fresh
      · exact Or.inl old
      · exact Or.inr (Finset.mem_Ico.mp fresh).1
  | learn report made =>
      exact ⟨le_rfl, fun number held => Or.inl (Finset.mem_sdiff.mp held).1⟩
  | send count available fits => exact ⟨le_rfl, fun number held => Or.inl held⟩
  | accept number wasSent inWindow => exact ⟨le_rfl, fun number held => Or.inl held⟩
  | report => exact ⟨le_rfl, fun number held => Or.inl held⟩

theorem outstanding_or_queued_of_steps
    (moves : Relation.ReflTransGen (Step sendLimit receiveWindow) flow next) :
    flow.queued ≤ next.queued ∧
      ∀ number ∈ next.outstanding, number ∈ flow.outstanding ∨ flow.queued ≤ number := by
  induction moves with
  | refl => exact ⟨le_rfl, fun number held => Or.inl held⟩
  | tail _ move ih =>
      rcases move.outstanding_or_queued with ⟨queuedLe, heldBefore⟩
      refine ⟨ih.1.trans queuedLe, ?_⟩
      intro number held
      rcases heldBefore number held with old | fresh
      · exact ih.2 number old
      · exact Or.inr (ih.1.trans fresh)

end Flow

end Ppose

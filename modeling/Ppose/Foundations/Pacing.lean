import Mathlib.Data.List.Pairwise
import Mathlib.Tactic.Common

/-!
# Events with a gap between them

A list of instants in which any two are at least a gap apart holds a limited number of
instants of any window of time.
-/

namespace Ppose

namespace Pacing

variable {gap : ℕ} {times : List ℕ}

/-- Each instant is at least the gap before all later ones of the list. -/
def Apart (gap : ℕ) (times : List ℕ) : Prop :=
  times.Pairwise fun earlier later => earlier + gap ≤ later

/-- A positive gap which a saturating difference has reached has passed. -/
theorem add_le_of_not_sub_lt {last now : ℕ} (positive : 0 < gap) (reached : ¬now - last < gap) :
    last + gap ≤ now := by
  omega

theorem Apart.length_mul_le (apart : Apart gap times) (first final : ℕ)
    (within : ∀ time ∈ times, first ≤ time ∧ time ≤ final) :
    (times.length - 1) * gap ≤ final - first := by
  induction times generalizing first with
  | nil => simp
  | cons time rest ih =>
      rcases List.pairwise_cons.mp apart with ⟨afterTime, restApart⟩
      rcases within time List.mem_cons_self with ⟨firstLe, _⟩
      cases rest with
      | nil => simp
      | cons next rest =>
          have fromNext := ih restApart (time + gap) (fun later laterMem =>
            ⟨afterTime later laterMem, (within later (List.mem_cons_of_mem _ laterMem)).2⟩)
          have nextAfter := afterTime next List.mem_cons_self
          have nextLe := (within next (by simp)).2
          simp only [List.length_cons, Nat.add_sub_cancel] at fromNext ⊢
          rw [Nat.succ_mul]
          omega

/-- A window of time contains no more instants than gaps fit into it, and one. -/
theorem Apart.length_window_le (apart : Apart gap times) (positive : 0 < gap)
    (first final : ℕ) :
    (times.filter fun time => first ≤ time ∧ time ≤ final).length ≤ (final - first) / gap + 1 := by
  have windowApart : Apart gap (times.filter fun time => first ≤ time ∧ time ≤ final) :=
    apart.sublist List.filter_sublist
  have spans := windowApart.length_mul_le first final fun time timeMem =>
    of_decide_eq_true (List.mem_filter.mp timeMem).2
  have fits := (Nat.le_div_iff_mul_le positive).mpr spans
  omega

end Pacing

end Ppose

import Mathlib.Data.List.Induction
import Mathlib.Data.List.Pairwise
import Mathlib.Tactic.Common

/-!
# Runs under a clock

Instants and durations are nanoseconds on a monotonic clock.  A system takes its
operations one after the other, and each operation may read the clock, once or
several times.  The clock of a run never goes back: the readings of the whole run,
in order, do not decrease.

`ClockedRun.invariant` derives what holds after every run from what one operation
preserves.  The invariant may speak of the last reading, which every later reading
is at or after.
-/

namespace Ppose

abbrev Instant := ℕ

abbrev Duration := ℕ

namespace ClockedRun

universe u v

variable {State : Type u} {Op : Type v}

/-- The readings of a run, in order, do not decrease. -/
def Monotone (reads : Op → List Instant) (ops : List Op) : Prop :=
  (ops.flatMap reads).Pairwise (· ≤ ·)

instance decidableMonotone (reads : Op → List Instant) (ops : List Op) :
    Decidable (Monotone reads ops) :=
  inferInstanceAs (Decidable ((ops.flatMap reads).Pairwise (· ≤ ·)))

/-- The last reading of a run, and zero before the first. -/
def last (reads : Op → List Instant) (ops : List Op) : Instant := (ops.flatMap reads).getLastD 0

variable {reads : Op → List Instant}

theorem Monotone.of_append {ops more : List Op} (monotone : Monotone reads (ops ++ more)) :
    Monotone reads ops := by
  rw [Monotone, List.flatMap_append] at monotone
  exact (List.pairwise_append.mp monotone).1

/-- Every reading of a further operation is at or after the last one before. -/
theorem Monotone.next {ops : List Op} {op : Op} (monotone : Monotone reads (ops ++ [op])) :
    (last reads ops :: reads op).Pairwise (· ≤ ·) := by
  rw [Monotone, List.flatMap_append, List.flatMap_singleton] at monotone
  rcases List.pairwise_append.mp monotone with ⟨_, sorted, across⟩
  refine List.pairwise_cons.mpr ⟨?_, sorted⟩
  intro reading readingMem
  rw [last, List.getLastD_eq_getLast?]
  cases final : (ops.flatMap reads).getLast? with
  | none => exact Nat.zero_le _
  | some value => exact across value (List.mem_of_getLast? final) reading readingMem

theorem last_append_singleton (ops : List Op) (op : Op) :
    last reads (ops ++ [op]) = (reads op).getLastD (last reads ops) := by
  simp only [last, List.flatMap_append, List.flatMap_singleton, List.getLastD_eq_getLast?,
    List.getLast?_append]
  cases (reads op).getLast? <;> simp

/-- What an operation preserves at its last reading holds after every run. -/
theorem invariant {step : State → Op → State} {Holds : Instant → State → Prop} {start : State}
    (initially : Holds 0 start)
    (preserved : ∀ now state op, Holds now state → (now :: reads op).Pairwise (· ≤ ·) →
      Holds ((reads op).getLastD now) (step state op))
    (ops : List Op) (monotone : Monotone reads ops) :
    Holds (last reads ops) (ops.foldl step start) := by
  induction ops using List.reverseRecOn with
  | nil => exact initially
  | append_singleton ops op ih =>
      rw [last_append_singleton, List.foldl_append]
      exact preserved _ _ op (ih monotone.of_append) monotone.next

end ClockedRun

end Ppose

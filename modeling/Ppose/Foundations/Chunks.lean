import Mathlib.Data.List.Basic
import Mathlib.Tactic.Common

/-!
# Chunking a list

`chunks size list` cuts `list` into consecutive pieces of `size` elements, the
last of which may be shorter, as slice chunking does.  The pieces are never
empty, concatenate back to the list, and their number is the rounded-up
quotient.
-/

namespace Ppose

universe u

variable {Element : Type u}

/-- Chunking with an explicit bound on the number of pieces. -/
def chunksWithin (size : ℕ) : ℕ → List Element → List (List Element)
  | 0, _ => []
  | _ + 1, [] => []
  | bound + 1, list => list.take size :: chunksWithin size bound (list.drop size)

/-- Consecutive pieces of `size` elements; the last may be shorter. -/
def chunks (size : ℕ) (list : List Element) : List (List Element) :=
  chunksWithin size list.length list

theorem chunksWithin_succ {size bound : ℕ} {list : List Element} (nonempty : list ≠ []) :
    chunksWithin size (bound + 1) list =
      list.take size :: chunksWithin size bound (list.drop size) := by
  cases list with
  | nil => exact absurd rfl nonempty
  | cons head tail => rfl

theorem flatten_chunksWithin {size : ℕ} (sizePos : 0 < size) (bound : ℕ) (list : List Element)
    (enough : list.length ≤ bound) : (chunksWithin size bound list).flatten = list := by
  induction bound generalizing list with
  | zero =>
      have : list = [] := List.length_eq_zero_iff.mp (by omega)
      subst list
      rfl
  | succ bound ih =>
      by_cases nonempty : list = []
      · subst list
        rfl
      · have : 0 < list.length := List.length_pos_iff.mpr nonempty
        rw [chunksWithin_succ nonempty, List.flatten_cons, ih _ (by simp; omega),
          List.take_append_drop]

theorem length_le_of_mem_chunksWithin {size bound : ℕ} {list chunk : List Element}
    (chunkMem : chunk ∈ chunksWithin size bound list) : chunk.length ≤ size := by
  induction bound generalizing list with
  | zero => cases chunkMem
  | succ bound ih =>
      by_cases nonempty : list = []
      · subst list
        cases chunkMem
      · rw [chunksWithin_succ nonempty] at chunkMem
        rcases List.mem_cons.mp chunkMem with rfl | inRest
        · exact List.length_take_le _ _
        · exact ih inRest

@[simp]
theorem flatten_chunks {size : ℕ} (sizePos : 0 < size) (list : List Element) :
    (chunks size list).flatten = list :=
  flatten_chunksWithin sizePos _ list (Nat.le_refl _)

theorem length_chunksWithin {size : ℕ} (sizePos : 0 < size) (bound : ℕ) (list : List Element)
    (enough : list.length ≤ bound) :
    (chunksWithin size bound list).length = (list.length + size - 1) / size := by
  induction bound generalizing list with
  | zero =>
      have : list = [] := List.length_eq_zero_iff.mp (by omega)
      subst list
      simp only [chunksWithin, List.length_nil]
      exact (Nat.div_eq_of_lt (by omega)).symm
  | succ bound ih =>
      by_cases nonempty : list = []
      · subst list
        simp only [chunksWithin, List.length_nil]
        exact (Nat.div_eq_of_lt (by omega)).symm
      · have lengthPos : 0 < list.length := List.length_pos_iff.mpr nonempty
        rw [chunksWithin_succ nonempty, List.length_cons, ih _ (by simp; omega), List.length_drop]
        rcases Nat.lt_or_ge list.length size with short | long
        · have remaining : list.length - size + size - 1 < size := by omega
          have whole : list.length + size - 1 = (list.length - 1) + size := by omega
          rw [Nat.div_eq_of_lt remaining, whole, Nat.add_div_right _ sizePos,
            Nat.div_eq_of_lt (by omega)]
        · have whole : list.length + size - 1 = (list.length - size + size - 1) + size := by omega
          rw [whole, Nat.add_div_right _ sizePos]

theorem length_chunks {size : ℕ} (sizePos : 0 < size) (list : List Element) :
    (chunks size list).length = (list.length + size - 1) / size :=
  length_chunksWithin sizePos _ list (Nat.le_refl _)

end Ppose

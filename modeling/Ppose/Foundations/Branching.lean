import Ppose.Foundations.BreadthFirst
import Mathlib.Algebra.Order.BigOperators.Group.Finset
import Mathlib.Algebra.BigOperators.Intervals

/-!
# What lies behind a node

If every node has a limited number of successors, the number of nodes at the end of
chains of a given length grows geometrically, and no faster.  A chain from a root which
uses an edge out of a given set of nodes splits at the first such node: up to there it
avoids the set (`Chain.avoids_or_meets`).
-/

namespace Ppose

namespace BreadthFirst

universe u

variable {Node : Type u} {edge : Node → Node → Prop} {isRoot : Node → Prop}

/-- The edges whose sources are outside of a set. -/
def Avoiding (edge : Node → Node → Prop) (avoided : Node → Prop) (node successor : Node) : Prop :=
  edge node successor ∧ ¬avoided node

theorem Chain.avoids_or_meets (avoided : Node → Prop) {length : ℕ} {node : Node}
    (chain : Chain edge isRoot length node) :
    Chain (Avoiding edge avoided) isRoot length node ∨
      ∃ first before after, avoided first ∧ before + after = length ∧ 0 < after ∧
        Chain (Avoiding edge avoided) isRoot before first ∧ Chain edge (· = first) after node := by
  induction chain with
  | root rooted => exact Or.inl (.root rooted)
  | @step length node successor _ leads ih =>
      rcases ih with avoids | ⟨first, before, after, isAvoided, lengthEq, behind, reaches, leaves⟩
      · by_cases isAvoided : avoided node
        · refine Or.inr ⟨node, length, 1, isAvoided, rfl, one_pos, avoids, ?_⟩
          exact .step (.root rfl) leads
        · exact Or.inl (.step avoids ⟨leads, isAvoided⟩)
      · exact Or.inr ⟨first, before, after + 1, isAvoided, by omega, by omega, reaches,
          .step leaves leads⟩

variable [DecidableEq Node]

/-- The nodes at the end of chains of the given length from a node. -/
def endpoints (successors : Node → Finset Node) (start : Node) : ℕ → Finset Node
  | 0 => {start}
  | length + 1 => (endpoints successors start length).biUnion successors

theorem Chain.mem_endpoints {successors : Node → Finset Node}
    (listed : ∀ node successor, edge node successor → successor ∈ successors node) {start : Node}
    {length : ℕ} {node : Node} (chain : Chain edge (· = start) length node) :
    node ∈ endpoints successors start length := by
  induction chain with
  | root rooted => exact Finset.mem_singleton.mpr rooted
  | step _ leads ih => exact Finset.mem_biUnion.mpr ⟨_, ih, listed _ _ leads⟩

theorem card_endpoints_le {successors : Node → Finset Node} {degree : ℕ}
    (few : ∀ node, (successors node).card ≤ degree) (start : Node) (length : ℕ) :
    (endpoints successors start length).card ≤ degree ^ length := by
  induction length with
  | zero => simp [endpoints]
  | succ length ih =>
      calc (endpoints successors start (length + 1)).card
        _ ≤ (endpoints successors start length).card * degree :=
            Finset.card_biUnion_le_card_mul _ _ _ fun node _ => few node
        _ ≤ degree ^ length * degree := Nat.mul_le_mul_right _ ih
        _ = degree ^ (length + 1) := (pow_succ degree length).symm

/-- The number of nodes behind a node, up to a number of levels. -/
def behindBound (degree levels : ℕ) : ℕ := ∑ level ∈ Finset.Icc 1 levels, degree ^ level

theorem card_behind_le {successors : Node → Finset Node} {degree : ℕ}
    (few : ∀ node, (successors node).card ≤ degree) (start : Node) (levels : ℕ) :
    ((Finset.Icc 1 levels).biUnion (endpoints successors start)).card ≤
      behindBound degree levels :=
  Finset.card_biUnion_le.trans (Finset.sum_le_sum fun _ _ => card_endpoints_le few start _)

end BreadthFirst

end Ppose

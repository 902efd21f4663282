import Mathlib.Algebra.Order.Group.Nat
import Mathlib.Data.List.Forall2
import Mathlib.Data.List.Range
import Mathlib.Order.Lattice.Nat
import Mathlib.Tactic.Common

/-!
# Streams whose numbers first appear in order

Items of a stream carry a number each, or none.  The stream climbs from a level if the
numbers below the level were seen before and every item carries a number already seen
or the next one.  So no number appears before a smaller one has, however often the
numbers are repeated later: this is what a sender produces which first sends in order
and repeats what it likes, as long as nothing is lost from the stream.
-/

namespace Ppose

section Climbing

variable {α : Type*} {plain : α → Prop} {carries : ℕ → α → Prop}

/-- From the first level, the items lead in order to the second one. -/
inductive Climbs (plain : α → Prop) (carries : ℕ → α → Prop) : ℕ → List α → ℕ → Prop where
  | nil (level : ℕ) : Climbs plain carries level [] level
  | plain {level final : ℕ} {item : α} {rest : List α} (isPlain : plain item)
      (climbs : Climbs plain carries level rest final) :
      Climbs plain carries level (item :: rest) final
  | number {level final number : ℕ} {item : α} {rest : List α} (carried : carries number item)
      (notAhead : number ≤ level)
      (climbs : Climbs plain carries (max level (number + 1)) rest final) :
      Climbs plain carries level (item :: rest) final

namespace Climbs

variable {level middle final : ℕ} {items more : List α}

theorem append (first : Climbs plain carries level items middle)
    (second : Climbs plain carries middle more final) :
    Climbs plain carries level (items ++ more) final := by
  induction first with
  | nil level => exact second
  | plain isPlain _ ih => exact .plain isPlain (ih second)
  | number carried notAhead _ ih => exact .number carried notAhead (ih second)

theorem plain_or_carries (climbs : Climbs plain carries level items final) {item : α}
    (itemMem : item ∈ items) : plain item ∨ ∃ number, carries number item := by
  induction climbs with
  | nil level => cases itemMem
  | plain isPlain _ ih =>
      rcases List.mem_cons.mp itemMem with rfl | inRest
      · exact Or.inl isPlain
      · exact ih inRest
  | number carried _ _ ih =>
      rcases List.mem_cons.mp itemMem with rfl | inRest
      · exact Or.inr ⟨_, carried⟩
      · exact ih inRest

/-- The beginning of a climbing stream climbs as well. -/
theorem exists_of_prefix (climbs : Climbs plain carries level items final)
    (isPrefix : more <+: items) : ∃ reached, Climbs plain carries level more reached := by
  induction climbs generalizing more with
  | nil level =>
      rw [List.prefix_nil.mp isPrefix]
      exact ⟨level, .nil level⟩
  | plain isPlain _ ih =>
      rcases List.prefix_cons_iff.mp isPrefix with rfl | ⟨rest, rfl, restPrefix⟩
      · exact ⟨_, .nil _⟩
      · rcases ih restPrefix with ⟨reached, restClimbs⟩
        exact ⟨reached, .plain isPlain restClimbs⟩
  | number carried notAhead _ ih =>
      rcases List.prefix_cons_iff.mp isPrefix with rfl | ⟨rest, rfl, restPrefix⟩
      · exact ⟨_, .nil _⟩
      · rcases ih restPrefix with ⟨reached, restClimbs⟩
        exact ⟨reached, .number carried notAhead restClimbs⟩

theorem mono {carries' : ℕ → α → Prop} (climbs : Climbs plain carries level items final)
    (weaker : ∀ number item, carries number item → carries' number item) :
    Climbs plain carries' level items final := by
  induction climbs with
  | nil level => exact .nil level
  | plain isPlain _ ih => exact .plain isPlain ih
  | number carried notAhead _ ih => exact .number (weaker _ _ carried) notAhead ih

/-- Items under consecutive numbers lead past the last of them. -/
theorem of_consecutive {count : ℕ}
    (numbered : List.Forall₂ carries (List.range' level count) items) :
    Climbs plain carries level items (level + count) := by
  induction count generalizing level items with
  | zero =>
      cases numbered
      exact .nil level
  | succ count ih =>
      rw [List.range'_succ] at numbered
      cases numbered with
      | cons carried rest =>
          have restClimbs := ih rest
          rw [Nat.add_assoc, Nat.add_comm 1 count] at restClimbs
          refine .number carried le_rfl ?_
          rw [Nat.max_eq_right (Nat.le_succ level)]
          exact restClimbs

/-- Repetitions lead nowhere. -/
theorem of_repeated (repeated : ∀ item ∈ items, ∃ number < level, carries number item) :
    Climbs plain carries level items level := by
  induction items with
  | nil => exact .nil level
  | cons item rest ih =>
      rcases repeated item List.mem_cons_self with ⟨number, below, carried⟩
      refine .number carried below.le ?_
      rw [Nat.max_eq_left below]
      exact ih fun other otherMem => repeated other (List.mem_cons_of_mem _ otherMem)

end Climbs

end Climbing

end Ppose

import Mathlib.Order.Bounds.Basic
import Mathlib.Data.Finset.Dedup
import Mathlib.Data.Finset.Insert
import Mathlib.Data.Finset.Lattice.Basic
import Mathlib.Order.Nat
import Mathlib.Data.Nat.Find

/-!
# Breadth-first search by levels

A graph is given by an edge relation and a predicate for its roots.  `Chain` says
that a node is reached from a root by a number of edges, `Distance` that this
number is the least one.

The search keeps the nodes of the current level and the set of nodes seen so far,
and stops as soon as the target is met among the successors of the level.  Its
invariant (`AtLevel`) is that the level consists of the nodes at the current
distance, and that the nodes seen are those at no larger distance.  It returns the
distance of the target if that does not exceed the bound, and nothing otherwise,
in whatever order the successors are listed.
-/

namespace Ppose

namespace BreadthFirst

universe u

variable {Node : Type u}

section Chains

variable {edge : Node → Node → Prop} {isRoot : Node → Prop}

/-- A chain of the given number of edges leads from a root to a node. -/
inductive Chain (edge : Node → Node → Prop) (isRoot : Node → Prop) : ℕ → Node → Prop where
  | root {node : Node} (rooted : isRoot node) : Chain edge isRoot 0 node
  | step {length : ℕ} {node successor : Node} (chain : Chain edge isRoot length node)
      (leads : edge node successor) : Chain edge isRoot (length + 1) successor

/-- The least number of edges of a chain to a node. -/
def Distance (edge : Node → Node → Prop) (isRoot : Node → Prop) (length : ℕ) (node : Node) :
    Prop :=
  IsLeast {length | Chain edge isRoot length node} length

theorem Chain.mono {larger : Node → Node → Prop}
    (subset : ∀ node successor, edge node successor → larger node successor) {length : ℕ}
    {node : Node} (chain : Chain edge isRoot length node) : Chain larger isRoot length node := by
  induction chain with
  | root rooted => exact .root rooted
  | step _ leads ih => exact .step ih (subset _ _ leads)

def WithoutEdge (edge : Node → Node → Prop) (source target node successor : Node) : Prop :=
  edge node successor ∧ ¬(node = source ∧ successor = target)

/-- An edge can be removed without making chains longer if there is always a detour. -/
theorem Chain.exists_withoutEdge {source target : Node} {bound : ℕ}
    (detour : ∀ length < bound, Chain edge isRoot length source →
      ∃ other ≤ length + 1, Chain (WithoutEdge edge source target) isRoot other target)
    {length : ℕ} {node : Node} (chain : Chain edge isRoot length node) (within : length ≤ bound) :
    ∃ other ≤ length, Chain (WithoutEdge edge source target) isRoot other node := by
  induction chain with
  | root rooted => exact ⟨0, le_rfl, .root rooted⟩
  | @step length node successor chain leads ih =>
      by_cases removed : node = source ∧ successor = target
      · rcases removed with ⟨rfl, rfl⟩
        exact detour length within chain
      · rcases ih (by omega) with ⟨other, otherLe, otherChain⟩
        exact ⟨other + 1, by omega, .step otherChain ⟨leads, removed⟩⟩

theorem exists_distance_of_chain {length : ℕ} {node : Node}
    (chain : Chain edge isRoot length node) :
    ∃ least ≤ length, Distance edge isRoot least node := by
  classical
  have exists_chain : ∃ length, Chain edge isRoot length node := ⟨length, chain⟩
  refine ⟨Nat.find exists_chain, Nat.find_min' exists_chain chain,
    Nat.find_spec exists_chain, ?_⟩
  intro other otherChain
  exact Nat.find_min' exists_chain otherChain

theorem distance_zero_iff (node : Node) : Distance edge isRoot 0 node ↔ isRoot node := by
  constructor
  · rintro ⟨chain, _⟩
    cases chain with
    | root rooted => exact rooted
  · intro rooted
    exact ⟨.root rooted, fun _ _ => Nat.zero_le _⟩

/-- A node follows a level exactly if it succeeds one of its nodes and was not seen before. -/
theorem distance_succ_iff (length : ℕ) (node : Node) :
    Distance edge isRoot (length + 1) node ↔
      (∃ previous, Distance edge isRoot length previous ∧ edge previous node) ∧
        ∀ shorter ≤ length, ¬Chain edge isRoot shorter node := by
  constructor
  · rintro ⟨chain, least⟩
    constructor
    · rcases chain with _ | ⟨previousChain, leads⟩
      rename_i previous
      refine ⟨previous, ⟨previousChain, ?_⟩, leads⟩
      intro other otherChain
      have := least (Chain.step otherChain leads)
      omega
    · intro shorter shorterLe shorterChain
      have := least shorterChain
      omega
  · rintro ⟨⟨previous, previousDistance, leads⟩, unseen⟩
    refine ⟨Chain.step previousDistance.1 leads, ?_⟩
    intro other otherChain
    by_contra shorter
    exact unseen other (by omega) otherChain

theorem exists_shorter_chain_of_empty_level {level : ℕ}
    (empty : ∀ node, ¬Distance edge isRoot level node) {length : ℕ} {node : Node}
    (chain : Chain edge isRoot length node) :
    ∃ shorter < level, Chain edge isRoot shorter node := by
  have noneBeyond : ∀ least, level ≤ least → ∀ node, ¬Distance edge isRoot least node := by
    intro least beyond
    induction least, beyond using Nat.le_induction with
    | base => exact empty
    | succ least _ ih =>
        intro node distance
        rcases ((distance_succ_iff least node).mp distance).1 with ⟨previous, distance', _⟩
        exact ih previous distance'
  rcases exists_distance_of_chain chain with ⟨least, _, distance⟩
  refine ⟨least, ?_, distance.1⟩
  by_contra beyond
  exact noneBeyond least (not_lt.mp beyond) node distance

/-- The invariant of the search before level `depth + 1`. -/
structure AtLevel (edge : Node → Node → Prop) (isRoot : Node → Prop) (depth : ℕ)
    (frontier : List Node) (visited : Finset Node) : Prop where
  frontier_iff : ∀ node, node ∈ frontier ↔ Distance edge isRoot depth node
  visited_iff : ∀ node, node ∈ visited ↔ ∃ length ≤ depth, Chain edge isRoot length node

theorem AtLevel.initial {roots : List Node} {visited : Finset Node}
    (rootsIff : ∀ node, node ∈ roots ↔ isRoot node)
    (visitedIff : ∀ node, node ∈ visited ↔ isRoot node) :
    AtLevel edge isRoot 0 roots visited where
  frontier_iff node := by rw [rootsIff, distance_zero_iff]
  visited_iff node := by
    rw [visitedIff]
    constructor
    · intro rooted
      exact ⟨0, le_rfl, .root rooted⟩
    · rintro ⟨length, lengthLe, chain⟩
      cases chain with
      | root rooted => exact rooted
      | step _ _ => omega

theorem AtLevel.mem_flatMap_iff {depth : ℕ} {frontier : List Node} {visited : Finset Node}
    {successors : Node → List Node} (atLevel : AtLevel edge isRoot depth frontier visited)
    (edges : ∀ node successor, successor ∈ successors node ↔ edge node successor) (node : Node) :
    node ∈ frontier.flatMap successors ↔
      ∃ previous, Distance edge isRoot depth previous ∧ edge previous node := by
  rw [List.mem_flatMap]
  apply exists_congr
  intro previous
  rw [atLevel.frontier_iff, edges]

/-- The target is met at a level exactly if the level is its distance. -/
theorem AtLevel.distance_iff {depth : ℕ} {frontier : List Node} {visited : Finset Node}
    {successors : Node → List Node} {target : Node}
    (atLevel : AtLevel edge isRoot depth frontier visited)
    (edges : ∀ node successor, successor ∈ successors node ↔ edge node successor)
    (unseen : target ∉ visited) :
    target ∈ frontier.flatMap successors ↔ Distance edge isRoot (depth + 1) target := by
  rw [atLevel.mem_flatMap_iff edges, distance_succ_iff, and_iff_left]
  intro length lengthLe chain
  exact unseen ((atLevel.visited_iff target).mpr ⟨length, lengthLe, chain⟩)

theorem AtLevel.depth_lt {depth : ℕ} {frontier : List Node} {visited : Finset Node}
    {target : Node} (atLevel : AtLevel edge isRoot depth frontier visited)
    (unseen : target ∉ visited) {length : ℕ} (distance : Distance edge isRoot length target) :
    depth < length := by
  by_contra near
  exact unseen ((atLevel.visited_iff target).mpr ⟨length, not_lt.mp near, distance.1⟩)

theorem AtLevel.not_distance_of_empty {depth : ℕ} {visited : Finset Node} {target : Node}
    (atLevel : AtLevel edge isRoot depth [] visited)
    (unseen : target ∉ visited) (length : ℕ) : ¬Distance edge isRoot length target := by
  intro distance
  have emptyLevel : ∀ node, ¬Distance edge isRoot depth node := by
    intro node nodeDistance
    have := (atLevel.frontier_iff node).mpr nodeDistance
    cases this
  rcases exists_shorter_chain_of_empty_level emptyLevel distance.1 with
    ⟨shorter, shorterLt, chain⟩
  exact unseen ((atLevel.visited_iff target).mpr ⟨shorter, shorterLt.le, chain⟩)

end Chains

section Search

variable [DecidableEq Node]

/-- Meet nodes in turn: collect those not seen before, and stop at the target. -/
def visit (target : Node) : List Node → Finset Node × List Node → Option (Finset Node × List Node)
  | [], state => some state
  | node :: rest, (visited, next) =>
      if node = target then none
      else if node ∈ visited then visit target rest (visited, next)
      else visit target rest (insert node visited, next ++ [node])

/-- Search level by level, from a level at distance `depth - 1` on. -/
def levels (successors : Node → List Node) (target : Node) :
    ℕ → ℕ → List Node → Finset Node → Option ℕ
  | 0, _, _, _ => none
  | remaining + 1, depth, frontier, visited =>
      match visit target (frontier.flatMap successors) (visited, []) with
      | none => some depth
      | some (visited, next) =>
          if next = [] then none else levels successors target remaining (depth + 1) next visited

variable {target : Node} {visited : Finset Node}

theorem visit_append (target : Node) (nodes rest : List Node)
    (state : Finset Node × List Node) :
    visit target (nodes ++ rest) state = (visit target nodes state).bind (visit target rest) := by
  induction nodes generalizing state with
  | nil => rfl
  | cons node nodes ih =>
      simp only [List.cons_append, visit]
      split_ifs
      · rfl
      · apply ih
      · apply ih

theorem visit_eq_none_iff (next nodes : List Node) :
    visit target nodes (visited, next) = none ↔ target ∈ nodes := by
  induction nodes generalizing visited next with
  | nil => simp [visit]
  | cons node rest ih =>
      simp only [visit]
      split_ifs with met seen
      · simp [met]
      · simp [ih, Ne.symm met]
      · simp [ih, Ne.symm met]

theorem mem_of_visit_eq_some {nodes next next' : List Node} {visited' : Finset Node}
    (result : visit target nodes (visited, next) = some (visited', next')) (node : Node) :
    (node ∈ visited' ↔ node ∈ visited ∨ node ∈ nodes) ∧
      (node ∈ next' ↔ node ∈ next ∨ node ∈ nodes ∧ node ∉ visited) := by
  induction nodes generalizing visited next with
  | nil =>
      simp only [visit, Option.some.injEq, Prod.mk.injEq] at result
      simp [result]
  | cons first rest ih =>
      simp only [visit] at result
      split_ifs at result with met seen
      · rw [(ih result).1, (ih result).2]
        grind
      · rw [(ih result).1, (ih result).2]
        grind

variable {edge : Node → Node → Prop} {isRoot : Node → Prop} {successors : Node → List Node}
  {depth : ℕ} {frontier : List Node}

theorem AtLevel.next (atLevel : AtLevel edge isRoot depth frontier visited)
    (edges : ∀ node successor, successor ∈ successors node ↔ edge node successor)
    {visited' : Finset Node} {next : List Node}
    (result : visit target (frontier.flatMap successors) (visited, []) = some (visited', next)) :
    AtLevel edge isRoot (depth + 1) next visited' where
  frontier_iff node := by
    rw [(mem_of_visit_eq_some result node).2, atLevel.mem_flatMap_iff edges,
      atLevel.visited_iff, distance_succ_iff]
    simp
  visited_iff node := by
    rw [(mem_of_visit_eq_some result node).1, atLevel.mem_flatMap_iff edges, atLevel.visited_iff]
    constructor
    · rintro (⟨length, lengthLe, chain⟩ | ⟨previous, distance, leads⟩)
      · exact ⟨length, by omega, chain⟩
      · exact ⟨depth + 1, le_rfl, .step distance.1 leads⟩
    · rintro ⟨length, lengthLe, chain⟩
      rcases exists_distance_of_chain chain with ⟨least, leastLe, distance⟩
      rcases Nat.lt_or_ge depth least with far | near
      · have leastEq : least = depth + 1 := by omega
        subst leastEq
        exact Or.inr ((distance_succ_iff depth node).mp distance).1
      · exact Or.inl ⟨least, near, distance.1⟩

theorem unseen_of_visit_eq_some {nodes next next' : List Node} {visited' : Finset Node}
    (result : visit target nodes (visited, next) = some (visited', next'))
    (unseen : target ∉ visited) : target ∉ visited' := by
  rw [(mem_of_visit_eq_some result target).1, ← visit_eq_none_iff next, result]
  simp [unseen]

/-- The search returns the distance of an unseen target if it is within the bound. -/
theorem levels_eq_some_iff
    (edges : ∀ node successor, successor ∈ successors node ↔ edge node successor)
    (remaining : ℕ) (atLevel : AtLevel edge isRoot depth frontier visited)
    (unseen : target ∉ visited) (length : ℕ) :
    levels successors target remaining (depth + 1) frontier visited = some length ↔
      length ≤ depth + remaining ∧ Distance edge isRoot length target := by
  induction remaining generalizing depth frontier visited with
  | zero =>
      simp only [levels, reduceCtorEq, Nat.add_zero, false_iff, not_and]
      intro lengthLe distance
      have := atLevel.depth_lt unseen distance
      omega
  | succ remaining ih =>
      cases result : visit target (frontier.flatMap successors) (visited, []) with
      | none =>
          have met := (atLevel.distance_iff edges unseen).mp ((visit_eq_none_iff [] _).mp result)
          simp only [levels, result, Option.some.injEq]
          constructor
          · rintro rfl
            exact ⟨by omega, met⟩
          · rintro ⟨_, distance⟩
            exact met.unique distance
      | some state =>
          rcases state with ⟨visited', next⟩
          have nextLevel := atLevel.next edges result
          have unseen' := unseen_of_visit_eq_some result unseen
          simp only [levels, result]
          split_ifs with empty
          · subst empty
            simp [nextLevel.not_distance_of_empty unseen' length]
          · rw [ih nextLevel unseen', Nat.add_right_comm, Nat.add_assoc]

end Search

end BreadthFirst

end Ppose

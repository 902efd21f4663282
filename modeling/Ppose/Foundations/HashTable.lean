import Mathlib.Data.List.AList
import Mathlib.Data.List.MinMax
import Mathlib.Data.Finset.Card

/-!
# Hash tables

A hash table is a finite map which is iterated in an order that is not specified.
Its contents are an association list, and an `IterationOrder` is one choice of the
order in which a call visits the entries; what is proved for every such order holds
for the order the table happens to have.

`retain` keeps the entries whose value satisfies a test, and `leastBy` is the first
entry of least rank in the order of iteration.
-/

namespace Ppose

universe u v

abbrev HashTable (Key : Type u) (Value : Type v) := AList fun _ : Key => Value

/-- One choice of the order in which entries are visited. -/
structure IterationOrder (Entry : Type u) where
  visit : List Entry → List Entry
  visit_perm : ∀ entries, (visit entries).Perm entries

/-- The order in which the entries are listed. -/
def IterationOrder.listed (Entry : Type u) : IterationOrder Entry := ⟨id, fun _ => .refl _⟩

namespace HashTable

variable {Key : Type u} {Value : Type v}

def size (table : HashTable Key Value) : ℕ := table.entries.length

/-- Keep the entries whose value satisfies `keep`. -/
def retain (table : HashTable Key Value) (keep : Value → Bool) : HashTable Key Value :=
  ⟨table.entries.filter fun entry => keep entry.2,
    List.NodupKeys.sublist List.filter_sublist table.nodupKeys⟩

/-- The first entry of least rank in the order of iteration. -/
def leastBy (table : HashTable Key Value) (order : IterationOrder (Σ _ : Key, Value))
    (rank : Value → ℕ) : Option (Σ _ : Key, Value) :=
  (order.visit table.entries).argmin fun entry => rank entry.2

variable {table : HashTable Key Value} {order : IterationOrder (Σ _ : Key, Value)}
  {rank : Value → ℕ}

theorem size_retain_le (table : HashTable Key Value) (keep : Value → Bool) :
    (table.retain keep).size ≤ table.size :=
  List.length_filter_le _ _

theorem size_eq_length_keys (table : HashTable Key Value) : table.size = table.keys.length := by
  simp only [size, AList.keys, List.keys, List.length_map]

theorem exists_leastBy (nonempty : 0 < table.size)
    (order : IterationOrder (Σ _ : Key, Value)) (rank : Value → ℕ) :
    ∃ least, table.leastBy order rank = some least := by
  apply Option.ne_none_iff_exists'.mp
  intro missing
  have emptyVisit := List.argmin_eq_none.mp missing
  have lengthEq := (order.visit_perm table.entries).length_eq
  rw [emptyVisit, List.length_nil] at lengthEq
  simp only [size] at nonempty
  omega

variable [DecidableEq Key]

theorem lookup_retain_eq_some_iff {keep : Value → Bool} {key : Key} {value : Value} :
    (table.retain keep).lookup key = some value ↔
      table.lookup key = some value ∧ keep value = true := by
  simp only [← Option.mem_def, AList.mem_lookup_iff, retain, List.mem_filter]

theorem lookup_erase_eq_some_iff {key other : Key} {value : Value} :
    (table.erase key).lookup other = some value ↔
      other ≠ key ∧ table.lookup other = some value := by
  by_cases same : other = key
  · subst same
    simp
  · simp [same, AList.lookup_erase_ne same]

theorem size_insert_of_notMem {key : Key} (absent : key ∉ table) (value : Value) :
    size (table.insert key value) = table.size + 1 := by
  simp only [size, AList.entries_insert_of_notMem absent, List.length_cons]

theorem size_erase_of_mem {key : Key} (present : key ∈ table) :
    size (table.erase key) + 1 = table.size := by
  have positive := List.length_pos_of_mem (AList.mem_keys.mp present)
  have lengthErase := List.length_erase_of_mem (AList.mem_keys.mp present)
  rw [size_eq_length_keys, size_eq_length_keys, AList.keys_erase]
  omega

theorem lookup_of_leastBy {least : Σ _ : Key, Value}
    (found : table.leastBy order rank = some least) : table.lookup least.1 = some least.2 := by
  have visited := List.argmin_mem (Option.mem_def.mpr found)
  have stored := (order.visit_perm _).mem_iff.mp visited
  exact AList.mem_lookup_iff.mpr stored

theorem rank_le_of_leastBy {least : Σ _ : Key, Value}
    (found : table.leastBy order rank = some least) {key : Key} {value : Value}
    (stored : table.lookup key = some value) : rank least.2 ≤ rank value := by
  have visited : (⟨key, value⟩ : Σ _ : Key, Value) ∈ order.visit table.entries :=
    (order.visit_perm _).mem_iff.mpr (AList.mem_lookup_iff.mp stored)
  unfold leastBy at found
  have notBelow := List.not_lt_of_mem_argmin visited (Option.mem_def.mpr found)
  exact not_lt.mp notBelow

end HashTable

end Ppose

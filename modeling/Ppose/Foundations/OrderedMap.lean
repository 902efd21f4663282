import Mathlib.Data.List.Sort
import Mathlib.Data.Finset.Card
import Mathlib.Tactic.Common

/-!
# Ordered maps

A finite map given by its entries in increasing key order, which is also the
order in which an ordered map is walked.  The ordering is a field of the map, so
that every value of `OrderedMap` has distinct keys.

Loops which visit every entry in key order and may rewrite its value are
expressed by a transformation of the entry list which keeps the keys
(`OrderedMap.rewrite`); loops which remove entries are filters.
-/

namespace Ppose

universe u v

/-- A finite map presented by its entries in strictly increasing key order. -/
structure OrderedMap (Key : Type u) (Value : Type v) [LinearOrder Key] where
  entries : List (Key × Value)
  sorted : (entries.map Prod.fst).Pairwise (· < ·)

namespace OrderedMap

variable {Key : Type u} {Value : Type v} [LinearOrder Key]

@[ext]
theorem ext {left right : OrderedMap Key Value} (same : left.entries = right.entries) :
    left = right := by
  cases left
  cases right
  congr

instance [DecidableEq Value] : DecidableEq (OrderedMap Key Value) := fun left right =>
  decidable_of_iff (left.entries = right.entries) ⟨OrderedMap.ext, congrArg entries⟩

def empty : OrderedMap Key Value := ⟨[], by simp⟩

instance : Inhabited (OrderedMap Key Value) := ⟨empty⟩

def keys (map : OrderedMap Key Value) : List Key := map.entries.map Prod.fst

/-- Insertion into an entry list, replacing the value of an existing key. -/
def insertEntry (key : Key) (value : Value) : List (Key × Value) → List (Key × Value)
  | [] => [(key, value)]
  | entry :: rest =>
      if key < entry.1 then (key, value) :: entry :: rest
      else if key = entry.1 then (key, value) :: rest
      else entry :: insertEntry key value rest

theorem mem_insertEntry_fst {key other : Key} {value : Value} {list : List (Key × Value)} :
    other ∈ (insertEntry key value list).map Prod.fst ↔
      other = key ∨ other ∈ list.map Prod.fst := by
  induction list with
  | nil => simp [insertEntry]
  | cons entry rest ih =>
      unfold insertEntry
      split_ifs with below same
      · simp
      · subst same
        simp
      · simp only [List.map_cons, List.mem_cons, ih]
        tauto

theorem insertEntry_sorted {key : Key} {value : Value} {list : List (Key × Value)}
    (sorted : (list.map Prod.fst).Pairwise (· < ·)) :
    ((insertEntry key value list).map Prod.fst).Pairwise (· < ·) := by
  induction list with
  | nil => simp [insertEntry]
  | cons entry rest ih =>
      rw [List.map_cons, List.pairwise_cons] at sorted
      rcases sorted with ⟨headBelow, restSorted⟩
      unfold insertEntry
      split_ifs with below same
      · simp only [List.map_cons, List.pairwise_cons, List.mem_cons]
        refine ⟨?_, headBelow, restSorted⟩
        rintro other (rfl | otherMem)
        · exact below
        · exact below.trans (headBelow other otherMem)
      · subst same
        simpa using ⟨by simpa using headBelow, restSorted⟩
      · rw [List.map_cons, List.pairwise_cons]
        refine ⟨?_, ih restSorted⟩
        intro other otherMem
        rcases mem_insertEntry_fst.mp otherMem with rfl | otherMem
        · exact lt_of_le_of_ne (not_lt.mp below) (Ne.symm same)
        · exact headBelow other otherMem

theorem insertEntry_append {key : Key} {value : Value} {lower upper : List (Key × Value)}
    (below : ∀ entry ∈ lower, entry.1 < key) (above : ∀ entry ∈ upper, key < entry.1) :
    insertEntry key value (lower ++ upper) = lower ++ (key, value) :: upper := by
  induction lower with
  | nil =>
      cases upper with
      | nil => rfl
      | cons entry rest => simp [insertEntry, above entry (by simp)]
  | cons entry rest ih =>
      have entryBelow := below entry (by simp)
      simp only [List.cons_append, insertEntry, if_neg entryBelow.not_gt, if_neg entryBelow.ne']
      rw [ih fun other otherMem => below other (by simp [otherMem])]

def insert (map : OrderedMap Key Value) (key : Key) (value : Value) : OrderedMap Key Value :=
  ⟨insertEntry key value map.entries, insertEntry_sorted map.sorted⟩

/-- Keep the entries whose key satisfies `keep`. -/
def filterKeys (map : OrderedMap Key Value) (keep : Key → Bool) : OrderedMap Key Value :=
  ⟨map.entries.filter fun entry => keep entry.1, by
    refine List.Pairwise.sublist ?_ map.sorted
    exact List.Sublist.map _ List.filter_sublist⟩

/-- Replace the entry list by one with the same keys. -/
def rewrite (map : OrderedMap Key Value) (entries : List (Key × Value))
    (sameKeys : entries.map Prod.fst = map.entries.map Prod.fst) : OrderedMap Key Value :=
  ⟨entries, sameKeys ▸ map.sorted⟩

theorem eq_of_fst_eq {list : List (Key × Value)} (sorted : (list.map Prod.fst).Pairwise (· < ·))
    {left right : Key × Value} (leftMem : left ∈ list) (rightMem : right ∈ list)
    (same : left.1 = right.1) : left = right :=
  List.inj_on_of_nodup_map (sorted.imp fun below => below.ne) leftMem rightMem same

theorem dropWhile_eq_false {holds : Key × Value → Bool} {list : List (Key × Value)}
    (sorted : (list.map Prod.fst).Pairwise (· < ·))
    (downward : ∀ later ∈ list, ∀ earlier ∈ list, earlier.1 < later.1 →
      holds later = true → holds earlier = true) :
    ∀ entry ∈ list.dropWhile holds, holds entry = false := by
  induction list with
  | nil => simp
  | cons head rest ih =>
      rw [List.map_cons, List.pairwise_cons] at sorted
      cases headHolds : holds head with
      | true =>
          rw [List.dropWhile_cons_of_pos headHolds]
          exact ih sorted.2 fun later laterMem earlier earlierMem =>
            downward later (List.mem_cons_of_mem _ laterMem) earlier
              (List.mem_cons_of_mem _ earlierMem)
      | false =>
          rw [List.dropWhile_cons_of_neg (by simp [headHolds])]
          intro entry entryMem
          rcases List.mem_cons.mp entryMem with rfl | inRest
          · exact headHolds
          · by_contra entryHolds
            have below := sorted.1 entry.1 (List.mem_map_of_mem inRest)
            have := downward entry entryMem head List.mem_cons_self below
              (by simpa using entryHolds)
            simp [headHolds] at this

def length (map : OrderedMap Key Value) : ℕ := map.entries.length

end OrderedMap

end Ppose

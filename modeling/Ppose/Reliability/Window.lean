import Ppose.Foundations.Bitmap
import Ppose.Foundations.SelectiveRepeat
import Ppose.Reliability.Arq

/-!
# The receive window as a set of sequence numbers

A receive window is a wrapping `u32` base and a 64-bit bitmap.  It represents the
finite set of unbounded sequence numbers accepted so far: the base is the first
missing number modulo `2 ^ 32`, bit `i` tells whether the `i`-th number from there
on was accepted, and nothing further ahead was.

`markReceived` then inserts into that set (`markReceived_fresh`,
`markReceived_stale`), and `acked` decides membership in the set from which an
acknowledgement was made (`acked_iff`), each within the distances at which the
modular comparisons are unambiguous.
-/

namespace Ppose

namespace Arq

/-- How many sequence numbers the receiver tracks above its base. -/
abbrev receiveWindow : ℕ := 64

/-- A base and bitmap represent the finite set of accepted sequence numbers. -/
structure Represents (base : UInt32) (bits : UInt64) (accepted : Finset ℕ) : Prop where
  base_eq : base = UInt32.ofNat (firstMissing accepted)
  bit_iff : ∀ index < receiveWindow,
    bits.toNat.testBit index = true ↔ firstMissing accepted + index ∈ accepted
  windowed : Windowed receiveWindow accepted

/-- The wrapping distance of two sequence numbers. -/
theorem toNat_ofNat_sub_ofNat (number origin : ℕ) :
    (UInt32.ofNat number - UInt32.ofNat origin).toNat =
      (2 ^ 32 - origin % 2 ^ 32 + number % 2 ^ 32) % 2 ^ 32 := by
  rw [UInt32.toNat_sub, UInt32.toNat_ofNat', UInt32.toNat_ofNat']

theorem toNat_ofNat_sub_ofNat_of_le {number origin : ℕ} (atLeast : origin ≤ number)
    (near : number < origin + 2 ^ 32) :
    (UInt32.ofNat number - UInt32.ofNat origin).toNat = number - origin := by
  rw [toNat_ofNat_sub_ofNat]
  omega

variable {base : UInt32} {bits : UInt64} {accepted : Finset ℕ}

theorem Represents.bit_iff_of_any (represents : Represents base bits accepted) (index : ℕ) :
    bits.toNat.testBit index = true ↔ firstMissing accepted + index ∈ accepted := by
  rcases lt_or_ge index receiveWindow with near | far
  · exact represents.bit_iff index near
  · simp only [Bitmap.testBit_ge bits far, Bool.false_eq_true, false_iff]
    intro present
    have := represents.windowed _ present
    omega

theorem represents_range (bound : ℕ) :
    Represents (UInt32.ofNat bound) 0 (Finset.range bound) where
  base_eq := by rw [firstMissing_range]
  bit_iff := by simp
  windowed := Windowed.range _ _

/-- The loop skips exactly the run of set bits at the bottom of the bitmap. -/
theorem slide_spec (rounds : ℕ) (base : UInt32) (bits : UInt64) :
    ∃ shift ≤ rounds,
      (slide rounds base bits).1 = base + UInt32.ofNat shift ∧
      (∀ index, (slide rounds base bits).2.toNat.testBit index =
        bits.toNat.testBit (shift + index)) ∧
      (∀ index < shift, bits.toNat.testBit index = true) ∧
      (shift < rounds → bits.toNat.testBit shift = false) := by
  induction rounds generalizing base bits with
  | zero => exact ⟨0, le_rfl, by simp [slide], by simp [slide], by simp, by simp⟩
  | succ rounds ih =>
      by_cases lowest : bits &&& 1 = 1
      · rcases ih (base + 1) (bits >>> 1) with ⟨shift, shiftLe, baseEq, bitsEq, below, stops⟩
        have shifted : ∀ index, (bits >>> 1).toNat.testBit index =
            bits.toNat.testBit (1 + index) := by
          intro index
          exact Bitmap.testBit_shiftRight bits (by simp) index
        refine ⟨shift + 1, by omega, ?_, ?_, ?_, ?_⟩
        · rw [slide, if_pos lowest, baseEq]
          simp only [UInt32.ofNat_add, UInt32.add_assoc]
          rw [UInt32.add_comm 1]
          rfl
        · intro index
          rw [slide, if_pos lowest, bitsEq, shifted]
          congr 1
          omega
        · intro index indexLt
          rcases index with _ | index
          · exact (Bitmap.and_one_eq_one_iff bits).mp lowest
          · have := below index (by omega)
            rwa [shifted, Nat.add_comm] at this
        · intro shiftLt
          have := stops (by omega)
          rwa [shifted, Nat.add_comm] at this
      · refine ⟨0, by omega, ?_, ?_, by simp, ?_⟩
        · simp [slide, lowest]
        · simp [slide, lowest]
        · intro _
          simpa [Bitmap.and_one_eq_one_iff] using lowest

/-- Sixty-four rounds always leave the lowest bit clear, so the loop has ended. -/
theorem slide_lowest_clear (base : UInt32) (bits : UInt64) :
    (slide 64 base bits).2 &&& 1 ≠ 1 := by
  rcases slide_spec 64 base bits with ⟨shift, shiftLe, _, bitsEq, _, stops⟩
  rw [ne_eq, Bitmap.and_one_eq_one_iff, bitsEq, Nat.add_zero, Bool.not_eq_true]
  rcases Nat.lt_or_ge shift 64 with early | late
  · exact stops early
  · exact Bitmap.testBit_ge bits late

/-- The shifting loop as a relation: it has a result only where it comes to an end. -/
inductive Slides : UInt32 → UInt64 → UInt32 × UInt64 → Prop where
  | done {base : UInt32} {bits : UInt64} (clear : bits &&& 1 ≠ 1) : Slides base bits (base, bits)
  | shift {base : UInt32} {bits : UInt64} {result : UInt32 × UInt64} (set : bits &&& 1 = 1)
      (rest : Slides (base + 1) (bits >>> 1) result) : Slides base bits result

theorem slides_slide {rounds : ℕ} {base : UInt32} {bits : UInt64}
    (ended : (slide rounds base bits).2 &&& 1 ≠ 1) :
    Slides base bits (slide rounds base bits) := by
  induction rounds generalizing base bits with
  | zero => exact Slides.done ended
  | succ rounds ih =>
      by_cases lowest : bits &&& 1 = 1
      · simp only [slide, if_pos lowest] at ended ⊢
        exact Slides.shift lowest (ih ended)
      · simp only [slide, if_neg lowest]
        exact Slides.done lowest

theorem Slides.unique {base : UInt32} {bits : UInt64} {first second : UInt32 × UInt64}
    (left : Slides base bits first) (right : Slides base bits second) : first = second := by
  induction left with
  | done clear =>
      cases right with
      | done => rfl
      | shift set => exact absurd set clear
  | shift set _ ih =>
      cases right with
      | done clear => exact absurd set clear
      | shift _ rest => exact ih rest

/-- The loop ends from every state, with the result of the bounded one. -/
theorem slides_iff (base : UInt32) (bits : UInt64) (result : UInt32 × UInt64) :
    Slides base bits result ↔ result = slide 64 base bits := by
  have ends := slides_slide (slide_lowest_clear base bits)
  constructor
  · intro slides
    exact slides.unique ends
  · rintro rfl
    exact ends

/-- Sliding turns the bitmap of an extended set into a representation of it. -/
theorem Represents.slide_insert {number : ℕ} (represents : Represents base bits accepted)
    {extended : UInt64} (inWindow : number < firstMissing accepted + receiveWindow)
    (extendedBits : ∀ index, extended.toNat.testBit index = true ↔
      firstMissing accepted + index ∈ insert number accepted) :
    Represents (slide 64 base extended).1 (slide 64 base extended).2 (insert number accepted) := by
  rcases slide_spec 64 base extended with ⟨shift, shiftLe, baseEq, bitsEq, below, stops⟩
  have stopped : extended.toNat.testBit shift = false := by
    rcases Nat.lt_or_ge shift 64 with early | late
    · exact stops early
    · exact Bitmap.testBit_ge extended late
  have first : firstMissing (insert number accepted) = firstMissing accepted + shift := by
    apply firstMissing_eq
    · rw [← extendedBits, stopped]
      simp
    · intro other otherLt
      rcases Nat.lt_or_ge other (firstMissing accepted) with old | fresh
      · exact Finset.mem_insert_of_mem (mem_of_lt_firstMissing old)
      · have := (extendedBits (other - firstMissing accepted)).mp (below _ (by omega))
        rwa [Nat.add_sub_cancel' fresh] at this
  constructor
  · rw [baseEq, represents.base_eq, first, UInt32.ofNat_add]
  · intro index _
    rw [bitsEq, extendedBits, first, Nat.add_assoc]
  · exact represents.windowed.insert inWindow

variable {arq : Arq} {number : ℕ}

theorem markReceived_fresh (represents : Represents arq.recvBase arq.recvBits accepted)
    (atLeast : firstMissing accepted ≤ number)
    (inWindow : number < firstMissing accepted + receiveWindow) (fresh : number ∉ accepted) :
    ∃ base bits, Represents base bits (insert number accepted) ∧
      arq.markReceived (UInt32.ofNat number) =
        (true, { arq with recvBase := base, recvBits := bits }) := by
  have ahead : (UInt32.ofNat number - arq.recvBase).toNat = number - firstMissing accepted := by
    rw [represents.base_eq]
    apply toNat_ofNat_sub_ofNat_of_le atLeast
    simp only [receiveWindow] at inWindow
    omega
  have small : (UInt32.ofNat number - arq.recvBase).toUInt64.toNat < 64 := by
    rw [UInt32.toNat_toUInt64, ahead]
    simp only [receiveWindow] at inWindow
    omega
  have near : ¬(64 : UInt32) ≤ UInt32.ofNat number - arq.recvBase := by
    rw [UInt32.le_iff_toNat_le, ahead]
    simp only [receiveWindow] at inWindow
    simp
    omega
  have unset : ¬arq.recvBits &&& 1 <<< (UInt32.ofNat number - arq.recvBase).toUInt64 ≠ 0 := by
    rw [Bitmap.and_singleBit_ne_zero_iff _ small, UInt32.toNat_toUInt64, ahead,
      represents.bit_iff_of_any, Nat.add_sub_cancel' atLeast]
    exact fresh
  let slid := slide 64 arq.recvBase
    (arq.recvBits ||| 1 <<< (UInt32.ofNat number - arq.recvBase).toUInt64)
  refine ⟨slid.1, slid.2, ?_, ?_⟩
  · apply represents.slide_insert inWindow
    intro index
    rw [Bitmap.testBit_or_singleBit _ small, UInt32.toNat_toUInt64, ahead, Bool.or_eq_true,
      represents.bit_iff_of_any, decide_eq_true_iff, Finset.mem_insert]
    constructor
    · rintro (old | rfl)
      · exact Or.inr old
      · exact Or.inl (Nat.add_sub_cancel' atLeast)
    · rintro (new | old)
      · right
        omega
      · exact Or.inl old
  · simp only [markReceived, if_neg near, if_neg unset, slid]

/-- An accepted number, or one outside the window, changes nothing. -/
theorem markReceived_stale (represents : Represents arq.recvBase arq.recvBits accepted)
    (notAlias : firstMissing accepted ≤ number + (2 ^ 32 - receiveWindow))
    (notAhead : number < firstMissing accepted + 2 ^ 32)
    (stale : number ∈ accepted ∨ firstMissing accepted + receiveWindow ≤ number) :
    arq.markReceived (UInt32.ofNat number) = (false, arq) := by
  simp only [receiveWindow] at notAlias stale
  have ahead : (UInt32.ofNat number - arq.recvBase).toNat =
      (2 ^ 32 - firstMissing accepted % 2 ^ 32 + number % 2 ^ 32) % 2 ^ 32 := by
    rw [represents.base_eq, toNat_ofNat_sub_ofNat]
  by_cases near : (64 : UInt32) ≤ UInt32.ofNat number - arq.recvBase
  · simp [markReceived, near]
  · have nearNat : (UInt32.ofNat number - arq.recvBase).toNat < 64 := by
      simpa [UInt32.le_iff_toNat_le] using near
    have atLeast : firstMissing accepted ≤ number := by
      by_contra below
      omega
    have distance : (UInt32.ofNat number - arq.recvBase).toNat =
        number - firstMissing accepted := by omega
    have present : number ∈ accepted := by
      rcases stale with present | far
      · exact present
      · omega
    have small : (UInt32.ofNat number - arq.recvBase).toUInt64.toNat < 64 := by
      rwa [UInt32.toNat_toUInt64]
    have set : arq.recvBits &&& 1 <<< (UInt32.ofNat number - arq.recvBase).toUInt64 ≠ 0 := by
      rw [Bitmap.and_singleBit_ne_zero_iff _ small, UInt32.toNat_toUInt64, distance,
        represents.bit_iff_of_any, Nat.add_sub_cancel' atLeast]
      exact present
    simp only [markReceived, if_neg near, if_pos set]

/-- The accepted numbers once one more has arrived; what lies ahead of the window is dropped. -/
def arrive (accepted : Finset ℕ) (number : ℕ) : Finset ℕ :=
  if number < firstMissing accepted + receiveWindow then insert number accepted else accepted

/-- What an arrival near enough to be unambiguous does. -/
theorem markReceived_cases (represents : Represents arq.recvBase arq.recvBits accepted)
    (notAlias : firstMissing accepted ≤ number + (2 ^ 32 - receiveWindow))
    (notAhead : number < firstMissing accepted + 2 ^ 32) :
    (number ∉ accepted ∧ number < firstMissing accepted + receiveWindow ∧
      arrive accepted number = insert number accepted ∧
      ∃ base bits, Represents base bits (insert number accepted) ∧
        arq.markReceived (UInt32.ofNat number) =
          (true, { arq with recvBase := base, recvBits := bits })) ∨
    ((number ∈ accepted ∨ firstMissing accepted + receiveWindow ≤ number) ∧
      arrive accepted number = accepted ∧
      arq.markReceived (UInt32.ofNat number) = (false, arq)) := by
  by_cases fresh : number ∉ accepted ∧ number < firstMissing accepted + receiveWindow
  · left
    refine ⟨fresh.1, fresh.2, if_pos fresh.2, ?_⟩
    exact markReceived_fresh represents (firstMissing_le fresh.1) fresh.2 fresh.1
  · right
    have stale : number ∈ accepted ∨ firstMissing accepted + receiveWindow ≤ number := by
      rw [not_and_or, not_not, not_lt] at fresh
      exact fresh
    refine ⟨stale, ?_, markReceived_stale represents notAlias notAhead stale⟩
    unfold arrive
    split_ifs with near
    · exact Finset.insert_eq_of_mem (stale.resolve_right (by omega))
    · rfl

/-- An endpoint beside the true numbers of the arrivals it took as new. -/
structure Arrivals where
  arq : Arq
  accepted : Finset ℕ

namespace Arrivals

def start : Arrivals where
  arq := Arq.new
  accepted := ∅

/-- The lowest number not accepted so far. -/
def lowest (arrivals : Arrivals) : ℕ := firstMissing arrivals.accepted

/-- An arrival is recorded by its number modulo `2 ^ 32`. -/
def arrive (arrivals : Arrivals) (number : ℕ) : Arrivals where
  arq := (arrivals.arq.markReceived (UInt32.ofNat number)).2
  accepted :=
    if (arrivals.arq.markReceived (UInt32.ofNat number)).1 then insert number arrivals.accepted
    else arrivals.accepted

def run (numbers : List ℕ) : Arrivals := numbers.foldl arrive start

/-- Every arrival is nearer than `2 ^ 32 - 64` to what is the lowest missing number by then. -/
def Near (numbers : List ℕ) : Prop :=
  ∀ (before : List ℕ) (number : ℕ), before ++ [number] <+: numbers →
    |(number : ℤ) - (run before).lowest| < 2 ^ 32 - 64

@[simp]
theorem run_append_singleton (numbers : List ℕ) (number : ℕ) :
    run (numbers ++ [number]) = (run numbers).arrive number := by
  simp [run]

theorem near_append_singleton_iff (numbers : List ℕ) (number : ℕ) :
    Near (numbers ++ [number]) ↔
      Near numbers ∧ |(number : ℤ) - (run numbers).lowest| < 2 ^ 32 - 64 := by
  constructor
  · intro near
    refine ⟨?_, near numbers number (List.prefix_refl _)⟩
    intro before other isPrefix
    exact near before other (isPrefix.trans (List.prefix_append _ _))
  · rintro ⟨near, last⟩ before other isPrefix
    rcases List.prefix_concat_iff.mp isPrefix with whole | earlier
    · rcases List.append_inj' whole rfl with ⟨rfl, same⟩
      cases same
      exact last
    · exact near before other earlier

/-- One arrival: the answer is that of the unbounded window, which is represented again. -/
theorem arrive_spec {arrivals : Arrivals}
    (represents : Represents arrivals.arq.recvBase arrivals.arq.recvBits arrivals.accepted)
    {number : ℕ} (near : |(number : ℤ) - arrivals.lowest| < 2 ^ 32 - 64) :
    ((arrivals.arq.markReceived (UInt32.ofNat number)).1 = true ↔
      arrivals.lowest ≤ number ∧ number < arrivals.lowest + 64 ∧ number ∉ arrivals.accepted) ∧
    Represents (arrivals.arrive number).arq.recvBase (arrivals.arrive number).arq.recvBits
      (arrivals.arrive number).accepted := by
  simp only [lowest] at near ⊢
  rw [abs_lt] at near
  have notAlias : firstMissing arrivals.accepted ≤ number + (2 ^ 32 - receiveWindow) := by
    simp only [receiveWindow]
    omega
  rcases markReceived_cases represents notAlias (by omega) with
    ⟨fresh, inWindow, _, base, bits, extended, marked⟩ | ⟨stale, _, marked⟩
  · simp only [Arrivals.arrive, marked, if_true]
    exact ⟨by simpa using ⟨firstMissing_le fresh, inWindow, fresh⟩, extended⟩
  · simp only [Arrivals.arrive, marked, Bool.false_eq_true, if_false, false_iff]
    refine ⟨?_, represents⟩
    rintro ⟨_, inWindow, fresh⟩
    rcases stale with old | far
    · exact fresh old
    · exact absurd inWindow (not_lt.mpr far)

theorem represents_run {numbers : List ℕ} (near : Near numbers) :
    Represents (run numbers).arq.recvBase (run numbers).arq.recvBits (run numbers).accepted := by
  induction numbers using List.reverseRecOn with
  | nil => exact represents_range 0
  | append_singleton numbers number ih =>
      rcases (near_append_singleton_iff numbers number).mp near with ⟨earlier, last⟩
      rw [run_append_singleton]
      exact (arrive_spec (ih earlier) last).2

/--
The wrapped window refines the unbounded one: after any arrivals, one more is
taken as new exactly when its true number is in the window above the lowest
missing number and was not accepted, and the base and bitmap then are those of the
accepted numbers.  The shifting loop behind it ends from every state.
-/
theorem markReceived_refines {numbers : List ℕ} {number : ℕ} (near : Near (numbers ++ [number])) :
    (((run numbers).arq.markReceived (UInt32.ofNat number)).1 = true ↔
      (run numbers).lowest ≤ number ∧ number < (run numbers).lowest + 64 ∧
        number ∉ (run numbers).accepted) ∧
    (let after := run (numbers ++ [number])
     IsLeast {missing | missing ∉ after.accepted} after.lowest ∧
     after.arq.recvBase = UInt32.ofNat after.lowest ∧
     (∀ index < 64, after.arq.recvBits.toNat.testBit index = true ↔
       after.lowest + index ∈ after.accepted) ∧
     after.arq.recvBits.toNat.testBit 0 = false ∧
     ∀ other ∈ after.accepted, other < after.lowest + 64) ∧
    ∀ base bits, ∃ result, ∀ other, Slides base bits other ↔ other = result := by
  refine ⟨?_, ?_, ?_⟩
  · rcases (near_append_singleton_iff numbers number).mp near with ⟨earlier, last⟩
    exact (arrive_spec (represents_run earlier) last).1
  · have represents := represents_run near
    refine ⟨⟨firstMissing_notMem _, fun _ missing => firstMissing_le missing⟩,
      represents.base_eq, represents.bit_iff, ?_, represents.windowed⟩
    rw [← Bool.not_eq_true, represents.bit_iff 0 (by decide), Nat.add_zero]
    exact firstMissing_notMem _
  · intro base bits
    exact ⟨slide 64 base bits, slides_iff base bits⟩

theorem markReceived_refines_gap :
    Near ([1] ++ [0]) ∧
      (run ([1] ++ [0])).arq.recvBase = UInt32.ofNat (run ([1] ++ [0])).lowest := by
  have lowestAtFirst : (run []).lowest = 0 := firstMissing_eq (by decide +kernel) (by simp)
  have lowestAtSecond : (run [1]).lowest = 0 := firstMissing_eq (by decide +kernel) (by simp)
  have none : Near [] := by
    intro before number isPrefix
    simp at isPrefix
  have first : Near ([] ++ [1]) :=
    (near_append_singleton_iff [] 1).mpr ⟨none, by rw [lowestAtFirst, abs_lt]; omega⟩
  have near : Near ([1] ++ [0]) :=
    (near_append_singleton_iff [1] 0).mpr ⟨first, by rw [lowestAtSecond, abs_lt]; omega⟩
  exact ⟨near, (markReceived_refines near).2.1.2.1⟩

end Arrivals

/--
An acknowledgement covers exactly the set it was made from, as long as its base
is less than a million ahead of the number and the number is not so far ahead of
the base that the modular distance reads as behind.
-/
theorem acked_iff (number : ℕ) (represents : Represents base bits accepted)
    (notFarBehind : firstMissing accepted < number + 1000000)
    (notFarAhead : number ≤ firstMissing accepted + (2 ^ 32 - 1000000)) :
    acked base bits (UInt32.ofNat number) = true ↔ number ∈ accepted := by
  have ahead : (UInt32.ofNat number - base).toNat =
      (2 ^ 32 - firstMissing accepted % 2 ^ 32 + number % 2 ^ 32) % 2 ^ 32 := by
    rw [represents.base_eq, toNat_ofNat_sub_ofNat]
  have behind : (base - UInt32.ofNat number).toNat =
      (2 ^ 32 - number % 2 ^ 32 + firstMissing accepted % 2 ^ 32) % 2 ^ 32 := by
    rw [represents.base_eq, toNat_ofNat_sub_ofNat]
  by_cases near : UInt32.ofNat number - base < 64
  · have nearNat : (UInt32.ofNat number - base).toNat < 64 := by
      simpa [UInt32.lt_iff_toNat_lt] using near
    have atLeast : firstMissing accepted ≤ number := by omega
    have distance : (UInt32.ofNat number - base).toNat = number - firstMissing accepted := by omega
    have small : (UInt32.ofNat number - base).toUInt64.toNat < 64 := by
      rwa [UInt32.toNat_toUInt64]
    simp only [acked, if_pos near, decide_eq_true_eq]
    rw [Bitmap.and_one_eq_one_iff, Bitmap.testBit_shiftRight _ small, Nat.add_zero,
      UInt32.toNat_toUInt64, distance, represents.bit_iff_of_any, Nat.add_sub_cancel' atLeast]
  · have farNat : 64 ≤ (UInt32.ofNat number - base).toNat := by
      simpa [UInt32.lt_iff_toNat_lt] using near
    have covers : acked base bits (UInt32.ofNat number) = true ↔
        0 < (base - UInt32.ofNat number).toNat ∧
          (base - UInt32.ofNat number).toNat < 1000000 := by
      simp only [acked, if_neg near, decide_eq_true_eq]
      simp [UInt32.lt_iff_toNat_lt]
    rw [covers]
    rcases lt_or_ge number (firstMissing accepted) with below | above
    · simp only [mem_of_lt_firstMissing below, iff_true]
      omega
    · have absent : number ∉ accepted := by
        intro present
        have := represents.windowed number present
        simp only [receiveWindow] at this
        omega
      simp only [absent, iff_false]
      omega

end Arq

end Ppose

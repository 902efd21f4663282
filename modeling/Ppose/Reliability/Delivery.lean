import Ppose.Reliability.Tracking
import Mathlib.Data.List.Perm.Basic
import Mathlib.Data.List.NodupEquivFin

/-!
# Delivery over an unreliable channel

The receiver never delivers a message twice, never invents one and never alters
one; and what the sender has forgotten, the receiver has accepted.  Both are read
off the flow which tracks the direction: the receiver has pushed exactly the
messages all of whose fragments were accepted, each once, and the flow invariant
says that every number no longer outstanding was accepted.

Nothing in `onData` rules out that a fragment meets a stale buffer of a message
which carried the same recycled identifier.  That it cannot happen is part of the
reassembly invariant (`partly_unique`).
-/

namespace Ppose

namespace Arq

variable {sender receiver : Endpoint} {flow : Flow}

/-- What the receiver pushed comes from pairwise different positions of what was enqueued. -/
theorem Reassembly.exists_origin {messages : List Bytes} {accepted : Finset ℕ}
    {fragments : AList fun _ : UInt16 => FragBuf} {pushed : List Bytes}
    (reassembly : Reassembly messages accepted fragments pushed) :
    ∃ origin : Fin pushed.length → Fin messages.length, Function.Injective origin ∧
      ∀ delivery, pushed.get delivery = messages.get (origin delivery) := by
  rcases reassembly.pushed_complete with ⟨order, nodup, rfl, orderIff⟩
  have lengthEq : (order.map fun position => messages.getD position []).length = order.length :=
    List.length_map _
  have inside : ∀ position ∈ order, position < messages.length := by
    intro position positionMem
    rcases (orderIff position).mp positionMem with ⟨message, present, _⟩
    exact (List.getElem?_eq_some_iff.mp present).1
  refine ⟨fun delivery => ⟨order.get (delivery.cast lengthEq),
    inside _ (List.get_mem _ _)⟩, ?_, ?_⟩
  · intro first second same
    rw [Fin.mk.injEq] at same
    have sameIndex := List.nodup_iff_injective_get.mp nodup same
    exact Fin.cast_injective lengthEq sameIndex
  · intro delivery
    have positionLt := inside _ (List.get_mem order (delivery.cast lengthEq))
    simp only [List.get_eq_getElem, List.getElem_map, Fin.val_cast] at positionLt ⊢
    rw [List.getD_eq_getElem _ _ positionLt]

theorem Reassembly.pushed_perm {messages : List Bytes} {accepted : Finset ℕ}
    {fragments : AList fun _ : UInt16 => FragBuf} {pushed : List Bytes}
    (reassembly : Reassembly messages accepted fragments pushed)
    (allAccepted : ∀ number < totalFragments messages, number ∈ accepted) :
    pushed.Perm messages := by
  rcases reassembly.pushed_complete with ⟨order, nodup, rfl, orderIff⟩
  have orderPerm : order.Perm (List.range messages.length) := by
    rw [List.perm_ext_iff_of_nodup nodup List.nodup_range]
    intro position
    rw [orderIff, List.mem_range]
    constructor
    · rintro ⟨message, present, _⟩
      exact (List.getElem?_eq_some_iff.mp present).1
    · intro positionLt
      have present : messages[position]? = some messages[position] :=
        List.getElem?_eq_getElem positionLt
      exact ⟨messages[position], present,
        fun index indexLt => allAccepted _ (startOf_add_lt_total present indexLt)⟩
  have inOrder : (List.range messages.length).map (fun position => messages.getD position []) =
      messages := by
    apply List.ext_getElem
    · simp
    · intro position _ positionLt
      simp [positionLt]
  exact (orderPerm.map _).trans (.of_eq inOrder)

theorem Linked.accepted_of_forgotten (linked : Linked sender receiver flow) {number : ℕ}
    (wasQueued : number < sender.fragmentsEnqueued)
    (forgotten : UInt32.ofNat number ∉ sender.arq.unacked.keys) :
    number ∈ flow.accepted ∧ UInt32.ofNat number ∈ receiver.accepted := by
  have notHeld : number ∉ flow.outstanding := by
    intro isHeld
    rcases (linked.sends.outstanding_iff number).mp isHeld with ⟨entry, entryMem, rfl⟩
    rw [UInt32.ofNat_toNat] at forgotten
    exact forgotten (List.mem_map_of_mem entryMem)
  have wasAccepted := linked.valid.forgotten_accepted number
    (linked.sends.queued_eq ▸ wasQueued) notHeld
  rcases (linked.receives.accepted_iff number).mp wasAccepted with ⟨seq, seqMem, rfl⟩
  rw [UInt32.ofNat_toNat]
  exact ⟨wasAccepted, seqMem⟩

/-- With nothing left to be acknowledged, all that was queued is accepted. -/
theorem Linked.accepted_of_allAcked (linked : Linked sender receiver flow)
    (allAcked : sender.arq.unackedLen = 0) {number : ℕ}
    (wasQueued : number < totalFragments sender.enqueued) : number ∈ flow.accepted := by
  have noEntries : sender.arq.unacked.entries = [] := List.length_eq_zero_iff.mp allAcked
  apply (linked.accepted_of_forgotten wasQueued _).1
  simp [OrderedMap.keys, noEntries]

namespace Net

/--
In every run, the messages pushed at one side are an injective selection of the
messages enqueued at the other, each unaltered.
-/
theorem pushed_injects_into_enqueued (actions : List Action) (side : Side)
    (bounded : (run actions).Bounded) :
    ∃ origin : Fin ((run actions).endpoint side.peer).pushed.length →
        Fin ((run actions).endpoint side).enqueued.length,
      Function.Injective origin ∧
      ∀ delivery, ((run actions).endpoint side.peer).pushed.get delivery =
        ((run actions).endpoint side).enqueued.get (origin delivery) := by
  rcases linkedBy_run actions bounded with ⟨flows, linked⟩
  exact (linked side).receives.reassembly.exists_origin

/-- The left side sends a message, which arrives twice and is acknowledged. -/
def exchange : List Action :=
  [.perform .left (.enqueue [1, 2, 3]), .perform .left (.takeNewSends 0), .deliver .right 0,
    .deliver .right 0, .deliver .left 0]

theorem pushed_injects_into_enqueued_exchange :
    ((run exchange).endpoint .right).pushed = [[1, 2, 3]] ∧
    ∃ origin : Fin ((run exchange).endpoint .right).pushed.length →
        Fin ((run exchange).endpoint .left).enqueued.length,
      Function.Injective origin ∧
      ∀ delivery, ((run exchange).endpoint .right).pushed.get delivery =
        ((run exchange).endpoint .left).enqueued.get (origin delivery) :=
  ⟨by decide +kernel,
    pushed_injects_into_enqueued exchange .left (by decide +kernel)⟩

/--
In every run, a fragment of an enqueued message which left `unacked` was accepted
by the peer; so once `unackedLen` is zero, the peer has pushed every enqueued
message, each exactly once.
-/
theorem accepted_of_not_unacked (actions : List Action) (side : Side)
    (bounded : (run actions).Bounded) :
    (∀ position message index,
      ((run actions).endpoint side).enqueued[position]? = some message →
      index < fragCount message →
      UInt32.ofNat (startOf ((run actions).endpoint side).enqueued position + index) ∉
        ((run actions).endpoint side).arq.unacked.keys →
      UInt32.ofNat (startOf ((run actions).endpoint side).enqueued position + index) ∈
        ((run actions).endpoint side.peer).accepted) ∧
    (((run actions).endpoint side).arq.unackedLen = 0 →
      ((run actions).endpoint side.peer).pushed.Perm ((run actions).endpoint side).enqueued) := by
  rcases linkedBy_run actions bounded with ⟨flows, linked⟩
  refine ⟨?_, ?_⟩
  · intro position message index present indexLt forgotten
    exact ((linked side).accepted_of_forgotten (startOf_add_lt_total present indexLt)
      forgotten).2
  · intro allAcked
    have noEntries : ((run actions).endpoint side).arq.unacked.entries = [] :=
      List.length_eq_zero_iff.mp allAcked
    apply (linked side).receives.reassembly.pushed_perm
    intro number wasQueued
    apply ((linked side).accepted_of_forgotten wasQueued _).1
    simp [OrderedMap.keys, noEntries]

theorem accepted_of_not_unacked_exchange :
    ((run exchange).endpoint .left).arq.unackedLen = 0 ∧
      (0 : UInt32) ∈ ((run exchange).endpoint .right).accepted ∧
      ((run exchange).endpoint .right).pushed.Perm ((run exchange).endpoint .left).enqueued := by
  have bounded : (run exchange).Bounded := by decide +kernel
  have allAcked : ((run exchange).endpoint .left).arq.unackedLen = 0 := by decide +kernel
  refine ⟨allAcked, ?_, (accepted_of_not_unacked exchange .left bounded).2 allAcked⟩
  exact (accepted_of_not_unacked exchange .left bounded).1 0 [1, 2, 3] 0 (by decide +kernel)
    (by decide +kernel) (by decide +kernel)

end Net

end Arq

end Ppose

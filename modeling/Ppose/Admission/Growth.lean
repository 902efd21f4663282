import Ppose.Admission.Spread
import Ppose.Foundations.Branching
import Mathlib.Data.Set.Card

/-!
# What a coalition can bring in

Some admitted keys turn out to be in the wrong hands, and invite each other and anybody
else as they please.  Compare the store with the one in which none of their invitations
came in (`withoutInvitesOf`): under a fixed cap, the subjects which are admitted in the
one store and not in the other are no more than those which fit behind the members of the
coalition which were admitted without its help (`coalition_admits_few`).  Members which
the coalition itself has brought in do not count, however many they are.
-/

namespace Ppose

namespace Admission

variable {ed : Ed25519}

namespace TrustStore

variable {store other : TrustStore ed}

/-- The table of the issuer after an ingest depends on its table before and on the cap. -/
theorem subjectsOf_ingest_congr {invite : Invitation ed}
    (capEq : store.maxInviteesPerIssuer = other.maxInviteesPerIssuer)
    (subjectsEq : store.subjectsOf invite.issuer.asBytes = other.subjectsOf invite.issuer.asBytes)
    (now : UInt64) :
    (store.ingest invite now).2.subjectsOf invite.issuer.asBytes =
      (other.ingest invite now).2.subjectsOf invite.issuer.asBytes := by
  simp only [ingest, capEq, subjectsEq]
  cases invite.verify now with
  | error error => exact subjectsEq
  | ok _ =>
      split_ifs
      · simp [subjectsOf]
      · simp [subjectsOf]

theorem mem_storedSubjects_of_vouches {now : UInt64} {issuer subject : Block 32}
    (wellFormed : store.WellFormed) (vouches : store.Vouches now issuer subject) :
    subject ∈ store.storedSubjects issuer := by
  rcases (vouches_iff wellFormed now issuer subject).mp vouches with ⟨invite, found, _⟩
  exact mem_storedSubjects_iff.mpr ⟨invite, found⟩

end TrustStore

/-- The operation ingests an invitation from a member of the coalition. -/
def Op.isInviteOf (coalition : Finset (Block 32)) : Op ed → Bool
  | .ingest invite _ => invite.issuer.asBytes ∈ coalition
  | _ => false

namespace Record

variable {coalition : Finset (Block 32)}

/-- The run without the invitations of the coalition. -/
def withoutInvitesOf (coalition : Finset (Block 32)) (ops : List (Op ed)) : List (Op ed) :=
  ops.filter fun op => !op.isInviteOf coalition

/-- A store is like another one, save for the tables of the coalition, which are empty. -/
structure Lacks (coalition : Finset (Block 32)) (honest store : TrustStore ed) : Prop where
  roots_eq : honest.roots = store.roots
  cap_eq : honest.maxInviteesPerIssuer = store.maxInviteesPerIssuer
  subjects_eq : ∀ issuer, issuer ∉ coalition → honest.subjectsOf issuer = store.subjectsOf issuer
  empty : ∀ issuer ∈ coalition, honest.subjectsOf issuer = ∅

theorem Lacks.ingest {honest store : TrustStore ed} (lacks : Lacks coalition honest store)
    {invite : Invitation ed} (outside : invite.issuer.asBytes ∉ coalition) (now : UInt64) :
    Lacks coalition (honest.ingest invite now).2 (store.ingest invite now).2 where
  roots_eq := by simp only [TrustStore.roots_ingest, lacks.roots_eq]
  cap_eq := by simp only [maxInviteesPerIssuer_ingest, lacks.cap_eq]
  subjects_eq := by
    intro issuer issuerOutside
    by_cases same : issuer = invite.issuer.asBytes
    · subst same
      exact TrustStore.subjectsOf_ingest_congr lacks.cap_eq (lacks.subjects_eq _ outside) now
    · rw [TrustStore.subjectsOf_ingest_of_ne same, TrustStore.subjectsOf_ingest_of_ne same]
      exact lacks.subjects_eq issuer issuerOutside
  empty := by
    intro issuer isMember
    have different : issuer ≠ invite.issuer.asBytes := by
      rintro rfl
      exact outside isMember
    rw [TrustStore.subjectsOf_ingest_of_ne different]
    exact lacks.empty issuer isMember

theorem Lacks.ignore {honest store : TrustStore ed} (lacks : Lacks coalition honest store)
    {invite : Invitation ed} (isMember : invite.issuer.asBytes ∈ coalition) (now : UInt64) :
    Lacks coalition honest (store.ingest invite now).2 where
  roots_eq := by simp only [TrustStore.roots_ingest, lacks.roots_eq]
  cap_eq := by simp only [maxInviteesPerIssuer_ingest, lacks.cap_eq]
  subjects_eq := by
    intro issuer outside
    have different : issuer ≠ invite.issuer.asBytes := by
      rintro rfl
      exact outside isMember
    rw [TrustStore.subjectsOf_ingest_of_ne different]
    exact lacks.subjects_eq issuer outside
  empty := lacks.empty

theorem lacks_run (coalition : Finset (Block 32)) (ops : List (Op ed)) :
    Lacks coalition (run (withoutInvitesOf coalition ops)).store (run ops).store := by
  induction ops using List.reverseRecOn with
  | nil => exact ⟨rfl, rfl, fun _ _ => rfl, fun _ _ => rfl⟩
  | append_singleton ops op ih =>
      rw [run_append_singleton, withoutInvitesOf, List.filter_append, ← withoutInvitesOf]
      by_cases invited : op.isInviteOf coalition = true
      · rw [List.filter_singleton, invited, Bool.not_true, cond_false, List.append_nil]
        cases op with
        | addRoot root => cases invited
        | setMaxInviteesPerIssuer max => cases invited
        | ingest invite now =>
            rw [store_step_ingest]
            exact ih.ignore (of_decide_eq_true invited) now
      · rw [List.filter_singleton, Bool.not_eq_true _ |>.mp invited, Bool.not_false, cond_true,
          run_append_singleton]
        cases op with
        | addRoot root =>
            refine ⟨?_, ih.cap_eq, ih.subjects_eq, ih.empty⟩
            simp only [step, TrustStore.addRoot, ih.roots_eq]
        | setMaxInviteesPerIssuer max => exact ⟨ih.roots_eq, rfl, ih.subjects_eq, ih.empty⟩
        | ingest invite now =>
            rw [store_step_ingest, store_step_ingest]
            exact ih.ingest (fun isMember => invited (decide_eq_true isMember)) now

theorem Lacks.vouches_iff {honest store : TrustStore ed} (lacks : Lacks coalition honest store)
    (now : UInt64) :
    honest.Vouches now = BreadthFirst.Avoiding (store.Vouches now) (· ∈ coalition) := by
  funext issuer subject
  by_cases isMember : issuer ∈ coalition
  · simp [TrustStore.Vouches, BreadthFirst.Avoiding, lacks.empty issuer isMember, isMember]
  · simp [TrustStore.Vouches, BreadthFirst.Avoiding, lacks.subjects_eq issuer isMember, isMember]

/-- How many subjects fit behind a coalition whose members are admitted at the given depths. -/
def coalitionBound (cap : ℕ) (coalition : Finset (Block 32)) (maxDepth : UInt8)
    (depthOf : Block 32 → Option UInt8) : ℕ :=
  ∑ member ∈ coalition, (depthOf member).elim 0 fun depth =>
    BreadthFirst.behindBound cap (maxDepth.toNat - depth.toNat)

/-- The subjects behind the members of a coalition. -/
def behindCoalition (store : TrustStore ed) (coalition : Finset (Block 32)) (maxDepth : UInt8)
    (depthOf : Block 32 → Option UInt8) : Finset (Block 32) :=
  coalition.biUnion fun member => (depthOf member).elim ∅ fun depth =>
    (Finset.Icc 1 (maxDepth.toNat - depth.toNat)).biUnion
      (BreadthFirst.endpoints store.storedSubjects member)

theorem card_behindCoalition_le {store : TrustStore ed} {cap : ℕ}
    (few : ∀ issuer, (store.storedSubjects issuer).card ≤ cap) (coalition : Finset (Block 32))
    (maxDepth : UInt8) (depthOf : Block 32 → Option UInt8) :
    (behindCoalition store coalition maxDepth depthOf).card ≤
      coalitionBound cap coalition maxDepth depthOf := by
  apply Finset.card_biUnion_le.trans
  apply Finset.sum_le_sum
  intro member _
  cases depthOf member with
  | none => exact le_rfl
  | some depth => exact BreadthFirst.card_behind_le few member _

/--
Under a fixed cap, a coalition can bring in no more subjects than fit behind those of its
members which are admitted without its invitations.
-/
theorem coalition_admits_few (ops : List (Op ed)) {cap : ℕ} (fixed : CapFixed cap ops)
    (coalition : Finset (Block 32)) (maxDepth : UInt8) (now : UInt64)
    (iteration : (run ops).store.Iteration)
    (honest : (run (withoutInvitesOf coalition ops)).store.Iteration) :
    {subject | (run ops).store.isAdmitted iteration subject maxDepth now = true ∧
      (run (withoutInvitesOf coalition ops)).store.isAdmitted honest subject maxDepth now =
        false}.encard ≤
      coalitionBound cap coalition maxDepth fun member =>
        (run (withoutInvitesOf coalition ops)).store.trustDepth honest member maxDepth now := by
  have lacks := lacks_run coalition ops
  have few : ∀ issuer, ((run ops).store.storedSubjects issuer).card ≤ cap :=
    fun issuer => fixed.card_le List.prefix_rfl issuer
  have listed : ∀ issuer subject, (run ops).store.Vouches now issuer subject →
      subject ∈ (run ops).store.storedSubjects issuer :=
    fun _ _ => TrustStore.mem_storedSubjects_of_vouches (sound_run ops).wellFormed
  have bounded := card_behindCoalition_le few coalition maxDepth fun member =>
    (run (withoutInvitesOf coalition ops)).store.trustDepth honest member maxDepth now
  refine le_trans (Set.encard_le_encard ?_)
    ((Set.encard_coe_eq_coe_finsetCard _).le.trans (Nat.cast_le.mpr bounded))
  rintro subject ⟨admitted, notAdmitted⟩
  rcases (TrustStore.isAdmitted_iff iteration subject maxDepth now).mp admitted with
    ⟨length, lengthLe, chain⟩
  rw [← Bool.not_eq_true, TrustStore.isAdmitted_iff, lacks.vouches_iff, lacks.roots_eq]
    at notAdmitted
  -- The first member on the chain is admitted without the coalition's help.
  rcases chain.avoids_or_meets (· ∈ coalition) with
    avoids | ⟨member, before, after, isMember, lengthEq, behind, reaches, leaves⟩
  · exact absurd ⟨length, lengthLe, avoids⟩ notAdmitted
  · rw [← lacks.vouches_iff now, ← lacks.roots_eq] at reaches
    have memberAdmitted := (TrustStore.isAdmitted_iff honest member maxDepth now).mpr
      ⟨before, by omega, reaches⟩
    rcases Option.isSome_iff_exists.mp memberAdmitted with ⟨depth, depthEq⟩
    have depthLe := ((TrustStore.trustDepth_eq_some_iff honest member maxDepth now depth).mp
      depthEq).2.2 reaches
    simp only [behindCoalition, Finset.coe_biUnion, Set.mem_iUnion, Finset.mem_coe]
    refine ⟨member, isMember, ?_⟩
    rw [depthEq, Option.elim_some, Finset.mem_biUnion]
    exact ⟨after, Finset.mem_Icc.mpr ⟨behind, by omega⟩, leaves.mem_endpoints listed⟩

/-- The guest of the root invites three others. -/
def greedyGuest : List (Op allGenuine) :=
  [.addRoot sampleRoot, .setMaxInviteesPerIssuer 2, .ingest (sampleInvite 100) 5] ++
    [3, 4, 5].map fun byte => .ingest
      { sampleInvite 100 with issuer := guestKey, subject := List.Vector.replicate 32 byte } 6

def greedyGuestIteration : (run greedyGuest).store.Iteration :=
  inStorageOrder _ [sampleRoot.asBytes] (by decide +kernel)

def withoutGuestIteration :
    (run (withoutInvitesOf {sampleGuest} greedyGuest)).store.Iteration :=
  inStorageOrder _ [sampleRoot.asBytes] (by decide +kernel)

theorem coalition_admits_few_greedyGuest :
    {subject | (run greedyGuest).store.isAdmitted greedyGuestIteration subject 2 50 = true ∧
      (run (withoutInvitesOf {sampleGuest} greedyGuest)).store.isAdmitted withoutGuestIteration
        subject 2 50 = false}.encard ≤ 2 := by
  have fixed : CapFixed 2 greedyGuest :=
    ⟨[.addRoot sampleRoot], _, rfl, by simp, by simp⟩
  have bound : coalitionBound 2 {sampleGuest} 2 (fun member =>
      (run (withoutInvitesOf {sampleGuest} greedyGuest)).store.trustDepth withoutGuestIteration
        member 2 50) = 2 := by
    decide +kernel
  have few := coalition_admits_few greedyGuest fixed {sampleGuest} 2 50 greedyGuestIteration
    withoutGuestIteration
  rwa [bound] at few

end Record

end Admission

end Ppose

import Ppose.Admission.History

/-!
# Renewing an invitation

`ingest` replaces the invitation stored for an issuer and a subject, whichever of
the two expires later.  Replaying an older invitation which is still valid
therefore shortens the validity of a renewed one, and a subject admitted through
it may be admitted no longer.

At a time at which the new invitation has expired and the old one has not, the
graph of the store loses exactly one link.  So an ingest never un-admits anyone if
and only if that link is never needed: whenever the issuer is admitted, the
subject is admitted one step further without it (`ingest_keeps_admitted_iff`).
-/

namespace Ppose

namespace Admission

open BreadthFirst

variable {ed : Ed25519}

namespace TrustStore

def without (store : TrustStore ed) (issuer subject : Block 32) : TrustStore ed :=
  { store with edges := store.edges.insert issuer ((store.subjectsOf issuer).erase subject) }

variable {store : TrustStore ed} {invite : Invitation ed} {now time : UInt64}

theorem stored_without (store : TrustStore ed) (issuer subject otherIssuer other : Block 32) :
    (store.without issuer subject).stored otherIssuer other =
      if otherIssuer = issuer ∧ other = subject then none
      else store.stored otherIssuer other := by
  rw [without, stored]
  by_cases sameIssuer : otherIssuer = issuer
  · subst sameIssuer
    rw [subjectsOf_insert_self]
    by_cases sameSubject : other = subject
    · subst sameSubject
      simp
    · simp [sameSubject, AList.lookup_erase_ne sameSubject, stored]
  · simp [sameIssuer, subjectsOf_insert_of_ne sameIssuer, stored]

theorem WellFormed.without (wellFormed : store.WellFormed) (issuer subject : Block 32) :
    (store.without issuer subject).WellFormed := by
  intro otherIssuer other found foundEq
  rw [stored_without] at foundEq
  split_ifs at foundEq
  exact wellFormed otherIssuer other found foundEq

theorem vouches_without (wellFormed : store.WellFormed) (time : UInt64)
    (issuer subject : Block 32) :
    (store.without issuer subject).Vouches time =
      WithoutEdge (store.Vouches time) issuer subject := by
  funext otherIssuer other
  apply propext
  rw [vouches_iff (wellFormed.without issuer subject), stored_without, WithoutEdge,
    vouches_iff wellFormed]
  split_ifs with removed
  · simp [removed]
  · simp [removed]

/-- The replaced link is lost: the old invitation is valid and the new one is not. -/
def LosesLink (store : TrustStore ed) (invite : Invitation ed) (time : UInt64) : Prop :=
  ∃ old, store.stored invite.issuer.asBytes invite.subject = some old ∧ old.ValidAt time ∧
    invite.expiresAt ≤ time

theorem vouches_ingest_of_keeps (wellFormed : store.WellFormed)
    (accepted : (store.ingest invite now).1 = .ok ()) (later : now ≤ time)
    (keeps : ¬store.LosesLink invite time) {issuer subject : Block 32}
    (vouches : store.Vouches time issuer subject) :
    (store.ingest invite now).2.Vouches time issuer subject := by
  rw [vouches_iff (wellFormed.ingest invite now), stored_ingest_of_ok accepted]
  rcases (vouches_iff wellFormed time issuer subject).mp vouches with ⟨old, found, validAt⟩
  split_ifs with same
  · rcases same with ⟨rfl, rfl⟩
    refine ⟨invite, rfl, ?_⟩
    have validNow := ((invite.verify_eq_ok_iff now).mp (verify_of_ingest_ok accepted)).1
    refine ⟨UInt64.le_trans validNow.1 later, ?_⟩
    apply UInt64.not_le.mp
    intro expired
    exact keeps ⟨old, found, validAt, expired⟩
  · exact ⟨old, found, validAt⟩

theorem vouches_ingest_of_loses (wellFormed : store.WellFormed)
    (accepted : (store.ingest invite now).1 = .ok ()) (loses : store.LosesLink invite time) :
    (store.ingest invite now).2.Vouches time =
      WithoutEdge (store.Vouches time) invite.issuer.asBytes invite.subject := by
  rcases loses with ⟨_, _, _, expired⟩
  funext issuer subject
  apply propext
  rw [vouches_iff (wellFormed.ingest invite now), stored_ingest_of_ok accepted, WithoutEdge,
    vouches_iff wellFormed]
  split_ifs with same
  · simp only [same, and_self, not_true, and_false, iff_false, Option.some.injEq, exists_eq_left',
      Invitation.ValidAt, not_and]
    intro _
    exact UInt64.not_lt.mpr expired
  · simp [same]

theorem nonempty_iteration (store : TrustStore ed) : Nonempty store.Iteration :=
  ⟨Record.inStorageOrder store store.roots.toList (Multiset.coe_toList _)⟩

theorem toNat_depth_succ {depth : UInt8} (small : depth < 255) :
    (depth + 1).toNat = depth.toNat + 1 := by
  rw [UInt8.lt_iff_toNat_lt] at small
  change depth.toNat < 255 at small
  rw [UInt8.toNat_add]
  change (depth.toNat + 1) % 256 = _
  omega

/-- Admission without a link at every depth gives a detour around it for every chain. -/
theorem exists_detour (wellFormed : store.WellFormed) {issuer subject : Block 32}
    (detours : ∀ depth < 255, ∀ (before : store.Iteration)
      (without : (store.without issuer subject).Iteration),
      store.isAdmitted before issuer depth time = true →
      (store.without issuer subject).isAdmitted without subject (depth + 1) time = true)
    (length : ℕ) (small : length < 255)
    (chain : Chain (store.Vouches time) (· ∈ store.roots) length issuer) :
    ∃ other ≤ length + 1,
      Chain (WithoutEdge (store.Vouches time) issuer subject) (· ∈ store.roots) other subject := by
  rcases nonempty_iteration store with ⟨before⟩
  rcases nonempty_iteration (store.without issuer subject) with ⟨without⟩
  have lengthNat : (UInt8.ofNat length).toNat = length := by
    rw [UInt8.toNat_ofNat']
    omega
  have small' : UInt8.ofNat length < 255 := by
    rw [UInt8.lt_iff_toNat_lt, lengthNat]
    exact small
  have admitted : store.isAdmitted before issuer (UInt8.ofNat length) time = true :=
    (isAdmitted_iff _ _ _ _).mpr ⟨length, by omega, chain⟩
  have reached := (isAdmitted_iff _ _ _ _).mp
    (detours (UInt8.ofNat length) small' before without admitted)
  rwa [toNat_depth_succ small', lengthNat, vouches_without wellFormed] at reached

end TrustStore

namespace Record

/--
After any run, a successful ingest un-admits nobody at any later time exactly if,
at every time at which the invitation it replaces is valid and the new one has
expired, the subject is admitted one step after the issuer without the replaced
invitation.
-/
theorem ingest_keeps_admitted_iff (ops : List (Op ed)) (invite : Invitation ed) (now : UInt64)
    (accepted : ((run ops).store.ingest invite now).1 = .ok ()) :
    (∀ subject maxDepth time, now ≤ time →
      ∀ (before : (run ops).store.Iteration)
        (after : ((run ops).store.ingest invite now).2.Iteration),
        (run ops).store.isAdmitted before subject maxDepth time = true →
        ((run ops).store.ingest invite now).2.isAdmitted after subject maxDepth time = true) ↔
    (∀ time, now ≤ time → (run ops).store.LosesLink invite time →
      ∀ depth < 255, ∀ (before : (run ops).store.Iteration)
        (without : ((run ops).store.without invite.issuer.asBytes invite.subject).Iteration),
        (run ops).store.isAdmitted before invite.issuer.asBytes depth time = true →
        ((run ops).store.without invite.issuer.asBytes invite.subject).isAdmitted without
          invite.subject (depth + 1) time = true) := by
  have wellFormed := (sound_run ops).wellFormed
  generalize (run ops).store = store at accepted wellFormed
  constructor
  · intro keeps time later loses depth small before without admitted
    rcases (TrustStore.isAdmitted_iff _ _ _ _).mp admitted with ⟨length, lengthLe, chain⟩
    rcases TrustStore.nonempty_iteration (store.ingest invite now).2 with ⟨after⟩
    have linked : store.Vouches time invite.issuer.asBytes invite.subject := by
      rcases loses with ⟨old, found, validAt, _⟩
      exact (TrustStore.vouches_iff wellFormed time _ _).mpr ⟨old, found, validAt⟩
    have extended : store.isAdmitted before invite.subject (depth + 1) time = true := by
      apply (TrustStore.isAdmitted_iff _ _ _ _).mpr
      refine ⟨length + 1, ?_, .step chain linked⟩
      rw [TrustStore.toNat_depth_succ small]
      omega
    have kept := keeps invite.subject (depth + 1) time later before after extended
    rw [TrustStore.isAdmitted_iff, TrustStore.roots_ingest,
      TrustStore.vouches_ingest_of_loses wellFormed accepted loses] at kept
    rw [TrustStore.isAdmitted_iff, TrustStore.vouches_without wellFormed]
    exact kept
  · intro detours subject maxDepth time later before after admitted
    rcases (TrustStore.isAdmitted_iff _ _ _ _).mp admitted with ⟨length, lengthLe, chain⟩
    rw [TrustStore.isAdmitted_iff, TrustStore.roots_ingest]
    by_cases loses : store.LosesLink invite time
    · rw [TrustStore.vouches_ingest_of_loses wellFormed accepted loses]
      have within : length ≤ 255 := by
        have := maxDepth.toNat_lt
        omega
      have detour := TrustStore.exists_detour wellFormed (detours time later loses)
      rcases chain.exists_withoutEdge detour within with ⟨other, otherLe, otherChain⟩
      exact ⟨other, by omega, otherChain⟩
    · refine ⟨length, lengthLe, chain.mono ?_⟩
      intro issuer other vouches
      exact TrustStore.vouches_ingest_of_keeps wellFormed accepted later loses vouches

def secondRoot : InviteVerifyingKey allGenuine := ⟨List.Vector.replicate 32 4, rfl⟩

def secondInvite : Invitation allGenuine := { sampleInvite 200 with issuer := secondRoot }

/-- Two roots invite the same guest. -/
def invitedTwice : List (Op allGenuine) :=
  [.addRoot sampleRoot, .addRoot secondRoot, .ingest (sampleInvite 200) 10,
    .ingest secondInvite 10]

/-- A renewed invitation is replaced, but the guest has another. -/
theorem ingest_keeps_admitted_iff_invitedTwice :
    ((run invitedTwice).store.ingest (sampleInvite 100) 20).1 = .ok () ∧
    (run invitedTwice).store.LosesLink (sampleInvite 100) 150 ∧
    ∀ subject maxDepth time, 20 ≤ time →
      ∀ (before : (run invitedTwice).store.Iteration)
        (after : ((run invitedTwice).store.ingest (sampleInvite 100) 20).2.Iteration),
        (run invitedTwice).store.isAdmitted before subject maxDepth time = true →
        ((run invitedTwice).store.ingest (sampleInvite 100) 20).2.isAdmitted after
          subject maxDepth time = true := by
  have accepted : ((run invitedTwice).store.ingest (sampleInvite 100) 20).1 = .ok () := by
    decide +kernel
  have renewed : (run invitedTwice).store.stored sampleRoot.asBytes sampleGuest =
      some (sampleInvite 200) := by
    decide +kernel
  have second : ((run invitedTwice).store.without sampleRoot.asBytes sampleGuest).stored
      secondRoot.asBytes sampleGuest = some secondInvite := by
    decide +kernel
  refine ⟨accepted, ⟨_, renewed, by decide, by decide⟩, ?_⟩
  apply (ingest_keeps_admitted_iff _ _ _ accepted).mpr
  rintro time _ ⟨old, found, oldValid, _⟩ depth small before without _
  rw [show old = sampleInvite 200 from Option.some.inj (found.symm.trans renewed)] at oldValid
  have wellFormed := (sound_run invitedTwice).wellFormed.without sampleRoot.asBytes sampleGuest
  have vouches := (TrustStore.vouches_iff wellFormed time secondRoot.asBytes sampleGuest).mpr
    ⟨secondInvite, second, oldValid⟩
  have isRoot : secondRoot.asBytes ∈
      ((run invitedTwice).store.without sampleRoot.asBytes sampleGuest).roots := by
    decide +kernel
  refine (TrustStore.isAdmitted_iff _ _ _ _).mpr ⟨1, ?_, .step (.root isRoot) vouches⟩
  rw [TrustStore.toNat_depth_succ small]
  exact Nat.le_add_left 1 _

theorem replay_unadmits :
    ((run [.addRoot sampleRoot, .ingest (sampleInvite 200) 10]).store.ingest
      (sampleInvite 100) 20).1 = .ok () ∧
    ¬∀ subject maxDepth time, 20 ≤ time →
      ∀ (before : (run [.addRoot sampleRoot, .ingest (sampleInvite 200) 10]).store.Iteration)
        (after : ((run [.addRoot sampleRoot, .ingest (sampleInvite 200) 10]).store.ingest
          (sampleInvite 100) 20).2.Iteration),
        (run [.addRoot sampleRoot, .ingest (sampleInvite 200) 10]).store.isAdmitted before subject
          maxDepth time = true →
        ((run [.addRoot sampleRoot, .ingest (sampleInvite 200) 10]).store.ingest
          (sampleInvite 100) 20).2.isAdmitted after subject maxDepth time = true := by
  refine ⟨by decide +kernel, ?_⟩
  intro keeps
  let store := (run [.addRoot sampleRoot, .ingest (sampleInvite 200) 10]).store
  have admitted := keeps sampleGuest 1 150 (by decide)
    (inStorageOrder store [sampleRoot.asBytes] (by decide +kernel))
    (inStorageOrder (store.ingest (sampleInvite 100) 20).2 [sampleRoot.asBytes]
      (by decide +kernel))
    (by decide +kernel)
  exact absurd admitted (by decide +kernel)

end Record

end Admission

end Ppose

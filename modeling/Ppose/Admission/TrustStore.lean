import Ppose.Admission.Invitation
import Ppose.Foundations.BreadthFirst
import Mathlib.Data.List.AList

/-!
# The trust store

Trusted roots and received invitations, and the walk over chains of invitations
which decides whether a subject is admitted.

The code keeps roots and invitations in hash tables, whose iteration order is
arbitrary.  An `Iteration` is one such order, and every statement about the walk
holds for all of them.
-/

namespace Ppose

namespace Admission

variable {ed : Ed25519}

/-- Local admission policy: trusted roots plus received invitations. -/
structure TrustStore (ed : Ed25519) where
  roots : Finset (Block 32)
  /-- Invitations by issuer and subject. -/
  edges : AList fun _ : Block 32 => AList fun _ : Block 32 => Invitation ed
  maxInviteesPerIssuer : ℕ

namespace TrustStore

def usizeMax : ℕ := 2 ^ 64 - 1

def new : TrustStore ed where
  roots := ∅
  edges := ∅
  maxInviteesPerIssuer := usizeMax

def addRoot (store : TrustStore ed) (root : InviteVerifyingKey ed) : TrustStore ed :=
  { store with roots := insert root.asBytes store.roots }

def setMaxInviteesPerIssuer (store : TrustStore ed) (max : ℕ) : TrustStore ed :=
  { store with maxInviteesPerIssuer := max }

def subjectsOf (store : TrustStore ed) (issuer : Block 32) :
    AList fun _ : Block 32 => Invitation ed :=
  (store.edges.lookup issuer).getD ∅

/--
Verify and add an invitation.  The table of the issuer is created before the cap
is checked.
-/
def ingest (store : TrustStore ed) (invite : Invitation ed) (now : UInt64) :
    Except AdmissionError Unit × TrustStore ed :=
  match invite.verify now with
  | .error error => (.error error, store)
  | .ok () =>
      let issuer := invite.issuer.asBytes
      let subjects := store.subjectsOf issuer
      if invite.subject ∉ subjects ∧ store.maxInviteesPerIssuer ≤ subjects.entries.length then
        (.error .issuerCapReached, { store with edges := store.edges.insert issuer subjects })
      else
        (.ok (),
          { store with
            edges := store.edges.insert issuer (subjects.insert invite.subject invite) })

/-- An order in which the tables of a store are iterated. -/
structure Iteration (store : TrustStore ed) where
  roots : List (Block 32)
  roots_perm : (roots : Multiset (Block 32)) = store.roots.val
  values : Block 32 → List (Invitation ed)
  values_perm : ∀ issuer, (values issuer).Perm ((store.subjectsOf issuer).entries.map Sigma.snd)

/-- The walk over the invitations of one issuer; `none` is the early return. -/
def scanInvites (subject : Block 32) (now : UInt64) :
    List (Invitation ed) → Finset (Block 32) × List (Block 32) →
      Option (Finset (Block 32) × List (Block 32))
  | [], state => some state
  | invite :: rest, (visited, next) =>
      if invite.verify now ≠ .ok () then scanInvites subject now rest (visited, next)
      else if invite.subject = subject then none
      else if invite.subject ∈ visited then scanInvites subject now rest (visited, next)
      else
        scanInvites subject now rest (insert invite.subject visited, next ++ [invite.subject])

/-- The walk over the issuers of one level. -/
def scanFrontier (store : TrustStore ed) (iteration : Iteration store) (subject : Block 32)
    (now : UInt64) :
    List (Block 32) → Finset (Block 32) × List (Block 32) →
      Option (Finset (Block 32) × List (Block 32))
  | [], state => some state
  | issuer :: rest, state =>
      match store.edges.lookup issuer with
      | none => scanFrontier store iteration subject now rest state
      | some _ =>
          match scanInvites subject now (iteration.values issuer) state with
          | none => none
          | some state => scanFrontier store iteration subject now rest state

/-- The levels from `depth` on, as many as remain. -/
def scanLevels (store : TrustStore ed) (iteration : Iteration store) (subject : Block 32)
    (now : UInt64) : ℕ → UInt8 → List (Block 32) → Finset (Block 32) → Option UInt8
  | 0, _, _, _ => none
  | remaining + 1, depth, frontier, visited =>
      match scanFrontier store iteration subject now frontier (visited, []) with
      | none => some depth
      | some (visited, next) =>
          if next = [] then none
          else scanLevels store iteration subject now remaining (depth + 1) next visited

/-- The shortest invitation-chain length from a trusted root to a subject. -/
def trustDepth (store : TrustStore ed) (iteration : Iteration store) (subject : Block 32)
    (maxDepth : UInt8) (now : UInt64) : Option UInt8 :=
  if subject ∈ store.roots then some 0
  else
    scanLevels store iteration subject now maxDepth.toNat 1 iteration.roots iteration.roots.toFinset

def isAdmitted (store : TrustStore ed) (iteration : Iteration store) (subject : Block 32)
    (maxDepth : UInt8) (now : UInt64) : Bool :=
  (store.trustDepth iteration subject maxDepth now).isSome

/-! ### The walk is a breadth-first search -/

/-- A stored invitation from issuer to subject passes verification. -/
def Vouches (store : TrustStore ed) (now : UInt64) (issuer subject : Block 32) : Prop :=
  ∃ invite ∈ (store.subjectsOf issuer).entries.map Sigma.snd,
    invite.verify now = .ok () ∧ invite.subject = subject

variable {store : TrustStore ed}

def vouchedFor (iteration : Iteration store) (now : UInt64) (issuer : Block 32) :
    List (Block 32) :=
  ((iteration.values issuer).filter fun invite => invite.verify now = .ok ()).map
    Invitation.subject

theorem mem_vouchedFor_iff (iteration : Iteration store) (now : UInt64)
    (issuer subject : Block 32) :
    subject ∈ vouchedFor iteration now issuer ↔ store.Vouches now issuer subject := by
  simp only [vouchedFor, List.mem_map, List.mem_filter, decide_eq_true_eq, Vouches,
    (iteration.values_perm issuer).mem_iff, and_assoc]

theorem scanInvites_eq_visit (subject : Block 32) (now : UInt64) (invites : List (Invitation ed))
    (state : Finset (Block 32) × List (Block 32)) :
    scanInvites subject now invites state =
      BreadthFirst.visit subject
        ((invites.filter fun invite => invite.verify now = .ok ()).map Invitation.subject)
        state := by
  induction invites generalizing state with
  | nil => rfl
  | cons invite rest ih =>
      by_cases verified : invite.verify now = .ok ()
      · simp [scanInvites, BreadthFirst.visit, verified, ih]
      · simp [scanInvites, verified, ih]

theorem scanFrontier_eq_visit (iteration : Iteration store) (subject : Block 32) (now : UInt64)
    (frontier : List (Block 32)) (state : Finset (Block 32) × List (Block 32)) :
    store.scanFrontier iteration subject now frontier state =
      BreadthFirst.visit subject (frontier.flatMap (vouchedFor iteration now)) state := by
  induction frontier generalizing state with
  | nil => rfl
  | cons issuer rest ih =>
      rw [List.flatMap_cons, BreadthFirst.visit_append, vouchedFor, ← scanInvites_eq_visit,
        scanFrontier]
      cases tableEq : store.edges.lookup issuer with
      | none =>
          have noValues : iteration.values issuer = [] := by
            have listed := iteration.values_perm issuer
            simpa [subjectsOf, tableEq] using listed
          simp [noValues, scanInvites, ih]
      | some subjects =>
          cases scanInvites subject now (iteration.values issuer) state with
          | none => rfl
          | some state => exact ih state

theorem scanLevels_eq_levels (iteration : Iteration store) (subject : Block 32) (now : UInt64)
    (remaining depth : ℕ) (frontier : List (Block 32)) (visited : Finset (Block 32)) :
    store.scanLevels iteration subject now remaining (UInt8.ofNat depth) frontier visited =
      (BreadthFirst.levels (vouchedFor iteration now) subject remaining depth frontier
        visited).map UInt8.ofNat := by
  induction remaining generalizing depth frontier visited with
  | zero => rfl
  | succ remaining ih =>
      simp only [scanLevels, BreadthFirst.levels, scanFrontier_eq_visit]
      cases BreadthFirst.visit subject (frontier.flatMap (vouchedFor iteration now))
          (visited, []) with
      | none => rfl
      | some state =>
          dsimp only
          split_ifs
          · rfl
          · rw [← ih, UInt8.ofNat_add]
            rfl

/-- The walk returns the distance from the roots, in whatever order it goes. -/
theorem trustDepth_eq_some_iff (iteration : Iteration store) (subject : Block 32)
    (maxDepth : UInt8) (now : UInt64) (depth : UInt8) :
    store.trustDepth iteration subject maxDepth now = some depth ↔
      depth ≤ maxDepth ∧
        BreadthFirst.Distance (store.Vouches now) (· ∈ store.roots) depth.toNat subject := by
  have rootsIff : ∀ node, node ∈ iteration.roots ↔ node ∈ store.roots := by
    intro node
    rw [← Multiset.mem_coe, iteration.roots_perm]
    exact Finset.mem_def.symm
  unfold trustDepth
  split_ifs with rooted
  · have zero : BreadthFirst.Distance (store.Vouches now) (· ∈ store.roots) 0 subject :=
      (BreadthFirst.distance_zero_iff subject).mpr rooted
    simp only [Option.some.injEq]
    constructor
    · rintro rfl
      exact ⟨UInt8.zero_le, zero⟩
    · rintro ⟨_, distance⟩
      apply UInt8.toNat_inj.mp
      exact zero.unique distance
  · have atLevel : BreadthFirst.AtLevel (store.Vouches now) (· ∈ store.roots) 0 iteration.roots
        iteration.roots.toFinset := by
      apply BreadthFirst.AtLevel.initial
      · exact rootsIff
      · intro node
        rw [List.mem_toFinset, rootsIff]
    have unseen : subject ∉ iteration.roots.toFinset := by
      rwa [List.mem_toFinset, rootsIff]
    have searched := BreadthFirst.levels_eq_some_iff
      (fun issuer other => mem_vouchedFor_iff iteration now issuer other) maxDepth.toNat atLevel
      unseen
    have first : (1 : UInt8) = UInt8.ofNat (0 + 1) := rfl
    rw [first, scanLevels_eq_levels, Option.map_eq_some_iff]
    constructor
    · rintro ⟨length, found, rfl⟩
      rcases (searched length).mp found with ⟨lengthLe, distance⟩
      have lengthNat : (UInt8.ofNat length).toNat = length := by
        have := maxDepth.toNat_lt
        rw [UInt8.toNat_ofNat']
        omega
      rw [UInt8.le_iff_toNat_le, lengthNat]
      exact ⟨by omega, distance⟩
    · rintro ⟨depthLe, distance⟩
      refine ⟨depth.toNat, (searched _).mpr ⟨?_, distance⟩, UInt8.ofNat_toNat⟩
      rw [UInt8.le_iff_toNat_le] at depthLe
      omega

theorem isAdmitted_iff (iteration : Iteration store) (subject : Block 32) (maxDepth : UInt8)
    (now : UInt64) :
    store.isAdmitted iteration subject maxDepth now = true ↔
      ∃ length ≤ maxDepth.toNat,
        BreadthFirst.Chain (store.Vouches now) (· ∈ store.roots) length subject := by
  rw [isAdmitted, Option.isSome_iff_exists]
  simp only [trustDepth_eq_some_iff]
  constructor
  · rintro ⟨depth, depthLe, distance⟩
    exact ⟨depth.toNat, UInt8.le_iff_toNat_le.mp depthLe, distance.1⟩
  · rintro ⟨length, lengthLe, chain⟩
    rcases BreadthFirst.exists_distance_of_chain chain with ⟨least, leastLe, distance⟩
    have leastNat : (UInt8.ofNat least).toNat = least := by
      have := maxDepth.toNat_lt
      rw [UInt8.toNat_ofNat']
      omega
    refine ⟨UInt8.ofNat least, ?_, ?_⟩
    · rw [UInt8.le_iff_toNat_le, leastNat]
      omega
    · rwa [leastNat]

theorem trustDepth_congr (iteration other : Iteration store) (subject : Block 32)
    (maxDepth : UInt8) (now : UInt64) :
    store.trustDepth iteration subject maxDepth now =
      store.trustDepth other subject maxDepth now := by
  apply Option.ext
  intro depth
  rw [trustDepth_eq_some_iff, trustDepth_eq_some_iff]

/-! ### Stored invitations -/

def stored (store : TrustStore ed) (issuer subject : Block 32) : Option (Invitation ed) :=
  (store.subjectsOf issuer).lookup subject

/-- Every invitation is genuine and sits under its own issuer and subject. -/
def WellFormed (store : TrustStore ed) : Prop :=
  ∀ issuer subject invite, store.stored issuer subject = some invite →
    invite.issuer.asBytes = issuer ∧ invite.subject = subject ∧ invite.Genuine

theorem vouches_iff (wellFormed : store.WellFormed) (now : UInt64) (issuer subject : Block 32) :
    store.Vouches now issuer subject ↔
      ∃ invite, store.stored issuer subject = some invite ∧ invite.ValidAt now := by
  simp only [Vouches, List.mem_map, Invitation.verify_eq_ok_iff]
  constructor
  · rintro ⟨invite, ⟨⟨key, _⟩, entryMem, rfl⟩, ⟨validAt, _⟩, rfl⟩
    have found := AList.mem_lookup_iff.mpr entryMem
    rcases wellFormed issuer key _ found with ⟨_, rfl, _⟩
    exact ⟨_, found, validAt⟩
  · rintro ⟨invite, found, validAt⟩
    rcases wellFormed issuer subject invite found with ⟨_, sameSubject, genuine⟩
    exact ⟨invite, ⟨⟨subject, invite⟩, AList.mem_lookup_iff.mp found, rfl⟩,
      ⟨validAt, genuine⟩, sameSubject⟩

@[simp]
theorem subjectsOf_insert_self (store : TrustStore ed) (issuer : Block 32)
    (subjects : AList fun _ : Block 32 => Invitation ed) :
    subjectsOf { store with edges := store.edges.insert issuer subjects } issuer = subjects := by
  simp [subjectsOf]

theorem subjectsOf_insert_of_ne {issuer other : Block 32} (different : other ≠ issuer)
    (subjects : AList fun _ : Block 32 => Invitation ed) :
    subjectsOf { store with edges := store.edges.insert issuer subjects } other =
      store.subjectsOf other := by
  simp [subjectsOf, AList.lookup_insert_ne different]

@[simp]
theorem roots_ingest (store : TrustStore ed) (invite : Invitation ed) (now : UInt64) :
    (store.ingest invite now).2.roots = store.roots := by
  simp only [ingest]
  split
  · rfl
  · split_ifs <;> rfl

/-- A failed ingest may create the table of the issuer, but it puts nothing into it. -/
theorem subjectsOf_ingest_of_error {invite : Invitation ed} {now : UInt64} {error : AdmissionError}
    (failed : (store.ingest invite now).1 = .error error) (issuer : Block 32) :
    (store.ingest invite now).2.subjectsOf issuer = store.subjectsOf issuer := by
  unfold ingest at failed ⊢
  cases verified : invite.verify now with
  | error other => rfl
  | ok _ =>
      simp only [verified] at failed ⊢
      split_ifs at failed ⊢
      by_cases same : issuer = invite.issuer.asBytes
      · subst same
        rw [subjectsOf_insert_self]
      · rw [subjectsOf_insert_of_ne same]

theorem stored_ingest_of_error {invite : Invitation ed} {now : UInt64} {error : AdmissionError}
    (failed : (store.ingest invite now).1 = .error error) (issuer subject : Block 32) :
    (store.ingest invite now).2.stored issuer subject = store.stored issuer subject := by
  rw [stored, subjectsOf_ingest_of_error failed, stored]

theorem verify_of_ingest_ok {invite : Invitation ed} {now : UInt64}
    (accepted : (store.ingest invite now).1 = .ok ()) : invite.verify now = .ok () := by
  unfold ingest at accepted
  cases verified : invite.verify now with
  | error other => simp [verified] at accepted
  | ok _ => rfl

theorem ingest_of_ok {invite : Invitation ed} {now : UInt64}
    (accepted : (store.ingest invite now).1 = .ok ()) :
    store.ingest invite now =
      (.ok (),
        { store with
          edges := store.edges.insert invite.issuer.asBytes
            ((store.subjectsOf invite.issuer.asBytes).insert invite.subject invite) }) := by
  have verified := verify_of_ingest_ok accepted
  unfold ingest at accepted ⊢
  simp only [verified] at accepted ⊢
  split_ifs at accepted ⊢
  rfl

/-- A successful ingest stores the invitation in place of the one it renews. -/
theorem stored_ingest_of_ok {invite : Invitation ed} {now : UInt64}
    (accepted : (store.ingest invite now).1 = .ok ()) (issuer subject : Block 32) :
    (store.ingest invite now).2.stored issuer subject =
      if issuer = invite.issuer.asBytes ∧ subject = invite.subject then some invite
      else store.stored issuer subject := by
  rw [ingest_of_ok accepted, stored]
  by_cases sameIssuer : issuer = invite.issuer.asBytes
  · subst sameIssuer
    rw [subjectsOf_insert_self]
    by_cases sameSubject : subject = invite.subject
    · subst sameSubject
      simp
    · simp [sameSubject, AList.lookup_insert_ne sameSubject, stored]
  · simp [sameIssuer, subjectsOf_insert_of_ne sameIssuer, stored]

theorem WellFormed.ingest (wellFormed : store.WellFormed) (invite : Invitation ed)
    (now : UInt64) : (store.ingest invite now).2.WellFormed := by
  intro issuer subject other found
  cases result : (store.ingest invite now).1 with
  | error error =>
      rw [stored_ingest_of_error result] at found
      exact wellFormed issuer subject other found
  | ok _ =>
      rw [stored_ingest_of_ok result] at found
      split_ifs at found with same
      · rw [Option.some.injEq] at found
        subst found
        have genuine := ((invite.verify_eq_ok_iff now).mp (verify_of_ingest_ok result)).2
        exact ⟨same.1.symm, same.2.symm, genuine⟩
      · exact wellFormed issuer subject other found

end TrustStore

end Admission

end Ppose

import Ppose.Admission.TrustStore

/-!
# Runs of the trust store

A store is only changed by adding roots, setting the cap and ingesting
invitations.  Next to the store, a `Record` keeps the roots added and the
invitations ingested successfully, in order.  The store holds, for each issuer and
subject, the invitation ingested last, and so `trustDepth` answers with the length
of the shortest chain of such invitations.
-/

namespace Ppose

namespace Admission

variable {ed : Ed25519}

inductive Op (ed : Ed25519) where
  | addRoot (root : InviteVerifyingKey ed)
  | setMaxInviteesPerIssuer (max : ℕ)
  | ingest (invite : Invitation ed) (now : UInt64)

/-- A store with its history. -/
structure Record (ed : Ed25519) where
  store : TrustStore ed
  added : List (InviteVerifyingKey ed)
  /-- Every invitation for which `ingest` returned `Ok`, oldest first. -/
  ingested : List (Invitation ed)

namespace Record

def initial : Record ed where
  store := .new
  added := []
  ingested := []

def step (record : Record ed) : Op ed → Record ed
  | .addRoot root =>
      { record with store := record.store.addRoot root, added := record.added ++ [root] }
  | .setMaxInviteesPerIssuer max =>
      { record with store := record.store.setMaxInviteesPerIssuer max }
  | .ingest invite now =>
      match record.store.ingest invite now with
      | (.ok (), store) => { record with store, ingested := record.ingested ++ [invite] }
      | (.error _, store) => { record with store }

def run (ops : List (Op ed)) : Record ed := ops.foldl step initial

/-- The invitation from issuer to subject ingested last. -/
def latest (record : Record ed) (issuer subject : Block 32) : Option (Invitation ed) :=
  record.ingested.reverse.find? fun invite =>
    invite.issuer.asBytes = issuer ∧ invite.subject = subject

/-- The invitation ingested last from issuer to subject is valid at the given time. -/
def Vouched (record : Record ed) (now : UInt64) (issuer subject : Block 32) : Prop :=
  ∃ invite, record.latest issuer subject = some invite ∧ invite.ValidAt now

/-- The store agrees with its history. -/
structure Sound (record : Record ed) : Prop where
  roots_iff : ∀ key, key ∈ record.store.roots ↔ ∃ root ∈ record.added, root.asBytes = key
  stored_eq : ∀ issuer subject, record.store.stored issuer subject = record.latest issuer subject
  wellFormed : record.store.WellFormed

theorem sound_initial : (initial : Record ed).Sound where
  roots_iff := by simp [initial, TrustStore.new]
  stored_eq := by
    intro issuer subject
    simp [initial, TrustStore.new, TrustStore.stored, TrustStore.subjectsOf, latest]
  wellFormed := by
    intro issuer subject invite found
    simp [initial, TrustStore.new, TrustStore.stored, TrustStore.subjectsOf] at found

theorem step_ingest_of_ok {record : Record ed} {invite : Invitation ed} {now : UInt64}
    (accepted : (record.store.ingest invite now).1 = .ok ()) :
    record.step (.ingest invite now) =
      { record with
        store := (record.store.ingest invite now).2
        ingested := record.ingested ++ [invite] } := by
  simp only [step]
  split
  · rename_i resultEq
    rw [resultEq]
  · rename_i resultEq
    rw [resultEq] at accepted
    cases accepted

theorem step_ingest_of_error {record : Record ed} {invite : Invitation ed} {now : UInt64}
    {error : AdmissionError} (failed : (record.store.ingest invite now).1 = .error error) :
    record.step (.ingest invite now) =
      { record with store := (record.store.ingest invite now).2 } := by
  simp only [step]
  split
  · rename_i resultEq
    rw [resultEq] at failed
    cases failed
  · rename_i resultEq
    rw [resultEq]

theorem latest_append (record : Record ed) (store : TrustStore ed) (invite : Invitation ed)
    (issuer subject : Block 32) :
    latest { record with store, ingested := record.ingested ++ [invite] } issuer subject =
      if issuer = invite.issuer.asBytes ∧ subject = invite.subject then some invite
      else record.latest issuer subject := by
  simp only [latest, List.reverse_append, List.reverse_singleton, List.singleton_append,
    List.find?_cons]
  by_cases same : issuer = invite.issuer.asBytes ∧ subject = invite.subject
  · simp [same]
  · have different : ¬(invite.issuer.asBytes = issuer ∧ invite.subject = subject) :=
      fun same' => same ⟨same'.1.symm, same'.2.symm⟩
    simp only [same, different, decide_false, if_false]

theorem Sound.step {record : Record ed} (sound : record.Sound) (op : Op ed) :
    (record.step op).Sound := by
  cases op with
  | addRoot root =>
      refine ⟨?_, sound.stored_eq, sound.wellFormed⟩
      intro key
      simp only [Record.step, TrustStore.addRoot, Finset.mem_insert, sound.roots_iff,
        List.mem_append, List.mem_singleton, or_and_right, exists_or, exists_eq_left]
      rw [or_comm, eq_comm]
  | setMaxInviteesPerIssuer max => exact ⟨sound.roots_iff, sound.stored_eq, sound.wellFormed⟩
  | ingest invite now =>
      have wellFormed := sound.wellFormed.ingest invite now
      cases result : (record.store.ingest invite now).1 with
      | error error =>
          rw [step_ingest_of_error result]
          refine ⟨?_, ?_, wellFormed⟩
          · simpa using sound.roots_iff
          · intro issuer subject
            rw [TrustStore.stored_ingest_of_error result]
            exact sound.stored_eq issuer subject
      | ok _ =>
          rw [step_ingest_of_ok result]
          refine ⟨?_, ?_, wellFormed⟩
          · simpa using sound.roots_iff
          · intro issuer subject
            rw [TrustStore.stored_ingest_of_ok result, latest_append, sound.stored_eq]

theorem sound_run (ops : List (Op ed)) : (run ops).Sound := by
  induction ops using List.reverseRecOn with
  | nil => exact sound_initial
  | append_singleton ops op ih =>
      rw [run, List.foldl_append]
      exact ih.step op

theorem Sound.vouches_iff {record : Record ed} (sound : record.Sound) (now : UInt64)
    (issuer subject : Block 32) :
    record.store.Vouches now issuer subject ↔ record.Vouched now issuer subject := by
  simp only [TrustStore.vouches_iff sound.wellFormed, sound.stored_eq, Vouched]

/--
After any run, `trustDepth` returns the least length of a chain from an added root
to the subject, each link of which is the invitation ingested last and valid at
the time of the query, if that length is at most `maxDepth`, and nothing
otherwise; the iteration order has no influence.
-/
theorem trustDepth_run (ops : List (Op ed)) (iteration : (run ops).store.Iteration)
    (subject : Block 32) (maxDepth : UInt8) (now : UInt64) :
    (∀ depth, (run ops).store.trustDepth iteration subject maxDepth now = some depth ↔
      depth ≤ maxDepth ∧
        IsLeast
          {length | BreadthFirst.Chain ((run ops).Vouched now)
            (fun key => ∃ root ∈ (run ops).added, root.asBytes = key) length subject}
          depth.toNat) ∧
    ∀ other : (run ops).store.Iteration,
      (run ops).store.trustDepth other subject maxDepth now =
        (run ops).store.trustDepth iteration subject maxDepth now := by
  have sound := sound_run ops
  have edgesEq : (run ops).store.Vouches now = (run ops).Vouched now := by
    funext issuer other
    exact propext (sound.vouches_iff now issuer other)
  have rootsEq : (fun key => key ∈ (run ops).store.roots) =
      fun key => ∃ root ∈ (run ops).added, root.asBytes = key := by
    funext key
    exact propext (sound.roots_iff key)
  refine ⟨?_, fun other => TrustStore.trustDepth_congr other iteration subject maxDepth now⟩
  intro depth
  rw [TrustStore.trustDepth_eq_some_iff, edgesEq, rootsEq]
  rfl

/-- A signature library at keys and signatures which are all genuine. -/
def allGenuine : Ed25519 where
  isPoint _ := true
  verify _ _ _ := true

def sampleRoot : InviteVerifyingKey allGenuine := ⟨List.Vector.replicate 32 1, rfl⟩

def sampleGuest : Block 32 := List.Vector.replicate 32 2

def guestKey : InviteVerifyingKey allGenuine := ⟨sampleGuest, rfl⟩

def sampleInvite (expiresAt : UInt64) : Invitation allGenuine where
  issuer := sampleRoot
  subject := sampleGuest
  issuedAt := 0
  expiresAt := expiresAt
  signature := List.Vector.replicate 64 0

/-- The tables of a store are iterated in the order of their entries. -/
def inStorageOrder (store : TrustStore ed) (roots : List (Block 32))
    (roots_perm : (roots : Multiset (Block 32)) = store.roots.val) : store.Iteration where
  roots := roots
  roots_perm := roots_perm
  values := fun issuer => (store.subjectsOf issuer).entries.map Sigma.snd
  values_perm := fun _ => List.Perm.refl _

/-- The guest of the root invites another. -/
def guestOfGuest : List (Op allGenuine) :=
  [.addRoot sampleRoot, .ingest (sampleInvite 100) 5,
    .ingest { sampleInvite 100 with issuer := guestKey, subject := List.Vector.replicate 32 3 } 6]

theorem trustDepth_run_guestOfGuest :
    IsLeast
      {length | BreadthFirst.Chain ((run guestOfGuest).Vouched 50)
        (fun key => ∃ root ∈ (run guestOfGuest).added, root.asBytes = key) length
        (List.Vector.replicate 32 3)}
      2 := by
  have found : (run guestOfGuest).store.trustDepth
      (inStorageOrder (run guestOfGuest).store [sampleRoot.asBytes] (by decide +kernel))
      (List.Vector.replicate 32 3) 3 50 = some 2 := by
    decide +kernel
  exact (((trustDepth_run guestOfGuest _ _ 3 50).1 2).mp found).2

end Record

end Admission

end Ppose

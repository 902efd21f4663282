import Ppose.Admission.History
import Ppose.Foundations.HashTable

/-!
# The cap on the subjects of an issuer

`ingest` refuses a subject that is new to its issuer once as many subjects are stored
under the issuer as the cap allows.  A stored subject keeps its slot: nothing removes
it, and whether its invitation is still valid is only asked by the walk of
`trustDepth`.  So a lapsed invitation counts against the cap like a valid one
(`ingest_capReached_iff`), and as long as the cap stays the same no issuer ever has
more subjects than it (`store_run`).

An ingest that fails at the cap has already created the table of the issuer.  An
empty table vouches for nobody, so that no query can tell.
-/

namespace Ppose

namespace Admission

variable {ed : Ed25519}

namespace TrustStore

/-- The distinct subjects stored under an issuer. -/
def storedSubjects (store : TrustStore ed) (issuer : Block 32) : Finset (Block 32) :=
  (store.subjectsOf issuer).keys.toFinset

/-- The subjects stored under an issuer with an invitation that passes verification. -/
def validSubjects (store : TrustStore ed) (issuer : Block 32) (now : UInt64) :
    Finset (Block 32) :=
  (store.storedSubjects issuer).filter fun subject =>
    (store.stored issuer subject).any fun invite => invite.verify now = .ok ()

variable {store : TrustStore ed}

theorem mem_storedSubjects_iff {issuer subject : Block 32} :
    subject ∈ store.storedSubjects issuer ↔
      ∃ invite, store.stored issuer subject = some invite := by
  rw [storedSubjects, List.mem_toFinset, ← AList.mem_keys, ← AList.lookup_isSome,
    Option.isSome_iff_exists]
  rfl

theorem card_storedSubjects (store : TrustStore ed) (issuer : Block 32) :
    (store.storedSubjects issuer).card = (store.subjectsOf issuer).entries.length := by
  rw [storedSubjects, List.toFinset_card_of_nodup (store.subjectsOf issuer).keys_nodup,
    ← HashTable.size_eq_length_keys]
  rfl

/-- What an ingest returns and leaves. -/
inductive IngestOutcome (store : TrustStore ed) (invite : Invitation ed) (now : UInt64) :
    Except AdmissionError Unit × TrustStore ed → Prop where
  | unverified {error : AdmissionError} (failed : invite.verify now = .error error) :
      IngestOutcome store invite now (.error error, store)
  | capReached (verified : invite.verify now = .ok ())
      (absent : invite.subject ∉ store.storedSubjects invite.issuer.asBytes)
      (full : store.maxInviteesPerIssuer ≤ (store.storedSubjects invite.issuer.asBytes).card) :
      IngestOutcome store invite now
        (.error .issuerCapReached,
          { store with
            edges := store.edges.insert invite.issuer.asBytes
              (store.subjectsOf invite.issuer.asBytes) })
  | accepted (verified : invite.verify now = .ok ())
      (room : invite.subject ∈ store.storedSubjects invite.issuer.asBytes ∨
        (store.storedSubjects invite.issuer.asBytes).card < store.maxInviteesPerIssuer) :
      IngestOutcome store invite now
        (.ok (),
          { store with
            edges := store.edges.insert invite.issuer.asBytes
              ((store.subjectsOf invite.issuer.asBytes).insert invite.subject invite) })

theorem ingestOutcome (store : TrustStore ed) (invite : Invitation ed) (now : UInt64) :
    IngestOutcome store invite now (store.ingest invite now) := by
  have memIff : invite.subject ∈ store.subjectsOf invite.issuer.asBytes ↔
      invite.subject ∈ store.storedSubjects invite.issuer.asBytes := by
    rw [storedSubjects, List.mem_toFinset, AList.mem_keys]
  unfold ingest
  cases verified : invite.verify now with
  | error error => exact .unverified verified
  | ok _ =>
      simp only [memIff, ← card_storedSubjects]
      split_ifs with refused
      · exact .capReached verified refused.1 refused.2
      · apply IngestOutcome.accepted verified
        by_cases present : invite.subject ∈ store.storedSubjects invite.issuer.asBytes
        · exact .inl present
        · exact .inr (not_le.mp fun full => refused ⟨present, full⟩)

theorem ingest_eq_capReached_iff (store : TrustStore ed) {invite : Invitation ed} {now : UInt64}
    (verified : invite.verify now = .ok ()) :
    (store.ingest invite now).1 = .error .issuerCapReached ↔
      invite.subject ∉ store.storedSubjects invite.issuer.asBytes ∧
        store.maxInviteesPerIssuer ≤ (store.storedSubjects invite.issuer.asBytes).card := by
  have outcome := store.ingestOutcome invite now
  generalize store.ingest invite now = result at outcome
  cases outcome with
  | unverified failed =>
      rw [verified] at failed
      cases failed
  | capReached _ absent full => exact iff_of_true rfl ⟨absent, full⟩
  | accepted _ room =>
      apply iff_of_false
      · intro refused
        cases refused
      · rintro ⟨absent, full⟩
        rcases room with present | spare
        · exact absent present
        · exact absurd full (not_le.mpr spare)

theorem storedSubjects_ingest_of_ok {invite : Invitation ed} {now : UInt64}
    (accepted : (store.ingest invite now).1 = .ok ()) :
    (store.ingest invite now).2.storedSubjects invite.issuer.asBytes =
      insert invite.subject (store.storedSubjects invite.issuer.asBytes) := by
  ext subject
  rw [Finset.mem_insert, mem_storedSubjects_iff, mem_storedSubjects_iff,
    stored_ingest_of_ok accepted]
  by_cases same : subject = invite.subject
  · simp [same]
  · simp [same]

theorem subjectsOf_ingest_of_ne {invite : Invitation ed} {now : UInt64} {issuer : Block 32}
    (different : issuer ≠ invite.issuer.asBytes) :
    (store.ingest invite now).2.subjectsOf issuer = store.subjectsOf issuer := by
  have outcome := store.ingestOutcome invite now
  generalize store.ingest invite now = result at outcome
  cases outcome with
  | unverified => rfl
  | capReached => exact subjectsOf_insert_of_ne different _
  | accepted => exact subjectsOf_insert_of_ne different _

/-- A successful ingest adds one subject at most, and none beyond the cap. -/
theorem card_storedSubjects_ingest_le {invite : Invitation ed} {now : UInt64}
    (accepted : (store.ingest invite now).1 = .ok ()) :
    ((store.ingest invite now).2.storedSubjects invite.issuer.asBytes).card ≤
      max store.maxInviteesPerIssuer (store.storedSubjects invite.issuer.asBytes).card := by
  rw [storedSubjects_ingest_of_ok accepted]
  by_cases present : invite.subject ∈ store.storedSubjects invite.issuer.asBytes
  · rw [Finset.insert_eq_of_mem present]
    exact le_max_right _ _
  · have notRefused : ¬(store.ingest invite now).1 = .error .issuerCapReached := by
      rw [accepted]
      intro refused
      cases refused
    rw [ingest_eq_capReached_iff _ (verify_of_ingest_ok accepted)] at notRefused
    have spare : (store.storedSubjects invite.issuer.asBytes).card < store.maxInviteesPerIssuer :=
      not_le.mp fun full => notRefused ⟨present, full⟩
    exact ((Finset.card_insert_le _ _).trans spare).trans (le_max_left _ _)

/-- A failed ingest is invisible to every query. -/
theorem trustDepth_ingest_of_error {invite : Invitation ed} {now : UInt64} {error : AdmissionError}
    (failed : (store.ingest invite now).1 = .error error) (before : store.Iteration)
    (after : (store.ingest invite now).2.Iteration) (subject : Block 32) (maxDepth : UInt8)
    (time : UInt64) :
    (store.ingest invite now).2.trustDepth after subject maxDepth time =
      store.trustDepth before subject maxDepth time := by
  have vouchesEq : (store.ingest invite now).2.Vouches time = store.Vouches time := by
    funext issuer other
    rw [Vouches, subjectsOf_ingest_of_error failed, Vouches]
  apply Option.ext
  intro depth
  rw [trustDepth_eq_some_iff, trustDepth_eq_some_iff, roots_ingest, vouchesEq]

end TrustStore

namespace Record

theorem run_append_singleton (ops : List (Op ed)) (op : Op ed) :
    run (ops ++ [op]) = (run ops).step op := by
  rw [run, List.foldl_append]
  rfl

/-- Every subject an invitation of the issuer was ever ingested for. -/
def everVouched (record : Record ed) (issuer : Block 32) : Finset (Block 32) :=
  ((record.ingested.filter fun invite => invite.issuer.asBytes = issuer).map
    Invitation.subject).toFinset

/-- Nothing is ever removed: the stored subjects are all those ingested so far. -/
theorem Sound.storedSubjects_eq {record : Record ed} (sound : record.Sound) (issuer : Block 32) :
    record.store.storedSubjects issuer = record.everVouched issuer := by
  ext subject
  rw [TrustStore.mem_storedSubjects_iff, sound.stored_eq, ← Option.isSome_iff_exists, latest,
    List.find?_isSome, everVouched]
  simp [and_assoc]

/--
After any run, a valid invitation is refused at the cap if and only if its subject is new
to the issuer and the cap is reached by the subjects stored under the issuer, which are
all those the issuer ever vouched for.  Counting the valid ones instead gives another
answer exactly if lapsed invitations make up the difference.
-/
theorem ingest_capReached_iff (ops : List (Op ed)) (invite : Invitation ed) (now : UInt64)
    (verified : invite.verify now = .ok ()) :
    (((run ops).store.ingest invite now).1 = .error .issuerCapReached ↔
      invite.subject ∉ (run ops).store.storedSubjects invite.issuer.asBytes ∧
        (run ops).store.maxInviteesPerIssuer ≤
          ((run ops).store.storedSubjects invite.issuer.asBytes).card) ∧
    (run ops).store.storedSubjects invite.issuer.asBytes =
      (run ops).everVouched invite.issuer.asBytes ∧
    ((((run ops).store.ingest invite now).1 = .error .issuerCapReached ↔
        invite.subject ∉ (run ops).store.storedSubjects invite.issuer.asBytes ∧
          (run ops).store.maxInviteesPerIssuer ≤
            ((run ops).store.validSubjects invite.issuer.asBytes now).card) ↔
      ¬(invite.subject ∉ (run ops).store.storedSubjects invite.issuer.asBytes ∧
        ((run ops).store.validSubjects invite.issuer.asBytes now).card <
          (run ops).store.maxInviteesPerIssuer ∧
        (run ops).store.maxInviteesPerIssuer ≤
          ((run ops).store.storedSubjects invite.issuer.asBytes).card)) := by
  have refusedIff := (run ops).store.ingest_eq_capReached_iff verified
  have validLe : ((run ops).store.validSubjects invite.issuer.asBytes now).card ≤
      ((run ops).store.storedSubjects invite.issuer.asBytes).card :=
    Finset.card_filter_le _ _
  refine ⟨refusedIff, (sound_run ops).storedSubjects_eq _, ?_⟩
  rw [refusedIff]
  constructor
  · rintro agree ⟨absent, spare, full⟩
    exact absurd (agree.mp ⟨absent, full⟩).2 (not_le.mpr spare)
  · intro noDifference
    refine and_congr_right fun absent => ⟨fun full => ?_, fun full => full.trans validLe⟩
    by_contra notFull
    exact noDifference ⟨absent, not_le.mp notFull, full⟩

/-- Another guest of the root, invited until 200. -/
def otherInvite : Invitation allGenuine :=
  { sampleInvite 200 with subject := List.Vector.replicate 32 3 }

/-- One guest is allowed and has been invited. -/
def oneGuest : List (Op allGenuine) :=
  [.addRoot sampleRoot, .setMaxInviteesPerIssuer 1, .ingest (sampleInvite 100) 10]

theorem ingest_capReached_iff_oneGuest :
    ((run oneGuest).store.ingest otherInvite 50).1 = .error .issuerCapReached := by
  have verified : otherInvite.verify 50 = .ok () := by decide +kernel
  apply (ingest_capReached_iff oneGuest otherInvite 50 verified).1.mpr
  decide +kernel

/-- A guest whose invitation has lapsed still takes the only slot. -/
theorem lapsed_invitation_counts :
    otherInvite.verify 150 = .ok () ∧
    ¬(((run oneGuest).store.ingest otherInvite 150).1 = .error .issuerCapReached ↔
      otherInvite.subject ∉ (run oneGuest).store.storedSubjects otherInvite.issuer.asBytes ∧
        (run oneGuest).store.maxInviteesPerIssuer ≤
          ((run oneGuest).store.validSubjects otherInvite.issuer.asBytes 150).card) := by
  decide +kernel

/-! ### Runs -/

/-- Every stored invitation was ingested, and verified at that time. -/
theorem exists_ingest_of_stored (ops : List (Op ed)) {issuer subject : Block 32}
    {invite : Invitation ed} (found : (run ops).store.stored issuer subject = some invite) :
    ∃ earlier now later, ops = earlier ++ .ingest invite now :: later ∧
      ((run earlier).store.ingest invite now).1 = .ok () ∧ invite.verify now = .ok () := by
  induction ops using List.reverseRecOn with
  | nil => simp [run, initial, TrustStore.new, TrustStore.stored, TrustStore.subjectsOf] at found
  | append_singleton ops op ih =>
      rw [run_append_singleton] at found
      by_cases before : (run ops).store.stored issuer subject = some invite
      · rcases ih before with ⟨earlier, now, later, rfl, accepted, verified⟩
        exact ⟨earlier, now, later ++ [op], by simp, accepted, verified⟩
      · cases op with
        | addRoot root => exact absurd found before
        | setMaxInviteesPerIssuer max => exact absurd found before
        | ingest other now =>
            cases result : ((run ops).store.ingest other now).1 with
            | error error =>
                rw [step_ingest_of_error result, TrustStore.stored_ingest_of_error result] at found
                exact absurd found before
            | ok _ =>
                rw [step_ingest_of_ok result, TrustStore.stored_ingest_of_ok result] at found
                split_ifs at found with same
                · rw [Option.some.injEq] at found
                  subst found
                  exact ⟨ops, now, [], rfl, result, TrustStore.verify_of_ingest_ok result⟩
                · exact absurd found before

/-- The cap is set before the first ingest and is never changed. -/
def CapFixed (cap : ℕ) (ops : List (Op ed)) : Prop :=
  ∃ setup rest, ops = setup ++ .setMaxInviteesPerIssuer cap :: rest ∧
    (∀ invite now, .ingest invite now ∉ setup) ∧
    ∀ max, .setMaxInviteesPerIssuer max ∈ rest → max = cap

/-- The cap is in force and kept by every issuer. -/
structure Capped (cap : ℕ) (store : TrustStore ed) : Prop where
  cap_eq : store.maxInviteesPerIssuer = cap
  card_le : ∀ issuer, (store.storedSubjects issuer).card ≤ cap

theorem maxInviteesPerIssuer_ingest (store : TrustStore ed) (invite : Invitation ed)
    (now : UInt64) :
    (store.ingest invite now).2.maxInviteesPerIssuer = store.maxInviteesPerIssuer := by
  have outcome := store.ingestOutcome invite now
  generalize store.ingest invite now = result at outcome
  cases outcome <;> rfl

theorem store_step_ingest (record : Record ed) (invite : Invitation ed) (now : UInt64) :
    (record.step (.ingest invite now)).store = (record.store.ingest invite now).2 := by
  cases result : (record.store.ingest invite now).1 with
  | error error => rw [step_ingest_of_error result]
  | ok _ => rw [step_ingest_of_ok result]

theorem Capped.ingest {cap : ℕ} {store : TrustStore ed} (capped : Capped cap store)
    (invite : Invitation ed) (now : UInt64) : Capped cap (store.ingest invite now).2 where
  cap_eq := (maxInviteesPerIssuer_ingest store invite now).trans capped.cap_eq
  card_le := by
    intro issuer
    cases result : (store.ingest invite now).1 with
    | error error =>
        rw [TrustStore.storedSubjects, TrustStore.subjectsOf_ingest_of_error result]
        exact capped.card_le issuer
    | ok _ =>
        by_cases same : issuer = invite.issuer.asBytes
        · subst same
          apply (TrustStore.card_storedSubjects_ingest_le result).trans
          exact max_le capped.cap_eq.le (capped.card_le _)
        · rw [TrustStore.storedSubjects, TrustStore.subjectsOf_ingest_of_ne same]
          exact capped.card_le issuer

theorem Capped.step {cap : ℕ} {record : Record ed} (capped : Capped cap record.store) {op : Op ed}
    (keeps : ∀ max, op = .setMaxInviteesPerIssuer max → max = cap) :
    Capped cap (record.step op).store := by
  cases op with
  | addRoot root => exact ⟨capped.cap_eq, capped.card_le⟩
  | setMaxInviteesPerIssuer max => exact ⟨keeps max rfl, capped.card_le⟩
  | ingest invite now =>
      rw [store_step_ingest]
      exact capped.ingest invite now

theorem Capped.run {cap : ℕ} {record : Record ed} (capped : Capped cap record.store)
    {ops : List (Op ed)} (keeps : ∀ max, .setMaxInviteesPerIssuer max ∈ ops → max = cap) :
    Capped cap (ops.foldl Record.step record).store := by
  induction ops generalizing record with
  | nil => exact capped
  | cons op rest ih =>
      apply ih
      · apply capped.step
        rintro max rfl
        exact keeps max List.mem_cons_self
      · intro max inRest
        exact keeps max (List.mem_cons_of_mem _ inRest)

/-- Without an ingest nothing is stored. -/
theorem storedSubjects_eq_empty {ops : List (Op ed)}
    (noIngest : ∀ invite now, .ingest invite now ∉ ops) (issuer : Block 32) :
    (Record.run ops).store.storedSubjects issuer = ∅ := by
  apply Finset.eq_empty_of_forall_notMem
  intro subject stored
  rcases TrustStore.mem_storedSubjects_iff.mp stored with ⟨invite, found⟩
  rcases exists_ingest_of_stored ops found with ⟨earlier, now, later, rfl, _⟩
  exact noIngest invite now (by simp)

theorem CapFixed.card_le {cap : ℕ} {ops before : List (Op ed)} (fixed : CapFixed cap ops)
    (isBefore : before <+: ops) (issuer : Block 32) :
    ((Record.run before).store.storedSubjects issuer).card ≤ cap := by
  rcases fixed with ⟨setup, rest, opsEq, noIngest, keeps⟩
  rcases isBefore with ⟨later, rfl⟩
  rcases List.append_eq_append_iff.mp opsEq with ⟨more, rfl, _⟩ | ⟨ran, rfl, restEq⟩
  · rw [storedSubjects_eq_empty]
    · exact Nat.zero_le _
    · intro invite now inBefore
      exact noIngest invite now (List.mem_append_left _ inBefore)
  · have empty := storedSubjects_eq_empty noIngest
    rcases List.cons_eq_append_iff.mp restEq with ⟨rfl, _⟩ | ⟨others, rfl, rfl⟩
    · rw [List.append_nil, empty]
      exact Nat.zero_le _
    · have capped : Capped cap ((Record.run setup).step (.setMaxInviteesPerIssuer cap)).store := by
        refine ⟨rfl, ?_⟩
        intro other
        have noneStored := empty other
        change ((Record.run setup).store.storedSubjects other).card ≤ cap
        rw [noneStored]
        exact Nat.zero_le _
      have cappedAfter := capped.run fun max inOthers => keeps max (List.mem_append_left _ inOthers)
      rw [Record.run, List.foldl_append]
      exact cappedAfter.card_le issuer

/--
The trust store over whole runs.  Every stored invitation sits under its own issuer and
subject and verified when it was ingested; a successful ingest adds at most one subject
within the cap and leaves the other issuers alone; under a fixed cap no issuer ever has
more subjects than it; and a failed ingest changes the answer to no query.
-/
theorem store_run (ops : List (Op ed)) :
    (∀ issuer subject invite, (run ops).store.stored issuer subject = some invite →
      invite.issuer.asBytes = issuer ∧ invite.subject = subject ∧
      ∃ earlier now later, ops = earlier ++ .ingest invite now :: later ∧
        ((run earlier).store.ingest invite now).1 = .ok () ∧ invite.verify now = .ok ()) ∧
    (∀ invite now, ((run ops).store.ingest invite now).1 = .ok () →
      (((run ops).store.ingest invite now).2.storedSubjects invite.issuer.asBytes).card ≤
        max (run ops).store.maxInviteesPerIssuer
          ((run ops).store.storedSubjects invite.issuer.asBytes).card ∧
      ∀ other, other ≠ invite.issuer.asBytes →
        ((run ops).store.ingest invite now).2.subjectsOf other =
          (run ops).store.subjectsOf other) ∧
    (∀ cap, CapFixed cap ops → ∀ before, before <+: ops → ∀ issuer,
      ((run before).store.storedSubjects issuer).card ≤ cap) ∧
    ∀ invite now error, ((run ops).store.ingest invite now).1 = .error error →
      ∀ (before : (run ops).store.Iteration)
        (after : ((run ops).store.ingest invite now).2.Iteration) subject maxDepth time,
        ((run ops).store.ingest invite now).2.trustDepth after subject maxDepth time =
          (run ops).store.trustDepth before subject maxDepth time := by
  refine ⟨?_, ?_, ?_, ?_⟩
  · intro issuer subject invite found
    rcases (sound_run ops).wellFormed issuer subject invite found with
      ⟨sameIssuer, sameSubject, _⟩
    exact ⟨sameIssuer, sameSubject, exists_ingest_of_stored ops found⟩
  · intro invite now accepted
    exact ⟨TrustStore.card_storedSubjects_ingest_le accepted, fun other different =>
      TrustStore.subjectsOf_ingest_of_ne different⟩
  · intro cap fixed before isBefore issuer
    exact fixed.card_le isBefore issuer
  · intro invite now error failed before after subject maxDepth time
    exact TrustStore.trustDepth_ingest_of_error failed before after subject maxDepth time

theorem store_run_oneGuest :
    (run oneGuest).store.stored sampleRoot.asBytes sampleGuest = some (sampleInvite 100) ∧
    (sampleInvite 100).verify 10 = .ok () ∧
    ((run oneGuest).store.storedSubjects sampleRoot.asBytes).card ≤ 1 := by
  have fixed : CapFixed 1 oneGuest :=
    ⟨[.addRoot sampleRoot], [.ingest (sampleInvite 100) 10], rfl, by simp, by simp⟩
  have found : (run oneGuest).store.stored sampleRoot.asBytes sampleGuest =
      some (sampleInvite 100) := by
    decide +kernel
  refine ⟨found, by decide +kernel, ?_⟩
  exact (store_run oneGuest).2.2.1 1 fixed oneGuest List.prefix_rfl _

end Record

end Admission

end Ppose

import Ppose.Admission.Cap

/-!
# How vouches spread

Nodes pass invitations on, and each node ingests what it gets in its own order.  Two stores
which have got the same invitations answer alike, however often, in which order and when
they got them, unless the cap has refused some or there are two invitations for the same
pair (`stores_converge`).

The other way round, whoever is not admitted has no say: whatever invitations such
issuers spread, no answer of the store changes (`outsiders_have_no_say`).
-/

namespace Ppose

/-! ### Chains over two relations which agree near the roots -/

namespace BreadthFirst

universe u

variable {Node : Type u} {edge other : Node → Node → Prop} {isRoot : Node → Prop} {bound : ℕ}

theorem Chain.congr_within
    (agree : ∀ length < bound, ∀ node, Chain edge isRoot length node →
      ∀ successor, edge node successor ↔ other node successor) {length : ℕ}
    (within : length ≤ bound) (node : Node) :
    Chain edge isRoot length node ↔ Chain other isRoot length node := by
  induction length generalizing node with
  | zero =>
      constructor
      · rintro ⟨rooted⟩
        exact .root rooted
      · rintro ⟨rooted⟩
        exact .root rooted
  | succ length ih =>
      constructor
      · intro chain
        cases chain with
        | step chain leads =>
            exact .step ((ih (by omega) _).mp chain) ((agree length within _ chain _).mp leads)
      · intro chain
        cases chain with
        | step chain leads =>
            have before := (ih (by omega) _).mpr chain
            exact .step before ((agree length within _ before _).mpr leads)

theorem distance_congr_within
    (agree : ∀ length < bound, ∀ node, Chain edge isRoot length node →
      ∀ successor, edge node successor ↔ other node successor) {length : ℕ}
    (within : length ≤ bound) (node : Node) :
    Distance edge isRoot length node ↔ Distance other isRoot length node := by
  have least_iff : (∀ shorter, Chain edge isRoot shorter node → length ≤ shorter) ↔
      ∀ shorter, Chain other isRoot shorter node → length ≤ shorter := by
    constructor
    · intro least shorter chain
      by_contra below
      exact below (least shorter ((Chain.congr_within agree (by omega) node).mpr chain))
    · intro least shorter chain
      by_contra below
      exact below (least shorter ((Chain.congr_within agree (by omega) node).mp chain))
  exact and_congr (Chain.congr_within agree within node) least_iff

end BreadthFirst

namespace Admission

variable {ed : Ed25519}

namespace Record

variable {ops others more : List (Op ed)}

/-! ### What was ingested -/

/-- An invitation has come in when it was valid. -/
def Got (ops : List (Op ed)) (invite : Invitation ed) : Prop :=
  ∃ now, .ingest invite now ∈ ops ∧ invite.verify now = .ok ()

/-- No invitation is refused because of the cap. -/
def NeverCapped (ops : List (Op ed)) : Prop :=
  ∀ earlier invite now later, ops = earlier ++ .ingest invite now :: later →
    ((run earlier).store.ingest invite now).1 ≠ .error .issuerCapReached

theorem NeverCapped.of_append (neverCapped : NeverCapped (ops ++ more)) : NeverCapped ops := by
  intro earlier invite now later split
  apply neverCapped earlier invite now (later ++ more)
  rw [split, List.append_assoc, List.cons_append]

theorem mem_added_run (ops : List (Op ed)) (root : InviteVerifyingKey ed) :
    root ∈ (run ops).added ↔ .addRoot root ∈ ops := by
  induction ops using List.reverseRecOn with
  | nil => simp [run, initial]
  | append_singleton ops op ih =>
      rw [run_append_singleton, List.mem_append, List.mem_singleton, ← ih]
      cases op with
      | addRoot other => simp [step]
      | setMaxInviteesPerIssuer max => simp [step]
      | ingest invite now =>
          cases result : ((run ops).store.ingest invite now).1 with
          | error error => simp [step_ingest_of_error result]
          | ok _ => simp [step_ingest_of_ok result]

/-- Without a cap, all that came in when it was valid is ingested. -/
theorem mem_ingested_run (neverCapped : NeverCapped ops) (invite : Invitation ed) :
    invite ∈ (run ops).ingested ↔ Got ops invite := by
  induction ops using List.reverseRecOn with
  | nil => simp [run, initial, Got]
  | append_singleton ops op ih =>
      have before := ih neverCapped.of_append
      have gotIff : Got (ops ++ [op]) invite ↔ Got ops invite ∨
          ∃ now, op = .ingest invite now ∧ invite.verify now = .ok () := by
        simp only [Got, List.mem_append, List.mem_singleton, or_and_right, exists_or]
        simp only [eq_comm]
      rw [run_append_singleton, gotIff, ← before]
      cases op with
      | addRoot root => simp [step]
      | setMaxInviteesPerIssuer max => simp [step]
      | ingest other now =>
          have uncapped := neverCapped ops other now [] rfl
          cases result : ((run ops).store.ingest other now).1 with
          | error error =>
              have unverified : other.verify now ≠ .ok () := by
                intro verified
                have outcome := (run ops).store.ingestOutcome other now
                generalize (run ops).store.ingest other now = outcomeOf at outcome result uncapped
                cases outcome with
                | unverified failed =>
                    rw [verified] at failed
                    cases failed
                | capReached => exact uncapped rfl
                | accepted => cases result
              simp only [step_ingest_of_error result, Op.ingest.injEq]
              constructor
              · exact Or.inl
              · rintro (old | ⟨_, ⟨rfl, rfl⟩, verified⟩)
                · exact old
                · exact absurd verified unverified
          | ok _ =>
              have verified := TrustStore.verify_of_ingest_ok result
              simp only [step_ingest_of_ok result, List.mem_append, List.mem_singleton,
                Op.ingest.injEq]
              apply or_congr_right
              constructor
              · rintro rfl
                exact ⟨now, ⟨rfl, rfl⟩, verified⟩
              · rintro ⟨_, ⟨rfl, _⟩, _⟩
                rfl

theorem length_ingested_run_le (ops : List (Op ed)) : (run ops).ingested.length ≤ ops.length := by
  induction ops using List.reverseRecOn with
  | nil => exact le_rfl
  | append_singleton ops op ih =>
      rw [run_append_singleton, List.length_append, List.length_singleton]
      cases op with
      | addRoot root => exact ih.trans (Nat.le_succ _)
      | setMaxInviteesPerIssuer max => exact ih.trans (Nat.le_succ _)
      | ingest invite now =>
          cases result : ((run ops).store.ingest invite now).1 with
          | error error =>
              rw [step_ingest_of_error result]
              exact ih.trans (Nat.le_succ _)
          | ok _ =>
              rw [step_ingest_of_ok result, List.length_append, List.length_singleton]
              exact Nat.succ_le_succ ih

theorem maxInviteesPerIssuer_run (noCap : ∀ max, .setMaxInviteesPerIssuer max ∉ ops) :
    (run ops).store.maxInviteesPerIssuer = TrustStore.usizeMax := by
  induction ops using List.reverseRecOn with
  | nil => rfl
  | append_singleton ops op ih =>
      have before := ih fun max maxMem => noCap max (List.mem_append_left _ maxMem)
      rw [run_append_singleton]
      cases op with
      | addRoot root => exact before
      | setMaxInviteesPerIssuer max => exact absurd (by simp) (noCap max)
      | ingest invite now =>
          rw [store_step_ingest, maxInviteesPerIssuer_ingest]
          exact before

/-- With no cap set, too few operations for the default cap refuse nothing. -/
theorem neverCapped_of_few (noCap : ∀ max, .setMaxInviteesPerIssuer max ∉ ops)
    (few : ops.length ≤ TrustStore.usizeMax) : NeverCapped ops := by
  rintro earlier invite now later rfl refused
  have maxEq := maxInviteesPerIssuer_run fun max maxMem =>
    noCap max (List.mem_append_left _ maxMem)
  have lengthLe := length_ingested_run_le earlier
  have outcome := (run earlier).store.ingestOutcome invite now
  generalize (run earlier).store.ingest invite now = result at outcome refused
  cases outcome with
  | unverified failed =>
      simp only [Except.error.injEq] at refused
      subst refused
      unfold Invitation.verify at failed
      split_ifs at failed <;> cases failed
  | accepted => cases refused
  | capReached _ _ full =>
      have storedLe : ((run earlier).store.storedSubjects invite.issuer.asBytes).card ≤
          (run earlier).ingested.length := by
        rw [(sound_run earlier).storedSubjects_eq]
        refine (List.toFinset_card_le _).trans ?_
        rw [List.length_map]
        exact List.length_filter_le _ _
      rw [maxEq] at full
      rw [List.length_append, List.length_cons] at few
      omega

/-- There are no two invitations from the same issuer for the same subject. -/
def Consistent (ops : List (Op ed)) : Prop :=
  ∀ first second, Got ops first → Got ops second →
    first.issuer.asBytes = second.issuer.asBytes → first.subject = second.subject → first = second

theorem latest_eq_some_iff (neverCapped : NeverCapped ops) (consistent : Consistent ops)
    (issuer subject : Block 32) (invite : Invitation ed) :
    (run ops).latest issuer subject = some invite ↔
      Got ops invite ∧ invite.issuer.asBytes = issuer ∧ invite.subject = subject := by
  constructor
  · intro found
    have isFor := List.find?_some found
    have ingested := List.mem_reverse.mp (List.mem_of_find?_eq_some found)
    rw [decide_eq_true_eq] at isFor
    exact ⟨(mem_ingested_run neverCapped invite).mp ingested, isFor⟩
  · rintro ⟨got, rfl, rfl⟩
    have ingested := (mem_ingested_run neverCapped invite).mpr got
    have exists_latest : ((run ops).latest invite.issuer.asBytes invite.subject).isSome = true := by
      rw [latest, List.find?_isSome]
      exact ⟨invite, List.mem_reverse.mpr ingested, by simp⟩
    rcases Option.isSome_iff_exists.mp exists_latest with ⟨other, found⟩
    have isFor := List.find?_some found
    have otherIngested := List.mem_reverse.mp (List.mem_of_find?_eq_some found)
    rw [decide_eq_true_eq] at isFor
    rw [found, consistent other invite ((mem_ingested_run neverCapped other).mp otherIngested) got
      isFor.1 isFor.2]

/-! ### Convergence -/

/--
Two stores with the same roots which have got the same invitations, each when they were
valid, give the same answers to every query, in whatever order and however often the
invitations came in, if no cap has refused any of them and no two of them are from the same
issuer for the same subject.
-/
theorem stores_converge (ops others : List (Op ed))
    (sameRoots : ∀ root, .addRoot root ∈ ops ↔ .addRoot root ∈ others)
    (sameInvites : ∀ invite, Got ops invite ↔ Got others invite) (consistent : Consistent ops)
    (neverCapped : NeverCapped ops) (othersNeverCapped : NeverCapped others)
    (iteration : (run ops).store.Iteration) (otherIteration : (run others).store.Iteration)
    (subject : Block 32) (maxDepth : UInt8) (now : UInt64) :
    (run ops).store.trustDepth iteration subject maxDepth now =
      (run others).store.trustDepth otherIteration subject maxDepth now := by
  have sound := sound_run ops
  have otherSound := sound_run others
  have othersConsistent : Consistent others := by
    intro first second firstGot secondGot
    exact consistent first second ((sameInvites first).mpr firstGot)
      ((sameInvites second).mpr secondGot)
  have vouchesEq : (run ops).store.Vouches now = (run others).store.Vouches now := by
    funext issuer subject
    simp only [sound.vouches_iff, otherSound.vouches_iff, Vouched,
      latest_eq_some_iff neverCapped consistent,
      latest_eq_some_iff othersNeverCapped othersConsistent, sameInvites]
  have rootsEq : (run ops).store.roots = (run others).store.roots := by
    ext key
    simp only [sound.roots_iff, otherSound.roots_iff, mem_added_run, sameRoots]
  apply Option.ext
  intro depth
  rw [TrustStore.trustDepth_eq_some_iff, TrustStore.trustDepth_eq_some_iff, vouchesEq, rootsEq]

/-- A guest of the root, and another one. -/
def bothGuests : List (Op allGenuine) :=
  [.addRoot sampleRoot, .ingest (sampleInvite 100) 5, .ingest otherInvite 6]

/-- The same later, the other way round, and one of them twice. -/
def bothGuestsAgain : List (Op allGenuine) :=
  [.ingest otherInvite 7, .ingest (sampleInvite 100) 8, .addRoot sampleRoot, .ingest otherInvite 9]

def bothGuestsIteration : (run bothGuests).store.Iteration :=
  inStorageOrder _ [sampleRoot.asBytes] (by decide +kernel)

def bothGuestsAgainIteration : (run bothGuestsAgain).store.Iteration :=
  inStorageOrder _ [sampleRoot.asBytes] (by decide +kernel)

theorem stores_converge_bothGuests :
    (run bothGuests).store.trustDepth bothGuestsIteration sampleGuest 1 50 =
      (run bothGuestsAgain).store.trustDepth bothGuestsAgainIteration sampleGuest 1 50 := by
  have gotIff : ∀ invite,
      Got bothGuests invite ↔ invite = sampleInvite 100 ∨ invite = otherInvite := by
    intro invite
    constructor
    · rintro ⟨now, ingested, _⟩
      simp only [bothGuests, List.mem_cons, Op.ingest.injEq, reduceCtorEq, List.not_mem_nil,
        or_false, false_or] at ingested
      exact ingested.imp And.left And.left
    · rintro (rfl | rfl)
      · exact ⟨5, by simp [bothGuests], by decide +kernel⟩
      · exact ⟨6, by simp [bothGuests], by decide +kernel⟩
  have gotAgainIff : ∀ invite,
      Got bothGuestsAgain invite ↔ invite = sampleInvite 100 ∨ invite = otherInvite := by
    intro invite
    constructor
    · rintro ⟨now, ingested, _⟩
      simp only [bothGuestsAgain, List.mem_cons, Op.ingest.injEq, reduceCtorEq, List.not_mem_nil,
        or_false, false_or] at ingested
      rcases ingested with ⟨rfl, _⟩ | ⟨rfl, _⟩ | ⟨rfl, _⟩
      · exact Or.inr rfl
      · exact Or.inl rfl
      · exact Or.inr rfl
    · rintro (rfl | rfl)
      · exact ⟨8, by simp [bothGuestsAgain], by decide +kernel⟩
      · exact ⟨7, by simp [bothGuestsAgain], by decide +kernel⟩
  have consistent : Consistent bothGuests := by
    intro first second firstGot secondGot _ sameSubject
    rw [gotIff] at firstGot secondGot
    rcases firstGot with rfl | rfl <;> rcases secondGot with rfl | rfl
    · rfl
    · exact absurd sameSubject (by decide)
    · exact absurd sameSubject (by decide)
    · rfl
  exact stores_converge bothGuests bothGuestsAgain (by simp [bothGuests, bothGuestsAgain])
    (fun invite => (gotIff invite).trans (gotAgainIff invite).symm) consistent
    (neverCapped_of_few (by simp [bothGuests]) (by decide))
    (neverCapped_of_few (by simp [bothGuestsAgain]) (by decide)) bothGuestsIteration
    bothGuestsAgainIteration sampleGuest 1 50

/-! ### Outsiders -/

/-- Only the given issuers have their invitations ingested, and no root is added. -/
def OnlyFrom (outsiders : Set (Block 32)) (ops : List (Op ed)) : Prop :=
  ∀ op ∈ ops, (∃ max, op = .setMaxInviteesPerIssuer max) ∨
    ∃ invite now, op = .ingest invite now ∧ invite.issuer.asBytes ∈ outsiders

theorem vouches_foldl_of_onlyFrom {outsiders : Set (Block 32)} (onlyFrom : OnlyFrom outsiders more)
    (record : Record ed) :
    (more.foldl step record).store.roots = record.store.roots ∧
      ∀ issuer, issuer ∉ outsiders →
        (more.foldl step record).store.subjectsOf issuer = record.store.subjectsOf issuer := by
  induction more generalizing record with
  | nil => exact ⟨rfl, fun _ _ => rfl⟩
  | cons op more ih =>
      have rest := ih (fun other otherMem => onlyFrom other (List.mem_cons_of_mem _ otherMem))
        (record.step op)
      rw [List.foldl_cons]
      rcases onlyFrom op List.mem_cons_self with ⟨max, rfl⟩ | ⟨invite, now, rfl, isOutsider⟩
      · exact rest
      · rw [rest.1]
        rw [store_step_ingest, TrustStore.roots_ingest]
        refine ⟨rfl, ?_⟩
        intro issuer notOutsider
        have different : issuer ≠ invite.issuer.asBytes := by
          rintro rfl
          exact notOutsider isOutsider
        rw [rest.2 issuer notOutsider, store_step_ingest,
          TrustStore.subjectsOf_ingest_of_ne different]

/--
If none of some issuers is admitted at a time, whatever invitations of theirs are ingested,
the answers for that time stay as they are, for everybody and at every depth: they can admit
neither each other nor anybody else.
-/
theorem outsiders_have_no_say (ops more : List (Op ed)) (outsiders : Set (Block 32))
    (now : UInt64) (iteration : (run ops).store.Iteration)
    (unadmitted : ∀ outsider ∈ outsiders,
      (run ops).store.isAdmitted iteration outsider 255 now = false)
    (onlyFrom : OnlyFrom outsiders more) (later : (run (ops ++ more)).store.Iteration)
    (subject : Block 32) (maxDepth : UInt8) :
    (run (ops ++ more)).store.trustDepth later subject maxDepth now =
      (run ops).store.trustDepth iteration subject maxDepth now := by
  have runEq : run (ops ++ more) = more.foldl step (run ops) := List.foldl_append
  rcases vouches_foldl_of_onlyFrom onlyFrom (run ops) with ⟨rootsEq, subjectsEq⟩
  rw [← runEq] at rootsEq subjectsEq
  have agree : ∀ length < 255, ∀ node,
      BreadthFirst.Chain ((run ops).store.Vouches now) (· ∈ (run ops).store.roots) length node →
        ∀ successor, (run ops).store.Vouches now node successor ↔
          (run (ops ++ more)).store.Vouches now node successor := by
    intro length lengthLt node chain successor
    have inside : node ∉ outsiders := by
      intro isOutsider
      have admitted := (TrustStore.isAdmitted_iff iteration node 255 now).mpr
        ⟨length, lengthLt.le, chain⟩
      rw [unadmitted node isOutsider] at admitted
      cases admitted
    simp only [TrustStore.Vouches, subjectsEq node inside]
  apply Option.ext
  intro depth
  rw [TrustStore.trustDepth_eq_some_iff, TrustStore.trustDepth_eq_some_iff, rootsEq]
  apply and_congr_right
  intro _
  exact (BreadthFirst.distance_congr_within agree (Nat.lt_succ_iff.mp depth.toNat_lt) subject).symm

def sampleOutsider : InviteVerifyingKey allGenuine := ⟨List.Vector.replicate 32 7, rfl⟩

/-- The outsider invites itself and the guest of the root. -/
def intrusion : List (Op allGenuine) :=
  [.ingest { sampleInvite 100 with issuer := sampleOutsider, subject := sampleOutsider.asBytes } 6,
    .ingest { sampleInvite 200 with issuer := sampleOutsider } 7]

def intrusionIteration : (run (bothGuests ++ intrusion)).store.Iteration :=
  inStorageOrder _ [sampleRoot.asBytes] (by decide +kernel)

theorem outsiders_have_no_say_intrusion :
    (run (bothGuests ++ intrusion)).store.trustDepth intrusionIteration sampleOutsider.asBytes
      255 50 = none := by
  have unadmitted : ∀ outsider ∈ ({sampleOutsider.asBytes} : Set (Block 32)),
      (run bothGuests).store.isAdmitted bothGuestsIteration outsider 255 50 = false := by
    rintro _ rfl
    decide +kernel
  have onlyFrom : OnlyFrom ({sampleOutsider.asBytes} : Set (Block 32)) intrusion := by
    intro op opMem
    simp only [intrusion, List.mem_cons, List.not_mem_nil, or_false] at opMem
    rcases opMem with rfl | rfl
    · exact Or.inr ⟨_, _, rfl, rfl⟩
    · exact Or.inr ⟨_, _, rfl, rfl⟩
  rw [outsiders_have_no_say bothGuests intrusion _ 50 bothGuestsIteration unadmitted onlyFrom
    intrusionIteration]
  decide +kernel

end Record

end Admission

end Ppose

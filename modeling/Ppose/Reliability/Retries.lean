import Ppose.Foundations.ClockedRun
import Ppose.Reliability.Operations
import Mathlib.Data.List.TakeWhile

/-!
# Retransmission and giving up

One endpoint under any operations, with a clock which never goes back.  A `Ledger`
keeps next to the endpoint what it has emitted and which messages it has queued.

`takeRetransmits` walks the outgoing frames in sequence order and gives up at the
first one which is due and has used up its attempts.  Had it already rewritten an
earlier entry by then, the retransmission of that entry would be lost.  This does
not happen: of two frames that were sent, the earlier one has at least as many
attempts, and one more if it was sent later than the other (`Leads`).  So if a frame
is exhausted and due, every earlier frame which is due is exhausted as well.
-/

namespace Ppose

namespace Arq

/-! ### The walk of `takeRetransmits` -/

/-- The retransmit timer of a sent entry has run out. -/
def isDue (now : Instant) (retx : Duration) (entry : UInt32 × Outgoing) : Bool :=
  match entry.2.lastSent with
  | none => false
  | some last => retx ≤ now - last

/-- An entry after it was sent once more. -/
def resent (now : Instant) (entry : UInt32 × Outgoing) : UInt32 × Outgoing :=
  (entry.1, { entry.2 with attempts := entry.2.attempts + 1, lastSent := some now })

def resentIfDue (now : Instant) (retx : Duration) (entry : UInt32 × Outgoing) :
    UInt32 × Outgoing :=
  if isDue now retx entry then resent now entry else entry

/-- How the walk over the entries can end. -/
inductive RetransmitsWalk (now : Instant) (retx : Duration) (maxAttempts : UInt8)
    (entries : List (UInt32 × Outgoing)) :
    Except ArqGiveUp (List Bytes) × List (UInt32 × Outgoing) → Prop where
  | resends
      (attemptsLeft : ∀ entry ∈ entries, isDue now retx entry = true →
        entry.2.attempts < maxAttempts) :
      RetransmitsWalk now retx maxAttempts entries
        (.ok ((entries.filter (isDue now retx)).map fun entry => entry.2.plaintext),
          entries.map (resentIfDue now retx))
  | givesUp {before after : List (UInt32 × Outgoing)} {entry : UInt32 × Outgoing}
      (split : entries = before ++ entry :: after)
      (attemptsLeft : ∀ earlier ∈ before, isDue now retx earlier = true →
        earlier.2.attempts < maxAttempts)
      (due : isDue now retx entry = true) (exhausted : maxAttempts ≤ entry.2.attempts) :
      RetransmitsWalk now retx maxAttempts entries
        (.error { seq := entry.1, attempts := entry.2.attempts },
          before.map (resentIfDue now retx) ++ entry :: after)

theorem RetransmitsWalk.cons {now : Instant} {retx : Duration} {maxAttempts : UInt8}
    {rest : List (UInt32 × Outgoing)}
    {walk : Except ArqGiveUp (List Bytes) × List (UInt32 × Outgoing)}
    (restWalk : RetransmitsWalk now retx maxAttempts rest walk) (entry : UInt32 × Outgoing)
    (attemptsLeft : isDue now retx entry = true → entry.2.attempts < maxAttempts) :
    RetransmitsWalk now retx maxAttempts (entry :: rest)
      (if isDue now retx entry then walk.1.map (entry.2.plaintext :: ·) else walk.1,
        resentIfDue now retx entry :: walk.2) := by
  cases restWalk with
  | resends restLeft =>
      have whole : RetransmitsWalk now retx maxAttempts (entry :: rest) _ :=
        .resends (List.forall_mem_cons.mpr ⟨attemptsLeft, restLeft⟩)
      cases due : isDue now retx entry <;> simpa [due, Except.map] using whole
  | givesUp split beforeLeft due exhausted =>
      rename_i before after exhaustedEntry
      have splitCons : entry :: rest = (entry :: before) ++ exhaustedEntry :: after := by
        rw [split, List.cons_append]
      have whole := RetransmitsWalk.givesUp splitCons
        (List.forall_mem_cons.mpr ⟨attemptsLeft, beforeLeft⟩) due exhausted
      cases entryDue : isDue now retx entry <;> simpa [Except.map] using whole

theorem retransmitsWalk_retransmitsLoop (now : Instant) (retx : Duration) (maxAttempts : UInt8)
    (entries : List (UInt32 × Outgoing)) :
    RetransmitsWalk now retx maxAttempts entries
      (retransmitsLoop now retx maxAttempts entries) := by
  fun_induction retransmitsLoop now retx maxAttempts entries with
  | case1 => exact .resends (by simp)
  | case2 seq slot rest unsent result entries' walk ih =>
      rw [walk] at ih
      have notDue : isDue now retx (seq, slot) = false := by simp only [isDue, unsent]
      simpa [notDue, resentIfDue] using ih.cons (seq, slot) (by simp [notDue])
  | case3 seq slot rest last sent early result entries' walk ih =>
      rw [walk] at ih
      have notDue : isDue now retx (seq, slot) = false := by
        simp only [isDue, sent, decide_eq_false_iff_not, not_le]
        exact early
      simpa [notDue, resentIfDue] using ih.cons (seq, slot) (by simp [notDue])
  | case4 seq slot rest last sent late exhausted =>
      have due : isDue now retx (seq, slot) = true := by
        simp only [isDue, sent, decide_eq_true_eq]
        exact not_lt.mp late
      exact .givesUp (List.nil_append _).symm (by simp) due exhausted
  | case5 seq slot rest last sent late notExhausted result entries' walk ih =>
      rw [walk] at ih
      have due : isDue now retx (seq, slot) = true := by
        simp only [isDue, sent, decide_eq_true_eq]
        exact not_lt.mp late
      simpa [due, resentIfDue, resent] using
        ih.cons (seq, slot) fun _ => UInt8.not_le.mp notExhausted

/-! ### The order of attempts -/

/-- Of two entries, the later one is not ahead of the earlier one. -/
def Leads (earlier later : UInt32 × Outgoing) : Prop :=
  ∀ laterSent, later.2.lastSent = some laterSent →
    ∃ earlierSent, earlier.2.lastSent = some earlierSent ∧
      later.2.attempts ≤ earlier.2.attempts ∧
      (laterSent < earlierSent → later.2.attempts < earlier.2.attempts)

/-- The attempts and the time of an entry, at some time. -/
def Paced (now : Instant) (slot : Outgoing) : Prop :=
  match slot.lastSent with
  | none => slot.attempts = 0
  | some last => last ≤ now ∧ 1 ≤ slot.attempts ∧ slot.attempts ≤ defaultMaxAttempts

theorem exists_sent_of_isDue {now : Instant} {retx : Duration} {entry : UInt32 × Outgoing}
    (due : isDue now retx entry = true) :
    ∃ last, entry.2.lastSent = some last ∧ retx ≤ now - last := by
  unfold isDue at due
  split at due
  · cases due
  · rename_i last sent
    exact ⟨last, sent, of_decide_eq_true due⟩

/-- If only the later one of two entries is due, it has fewer attempts. -/
theorem attempts_lt_of_isDue {now : Instant} {retx : Duration} {earlier later : UInt32 × Outgoing}
    (leads : Leads earlier later) (due : isDue now retx later = true)
    (notDue : isDue now retx earlier = false) : later.2.attempts < earlier.2.attempts := by
  rcases exists_sent_of_isDue due with ⟨last, laterSent, elapsed⟩
  rcases leads last laterSent with ⟨earlierLast, earlierSent, _, behind⟩
  simp only [isDue, earlierSent, decide_eq_false_iff_not] at notDue
  apply behind
  by_contra notAfter
  exact notDue (elapsed.trans (Nat.sub_le_sub_left (not_lt.mp notAfter) now))

theorem toNat_succ_attempts {attempts : UInt8} (left : attempts < defaultMaxAttempts) :
    (attempts + 1).toNat = attempts.toNat + 1 := by
  have small : attempts.toNat < 5 := UInt8.lt_iff_toNat_lt.mp left
  rw [UInt8.toNat_add]
  simp only [UInt8.toNat_one]
  omega

theorem Paced.le {now last : Instant} {slot : Outgoing} (paced : Paced now slot)
    (sent : slot.lastSent = some last) : last ≤ now := by
  simp only [Paced, sent] at paced
  exact paced.1

theorem leads_of_sent {earlier later : UInt32 × Outgoing} {earlierSent laterSent : Instant}
    (earlierEq : earlier.2.lastSent = some earlierSent)
    (laterEq : later.2.lastSent = some laterSent)
    (notAhead : later.2.attempts.toNat ≤ earlier.2.attempts.toNat)
    (behind : laterSent < earlierSent → later.2.attempts.toNat < earlier.2.attempts.toNat) :
    Leads earlier later := by
  intro sent sentEq
  rw [laterEq, Option.some.injEq] at sentEq
  subst sentEq
  refine ⟨earlierSent, earlierEq, UInt8.le_iff_toNat_le.mpr notAhead, ?_⟩
  intro after
  exact UInt8.lt_iff_toNat_lt.mpr (behind after)

section Resent

variable {now : Instant} {retx : Duration} {earlier later : UInt32 × Outgoing}

theorem toNat_attempts_resent (now : Instant) {entry : UInt32 × Outgoing}
    (left : entry.2.attempts < defaultMaxAttempts) :
    (resent now entry).2.attempts.toNat = entry.2.attempts.toNat + 1 :=
  toNat_succ_attempts left

theorem Leads.resent_earlier (leads : Leads earlier later)
    (earlierLeft : earlier.2.attempts < defaultMaxAttempts) :
    Leads (resent now earlier) later := by
  intro laterSent sent
  rcases leads laterSent sent with ⟨_, _, attemptsLe, _⟩
  rw [UInt8.le_iff_toNat_le] at attemptsLe
  have bumped := toNat_attempts_resent now earlierLeft
  have leadsBy : Leads (resent now earlier) later :=
    leads_of_sent rfl sent (by omega) fun _ => by omega
  exact leadsBy laterSent sent

/-- A later entry which is sent again alone is still not ahead, since it had fewer attempts. -/
theorem Leads.resent_later (leads : Leads earlier later) (paced : Paced now earlier.2)
    (due : isDue now retx later = true) (notDue : isDue now retx earlier = false)
    (laterLeft : later.2.attempts < defaultMaxAttempts) : Leads earlier (resent now later) := by
  have behind := UInt8.lt_iff_toNat_lt.mp (attempts_lt_of_isDue leads due notDue)
  have bumped := toNat_attempts_resent now laterLeft
  rcases exists_sent_of_isDue due with ⟨last, laterSent, _⟩
  rcases leads last laterSent with ⟨earlierLast, earlierSent, _, _⟩
  apply leads_of_sent earlierSent rfl
  · omega
  · intro after
    exact absurd (paced.le earlierSent) (not_le.mpr after)

theorem Leads.resent_both (leads : Leads earlier later) (due : isDue now retx later = true)
    (earlierLeft : earlier.2.attempts < defaultMaxAttempts)
    (laterLeft : later.2.attempts < defaultMaxAttempts) :
    Leads (resent now earlier) (resent now later) := by
  have earlierBumped := toNat_attempts_resent now earlierLeft
  have laterBumped := toNat_attempts_resent now laterLeft
  rcases exists_sent_of_isDue due with ⟨last, laterSent, _⟩
  rcases leads last laterSent with ⟨_, _, attemptsLe, _⟩
  rw [UInt8.le_iff_toNat_le] at attemptsLe
  apply leads_of_sent rfl rfl
  · omega
  · intro after
    exact absurd after (lt_irrefl now)

/-- Retransmission keeps the order of attempts. -/
theorem Leads.resentIfDue (leads : Leads earlier later) (paced : Paced now earlier.2)
    (earlierLeft : isDue now retx earlier = true → earlier.2.attempts < defaultMaxAttempts)
    (laterLeft : isDue now retx later = true → later.2.attempts < defaultMaxAttempts) :
    Leads (resentIfDue now retx earlier) (resentIfDue now retx later) := by
  unfold Arq.resentIfDue
  split_ifs with earlierDue laterDue laterDue
  · exact leads.resent_both laterDue (earlierLeft earlierDue) (laterLeft laterDue)
  · exact leads.resent_earlier (earlierLeft earlierDue)
  · have notDue := Bool.eq_false_of_not_eq_true earlierDue
    exact leads.resent_later paced laterDue notDue (laterLeft laterDue)
  · exact leads

end Resent

/-! ### The ledger -/

/-- What an endpoint can be asked to do. -/
inductive ArqOp where
  | enqueue (message : Bytes)
  | takeNewSends (now : Instant)
  | takeRetransmits (now : Instant)
  | ingest (plaintext : Bytes)
  | takeAck
  | popDelivered
  | setRetx (retx : Duration)

def ArqOp.reads : ArqOp → List Instant
  | .takeNewSends now => [now]
  | .takeRetransmits now => [now]
  | _ => []

/-- A frame handed out to be sent, when, and under which retransmit timeout. -/
structure Sending where
  frame : Bytes
  sentAt : Instant
  retx : Duration

/-- An endpoint with every frame it has handed out and every message it has queued. -/
structure Ledger where
  arq : Arq
  sendings : List Sending
  enqueued : List Bytes

namespace Ledger

def initial : Ledger where
  arq := .new
  sendings := []
  enqueued := []

def step (ledger : Ledger) : ArqOp → Ledger
  | .enqueue message =>
      match ledger.arq.enqueue message with
      | (.ok (), arq) => { ledger with arq, enqueued := ledger.enqueued ++ [message] }
      | (.error _, arq) => { ledger with arq }
  | .takeNewSends now =>
      let (frames, arq) := ledger.arq.takeNewSends now
      { ledger with
        arq
        sendings := ledger.sendings ++ frames.map fun frame => ⟨frame, now, ledger.arq.retx⟩ }
  | .takeRetransmits now =>
      match ledger.arq.takeRetransmits now with
      | (.ok frames, arq) =>
          { ledger with
            arq
            sendings := ledger.sendings ++ frames.map fun frame => ⟨frame, now, ledger.arq.retx⟩ }
      | (.error _, arq) => { ledger with arq }
  | .ingest plaintext => { ledger with arq := (ledger.arq.ingest plaintext).2 }
  | .takeAck => { ledger with arq := ledger.arq.takeAck.2 }
  | .popDelivered => { ledger with arq := ledger.arq.popDelivered.2 }
  | .setRetx retx => { ledger with arq := ledger.arq.setRetx retx }

def run (ops : List ArqOp) : Ledger := ops.foldl step initial

def fragmentsEnqueued (ledger : Ledger) : ℕ := totalFragments ledger.enqueued

end Ledger

/-! ### Every reachable endpoint is orderly -/

/-- What holds of an endpoint which has queued some fragments, at some time. -/
structure Orderly (now : Instant) (queued : ℕ) (arq : Arq) : Prop where
  maxAttempts_eq : arq.maxAttempts = defaultMaxAttempts
  nextSeq_eq : arq.nextSeq = UInt32.ofNat queued
  below : ∀ entry ∈ arq.unacked.entries, entry.1.toNat < queued
  paced : ∀ entry ∈ arq.unacked.entries, Paced now entry.2
  ordered : ∀ earlier ∈ arq.unacked.entries, ∀ later ∈ arq.unacked.entries,
    earlier.1 < later.1 → Leads earlier later
  window : arq.inFlightSent ≤ windowSize

variable {now later : Instant} {queued : ℕ} {arq : Arq}

theorem Paced.wait {slot : Outgoing} (paced : Paced now slot) (notBefore : now ≤ later) :
    Paced later slot := by
  unfold Paced at paced ⊢
  split at paced
  · exact paced
  · exact ⟨paced.1.trans notBefore, paced.2⟩

theorem Orderly.wait (orderly : Orderly now queued arq) (notBefore : now ≤ later) :
    Orderly later queued arq :=
  { orderly with paced := fun entry entryMem => (orderly.paced entry entryMem).wait notBefore }

/-- An operation which only removes outgoing frames keeps the endpoint orderly. -/
theorem Orderly.sublist (orderly : Orderly now queued arq) {other : Arq}
    (sublist : other.unacked.entries.Sublist arq.unacked.entries)
    (maxAttemptsEq : other.maxAttempts = arq.maxAttempts)
    (nextSeqEq : other.nextSeq = arq.nextSeq) : Orderly now queued other where
  maxAttempts_eq := maxAttemptsEq.trans orderly.maxAttempts_eq
  nextSeq_eq := nextSeqEq.trans orderly.nextSeq_eq
  below entry entryMem := orderly.below entry (sublist.subset entryMem)
  paced entry entryMem := orderly.paced entry (sublist.subset entryMem)
  ordered earlier earlierMem later laterMem :=
    orderly.ordered earlier (sublist.subset earlierMem) later (sublist.subset laterMem)
  window := (sublist.countP_le).trans orderly.window

/-- Whatever arrives, outgoing frames are only ever removed. -/
theorem ingest_sublist (arq : Arq) (plaintext : Bytes) :
    (arq.ingest plaintext).2.unacked.entries.Sublist arq.unacked.entries ∧
      (arq.ingest plaintext).2.maxAttempts = arq.maxAttempts ∧
      (arq.ingest plaintext).2.nextSeq = arq.nextSeq := by
  unfold Arq.ingest
  split
  · exact ⟨List.Sublist.refl _, rfl, rfl⟩
  · exact ⟨List.filter_sublist, rfl, rfl⟩
  · rename_i seq fragId index total payload decoded
    rcases onData_eq arq seq fragId index total payload with
      ⟨recvBase, recvBits, fragments, delivered, received⟩
    rw [received]
    exact ⟨List.Sublist.refl _, rfl, rfl⟩

theorem Orderly.ingest (orderly : Orderly now queued arq) (plaintext : Bytes) :
    Orderly now queued (arq.ingest plaintext).2 := by
  rcases ingest_sublist arq plaintext with ⟨sublist, maxAttemptsEq, nextSeqEq⟩
  exact orderly.sublist sublist maxAttemptsEq nextSeqEq

theorem orderly_new : Orderly 0 0 Arq.new where
  maxAttempts_eq := rfl
  nextSeq_eq := rfl
  below := by simp [Arq.new, OrderedMap.empty]
  paced := by simp [Arq.new, OrderedMap.empty]
  ordered := by simp [Arq.new, OrderedMap.empty]
  window := Nat.zero_le _

/-- A message is queued behind everything else, as long as the numbers do not wrap. -/
theorem Orderly.enqueue_eq (orderly : Orderly now queued arq) {message : Bytes}
    (short : fragCount message ≤ 255) (fits : queued + fragCount message ≤ 2 ^ 32) :
    ∃ unacked nextFragId, arq.enqueue message =
        (.ok (), { arq with nextSeq := UInt32.ofNat (queued + fragCount message), unacked,
                            nextFragId }) ∧
      unacked.entries = arq.unacked.entries ++
        queuedEntries (if message = [] then 0 else arq.nextFragId)
          (UInt8.ofNat (fragCount message)) queued 0 (piecesOf message) := by
  rcases enqueueChunks_eq (if message = [] then 0 else arq.nextFragId)
      (UInt8.ofNat (fragCount message))
      { arq with nextFragId := if message = [] then arq.nextFragId else succFragId arq.nextFragId }
      queued 0 (piecesOf message) orderly.nextSeq_eq fits (List.append_nil _).symm
      orderly.below (by simp) with ⟨unacked, resultEq, entriesEq⟩
  rw [List.append_nil] at entriesEq
  exact ⟨unacked, _, by rw [enqueue_ok arq short, resultEq]; rfl, entriesEq⟩

theorem Orderly.enqueue (orderly : Orderly now queued arq) {message : Bytes}
    (short : fragCount message ≤ 255) (fits : queued + fragCount message ≤ 2 ^ 32) :
    Orderly now (queued + fragCount message) (arq.enqueue message).2 := by
  rcases orderly.enqueue_eq short fits with ⟨unacked, nextFragId, resultEq, entriesEq⟩
  have isNew : ∀ entry ∈ queuedEntries (if message = [] then 0 else arq.nextFragId)
      (UInt8.ofNat (fragCount message)) queued 0 (piecesOf message),
      (queued ≤ entry.1.toNat ∧ entry.1.toNat < queued + fragCount message) ∧
        entry.2.lastSent = none ∧ entry.2.attempts = 0 := by
    intro entry entryMem
    rcases mem_queuedEntries.mp entryMem with ⟨offset, chunk, piece, rfl⟩
    have offsetLt := index_lt_of_piece piece
    refine ⟨?_, rfl, rfl⟩
    rw [UInt32.toNat_ofNat', Nat.mod_eq_of_lt (by omega)]
    omega
  rw [resultEq]
  refine ⟨orderly.maxAttempts_eq, rfl, ?_, ?_, ?_, ?_⟩
  · intro entry entryMem
    rw [entriesEq] at entryMem
    rcases List.mem_append.mp entryMem with old | new
    · exact (orderly.below entry old).trans_le (Nat.le_add_right _ _)
    · exact (isNew entry new).1.2
  · intro entry entryMem
    rw [entriesEq] at entryMem
    rcases List.mem_append.mp entryMem with old | new
    · exact orderly.paced entry old
    · simp only [Paced, (isNew entry new).2.1, (isNew entry new).2.2]
  · intro earlier earlierMem later laterMem below laterSent sent
    rw [entriesEq] at earlierMem laterMem
    rcases List.mem_append.mp laterMem with laterOld | laterNew
    · rcases List.mem_append.mp earlierMem with earlierOld | earlierNew
      · exact orderly.ordered earlier earlierOld later laterOld below laterSent sent
      · have := orderly.below later laterOld
        have := (isNew earlier earlierNew).1.1
        rw [UInt32.lt_iff_toNat_lt] at below
        omega
    · rw [(isNew later laterNew).2.1] at sent
      cases sent
  · have countEq : (queuedEntries (if message = [] then 0 else arq.nextFragId)
        (UInt8.ofNat (fragCount message)) queued 0 (piecesOf message)).countP
          (fun entry => entry.2.isSent) = 0 := by
      apply List.countP_eq_zero.mpr
      intro entry entryMem
      simp [Outgoing.isSent, (isNew entry entryMem).2.1]
    change unacked.entries.countP _ ≤ windowSize
    rw [entriesEq, List.countP_append, countEq, Nat.add_zero]
    exact orderly.window

/-! #### New sends -/

/-- The outgoing frames are some which were sent, followed by some which were not. -/
structure SentFirst (arq : Arq) (before after : List (UInt32 × Outgoing)) : Prop where
  entries_eq : arq.unacked.entries = before ++ after
  before_sent : ∀ entry ∈ before, entry.2.isSent = true
  after_unsent : ∀ entry ∈ after, entry.2.isSent = false

theorem Orderly.isSent_of_lt (orderly : Orderly now queued arq) {earlier later : UInt32 × Outgoing}
    (earlierMem : earlier ∈ arq.unacked.entries) (laterMem : later ∈ arq.unacked.entries)
    (below : earlier.1 < later.1) (laterSent : later.2.isSent = true) :
    earlier.2.isSent = true := by
  rcases Option.isSome_iff_exists.mp laterSent with ⟨last, sent⟩
  rcases orderly.ordered earlier earlierMem later laterMem below last sent with ⟨first, found, _⟩
  simp [Outgoing.isSent, found]

theorem Orderly.sentFirst (orderly : Orderly now queued arq) :
    arq.SentFirst (arq.unacked.entries.takeWhile fun entry => entry.2.isSent)
      (arq.unacked.entries.dropWhile fun entry => entry.2.isSent) where
  entries_eq := List.takeWhile_append_dropWhile.symm
  before_sent := by
    intro entry entryMem
    have holds := List.mem_takeWhile_imp entryMem
    exact holds
  after_unsent := by
    apply OrderedMap.dropWhile_eq_false arq.unacked.sorted
    intro later laterMem earlier earlierMem below laterSent
    exact orderly.isSent_of_lt earlierMem laterMem below laterSent

variable {before after : List (UInt32 × Outgoing)}

theorem SentFirst.inFlightSent_eq (sentFirst : arq.SentFirst before after) :
    arq.inFlightSent = before.length := by
  have allSent : before.countP (fun entry => entry.2.isSent) = before.length :=
    List.countP_eq_length.mpr sentFirst.before_sent
  have noneSent : after.countP (fun entry => entry.2.isSent) = 0 := by
    apply List.countP_eq_zero.mpr
    intro entry entryMem
    simp [sentFirst.after_unsent entry entryMem]
  rw [inFlightSent, sentFirst.entries_eq, List.countP_append, allSent, noneSent, Nat.add_zero]

theorem SentFirst.takeNewSends (sentFirst : arq.SentFirst before after) (now : Instant) :
    (arq.takeNewSends now).1 =
        (after.take (windowSize - before.length)).map (fun entry => entry.2.plaintext) ∧
      (arq.takeNewSends now).2.unacked.entries =
        before ++ ((after.take (windowSize - before.length)).map (markSent now) ++
          after.drop (windowSize - before.length)) := by
  have walk := newSendsLoop_append now arq.inFlightSent sentFirst.before_sent
    sentFirst.after_unsent
  rw [sentFirst.inFlightSent_eq, ← sentFirst.entries_eq] at walk
  simp only [Arq.takeNewSends, OrderedMap.rewrite, sentFirst.inFlightSent_eq, walk, and_self]

/-- The first sends leave sent frames in front, and at most a window of them. -/
theorem SentFirst.afterNewSends (sentFirst : arq.SentFirst before after) (now : Instant) :
    (arq.takeNewSends now).2.SentFirst
      (before ++ (after.take (windowSize - before.length)).map (markSent now))
      (after.drop (windowSize - before.length)) where
  entries_eq := by
    rw [(sentFirst.takeNewSends now).2, List.append_assoc]
  before_sent := by
    intro entry entryMem
    rcases List.mem_append.mp entryMem with old | new
    · exact sentFirst.before_sent entry old
    · rcases List.mem_map.mp new with ⟨unsent, _, rfl⟩
      rfl
  after_unsent entry entryMem := sentFirst.after_unsent entry (List.mem_of_mem_drop entryMem)

theorem SentFirst.lt_of_mem (sentFirst : arq.SentFirst before after) (count : ℕ)
    {taken left : UInt32 × Outgoing} (takenMem : taken ∈ after.take count)
    (leftMem : left ∈ after.drop count) : taken.1 < left.1 := by
  have sorted := arq.unacked.sorted
  rw [sentFirst.entries_eq, ← List.take_append_drop count after, List.map_append, List.map_append,
    List.pairwise_append, List.pairwise_append] at sorted
  exact sorted.2.1.2.2 _ (List.mem_map_of_mem takenMem) _ (List.mem_map_of_mem leftMem)

/-- Every outgoing frame after the first sends was there before, sent or not. -/
theorem SentFirst.mem_takeNewSends (sentFirst : arq.SentFirst before after) {now : Instant}
    {entry : UInt32 × Outgoing} (entryMem : entry ∈ (arq.takeNewSends now).2.unacked.entries) :
    (entry ∈ arq.unacked.entries ∧ entry.2.isSent = true) ∨
    (entry ∈ arq.unacked.entries ∧ entry.2.isSent = false ∧
      entry ∈ after.drop (windowSize - before.length)) ∨
    ∃ unsent ∈ arq.unacked.entries, unsent.2.isSent = false ∧
      unsent ∈ after.take (windowSize - before.length) ∧ entry = markSent now unsent := by
  rw [(sentFirst.takeNewSends now).2] at entryMem
  simp only [sentFirst.entries_eq, List.mem_append]
  rcases List.mem_append.mp entryMem with old | new
  · exact .inl ⟨.inl old, sentFirst.before_sent entry old⟩
  · rcases List.mem_append.mp new with marked | left
    · rcases List.mem_map.mp marked with ⟨unsent, taken, rfl⟩
      have inAfter := List.mem_of_mem_take taken
      exact .inr (.inr ⟨unsent, .inr inAfter, sentFirst.after_unsent _ inAfter, taken, rfl⟩)
    · have inAfter := List.mem_of_mem_drop left
      exact .inr (.inl ⟨.inr inAfter, sentFirst.after_unsent _ inAfter, left⟩)

theorem leads_markSent {earlier unsent : UInt32 × Outgoing} (paced : Paced now earlier.2)
    (earlierSent : earlier.2.isSent = true) : Leads earlier (markSent now unsent) := by
  intro laterSent sent
  simp only [markSent, Option.some.injEq] at sent
  subst sent
  rcases Option.isSome_iff_exists.mp earlierSent with ⟨first, found⟩
  simp only [Paced, found] at paced
  exact ⟨first, found, paced.2.1, fun after => absurd paced.1 (not_le.mpr after)⟩

theorem paced_markSent (now : Instant) (entry : UInt32 × Outgoing) :
    Paced now (markSent now entry).2 := by
  simp [Paced, markSent, defaultMaxAttempts]

theorem Orderly.takeNewSends (orderly : Orderly now queued arq) :
    Orderly now queued (arq.takeNewSends now).2 := by
  have sentFirst := orderly.sentFirst
  refine ⟨orderly.maxAttempts_eq, orderly.nextSeq_eq, ?_, ?_, ?_, ?_⟩
  · intro entry entryMem
    rcases sentFirst.mem_takeNewSends entryMem with ⟨old, _⟩ | ⟨old, _⟩ | ⟨unsent, old, _, _, rfl⟩
    · exact orderly.below entry old
    · exact orderly.below entry old
    · exact orderly.below unsent old
  · intro entry entryMem
    rcases sentFirst.mem_takeNewSends entryMem with ⟨old, _⟩ | ⟨old, _⟩ | ⟨unsent, _, _, _, rfl⟩
    · exact orderly.paced entry old
    · exact orderly.paced entry old
    · exact paced_markSent now unsent
  · intro earlier earlierMem later laterMem below
    rcases sentFirst.mem_takeNewSends laterMem with
      ⟨laterOld, laterSent⟩ | ⟨_, laterUnsent, _⟩ | ⟨unsent, laterOld, _, laterTaken, rfl⟩
    · rcases sentFirst.mem_takeNewSends earlierMem with
        ⟨earlierOld, _⟩ | ⟨earlierOld, _⟩ | ⟨original, earlierOld, wasUnsent, _, rfl⟩
      · exact orderly.ordered earlier earlierOld later laterOld below
      · exact orderly.ordered earlier earlierOld later laterOld below
      · have := orderly.isSent_of_lt earlierOld laterOld below laterSent
        rw [wasUnsent] at this
        cases this
    · intro laterSent sent
      simp [Outgoing.isSent, sent] at laterUnsent
    · rcases sentFirst.mem_takeNewSends earlierMem with
        ⟨earlierOld, earlierSent⟩ | ⟨_, _, earlierLeft⟩ | ⟨original, _, _, _, rfl⟩
      · exact leads_markSent (orderly.paced earlier earlierOld) earlierSent
      · have above : unsent.1 < earlier.1 := sentFirst.lt_of_mem _ laterTaken earlierLeft
        exact absurd below (lt_asymm above)
      · exact leads_markSent (paced_markSent now original) rfl
  · have window := orderly.window
    rw [sentFirst.inFlightSent_eq] at window
    rw [(sentFirst.afterNewSends now).inFlightSent_eq, List.length_append, List.length_map,
      List.length_take]
    omega

/-! #### Retransmissions -/

/-- What `takeRetransmits` returns and leaves on an orderly endpoint. -/
inductive RetransmitsOutcome (now : Instant) (arq : Arq) :
    Except ArqGiveUp (List Bytes) × Arq → Prop where
  | resends {unacked : OrderedMap UInt32 Outgoing}
      (attemptsLeft : ∀ entry ∈ arq.unacked.entries, isDue now arq.retx entry = true →
        entry.2.attempts < defaultMaxAttempts)
      (entries_eq : unacked.entries = arq.unacked.entries.map (resentIfDue now arq.retx)) :
      RetransmitsOutcome now arq
        (.ok ((arq.unacked.entries.filter (isDue now arq.retx)).map fun entry =>
          entry.2.plaintext), { arq with unacked })
  /-- Nothing is rewritten, and the frame named is the first one which is due. -/
  | givesUp {entry : UInt32 × Outgoing} (entryMem : entry ∈ arq.unacked.entries)
      (due : isDue now arq.retx entry = true)
      (first : ∀ other ∈ arq.unacked.entries, isDue now arq.retx other = true →
        entry.1 ≤ other.1)
      (exhausted : entry.2.attempts = defaultMaxAttempts) :
      RetransmitsOutcome now arq (.error { seq := entry.1, attempts := entry.2.attempts }, arq)

theorem Paced.attempts_le {slot : Outgoing} (paced : Paced now slot) :
    slot.attempts ≤ defaultMaxAttempts := by
  unfold Paced at paced
  split at paced
  · rw [paced]
    decide
  · exact paced.2.2

theorem takeRetransmits_eq {result : Except ArqGiveUp (List Bytes) × List (UInt32 × Outgoing)}
    (loopEq : retransmitsLoop now arq.retx arq.maxAttempts arq.unacked.entries = result)
    (keysEq : result.2.map Prod.fst = arq.unacked.entries.map Prod.fst) :
    arq.takeRetransmits now =
      (result.1, { arq with unacked := arq.unacked.rewrite result.2 keysEq }) := by
  subst loopEq
  rfl

theorem Orderly.retransmitsOutcome (orderly : Orderly now queued arq) :
    RetransmitsOutcome now arq (arq.takeRetransmits now) := by
  have walk := retransmitsWalk_retransmitsLoop now arq.retx arq.maxAttempts arq.unacked.entries
  have keysEq := retransmitsLoop_keys now arq.retx arq.maxAttempts arq.unacked.entries
  rw [takeRetransmits_eq rfl keysEq]
  generalize retransmitsLoop now arq.retx arq.maxAttempts arq.unacked.entries = result
    at walk keysEq ⊢
  rw [orderly.maxAttempts_eq] at walk
  cases walk with
  | resends attemptsLeft => exact .resends attemptsLeft rfl
  | givesUp split attemptsLeft due exhausted =>
      rename_i before after entry
      have sorted := arq.unacked.sorted
      rw [split, List.map_append, List.map_cons, List.pairwise_append, List.pairwise_cons] at sorted
      have entryMem : entry ∈ arq.unacked.entries := by
        rw [split]
        simp
      have earlierNotDue : ∀ earlier ∈ before, isDue now arq.retx earlier = false := by
        intro earlier earlierMem
        have inEntries : earlier ∈ arq.unacked.entries := by
          rw [split]
          simp [earlierMem]
        have below : earlier.1 < entry.1 :=
          sorted.2.2 _ (List.mem_map_of_mem earlierMem) _ List.mem_cons_self
        by_contra earlierDue
        rw [Bool.not_eq_false] at earlierDue
        have left := attemptsLeft earlier earlierMem earlierDue
        rcases exists_sent_of_isDue due with ⟨last, sent, _⟩
        rcases orderly.ordered earlier inEntries entry entryMem below last sent with
          ⟨_, _, attemptsLe, _⟩
        exact absurd (UInt8.le_trans exhausted attemptsLe) (UInt8.not_le.mpr left)
      have unchanged : before.map (resentIfDue now arq.retx) = before := by
        rw [List.map_congr_left (g := id), List.map_id]
        intro earlier earlierMem
        simp [resentIfDue, earlierNotDue earlier earlierMem]
      have unackedEq : arq.unacked.rewrite
          (before.map (resentIfDue now arq.retx) ++ entry :: after) keysEq = arq.unacked := by
        apply OrderedMap.ext
        simp only [OrderedMap.rewrite, unchanged, split]
      simp only [unackedEq]
      refine .givesUp entryMem due ?_ ?_
      · intro other otherMem otherDue
        rw [split] at otherMem
        rcases List.mem_append.mp otherMem with inBefore | inRest
        · rw [earlierNotDue other inBefore] at otherDue
          cases otherDue
        · rcases List.mem_cons.mp inRest with rfl | inAfter
          · exact le_refl _
          · exact (sorted.2.1.1 _ (List.mem_map_of_mem inAfter)).le
      · exact UInt8.le_antisymm (orderly.paced entry entryMem).attempts_le exhausted

theorem resentIfDue_fst (now : Instant) (retx : Duration) (entry : UInt32 × Outgoing) :
    (resentIfDue now retx entry).1 = entry.1 := by
  unfold resentIfDue
  split_ifs <;> rfl

theorem isSent_resentIfDue (now : Instant) (retx : Duration) (entry : UInt32 × Outgoing) :
    (resentIfDue now retx entry).2.isSent = entry.2.isSent := by
  unfold resentIfDue
  split_ifs with due
  · rcases exists_sent_of_isDue due with ⟨last, sent, _⟩
    simp [resent, Outgoing.isSent, sent]
  · rfl

theorem Paced.resentIfDue {retx : Duration} {entry : UInt32 × Outgoing}
    (paced : Paced now entry.2)
    (attemptsLeft : isDue now retx entry = true → entry.2.attempts < defaultMaxAttempts) :
    Paced now (resentIfDue now retx entry).2 := by
  unfold Arq.resentIfDue
  split_ifs with due
  · have left := attemptsLeft due
    have bumped := toNat_succ_attempts left
    rw [UInt8.lt_iff_toNat_lt] at left
    refine ⟨le_refl now, ?_, ?_⟩
    · rw [UInt8.le_iff_toNat_le]
      simp only [resent, bumped, UInt8.toNat_one]
      omega
    · rw [UInt8.le_iff_toNat_le]
      simp only [resent, bumped]
      omega
  · exact paced

theorem Orderly.takeRetransmits (orderly : Orderly now queued arq) :
    Orderly now queued (arq.takeRetransmits now).2 := by
  have outcome := orderly.retransmitsOutcome
  generalize arq.takeRetransmits now = result at outcome
  cases outcome with
  | givesUp => exact orderly
  | resends attemptsLeft entriesEq =>
      refine ⟨orderly.maxAttempts_eq, orderly.nextSeq_eq, ?_, ?_, ?_, ?_⟩
      · intro entry entryMem
        rw [entriesEq] at entryMem
        rcases List.mem_map.mp entryMem with ⟨old, oldMem, rfl⟩
        rw [resentIfDue_fst]
        exact orderly.below old oldMem
      · intro entry entryMem
        rw [entriesEq] at entryMem
        rcases List.mem_map.mp entryMem with ⟨old, oldMem, rfl⟩
        exact (orderly.paced old oldMem).resentIfDue (attemptsLeft old oldMem)
      · intro earlier earlierMem later laterMem below
        rw [entriesEq] at earlierMem laterMem
        rcases List.mem_map.mp earlierMem with ⟨oldEarlier, oldEarlierMem, rfl⟩
        rcases List.mem_map.mp laterMem with ⟨oldLater, oldLaterMem, rfl⟩
        rw [resentIfDue_fst, resentIfDue_fst] at below
        exact (orderly.ordered oldEarlier oldEarlierMem oldLater oldLaterMem below).resentIfDue
          (orderly.paced oldEarlier oldEarlierMem) (attemptsLeft oldEarlier oldEarlierMem)
          (attemptsLeft oldLater oldLaterMem)
      · change List.countP _ _ ≤ windowSize
        rw [entriesEq, List.countP_map]
        simp only [Function.comp_def, isSent_resentIfDue]
        exact orderly.window

/-! ### Runs -/

namespace Ledger

/-- A message is queued whole, or it is too large and nothing happens. -/
theorem step_enqueue (ledger : Ledger) (message : Bytes) :
    (fragCount message ≤ 255 ∧ ledger.step (.enqueue message) =
      { ledger with
        arq := (ledger.arq.enqueue message).2, enqueued := ledger.enqueued ++ [message] }) ∨
    ledger.step (.enqueue message) = ledger := by
  by_cases short : fragCount message ≤ 255
  · have result := enqueue_ok ledger.arq short
    exact .inl ⟨short, by simp only [step, result]⟩
  · exact .inr (by simp only [step, enqueue_tooLarge (not_le.mp short)])

theorem fragmentsEnqueued_step_le (ledger : Ledger) (op : ArqOp) :
    ledger.fragmentsEnqueued ≤ (ledger.step op).fragmentsEnqueued := by
  cases op with
  | enqueue message =>
      rcases ledger.step_enqueue message with ⟨_, stepEq⟩ | stepEq
      · simp only [stepEq, fragmentsEnqueued, totalFragments_append]
        omega
      · rw [stepEq]
  | takeRetransmits now =>
      simp only [step]
      split <;> exact le_refl _
  | takeNewSends now => exact le_refl _
  | ingest plaintext => exact le_refl _
  | takeAck => exact le_refl _
  | popDelivered => exact le_refl _
  | setRetx retx => exact le_refl _

end Ledger

theorem Orderly.step {ledger : Ledger} {op : ArqOp}
    (orderly : Orderly now ledger.fragmentsEnqueued ledger.arq)
    (sorted : (now :: op.reads).Pairwise (· ≤ ·))
    (bounded : (ledger.step op).fragmentsEnqueued < 2 ^ 32) :
    Orderly (op.reads.getLastD now) (ledger.step op).fragmentsEnqueued (ledger.step op).arq := by
  cases op with
  | enqueue message =>
      rcases ledger.step_enqueue message with ⟨short, stepEq⟩ | stepEq
      · rw [stepEq] at bounded ⊢
        simp only [Ledger.fragmentsEnqueued, totalFragments_append, totalFragments_singleton]
          at bounded ⊢
        exact orderly.enqueue short bounded.le
      · rw [stepEq]
        exact orderly
  | takeNewSends time =>
      have notBefore := (List.pairwise_cons.mp sorted).1 time List.mem_cons_self
      exact (orderly.wait notBefore).takeNewSends
  | takeRetransmits time =>
      have notBefore := (List.pairwise_cons.mp sorted).1 time List.mem_cons_self
      have resent := (orderly.wait notBefore).takeRetransmits
      simp only [Ledger.step]
      split
      · rename_i frames result
        rw [result] at resent
        exact resent
      · rename_i giveUp result
        rw [result] at resent
        exact resent
  | ingest plaintext => exact orderly.ingest plaintext
  | takeAck =>
      rcases takeAck_eq ledger.arq with ⟨pendingAck, taken⟩
      simp only [Ledger.step, taken]
      exact orderly.sublist (List.Sublist.refl _) rfl rfl
  | popDelivered =>
      rcases popDelivered_eq ledger.arq with ⟨delivered, popped⟩
      simp only [Ledger.step, popped]
      exact orderly.sublist (List.Sublist.refl _) rfl rfl
  | setRetx retx => exact orderly.sublist (List.Sublist.refl _) rfl rfl

/-- A ledger whose sequence numbers have not wrapped belongs to an orderly endpoint. -/
def Ledger.IsOrderly (now : Instant) (ledger : Ledger) : Prop :=
  ledger.fragmentsEnqueued < 2 ^ 32 → Orderly now ledger.fragmentsEnqueued ledger.arq

theorem isOrderly_run {ops : List ArqOp} (monotone : ClockedRun.Monotone ArqOp.reads ops) :
    (Ledger.run ops).IsOrderly (ClockedRun.last ArqOp.reads ops) := by
  refine ClockedRun.invariant (fun _ => orderly_new) ?_ ops monotone
  intro now ledger op isOrderly sorted bounded
  have boundedBefore := (ledger.fragmentsEnqueued_step_le op).trans_lt bounded
  exact (isOrderly boundedBefore).step sorted bounded

/--
Giving up is atomic.  If `takeRetransmits` gives up after any run in which the clock
never goes back, the endpoint is exactly what it was before, the frame named is the
lowest sent one whose timer is due, and it has used up all attempts.
-/
theorem takeRetransmits_giveUp (ops : List ArqOp) (now : Instant)
    (monotone : ClockedRun.Monotone ArqOp.reads (ops ++ [.takeRetransmits now]))
    (bounded : (Ledger.run ops).fragmentsEnqueued < 2 ^ 32) (giveUp : ArqGiveUp) (after : Arq)
    (failed : (Ledger.run ops).arq.takeRetransmits now = (.error giveUp, after)) :
    after = (Ledger.run ops).arq ∧
    IsLeast {seq | ∃ slot, (seq, slot) ∈ (Ledger.run ops).arq.unacked.entries ∧
      isDue now (Ledger.run ops).arq.retx (seq, slot) = true} giveUp.seq ∧
    giveUp.attempts = (Ledger.run ops).arq.maxAttempts := by
  have notBefore := (List.pairwise_cons.mp monotone.next).1 now List.mem_cons_self
  have orderly := (isOrderly_run monotone.of_append bounded).wait notBefore
  have outcome := orderly.retransmitsOutcome
  rw [failed] at outcome
  cases outcome with
  | givesUp entryMem due first exhausted =>
      rename_i entry
      refine ⟨rfl, ⟨⟨entry.2, entryMem, due⟩, ?_⟩, ?_⟩
      · rintro seq ⟨slot, slotMem, slotDue⟩
        exact first (seq, slot) slotMem slotDue
      · rw [orderly.maxAttempts_eq]
        exact exhausted

/--
The first of three messages is acknowledged and the others are sent as often as allowed.  A
fourth is sent once and is not due, and a fifth is not sent.
-/
def unanswered : List ArqOp :=
  [.enqueue [7], .enqueue [8], .enqueue [9], .takeNewSends 0, .ingest (encodeAck 1 0),
    .takeRetransmits 200000000, .takeRetransmits 400000000, .takeRetransmits 600000000,
    .takeRetransmits 800000000, .enqueue [10], .takeNewSends 900000000, .enqueue [11]]

theorem takeRetransmits_giveUp_unanswered :
    (Ledger.run unanswered).arq.unacked.entries.map (fun entry => (entry.1, entry.2.attempts)) =
      [(1, 5), (2, 5), (3, 1), (4, 0)] ∧
    (Ledger.run unanswered).arq.takeRetransmits 1000000000 =
      (.error { seq := 1, attempts := 5 }, (Ledger.run unanswered).arq) := by
  refine ⟨by decide +kernel, ?_⟩
  have failed : (Ledger.run unanswered).arq.takeRetransmits 1000000000 =
      (.error { seq := 1, attempts := 5 },
        ((Ledger.run unanswered).arq.takeRetransmits 1000000000).2) :=
    Prod.ext (by decide +kernel) rfl
  have atomic := takeRetransmits_giveUp unanswered 1000000000 (by decide) (by decide) _ _ failed
  rw [failed, atomic.1]

end Arq

end Ppose

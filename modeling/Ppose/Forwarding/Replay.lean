import Ppose.Foundations.BigEndian
import Ppose.Foundations.ClockedRun
import Ppose.Foundations.HashTable

/-!
# The replay cache of a forwarder

A forwarder remembers for a while which inner datagrams it has forwarded and does
not forward them again (`network/replay.rs`).  A datagram is known by the first 16
bytes of its hash.  Entries are dropped once they are as old as `ttl`, and the
oldest entry makes room for a new one when `cap` entries are stored.

Next to the cache, a `Record` keeps every key that was accepted, with the time.
The invariant `Guarded` ties the two: an acceptance which is still recent is either
stored, with a time no earlier, or at least `cap` other keys have been accepted
since.  Which of several oldest entries is evicted is left open.
-/

namespace Ppose

/-- Hash-and-TTL replay filter. -/
structure ReplayCache where
  seen : HashTable (Block 16) Instant
  ttl : Duration
  cap : ℕ

namespace ReplayCache

def defaultTtl : Duration := 30000000000

def defaultCap : ℕ := 4096

def withBounds (ttl : Duration) (cap : ℕ) : ReplayCache where
  seen := ∅
  ttl := ttl
  cap := cap

def new : ReplayCache := withBounds defaultTtl defaultCap

def expire (cache : ReplayCache) (now : Instant) : ReplayCache :=
  { cache with seen := cache.seen.retain fun time => now - time < cache.ttl }

/-- Remove the oldest entry if the cache is full. -/
def evict (cache : ReplayCache) (order : IterationOrder (Σ _ : Block 16, Instant)) :
    ReplayCache :=
  if cache.cap ≤ cache.seen.size then
    match cache.seen.leastBy order id with
    | some oldest => { cache with seen := cache.seen.erase oldest.1 }
    | none => cache
  else cache

variable (hash : Bytes → Block 32)

def keyOf (inner : Bytes) : Block 16 := blockAt 16 0 (hash inner).toList

/-- True if the datagram was not seen recently; it is then recorded. -/
def accept (cache : ReplayCache) (order : IterationOrder (Σ _ : Block 16, Instant))
    (inner : Bytes) (now : Instant) : Bool × ReplayCache :=
  let live := cache.expire now
  let key := keyOf hash inner
  if key ∈ live.seen then (false, live)
  else
    let roomy := live.evict order
    (true, { roomy with seen := roomy.seen.insert key now })

/-! ### Runs -/

structure Call where
  inner : Bytes
  now : Instant
  order : IterationOrder (Σ _ : Block 16, Instant)

def Call.reads (call : Call) : List Instant := [call.now]

/-- A cache with every key accepted so far and the time of its acceptance. -/
structure Record where
  cache : ReplayCache
  accepted : List (Block 16 × Instant)

def Record.step (record : Record) (call : Call) : Record :=
  match record.cache.accept hash call.order call.inner call.now with
  | (true, cache) => { cache, accepted := record.accepted ++ [(keyOf hash call.inner, call.now)] }
  | (false, cache) => { record with cache }

def run (ttl : Duration) (cap : ℕ) (calls : List Call) : Record :=
  calls.foldl (Record.step hash) { cache := withBounds ttl cap, accepted := [] }

/-- The keys other than `key` which were accepted from one time to another. -/
def othersWithin (accepted : List (Block 16 × Instant)) (key : Block 16) (since till : Instant) :
    Finset (Block 16) :=
  ((accepted.filter fun entry => entry.1 ≠ key ∧ since ≤ entry.2 ∧ entry.2 ≤ till).map
    Prod.fst).toFinset

theorem mem_othersWithin_iff {accepted : List (Block 16 × Instant)} {key other : Block 16}
    {since till : Instant} :
    other ∈ othersWithin accepted key since till ↔
      other ≠ key ∧ ∃ time, (other, time) ∈ accepted ∧ since ≤ time ∧ time ≤ till := by
  simp only [othersWithin, List.mem_toFinset, List.mem_map, List.mem_filter, decide_eq_true_eq,
    Prod.exists, exists_and_right, exists_eq_right]
  constructor
  · rintro ⟨time, timeMem, different, within⟩
    exact ⟨different, time, timeMem, within⟩
  · rintro ⟨different, time, timeMem, within⟩
    exact ⟨time, timeMem, different, within⟩

theorem othersWithin_subset {accepted more : List (Block 16 × Instant)} {key : Block 16}
    {since till later : Instant} (grows : accepted ⊆ more) (tillLe : till ≤ later) :
    othersWithin accepted key since till ⊆ othersWithin more key since later := by
  intro other otherMem
  rcases mem_othersWithin_iff.mp otherMem with ⟨different, time, timeMem, sinceLe, timeLe⟩
  exact mem_othersWithin_iff.mpr
    ⟨different, time, grows timeMem, sinceLe, timeLe.trans tillLe⟩

/-! ### What expiry and eviction keep -/

theorem lookup_expire_iff {cache : ReplayCache} {now time : Instant} {key : Block 16} :
    (cache.expire now).seen.lookup key = some time ↔
      cache.seen.lookup key = some time ∧ now - time < cache.ttl := by
  simp only [expire, HashTable.lookup_retain_eq_some_iff, decide_eq_true_eq]

/-- What `evict` leaves of a cache which holds at most `cap` entries. -/
structure Evicted (full roomy : ReplayCache) : Prop where
  ttl_eq : roomy.ttl = full.ttl
  cap_eq : roomy.cap = full.cap
  size_lt : roomy.seen.size < full.cap
  kept : ∀ key time, roomy.seen.lookup key = some time → full.seen.lookup key = some time
  /-- Only one entry can be missing, and it is no later than any other. -/
  lost : ∀ key time, full.seen.lookup key = some time →
    roomy.seen.lookup key = some time ∨
      full.cap ≤ roomy.seen.size + 1 ∧ key ∉ roomy.seen ∧
        ∀ other later, roomy.seen.lookup other = some later → time ≤ later

theorem evicted_evict {cache : ReplayCache} (sizeLe : cache.seen.size ≤ cache.cap)
    (capPos : 1 ≤ cache.cap) (order : IterationOrder (Σ _ : Block 16, Instant)) :
    Evicted cache (cache.evict order) := by
  unfold evict
  split_ifs with full
  · rcases HashTable.exists_leastBy (capPos.trans full) order id with ⟨oldest, found⟩
    simp only [found]
    have oldestStored := HashTable.lookup_of_leastBy found
    have oldestMem : oldest.1 ∈ cache.seen := by
      rw [← AList.lookup_isSome, oldestStored]
      rfl
    have sizeEq := HashTable.size_erase_of_mem oldestMem
    refine ⟨rfl, rfl, ?_, ?_, ?_⟩
    · change HashTable.size (cache.seen.erase oldest.1) < cache.cap
      omega
    · intro key time stored
      exact (HashTable.lookup_erase_eq_some_iff.mp stored).2
    · intro key time stored
      by_cases same : key = oldest.1
      · right
        subst same
        rw [oldestStored, Option.some.injEq] at stored
        subst stored
        refine ⟨?_, ?_, ?_⟩
        · change cache.cap ≤ HashTable.size (cache.seen.erase oldest.1) + 1
          omega
        · rw [AList.mem_erase]
          exact fun mem => mem.1 rfl
        · intro other later otherStored
          have stillStored := (HashTable.lookup_erase_eq_some_iff.mp otherStored).2
          exact HashTable.rank_le_of_leastBy found stillStored
      · exact .inl (HashTable.lookup_erase_eq_some_iff.mpr ⟨same, stored⟩)
  · refine ⟨rfl, rfl, by omega, fun _ _ stored => stored, fun _ _ stored => .inl stored⟩

/-! ### The invariant -/

/-- What holds of a cache of the given bounds and its history at a time. -/
structure Guarded (ttl : Duration) (cap : ℕ) (now : Instant) (record : Record) : Prop where
  ttl_eq : record.cache.ttl = ttl
  cap_eq : record.cache.cap = cap
  size_le : record.cache.seen.size ≤ cap
  stored_accepted : ∀ key time, record.cache.seen.lookup key = some time →
    (key, time) ∈ record.accepted
  accepted_le : ∀ key time, (key, time) ∈ record.accepted → time ≤ now
  remembered : ∀ key time, (key, time) ∈ record.accepted → now - time < ttl →
    (∃ later, time ≤ later ∧ record.cache.seen.lookup key = some later) ∨
      cap ≤ (othersWithin record.accepted key time now).card

variable {hash : Bytes → Block 32} {ttl : Duration} {cap : ℕ} {now later : Instant}
  {record : Record}

theorem guarded_initial (ttl : Duration) (cap : ℕ) :
    Guarded ttl cap 0 { cache := withBounds ttl cap, accepted := [] } where
  ttl_eq := rfl
  cap_eq := rfl
  size_le := Nat.zero_le _
  stored_accepted := by simp [withBounds]
  accepted_le := by simp
  remembered := by simp

theorem Guarded.expire (guarded : Guarded ttl cap now record) (notBefore : now ≤ later) :
    Guarded ttl cap later { record with cache := record.cache.expire later } where
  ttl_eq := guarded.ttl_eq
  cap_eq := guarded.cap_eq
  size_le := (HashTable.size_retain_le _ _).trans guarded.size_le
  stored_accepted key time stored :=
    guarded.stored_accepted key time (lookup_expire_iff.mp stored).1
  accepted_le key time accepted := (guarded.accepted_le key time accepted).trans notBefore
  remembered := by
    intro key time accepted recent
    have recentBefore : now - time < ttl := (Nat.sub_le_sub_right notBefore time).trans_lt recent
    rcases guarded.remembered key time accepted recentBefore with ⟨last, timeLe, stored⟩ | crowded
    · left
      refine ⟨last, timeLe, lookup_expire_iff.mpr ⟨stored, ?_⟩⟩
      rw [guarded.ttl_eq]
      exact (Nat.sub_le_sub_left timeLe later).trans_lt recent
    · right
      apply crowded.trans
      apply Finset.card_le_card
      exact othersWithin_subset (List.Subset.refl _) notBefore

/-- The entries which are left and the new key are others accepted since the lost one. -/
theorem card_othersWithin_of_lost {roomy : HashTable (Block 16) Instant}
    {accepted : List (Block 16 × Instant)} {key fresh : Block 16} {time now : Instant}
    (stored : ∀ other since, roomy.lookup other = some since →
      (other, since) ∈ accepted ∧ time ≤ since ∧ since ≤ now)
    (keyAbsent : key ∉ roomy) (freshAbsent : fresh ∉ roomy) (different : fresh ≠ key)
    (timeLe : time ≤ now) :
    roomy.size + 1 ≤ (othersWithin (accepted ++ [(fresh, now)]) key time now).card := by
  have sizeEq : (insert fresh roomy.keys.toFinset).card = roomy.size + 1 := by
    rw [Finset.card_insert_of_notMem (by simpa [AList.mem_keys] using freshAbsent),
      List.toFinset_card_of_nodup roomy.keys_nodup, HashTable.size_eq_length_keys]
  rw [← sizeEq]
  apply Finset.card_le_card
  intro other otherMem
  apply mem_othersWithin_iff.mpr
  rcases Finset.mem_insert.mp otherMem with rfl | inRoomy
  · exact ⟨different, now, by simp, timeLe, le_refl now⟩
  · have otherIn : other ∈ roomy := AList.mem_keys.mpr (List.mem_toFinset.mp inRoomy)
    rcases Option.isSome_iff_exists.mp (AList.lookup_isSome.mpr otherIn) with ⟨since, found⟩
    rcases stored other since found with ⟨otherAccepted, sinceLe, sinceNow⟩
    refine ⟨?_, since, by simp [otherAccepted], sinceLe, sinceNow⟩
    rintro rfl
    exact keyAbsent otherIn

theorem Guarded.insert (guarded : Guarded ttl cap now record) {fresh : Block 16}
    (absent : fresh ∉ record.cache.seen) {roomy : ReplayCache}
    (evicted : Evicted record.cache roomy) :
    Guarded ttl cap now
      { cache := { roomy with seen := roomy.seen.insert fresh now }
        accepted := record.accepted ++ [(fresh, now)] } := by
  have freshAbsent : fresh ∉ roomy.seen := by
    intro freshIn
    rcases Option.isSome_iff_exists.mp (AList.lookup_isSome.mpr freshIn) with ⟨time, found⟩
    apply absent
    rw [← AList.lookup_isSome, evicted.kept fresh time found]
    rfl
  have capEq : record.cache.cap = cap := guarded.cap_eq
  have acceptedLe : ∀ key time, (key, time) ∈ record.accepted ++ [(fresh, now)] → time ≤ now := by
    intro key time accepted
    rcases List.mem_append.mp accepted with before | isNew
    · exact guarded.accepted_le key time before
    · simp only [List.mem_singleton, Prod.mk.injEq] at isNew
      exact isNew.2.le
  refine ⟨evicted.ttl_eq.trans guarded.ttl_eq, evicted.cap_eq.trans capEq, ?_, ?_, acceptedLe, ?_⟩
  · change HashTable.size (roomy.seen.insert fresh now) ≤ cap
    have sizeLt := evicted.size_lt
    rw [HashTable.size_insert_of_notMem freshAbsent]
    omega
  · intro key time stored
    by_cases same : key = fresh
    · subst same
      rw [AList.lookup_insert, Option.some.injEq] at stored
      simp [stored]
    · rw [AList.lookup_insert_ne same] at stored
      simp [guarded.stored_accepted key time (evicted.kept key time stored)]
  · intro key time accepted recent
    by_cases same : key = fresh
    · subst same
      exact .inl ⟨now, acceptedLe key time accepted, AList.lookup_insert _⟩
    · have before : (key, time) ∈ record.accepted := by simpa [same] using accepted
      rcases guarded.remembered key time before recent with ⟨last, timeLe, stored⟩ | crowded
      · rcases evicted.lost key last stored with kept | ⟨full, keyAbsent, lastLe⟩
        · exact .inl ⟨last, timeLe, by rw [AList.lookup_insert_ne same]; exact kept⟩
        · right
          rw [capEq] at full
          refine full.trans (card_othersWithin_of_lost ?_ keyAbsent freshAbsent (Ne.symm same)
            (guarded.accepted_le key time before))
          intro other since found
          have otherAccepted := guarded.stored_accepted other since (evicted.kept other since found)
          exact ⟨otherAccepted, timeLe.trans (lastLe other since found),
            guarded.accepted_le other since otherAccepted⟩
      · right
        apply crowded.trans
        apply Finset.card_le_card
        exact othersWithin_subset (List.subset_append_left _ _) (le_refl now)

theorem Guarded.step (capPos : 1 ≤ cap) (guarded : Guarded ttl cap now record) {call : Call}
    (notBefore : now ≤ call.now) : Guarded ttl cap call.now (record.step hash call) := by
  have expired := guarded.expire notBefore
  unfold Record.step accept
  simp only
  by_cases seen : keyOf hash call.inner ∈ (record.cache.expire call.now).seen
  · rw [if_pos seen]
    exact expired
  · rw [if_neg seen]
    have sizeLe : (record.cache.expire call.now).seen.size ≤ (record.cache.expire call.now).cap :=
      expired.size_le.trans expired.cap_eq.ge
    have capPos' : 1 ≤ (record.cache.expire call.now).cap := capPos.trans expired.cap_eq.ge
    exact expired.insert seen (evicted_evict sizeLe capPos' call.order)

theorem guarded_run (hash : Bytes → Block 32) (ttl : Duration) (capPos : 1 ≤ cap)
    {calls : List Call} (monotone : ClockedRun.Monotone Call.reads calls) :
    Guarded ttl cap (ClockedRun.last Call.reads calls) (run hash ttl cap calls) := by
  refine ClockedRun.invariant (guarded_initial ttl cap) ?_ calls monotone
  intro now record call guarded sorted
  exact guarded.step capPos ((List.pairwise_cons.mp sorted).1 call.now (by simp [Call.reads]))

theorem accept_eq_false_iff {cache : ReplayCache} {call : Call} :
    (cache.accept hash call.order call.inner call.now).1 = false ↔
      keyOf hash call.inner ∈ (cache.expire call.now).seen := by
  simp only [accept]
  split_ifs with seen <;> simp [seen]

/--
After any calls of `accept` the cache holds at most `cap` keys.  A further call
returns false only if its key was accepted less than `ttl` before, and it does
return false if its key was accepted less than `ttl` before and fewer than `cap`
other keys have been accepted from then on.
-/
theorem accept_run (hash : Bytes → Block 32) (ttl : Duration) (cap : ℕ) (capPos : 1 ≤ cap)
    (calls : List Call) (monotone : ClockedRun.Monotone Call.reads calls) :
    (run hash ttl cap calls).cache.seen.size ≤ cap ∧
    ∀ call : Call, ClockedRun.Monotone Call.reads (calls ++ [call]) →
      (((run hash ttl cap calls).cache.accept hash call.order call.inner call.now).1 = false →
        ∃ time, (keyOf hash call.inner, time) ∈ (run hash ttl cap calls).accepted ∧
          call.now - time < ttl) ∧
      ∀ time, (keyOf hash call.inner, time) ∈ (run hash ttl cap calls).accepted →
        call.now - time < ttl →
        (othersWithin (run hash ttl cap calls).accepted (keyOf hash call.inner) time
          call.now).card < cap →
        ((run hash ttl cap calls).cache.accept hash call.order call.inner call.now).1 = false := by
  have guarded := guarded_run hash ttl capPos monotone
  refine ⟨guarded.size_le, ?_⟩
  intro call extended
  have notBefore := (List.pairwise_cons.mp extended.next).1 call.now (by simp [Call.reads])
  have expired := guarded.expire notBefore
  simp only [accept_eq_false_iff]
  constructor
  · intro seen
    rcases Option.isSome_iff_exists.mp (AList.lookup_isSome.mpr seen) with ⟨time, found⟩
    refine ⟨time, expired.stored_accepted _ time found, ?_⟩
    have recent := (lookup_expire_iff.mp found).2
    rwa [guarded.ttl_eq] at recent
  · intro time accepted recent uncrowded
    rcases expired.remembered _ time accepted recent with ⟨last, _, stored⟩ | crowded
    · rw [← AList.lookup_isSome, stored]
      rfl
    · exact absurd crowded (not_le.mpr uncrowded)

def callAt (byte : UInt8) (now : Instant) : Call where
  inner := [byte]
  now := now
  order := .listed _

/-- The third of three datagrams finds a full cache of two. -/
def filled : List Call := [callAt 1 3, callAt 2 4, callAt 3 5]

/-- The first datagram was evicted, and the second is still a duplicate. -/
theorem accept_run_filled :
    (run (blockAt 32 0) 10 2 filled).accepted.length = 3 ∧
    (run (blockAt 32 0) 10 2 filled).cache.seen.size ≤ 2 ∧
    ((run (blockAt 32 0) 10 2 filled).cache.accept (blockAt 32 0) (callAt 2 6).order
      (callAt 2 6).inner (callAt 2 6).now).1 = false ∧
    ((run (blockAt 32 0) 10 2 filled).cache.accept (blockAt 32 0) (callAt 1 6).order
      (callAt 1 6).inner (callAt 1 6).now).1 = true := by
  have monotone : ClockedRun.Monotone Call.reads filled := by decide
  have specification := accept_run (blockAt 32 0) 10 2 (by decide) filled monotone
  refine ⟨by decide +kernel, specification.1, ?_, by decide +kernel⟩
  exact (specification.2 (callAt 2 6) (by decide)).2 4 (by decide +kernel) (by decide)
    (by decide +kernel)

end ReplayCache

end Ppose

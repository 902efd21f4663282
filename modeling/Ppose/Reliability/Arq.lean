import Ppose.Foundations.Chunks
import Ppose.Foundations.ClockedRun
import Ppose.Foundations.OrderedMap
import Ppose.Reliability.Frame
import Mathlib.Data.List.AList

/-!
# The endpoint ARQ state machine

Selective-repeat ARQ with pre-encryption fragmentation (`reliability/arq.rs`).
Every operation is a function from the state before to the state after, paired
with what the source function returns.  Operations which can fail return the
state left behind by the failing call as well, since `takeRetransmits` gives up
in the middle of its walk.

The `BTreeMap` of outgoing frames is an `OrderedMap`, walked in increasing key
order; the `HashMap` of partial messages is an association list, which is never
iterated.
-/

namespace Ppose

instance linearOrderUInt32 : LinearOrder UInt32 where
  le_refl _ := UInt32.le_refl _
  le_trans _ _ _ := UInt32.le_trans
  lt_iff_le_not_ge _ _ := by simp only [UInt32.lt_iff_toNat_lt, UInt32.le_iff_toNat_le]; omega
  le_antisymm _ _ := UInt32.le_antisymm
  le_total := UInt32.le_total
  toDecidableLE := inferInstance

/-- Sliding window (packets). -/
def windowSize : ℕ := 32

/-- Default retransmit timeout: 200 ms. -/
def defaultRetx : Duration := 200000000

/-- Default give-up after this many sends (one original and its retries). -/
def defaultMaxAttempts : UInt8 := 5

inductive ArqError where
  /-- The application message exceeds `maxPayload * 255`. -/
  | tooLarge
  | frame (error : FrameError)
  deriving DecidableEq, Repr

structure ArqGiveUp where
  seq : UInt32
  attempts : UInt8
  deriving DecidableEq, Repr

/-- A queued or sent fragment which has not been acknowledged. -/
structure Outgoing where
  plaintext : Bytes
  lastSent : Option Instant
  attempts : UInt8
  deriving DecidableEq, Repr

def Outgoing.isSent (slot : Outgoing) : Bool := slot.lastSent.isSome

/-- A partially received message. -/
structure FragBuf where
  total : UInt8
  parts : List (Option Bytes)
  deriving DecidableEq, Repr

structure Arq where
  nextSeq : UInt32
  nextFragId : UInt16
  unacked : OrderedMap UInt32 Outgoing
  recvBase : UInt32
  recvBits : UInt64
  fragments : AList fun _ : UInt16 => FragBuf
  delivered : List Bytes
  pendingAck : Bool
  maxAttempts : UInt8
  retx : Duration

namespace Arq

def new : Arq where
  nextSeq := 0
  nextFragId := 1
  unacked := OrderedMap.empty
  recvBase := 0
  recvBits := 0
  fragments := ∅
  delivered := []
  pendingAck := false
  maxAttempts := defaultMaxAttempts
  retx := defaultRetx

/-- Queue one encoded fragment under the next sequence number. -/
def queueFragment (arq : Arq) (fragId : UInt16) (index total : UInt8) (chunk : Bytes) : Arq :=
  { arq with
    nextSeq := arq.nextSeq + 1
    unacked := arq.unacked.insert arq.nextSeq
      { plaintext := encodeData arq.nextSeq fragId index total chunk
        lastSent := none
        attempts := 0 } }

def enqueueOne (arq : Arq) (message : Bytes) : Arq :=
  arq.queueFragment 0 0 1 message

/-- The loop of `enqueue` over the chunks of a message. -/
def enqueueChunks (fragId : UInt16) (total : UInt8) : ℕ → List Bytes → Arq → Arq
  | _, [], arq => arq
  | index, chunk :: rest, arq =>
      enqueueChunks fragId total (index + 1) rest
        (arq.queueFragment fragId (UInt8.ofNat index) total chunk)

/-- The fragment identifier after `fragId`: wrapping, and skipping zero. -/
def succFragId (fragId : UInt16) : UInt16 :=
  if fragId + 1 = 0 then 1 else fragId + 1

/-- Queue an application message, fragmented if needed. -/
def enqueue (arq : Arq) (message : Bytes) : Except ArqError Unit × Arq :=
  if message = [] then (.ok (), arq.enqueueOne message)
  else
    let pieces := chunks maxPayload message
    if 255 < pieces.length then (.error .tooLarge, arq)
    else
      let total := UInt8.ofNat pieces.length
      let fragId := arq.nextFragId
      (.ok (), enqueueChunks fragId total 0 pieces
        { arq with nextFragId := succFragId arq.nextFragId })

def inFlightSent (arq : Arq) : ℕ :=
  arq.unacked.entries.countP fun entry => entry.2.isSent

/-- The walk of `takeNewSends`: the emitted frames and the rewritten entries. -/
def newSendsLoop (now : Instant) :
    ℕ → List (UInt32 × Outgoing) → List Bytes × List (UInt32 × Outgoing)
  | _, [] => ([], [])
  | sent, (seq, slot) :: rest =>
      if windowSize ≤ sent then ([], (seq, slot) :: rest)
      else if slot.isSent then
        let (out, entries) := newSendsLoop now sent rest
        (out, (seq, slot) :: entries)
      else
        let (out, entries) := newSendsLoop now (sent + 1) rest
        (slot.plaintext :: out, (seq, { slot with lastSent := some now, attempts := 1 }) :: entries)

theorem newSendsLoop_keys (now : Instant) (sent : ℕ) (entries : List (UInt32 × Outgoing)) :
    (newSendsLoop now sent entries).2.map Prod.fst = entries.map Prod.fst := by
  fun_induction newSendsLoop now sent entries <;> simp_all

/-- Inner frames that have never been sent and fit in the window. -/
def takeNewSends (arq : Arq) (now : Instant) : List Bytes × Arq :=
  let walk := newSendsLoop now arq.inFlightSent arq.unacked.entries
  (walk.1, { arq with unacked := arq.unacked.rewrite walk.2 (newSendsLoop_keys ..) })

/-- The walk of `takeRetransmits`, which stops at the first exhausted frame. -/
def retransmitsLoop (now : Instant) (retx : Duration) (maxAttempts : UInt8) :
    List (UInt32 × Outgoing) → Except ArqGiveUp (List Bytes) × List (UInt32 × Outgoing)
  | [] => (.ok [], [])
  | (seq, slot) :: rest =>
      match slot.lastSent with
      | none =>
          let (result, entries) := retransmitsLoop now retx maxAttempts rest
          (result, (seq, slot) :: entries)
      | some last =>
          if now - last < retx then
            let (result, entries) := retransmitsLoop now retx maxAttempts rest
            (result, (seq, slot) :: entries)
          else if maxAttempts ≤ slot.attempts then
            (.error { seq, attempts := slot.attempts }, (seq, slot) :: rest)
          else
            let (result, entries) := retransmitsLoop now retx maxAttempts rest
            (result.map (slot.plaintext :: ·),
              (seq, { slot with attempts := slot.attempts + 1, lastSent := some now }) :: entries)

theorem retransmitsLoop_keys (now : Instant) (retx : Duration) (maxAttempts : UInt8)
    (entries : List (UInt32 × Outgoing)) :
    (retransmitsLoop now retx maxAttempts entries).2.map Prod.fst = entries.map Prod.fst := by
  fun_induction retransmitsLoop now retx maxAttempts entries <;> simp_all

/-- Retransmit due packets: the same inner plaintexts, to be sealed anew. -/
def takeRetransmits (arq : Arq) (now : Instant) : Except ArqGiveUp (List Bytes) × Arq :=
  let walk := retransmitsLoop now arq.retx arq.maxAttempts arq.unacked.entries
  (walk.1, { arq with unacked := arq.unacked.rewrite walk.2 (retransmitsLoop_keys ..) })

/-- Whether an acknowledgement covers a sequence number. -/
def acked (base : UInt32) (bitmap : UInt64) (seq : UInt32) : Bool :=
  let ahead := seq - base
  if ahead < 64 then (bitmap >>> ahead.toUInt64) &&& 1 = 1
  else
    let behind := base - seq
    0 < behind ∧ behind < 1000000

def onAck (arq : Arq) (base : UInt32) (bitmap : UInt64) : Arq :=
  { arq with unacked := arq.unacked.filterKeys fun seq => !acked base bitmap seq }

/--
The shifting loop of `markReceived`.  The bitmap has 64 bits, so 64 rounds leave
its lowest bit clear (`slide_lowest_clear`).
-/
def slide : ℕ → UInt32 → UInt64 → UInt32 × UInt64
  | 0, base, bits => (base, bits)
  | rounds + 1, base, bits =>
      if bits &&& 1 = 1 then slide rounds (base + 1) (bits >>> 1) else (base, bits)

/-- Record an arrival; true if it is newly accepted in the receive window. -/
def markReceived (arq : Arq) (seq : UInt32) : Bool × Arq :=
  let ahead := seq - arq.recvBase
  if 64 ≤ ahead then (false, arq)
  else
    let bit : UInt64 := 1 <<< ahead.toUInt64
    if arq.recvBits &&& bit ≠ 0 then (false, arq)
    else
      let slid := slide 64 arq.recvBase (arq.recvBits ||| bit)
      (true, { arq with recvBase := slid.1, recvBits := slid.2 })

/-- The reassembly buffer of `fragId`, created empty when there is none. -/
def fragEntry (arq : Arq) (fragId : UInt16) (total : UInt8) :
    FragBuf × AList fun _ : UInt16 => FragBuf :=
  match arq.fragments.lookup fragId with
  | some buf => (buf, arq.fragments)
  | none =>
      let buf : FragBuf := { total, parts := List.replicate total.toNat none }
      (buf, arq.fragments.insert fragId buf)

/-- Store an accepted fragment and deliver its message once complete. -/
def acceptFragment (arq : Arq) (fragId : UInt16) (index total : UInt8) (payload : Bytes) : Arq :=
  if total = 1 then { arq with delivered := arq.delivered ++ [payload] }
  else
    let (buf, fragments) := arq.fragEntry fragId total
    if buf.total ≠ total ∨ buf.parts.length ≤ index.toNat then { arq with fragments }
    else
      let parts := buf.parts.set index.toNat (some payload)
      if parts.all Option.isSome then
        { arq with
          fragments := fragments.erase fragId
          delivered := arq.delivered ++ [parts.reduceOption.flatten] }
      else { arq with fragments := fragments.insert fragId { buf with parts } }

def onData (arq : Arq) (seq : UInt32) (fragId : UInt16) (index total : UInt8)
    (payload : Bytes) : Arq :=
  let (fresh, marked) := arq.markReceived seq
  if fresh then marked.acceptFragment fragId index total payload else marked

/-- Handle a decrypted inner frame; returns the ACK plaintext to be sent, if any. -/
def ingest (arq : Arq) (plaintext : Bytes) : Except ArqError (Option Bytes) × Arq :=
  match decodeInner plaintext with
  | .error error => (.error (.frame error), arq)
  | .ok (.ack base bitmap) => (.ok none, arq.onAck base bitmap)
  | .ok (.data seq fragId index total payload) =>
      let received := arq.onData seq fragId index total payload
      (.ok (some (encodeAck received.recvBase received.recvBits)),
        { received with pendingAck := true })

def popDelivered (arq : Arq) : Option Bytes × Arq :=
  match arq.delivered with
  | [] => (none, arq)
  | message :: rest => (some message, { arq with delivered := rest })

/-- The ACK to be written, if one is pending. -/
def takeAck (arq : Arq) : Option Bytes × Arq :=
  if arq.pendingAck then
    (some (encodeAck arq.recvBase arq.recvBits), { arq with pendingAck := false })
  else (none, arq)

def unackedLen (arq : Arq) : ℕ := arq.unacked.length

def setRetx (arq : Arq) (retx : Duration) : Arq := { arq with retx }

end Arq

end Ppose

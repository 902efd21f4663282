import Ppose.Reliability.Recovery
import Ppose.Session.Quiescence

/-!
# A conversation which is alive can be completed

The retransmissions of the ARQ layer are of no use to a session which has lost a datagram
for good.  As long as it has lost none, they are not needed: whatever has happened, as long
as both sides are alive and their paths let through what they have to send, the frames on
their way can arrive one after the other, and if there are none, a flush sends the next
window.  Each of these leaves less work to be done, and when none is left, all that was
queued on either side is delivered and acknowledged (`completes`).

The work is counted in datagrams, so that it bounds the events which are needed as well as
the counters which they use up.
-/

namespace Ppose

open Arq (Side LocalOp Endpoint Net IsFrame)

/-! ### What gets through on a path -/

namespace Arq

theorem Holds.of_takeNewSends {arq : Arq} {now : Instant} {frame : Bytes}
    (holds : (arq.takeNewSends now).2.Holds frame) : arq.Holds frame := by
  rcases holds with ⟨entry, entryMem, rfl⟩
  rcases exists_of_contents_eq (contents_newSendsLoop now arq.inFlightSent _) entryMem with
    ⟨old, oldMem, _, plaintextEq⟩
  exact ⟨old, oldMem, plaintextEq⟩

theorem Holds.of_takeRetransmits {arq : Arq} {now : Instant} {frame : Bytes}
    (holds : (arq.takeRetransmits now).2.Holds frame) : arq.Holds frame := by
  rcases holds with ⟨entry, entryMem, rfl⟩
  rcases exists_of_contents_eq (contents_retransmitsLoop now arq.retx arq.maxAttempts _)
    entryMem with ⟨old, oldMem, _, plaintextEq⟩
  exact ⟨old, oldMem, plaintextEq⟩

theorem Holds.of_ingest {arq : Arq} {plaintext frame : Bytes}
    (holds : (arq.ingest plaintext).2.Holds frame) : arq.Holds frame := by
  rcases holds with ⟨entry, entryMem, rfl⟩
  exact ⟨entry, (ingest_sublist arq plaintext).1.subset entryMem, rfl⟩

end Arq

namespace UdpSession

variable {crypto : OnionCrypto} {cipher : NoiseCipher} {session other : UdpSession} {env : SendEnv}

/-- The path has room for the sealed frame, and the socket takes it. -/
def Lets (crypto : OnionCrypto) (session : UdpSession) (env : SendEnv) (frame : Bytes) : Prop :=
  ∀ body : Bytes, body.length = frame.length + 16 →
    (sendInner crypto session env .data body).isOk = true

/-- Acknowledgements and the frames which are not acknowledged get through. -/
def Passes (crypto : OnionCrypto) (session : UdpSession) (env : SendEnv) : Prop :=
  ∀ frame, Arq.IsAck frame ∨ session.arq.Holds frame → session.Lets crypto env frame

theorem Lets.congr {frame : Bytes} (lets : session.Lets crypto env frame)
    (same : other.routing = session.routing) : other.Lets crypto env frame := by
  intro body lengthEq
  rw [sendInner_congr same]
  exact lets body lengthEq

theorem Passes.congr (passes : session.Passes crypto env) (same : other.routing = session.routing)
    (held : ∀ frame, other.arq.Holds frame → session.arq.Holds frame) :
    other.Passes crypto env := by
  intro frame kept
  exact (passes frame (kept.imp id (held frame))).congr same

/-- Sealing keeps to the path, and gets through what the path lets through. -/
structure GetsThrough (session after : UdpSession) (emissions : List Emission) : Prop where
  routing_eq : after.routing = session.routing
  sent : ∀ emission ∈ emissions, emission.sent.isOk = true

theorem sealAndSend_getsThrough (lawful : cipher.Lawful) (retransmission : Bool) {frame : Bytes}
    (lets : session.Lets crypto env frame) :
    GetsThrough session (sealAndSend crypto cipher session env retransmission frame).2.1
      (sealAndSend crypto cipher session env retransmission frame).2.2 := by
  by_cases refused : maxDatagram < frame.length + 16 ∨ maxNonce ≤ session.noise.sendCounter
  · simp only [sealAndSend, Noise.sealMessage, if_pos refused]
    exact ⟨rfl, by simp⟩
  · simp only [sealAndSend, Noise.sealMessage, if_neg refused]
    refine ⟨rfl, ?_⟩
    intro emission emissionMem
    rw [List.mem_singleton.mp emissionMem]
    have bodyLength := lawful.length_encrypt session.noise.sendKey session.noise.sendCounter frame
    have same : ({ session with
        noise := { session.noise with sendCounter := session.noise.sendCounter + 1 } } :
        UdpSession).routing = session.routing := rfl
    exact lets.congr same _ bodyLength

theorem sealAll_getsThrough (lawful : cipher.Lawful) (retransmission : Bool) {frames : List Bytes}
    (lets : ∀ frame ∈ frames, session.Lets crypto env frame) {start : UdpSession}
    (same : start.routing = session.routing) :
    GetsThrough session (sealAll crypto cipher retransmission start (fun _ => env) frames).2.1
      (sealAll crypto cipher retransmission start (fun _ => env) frames).2.2 := by
  induction frames generalizing start with
  | nil => exact ⟨same, by simp [sealAll]⟩
  | cons frame rest ih =>
      have first : GetsThrough start (sealData crypto cipher start env retransmission frame).2.1
          (sealData crypto cipher start env retransmission frame).2.2 := by
        unfold sealData
        split_ifs
        · exact ⟨rfl, by simp⟩
        · exact sealAndSend_getsThrough lawful retransmission
            ((lets frame List.mem_cons_self).congr same)
      simp only [sealAll]
      split
      · rename_i firstEq
        rw [firstEq] at first
        exact ⟨first.routing_eq.trans same, first.sent⟩
      · rename_i after emissions firstEq
        rw [firstEq] at first
        have more := ih (fun other otherMem => lets other (List.mem_cons_of_mem _ otherMem))
          (first.routing_eq.trans same)
        refine ⟨more.routing_eq, ?_⟩
        intro emission emissionMem
        rcases List.mem_append.mp emissionMem with old | new
        · exact first.sent emission old
        · exact more.sent emission new

/-- An operation gets through all that it seals, and holds no frame which was not held before. -/
structure Manages (crypto : OnionCrypto) (cipher : NoiseCipher) (session : UdpSession)
    (op : SessionOp) : Prop where
  through : GetsThrough session (perform crypto cipher session op).1
    (perform crypto cipher session op).2
  held : ∀ frame, (perform crypto cipher session op).1.arq.Holds frame → session.arq.Holds frame

/-- A flush which meets the same whatever it sends. -/
abbrev flushAt (env : SendEnv) (now : Instant) : SessionOp :=
  .flush (fun _ => env) (fun _ => env) now

theorem flush_manages (lawful : cipher.Lawful) (passes : session.Passes crypto env)
    (now : Instant) : Manages crypto cipher session (flushAt env now) := by
  have flushed := flushed_flush crypto cipher session (fun _ => env) (fun _ => env) now
  have newThrough : GetsThrough session (sealAll crypto cipher false
      { session with arq := (session.arq.takeNewSends now).2 } (fun _ => env)
      (session.arq.takeNewSends now).1).2.1 _ :=
    sealAll_getsThrough lawful false (fun frame frameMem =>
      passes frame (Or.inr (Arq.holds_takeNewSends frameMem).of_takeNewSends)) rfl
  have newArq := (sealAll_sublist crypto cipher
    { session with arq := (session.arq.takeNewSends now).2 } (fun _ => env) false
    (session.arq.takeNewSends now).1).2
  suffices outcome : GetsThrough session _ _ ∧ ∀ frame, _ → session.arq.Holds frame from
    ⟨outcome.1, outcome.2⟩
  simp only [perform]
  generalize flush crypto cipher session (fun _ => env) (fun _ => env) now = outcome at flushed ⊢
  cases flushed with
  | stopped news =>
      rw [news] at newThrough newArq
      refine ⟨newThrough, ?_⟩
      intro frame holds
      rw [newArq] at holds
      exact holds.of_takeNewSends
  | gaveUp news takes =>
      rename_i after emissions giveUp arq
      rw [news] at newThrough newArq
      have takenEq : (after.arq.takeRetransmits now).2 = arq := congrArg Prod.snd takes
      have arqEq : after.arq = (session.arq.takeNewSends now).2 := newArq
      refine ⟨⟨newThrough.routing_eq, newThrough.sent⟩, ?_⟩
      rintro frame (holds : arq.Holds frame)
      rw [← takenEq, arqEq] at holds
      exact holds.of_takeRetransmits.of_takeNewSends
  | resent news takes again =>
      rename_i after final emissions more due arq result
      rw [news] at newThrough newArq
      have takenEq : (after.arq.takeRetransmits now).2 = arq := congrArg Prod.snd takes
      have arqEq : after.arq = (session.arq.takeNewSends now).2 := newArq
      have dueThrough : GetsThrough session
          (sealAll crypto cipher true { after with arq } (fun _ => env) due).2.1
          (sealAll crypto cipher true { after with arq } (fun _ => env) due).2.2 := by
        refine sealAll_getsThrough lawful true ?_ ?_
        rotate_left
        · exact newThrough.routing_eq
        intro frame frameMem
        have holds := Arq.holds_takeRetransmits takes frameMem
        rw [← takenEq, arqEq] at holds
        exact passes frame (Or.inr holds.of_takeRetransmits.of_takeNewSends)
      have dueArq := (sealAll_sublist crypto cipher { after with arq } (fun _ => env) true due).2
      rw [again] at dueThrough dueArq
      refine ⟨⟨dueThrough.routing_eq, ?_⟩, ?_⟩
      · intro emission emissionMem
        rcases List.mem_append.mp emissionMem with old | new
        · exact newThrough.sent emission old
        · exact dueThrough.sent emission new
      · intro frame holds
        rw [dueArq] at holds
        rw [← takenEq, arqEq] at holds
        exact holds.of_takeRetransmits.of_takeNewSends

/-- A datagram which does not change the peer is answered on the same path. -/
theorem handleIncoming_manages (lawful : cipher.Lawful) (passes : session.Passes crypto env)
    {raw body frame : Bytes} {source : Option SocketAddr}
    (decoded : decodeIncoming session.viaRelay raw = .ok (.data, body, source))
    (samePeer : session.notePeer source = session)
    (read : (session.noise.openMessage cipher body).1 = .ok frame) :
    Manages crypto cipher session (.handleIncoming env raw) where
  through := by
    simp only [perform, handleIncoming, decoded, samePeer, Noise.openMessage_of_ok read]
    split
    · exact ⟨rfl, by simp⟩
    · exact ⟨rfl, by simp⟩
    · rename_i ack arq ingested
      have lets : ({ session with
          noise := { session.noise with recvCounter := session.noise.recvCounter + 1 }, arq } :
          UdpSession).Lets crypto env ack :=
        (passes ack (Or.inl (Arq.isAck_of_ingest ingested))).congr rfl
      have through := sealAndSend_getsThrough lawful false lets
      exact ⟨through.routing_eq, through.sent⟩
  held := by
    intro other holds
    simp only [perform, handleIncoming_arq decoded read env] at holds
    exact holds.of_ingest

/-- Only an IPv4 peer can be named in a datagram. -/
theorem isV4_of_wireOf (relayed : session.viaRelay = true) {draws : Onion.Draws}
    {packetType : PacketType} {body wire : Bytes}
    (wired : wireOf crypto session draws packetType body = .ok wire) :
    ∃ ip port, session.peer = .v4 ip port := by
  cases peerEq : session.peer with
  | v4 ip port => exact ⟨ip, port, rfl⟩
  | v6 ip port flow scope =>
      simp only [wireOf, relayed, if_true, peerEq] at wired
      cases innerEq : encodeDatagram packetType body with
      | error error =>
          rw [innerEq] at wired
          cases wired
      | ok inner =>
          rw [innerEq] at wired
          cases onionEq : session.onion with
          | none =>
              rw [onionEq] at wired
              cases wired
          | some hops =>
              rw [onionEq] at wired
              cases reversed : hops.reverse with
              | nil =>
                  rw [List.reverse_eq_nil_iff.mp reversed] at wired
                  cases wired
              | cons last rest =>
                  have nonempty : hops ≠ [] := by
                    rintro rfl
                    cases reversed
                  simp only [bind, Except.bind, Onion.wrapRoute, if_neg nonempty, reversed] at wired
                  cases wired

/-- A direct path, or one over a relay to an IPv4 peer, has room for every fragment. -/
theorem passes_of_no_onion (crypto : OnionCrypto) (noOnion : session.onion = none)
    (named : session.viaRelay = true → ∃ ip port, session.peer = .v4 ip port)
    (socketOk : env.socketOk = true)
    (small : ∀ frame, session.arq.Holds frame → frame.length ≤ dataHdrLen + maxPayload) :
    session.Passes crypto env := by
  intro frame kept body lengthEq
  have frameLe : frame.length ≤ dataHdrLen + maxPayload := by
    rcases kept with ⟨base, bits, rfl⟩ | holds
    · rw [length_encodeAck]
      decide
    · exact small frame holds
  simp only [dataHdrLen, maxPayload] at frameLe
  have fits : outerHeaderLen + body.length ≤ maxDatagram := by
    simp only [outerHeaderLen, maxDatagram]
    omega
  have wired : ∃ wire, wireOf crypto session env.draws .data body = .ok wire := by
    simp only [wireOf, encodeDatagram_of_le fits, noOnion]
    cases relayed : session.viaRelay with
    | false => exact ⟨_, rfl⟩
    | true =>
        rcases named relayed with ⟨ip, port, peerEq⟩
        have fitsForward : outerHeaderLen + forwardBodyOverhead +
            (encodeOuter .data 0 ++ body).length ≤ maxDatagram := by
          simp only [encodeOuter, List.length_append, List.length_cons, List.length_nil,
            outerHeaderLen, forwardBodyOverhead, maxDatagram]
          omega
        have fitsOuter : outerHeaderLen +
            (addressBytes ip port ++ (encodeOuter .data 0 ++ body)).length ≤ maxDatagram := by
          rw [List.length_append, length_addressBytes]
          simp only [forwardBodyOverhead] at fitsForward
          omega
        simp only [peerEq, if_true, encodeForwardBody_of_le ip port fitsForward, bind, Except.bind,
          encodeDatagram_of_le fitsOuter]
        exact ⟨_, rfl⟩
  rcases wired with ⟨wire, wireEq⟩
  simp only [sendInner, wireEq, socketOk, if_true]
  rfl

/-- For every body there is a datagram which brings it without changing the peer. -/
theorem Passes.exists_raw (passes : session.Passes crypto env) (body : Bytes) :
    ∃ raw source, decodeIncoming session.viaRelay raw = .ok (.data, body, source) ∧
      session.notePeer source = session := by
  cases relayed : session.viaRelay with
  | false =>
      refine ⟨encodeOuter .data 0 ++ body, none, ?_, rfl⟩
      simp [decodeIncoming]
  | true =>
      have sent := passes (encodeAck 0 0) (Or.inl ⟨0, 0, rfl⟩)
        (List.replicate ((encodeAck 0 0).length + 16) 0) List.length_replicate
      have peerV4 : ∃ ip port, session.peer = .v4 ip port := by
        unfold sendInner at sent
        split at sent
        · cases sent
        · rename_i wired
          exact isV4_of_wireOf relayed wired
      rcases peerV4 with ⟨ip, port, peerEq⟩
      refine ⟨encodeOuter .forward 0 ++ (addressBytes ip port ++ (encodeOuter .data 0 ++ body)),
        some (.v4 ip port), ?_, ?_⟩
      · simp [decodeIncoming, decodeForwardBody]
      · rw [← peerEq]
        rfl

end UdpSession

/-! ### What a flush takes if nothing is in flight -/

theorem Arq.inFlightSent_takeNewSends {arq : Arq} (now : Instant)
    (noneSent : ∀ entry ∈ arq.unacked.entries, entry.2.isSent = false) :
    (arq.takeNewSends now).2.inFlightSent = (arq.takeNewSends now).1.length := by
  have sentFirst : arq.SentFirst [] arq.unacked.entries := ⟨rfl, by simp, noneSent⟩
  rw [(sentFirst.afterNewSends now).inFlightSent_eq, (sentFirst.takeNewSends now).1]
  simp

theorem Arq.length_le_of_takeRetransmits {arq after : Arq} {now : Instant} {due : List Bytes}
    (taken : arq.takeRetransmits now = (.ok due, after)) : due.length ≤ arq.inFlightSent := by
  have walk := retransmitsWalk_retransmitsLoop now arq.retx arq.maxAttempts arq.unacked.entries
  have keysEq := retransmitsLoop_keys now arq.retx arq.maxAttempts arq.unacked.entries
  rw [takeRetransmits_eq rfl keysEq] at taken
  generalize retransmitsLoop now arq.retx arq.maxAttempts arq.unacked.entries = result
    at walk keysEq taken
  cases walk with
  | resends attemptsLeft =>
      cases taken
      rw [List.length_map, ← List.countP_eq_length_filter, inFlightSent]
      apply List.countP_mono_left
      intro entry _ isLate
      rcases exists_sent_of_isDue isLate with ⟨last, sent, _⟩
      simp [Outgoing.isSent, sent]
  | givesUp split attemptsLeft isLate exhausted => cases taken

/-- A flush takes what it takes for the first time at most twice. -/
theorem UdpSession.length_flushes_le (crypto : OnionCrypto) (cipher : NoiseCipher)
    {session : UdpSession} (newEnvs : ℕ → SendEnv) (now : Instant)
    (noneSent : ∀ entry ∈ session.arq.unacked.entries, entry.2.isSent = false) :
    (session.flushes crypto cipher newEnvs now).length ≤
      2 * (session.arq.takeNewSends now).1.length := by
  have sealing := (sealAll_sublist crypto cipher
    { session with arq := (session.arq.takeNewSends now).2 } newEnvs false
    (session.arq.takeNewSends now).1).2
  unfold flushes
  split
  · omega
  · rename_i after emissions newsEq
    rw [newsEq] at sealing
    split
    · omega
    · rename_i due arq taken
      have dueLe := Arq.length_le_of_takeRetransmits taken
      have arqEq : after.arq = (session.arq.takeNewSends now).2 := sealing
      rw [arqEq, Arq.inFlightSent_takeNewSends now noneSent] at dueLe
      rw [List.length_append]
      omega

/-! ### Arrivals -/

namespace Party

variable {crypto : OnionCrypto} {cipher : NoiseCipher} {sender receiving : Party} {first : ℕ}

/-- The next of the frames on their way can arrive, and is opened. -/
theorem Follows.exists_arrival (follows : Follows cipher first sender receiving)
    (lawful : cipher.Lawful) {env : SendEnv} (passes : receiving.session.Passes crypto env)
    {frame : Bytes} {rest : List Bytes} (next : sender.awaited receiving = frame :: rest) :
    ∃ raw source, ∃ emission ∈ sender.emissions, emission.sent.isOk = true ∧
      UdpSession.decodeIncoming receiving.session.viaRelay raw =
        .ok (.data, emission.body, source) ∧
      receiving.session.notePeer source = receiving.session ∧
      (receiving.session.noise.openMessage cipher emission.body).1 = .ok frame := by
  have inside : receiving.opened.length < sender.emissions.length := by
    by_contra beyond
    rw [awaited, List.drop_eq_nil_of_le (not_lt.mp beyond)] at next
    cases next
  rw [awaited, List.drop_eq_getElem_cons inside, List.takeWhile_cons] at next
  have present := List.getElem?_eq_getElem inside
  generalize sender.emissions[receiving.opened.length] = emission at next present
  split_ifs at next with wasSent
  · simp only [List.map_cons, List.cons.injEq] at next
    rcases next with ⟨rfl, _⟩
    rcases follows.emits.getElem? present with ⟨counterEq, isSealed⟩
    have current := follows.recvCounter_eq.trans counterEq.symm
    rcases passes.exists_raw emission.body with ⟨raw, source, decoded, samePeer⟩
    refine ⟨raw, source, emission, List.mem_of_getElem? present, wasSent, decoded, samePeer, ?_⟩
    have read := Noise.openMessage_encrypt lawful receiving.session.noise isSealed.small
      isSealed.counter_lt current.le
    rw [follows.key_eq, ← isSealed.body_eq, if_pos current] at read
    rw [read]
  · cases next

end Party

/-! ### The work which is left -/

/-- An acknowledgement is opened; a fragment is opened, and then what answers it. -/
def frameWork (frame : Bytes) : ℕ :=
  match decodeInner frame with
  | .ok (.data _ _ _ _ _) => 2
  | _ => 1

theorem frameWork_le (frame : Bytes) : frameWork frame ≤ 2 := by
  unfold frameWork
  split
  · exact le_rfl
  · exact Nat.le_succ 1

theorem frameWork_of_isAck {frame : Bytes} (isAck : Arq.IsAck frame) : frameWork frame = 1 := by
  rcases isAck with ⟨base, bits, rfl⟩
  simp only [frameWork, decodeInner_encodeAck]

/-- The work which is on its way from one party to the other. -/
def Party.workAwaited (sender receiving : Party) : ℕ :=
  ((sender.awaited receiving).map frameWork).sum

theorem sum_frameWork_le (frames : List Bytes) :
    (frames.map frameWork).sum ≤ 2 * frames.length := by
  induction frames with
  | nil => exact le_rfl
  | cons frame rest ih =>
      have := frameWork_le frame
      simp only [List.map_cons, List.sum_cons, List.length_cons]
      omega

theorem sum_frameWork_of_acks {acks : List Bytes} (areAcks : ∀ ack ∈ acks, Arq.IsAck ack) :
    (acks.map frameWork).sum = acks.length := by
  induction acks with
  | nil => rfl
  | cons ack rest ih =>
      have restSum := ih fun other otherMem => areAcks other (List.mem_cons_of_mem _ otherMem)
      simp only [List.map_cons, List.sum_cons, List.length_cons, restSum,
        frameWork_of_isAck (areAcks ack List.mem_cons_self)]
      omega

namespace Talk

variable {crypto : OnionCrypto} {cipher : NoiseCipher} {talk : Talk} {net : Net}

/--
The work of one direction.  A fragment which was not sent yet counts six times: a flush may
send it twice, if there is no retransmit timeout, and either time it is sealed, opened, and
its answer opened.
-/
def workFrom (talk : Talk) (net : Net) (side : Side) : ℕ :=
  (talk side).workAwaited (talk side.peer) +
    6 * ((net.endpoint side).fragmentsEnqueued - (net.endpoint side).sentCount)

/-- A bound on the datagrams which are still to be sealed. -/
def work (talk : Talk) (net : Net) : ℕ := talk.workFrom net .left + talk.workFrom net .right

theorem work_eq (talk : Talk) (net : Net) (side : Side) :
    talk.work net = talk.workFrom net side + talk.workFrom net side.peer := by
  cases side with
  | left => rfl
  | right => exact Nat.add_comm _ _

/-- Two parties which are alive, on paths which let through what they have to send. -/
structure Running (crypto : OnionCrypto) (cipher : NoiseCipher) (first : Side → ℕ)
    (envs : Side → SendEnv) (talk : Talk) (net : Net) : Prop where
  inStep : talk.InStep cipher first
  inOrder : talk.InOrder net
  answered : talk.Answered net
  bounded : talk.Bounded
  live : ∀ side, (talk side).Live
  passes : ∀ side, (talk side).session.Passes crypto (envs side)
  usable : ∀ side, (talk side).session.noise.sendCounter + talk.work net < maxNonce

/-- The event is a flush at `now`, or the arrival of a datagram. -/
def Transfers (envs : Side → SendEnv) (now : Instant) (event : Side × SessionOp) : Prop :=
  event.2 = UdpSession.flushAt (envs event.1) now ∨
    ∃ raw, event.2 = .handleIncoming (envs event.1) raw

variable {first : Side → ℕ} {envs : Side → SendEnv} {now : Instant}

theorem enqueued_of_transfers {event : Side × SessionOp} (transfers : Transfers envs now event)
    (talk : Talk) (side : Side) :
    (talk.step crypto cipher event side).enqueued = (talk side).enqueued := by
  rcases event with ⟨actor, op⟩
  rcases actor.eq_or_eq_peer side with rfl | rfl
  · simp only [Transfers] at transfers
    rw [step_self]
    rcases transfers with rfl | ⟨raw, rfl⟩
    · exact List.append_nil _
    · exact List.append_nil _
  · rw [step_peer]

theorem not_drops_of_transfers {event : Side × SessionOp} (transfers : Transfers envs now event) :
    ¬UdpSession.Drops event.2 := by
  rcases transfers with isFlush | ⟨raw, isArrival⟩
  · rw [isFlush]
    exact id
  · rw [isArrival]
    exact id

/-- Whatever gets through and takes no more datagrams than expected keeps things running. -/
theorem Running.step (running : Running crypto cipher first envs talk net)
    (lawful : cipher.Lawful) {side : Side} {op : SessionOp}
    (transfers : Transfers envs now (side, op)) (genuine : talk.Genuine cipher (side, op))
    (manages : UdpSession.Manages crypto cipher (talk side).session op)
    (workLe : (UdpSession.perform crypto cipher (talk side).session op).2.length +
      (talk.step crypto cipher (side, op)).work (talk.drive crypto cipher net (side, op)) ≤
        talk.work net) :
    Running crypto cipher first envs (talk.step crypto cipher (side, op))
      (talk.drive crypto cipher net (side, op)) := by
  have boundedAfter : (talk.step crypto cipher (side, op)).Bounded := by
    intro target
    rw [enqueued_of_transfers transfers]
    exact running.bounded target
  have counterEq := (UdpSession.perform_advances crypto cipher (talk side).session
    op).emits.final_eq
  have usable := running.usable side
  constructor
  · exact running.inStep.step lawful genuine
  · exact running.inOrder.step running.inStep lawful genuine (not_drops_of_transfers transfers)
      running.bounded boundedAfter
  · exact running.answered.step running.inOrder running.inStep lawful genuine running.bounded
      boundedAfter
  · exact boundedAfter
  · intro target
    rcases side.eq_or_eq_peer target with rfl | rfl
    · rw [step_self]
      refine ⟨?_, ?_⟩
      · intro emission emissionMem
        rcases List.mem_append.mp emissionMem with old | new
        · exact (running.live target).sent emission old
        · exact manages.through.sent emission new
      · simp only [Party.perform, counterEq]
        omega
    · rw [step_peer]
      exact running.live side.peer
  · intro target
    rcases side.eq_or_eq_peer target with rfl | rfl
    · rw [step_self]
      exact (running.passes target).congr manages.through.routing_eq manages.held
    · rw [step_peer]
      exact running.passes side.peer
  · intro target
    rcases side.eq_or_eq_peer target with rfl | rfl
    · rw [step_self]
      simp only [Party.perform, counterEq]
      omega
    · have := running.usable side.peer
      rw [step_peer]
      omega

/-- A frame which is on its way takes more work than its answer. -/
theorem Running.answer_lt (running : Running crypto cipher first envs talk net) {side : Side}
    {frame : Bytes} {rest : List Bytes}
    (next : (talk side.peer).awaited (talk side) = frame :: rest) (arq : Arq) :
    2 * (arq.answer frame).length ≤ frameWork frame ∧
      (arq.answer frame).length < frameWork frame := by
  rcases running.inOrder.tracked.linked running.bounded with ⟨flows, linked⟩
  rcases running.inOrder.orderly side.peer with ⟨level, final, ordered⟩
  have climbs := ordered.climbs
  rw [Side.peer_peer, next] at climbs
  cases climbs with
  | plain isAck _ =>
      have workEq := frameWork_of_isAck isAck
      rcases isAck with ⟨base, bits, rfl⟩
      rw [Arq.answer_ack, workEq]
      exact ⟨Nat.zero_le _, Nat.one_pos⟩
  | number isFrame _ _ =>
      have short := (linked side.peer).sends.short
      rw [(running.inOrder.tracked.isMatch side.peer).enqueued_eq] at short
      rcases Arq.decodeInner_of_isFrame short isFrame with ⟨_, _, _, _, decoded⟩
      simp only [Arq.answer_data decoded, frameWork, decoded, List.length_singleton]
      omega

/-- What a side has sealed is added to its work, and what it need not send any more goes. -/
theorem Running.workFrom_step (running : Running crypto cipher first envs talk net) {side : Side}
    {op : SessionOp} (manages : UdpSession.Manages crypto cipher (talk side).session op) :
    (talk.step crypto cipher (side, op)).workFrom (talk.drive crypto cipher net (side, op)) side =
      (talk side).workAwaited (talk side.peer) +
        (((UdpSession.perform crypto cipher (talk side).session op).2.map
          Emission.plaintext).map frameWork).sum +
        6 * (((talk side).drive crypto cipher (net.endpoint side) op).fragmentsEnqueued -
          ((talk side).drive crypto cipher (net.endpoint side) op).sentCount) := by
  have onWay := Party.awaited_perform_of_sent (running.inStep side) (running.live side)
    manages.through.sent
  simp only [workFrom, Party.workAwaited, step_self, step_peer, onWay, List.map_append,
    List.sum_append, drive, Net.endpoint_set_self]

/-- What is on its way can arrive, and leaves less to be done. -/
theorem Running.exists_arrival (running : Running crypto cipher first envs talk net)
    (lawful : cipher.Lawful) (now : Instant) {side : Side} {frame : Bytes} {rest : List Bytes}
    (next : (talk side.peer).awaited (talk side) = frame :: rest) :
    ∃ event after, Transfers envs now event ∧ talk.Genuine cipher event ∧
      Running crypto cipher first envs (talk.step crypto cipher event) after ∧
      (talk.step crypto cipher event).work after < talk.work net := by
  rcases running.inOrder.tracked.linked running.bounded with ⟨flows, linked⟩
  have isMatch := running.inOrder.tracked.isMatch
  have few := isMatch.bounded running.bounded
  have follows := running.inStep side.peer
  have linkedBack := linked side.peer
  rw [Side.peer_peer] at follows linkedBack
  rcases follows.exists_arrival lawful (running.passes side) next with
    ⟨raw, source, emission, emissionMem, wasSent, decoded, samePeer, read⟩
  obtain ⟨op, opEq⟩ : ∃ op, op = SessionOp.handleIncoming (envs side) raw := ⟨_, rfl⟩
  have opened : (talk side).session.opens cipher op = some frame := by
    rw [opEq]
    exact UdpSession.opens_eq_some_iff.mpr ⟨_, _, decoded, read⟩
  have transfers : Transfers envs now (side, op) := Or.inr ⟨raw, opEq⟩
  have genuine : talk.Genuine cipher (side, op) := by
    rw [opEq]
    exact Or.inr ⟨emission, emissionMem, wasSent, source, decoded⟩
  have manages : UdpSession.Manages crypto cipher (talk side).session op := by
    rw [opEq]
    exact UdpSession.handleIncoming_manages lawful (running.passes side) decoded samePeer read
  have isPrefix : (UdpSession.perform crypto cipher (talk side).session op).2.map
      Emission.plaintext <+: (talk side).session.arq.answer frame := by
    rw [opEq] at opened ⊢
    exact (UdpSession.handleIncoming_answers crypto opened).isPrefix
  -- The answer is added to the work of this side, the frame is taken from that of the other.
  have workOut : (talk.step crypto cipher (side, op)).workFrom
      (talk.drive crypto cipher net (side, op)) side =
      talk.workFrom net side +
        (UdpSession.perform crypto cipher (talk side).session op).2.length := by
    have frameMem := isMatch.mem_emitted running.inStep lawful genuine opened
    have sentEq := (linked side).sentCount_receive linkedBack (few side) frameMem
    have areAcks := sum_frameWork_of_acks fun ack ackMem =>
      Arq.isAck_of_mem_answer (isPrefix.subset ackMem)
    rw [running.workFrom_step manages, areAcks, List.length_map]
    simp only [workFrom, Party.drive, opened, sentEq, Endpoint.fragmentsEnqueued,
      Endpoint.enqueued_receive]
    omega
  have workIn : (talk.step crypto cipher (side, op)).workFrom
      (talk.drive crypto cipher net (side, op)) side.peer + frameWork frame =
      talk.workFrom net side.peer := by
    have arrived := Party.awaited_of_opened crypto follows lawful opened
      ⟨emission, emissionMem, wasSent, read⟩
    rw [next, List.cons.injEq] at arrived
    simp only [workFrom, Party.workAwaited, Side.peer_peer, step_self, step_peer, ← arrived.2,
      next, List.map_cons, List.sum_cons, drive, Net.endpoint_set_peer]
    omega
  have spent := running.answer_lt next (talk side).session.arq
  have sealedLe := isPrefix.length_le
  rw [List.length_map] at sealedLe
  refine ⟨_, _, transfers, genuine, running.step lawful transfers genuine manages ?_, ?_⟩
  · rw [work_eq _ _ side, work_eq talk net side]
    omega
  · rw [work_eq _ _ side, work_eq talk net side]
    omega

/-- A flush sends the next window for the first time, and nothing else. -/
theorem sentCount_drive_flush (crypto : OnionCrypto) (cipher : NoiseCipher) (party : Party)
    {sender receiver : Endpoint} {flow : Flow} (linked : Arq.Linked sender receiver flow)
    (few : sender.fragmentsEnqueued ≤ 2 ^ 32 - 1000000) (newEnvs dueEnvs : ℕ → SendEnv)
    (now : Instant) :
    (party.drive crypto cipher sender (.flush newEnvs dueEnvs now)).sentCount =
        sender.sentCount + (sender.arq.takeNewSends now).1.length ∧
      (party.drive crypto cipher sender (.flush newEnvs dueEnvs now)).enqueued =
        sender.enqueued := by
  have newCount := (linked.takeNewSends_climbs now).2
  rcases linked.perform_sender (.takeNewSends now) few with ⟨next, _, linkedNext⟩
  have sameCount : ((sender.takeNewSends now).takeRetransmits now).sentCount = _ :=
    linkedNext.sentCount_takeRetransmits now
  have sameEnqueued : ((sender.takeNewSends now).takeRetransmits now).enqueued =
      sender.enqueued := by
    unfold Endpoint.takeRetransmits
    split <;> rfl
  simp only [Party.drive, UdpSession.opens, UdpSession.localOps]
  split
  · exact ⟨newCount, rfl⟩
  · exact ⟨sameCount.trans newCount, sameEnqueued⟩

/-- If nothing is on its way, a flush sends something new, and leaves less to be done. -/
theorem Running.exists_flush (running : Running crypto cipher first envs talk net)
    (lawful : cipher.Lawful) (now : Instant)
    (quiet : ∀ side, (talk side).awaited (talk side.peer) = []) {side : Side}
    (unsent : (net.endpoint side).sentCount < (net.endpoint side).fragmentsEnqueued) :
    ∃ event after, Transfers envs now event ∧ talk.Genuine cipher event ∧
      Running crypto cipher first envs (talk.step crypto cipher event) after ∧
      (talk.step crypto cipher event).work after < talk.work net := by
  rcases running.inOrder.tracked.linked running.bounded with ⟨flows, linked⟩
  have isMatch := running.inOrder.tracked.isMatch
  have few := isMatch.bounded running.bounded
  have noneSent := running.inOrder.unsent_of_quiet running.answered running.bounded running.live
    quiet side
  have transfers : Transfers envs now (side, UdpSession.flushAt (envs side) now) := Or.inl rfl
  have manages := UdpSession.flush_manages lawful (running.passes side) now
  have isPrefix : (UdpSession.perform crypto cipher (talk side).session
      (UdpSession.flushAt (envs side) now)).2.map Emission.plaintext <+:
      (talk side).session.flushes crypto cipher (fun _ => envs side) now :=
    (Party.flush_attempts (isMatch side) (linked side) (few side) (running.inOrder.noDrop side)
      _ _ now).isPrefix
  have sealedLe := isPrefix.length_le
  rw [List.length_map] at sealedLe
  have flushLe := UdpSession.length_flushes_le crypto cipher (fun _ => envs side) now
    (by rw [← (isMatch side).arq_eq]; exact noneSent)
  rw [← (isMatch side).arq_eq] at flushLe
  have newLength := Net.length_takeNewSends (linked side) now noneSent
  have windowPos : 0 < windowSize := by decide
  have workOut : (talk.step crypto cipher (side, UdpSession.flushAt (envs side) now)).workFrom
      (talk.drive crypto cipher net (side, UdpSession.flushAt (envs side) now)) side +
        6 * ((net.endpoint side).arq.takeNewSends now).1.length ≤
      talk.workFrom net side + 2 * (UdpSession.perform crypto cipher (talk side).session
        (UdpSession.flushAt (envs side) now)).2.length := by
    rcases sentCount_drive_flush crypto cipher (talk side) (linked side) (few side)
      (fun _ => envs side) (fun _ => envs side) now with ⟨countEq, enqueuedEq⟩
    have sumLe := sum_frameWork_le ((UdpSession.perform crypto cipher (talk side).session
      (UdpSession.flushAt (envs side) now)).2.map Emission.plaintext)
    rw [List.length_map] at sumLe
    rw [running.workFrom_step manages]
    simp only [workFrom, Endpoint.fragmentsEnqueued, countEq, enqueuedEq] at newLength ⊢
    omega
  have workIn : (talk.step crypto cipher (side, UdpSession.flushAt (envs side) now)).workFrom
      (talk.drive crypto cipher net (side, UdpSession.flushAt (envs side) now)) side.peer =
      talk.workFrom net side.peer := by
    have closed : (talk side).session.opens cipher (UdpSession.flushAt (envs side) now) = none :=
      rfl
    simp only [workFrom, Party.workAwaited, Side.peer_peer, step_self, step_peer,
      Party.awaited_of_closed closed, drive, Net.endpoint_set_peer]
  refine ⟨_, _, transfers, trivial, running.step lawful transfers trivial manages ?_, ?_⟩
  · rw [work_eq _ _ side, work_eq talk net side]
    omega
  · rw [work_eq _ _ side, work_eq talk net side]
    omega

/-- Unless everything is acknowledged, something can be done which leaves less to be done. -/
theorem Running.progress (running : Running crypto cipher first envs talk net)
    (lawful : cipher.Lawful) (now : Instant) :
    (∀ side, (talk side).session.arq.unackedLen = 0) ∨
      ∃ event after, Transfers envs now event ∧ talk.Genuine cipher event ∧
        Running crypto cipher first envs (talk.step crypto cipher event) after ∧
        (talk.step crypto cipher event).work after < talk.work net := by
  by_cases quiet : ∀ side, (talk side).awaited (talk side.peer) = []
  · by_cases unsent : ∃ side, (net.endpoint side).sentCount < (net.endpoint side).fragmentsEnqueued
    · rcases unsent with ⟨side, unsent⟩
      exact Or.inr (running.exists_flush lawful now quiet unsent)
    · left
      intro side
      rw [not_exists] at unsent
      exact running.inOrder.allAcked_of_quiet running.answered running.bounded running.live quiet
        (not_lt.mp (unsent side))
  · right
    rw [not_forall] at quiet
    rcases quiet with ⟨side, busy⟩
    rcases List.exists_cons_of_ne_nil busy with ⟨frame, rest, next⟩
    have arriving : (talk side.peer.peer).awaited (talk side.peer) = frame :: rest := by
      rw [Side.peer_peer]
      exact next
    exact running.exists_arrival lawful now arriving

theorem Running.exists_completion (running : Running crypto cipher first envs talk net)
    (lawful : cipher.Lawful) (now : Instant) :
    ∃ more after, (∀ event ∈ more, Transfers envs now event) ∧ more.length ≤ talk.work net ∧
      talk.Unforged crypto cipher more ∧
      Running crypto cipher first envs (talk.steps crypto cipher more) after ∧
      ∀ side, (talk.steps crypto cipher more side).session.arq.unackedLen = 0 ∧
        (talk.steps crypto cipher more side).enqueued = (talk side).enqueued := by
  induction left : talk.work net using Nat.strong_induction_on generalizing talk net with
  | _ left ih =>
      subst left
      rcases running.progress lawful now with done | ⟨event, after, transfers, genuine, next, less⟩
      · exact ⟨[], net, by simp, Nat.zero_le _, trivial, running, fun side => ⟨done side, rfl⟩⟩
      · rcases ih _ less next rfl with
          ⟨more, final, moreTransfers, lengthLe, unforged, stillRunning, completed⟩
        refine ⟨event :: more, final, ?_, ?_, ⟨genuine, unforged⟩, stillRunning, ?_⟩
        · intro other otherMem
          rcases List.mem_cons.mp otherMem with rfl | inRest
          · exact transfers
          · exact moreTransfers other inRest
        · rw [List.length_cons]
          omega
        · intro side
          rcases completed side with ⟨allAcked, enqueuedEq⟩
          exact ⟨allAcked, enqueuedEq.trans (enqueued_of_transfers transfers talk side)⟩

/-! ### Runs which can be completed -/

/-- What is on its way or not acknowledged, with what it takes to get it there. -/
def pending (talk : Talk) : ℕ :=
  2 * ((talk .left).awaited (talk .right)).length + 6 * (talk .left).session.arq.unackedLen +
    (2 * ((talk .right).awaited (talk .left)).length + 6 * (talk .right).session.arq.unackedLen)

theorem Matches.work_le_pending (isMatch : talk.Matches net) : talk.work net ≤ talk.pending := by
  have unsentLe : ∀ side, (net.endpoint side).fragmentsEnqueued - (net.endpoint side).sentCount ≤
      (talk side).session.arq.unackedLen := by
    intro side
    have countLe : _ ≤ (net.endpoint side).arq.unacked.entries.length :=
      List.countP_le_length (p := fun entry => entry.2.isSent = false)
    rw [← (isMatch side).arq_eq, Arq.unackedLen, OrderedMap.length, Endpoint.sentCount]
    omega
  have left := unsentLe .left
  have right := unsentLe .right
  have leftAwaited := sum_frameWork_le ((talk .left).awaited (talk .right))
  have rightAwaited := sum_frameWork_le ((talk .right).awaited (talk .left))
  simp only [work, workFrom, Party.workAwaited, pending, Side.peer]
  omega

/--
From every state which is reached over a hostile network that forges nothing, without drops
being asked for, and in which both sides are alive: if their paths let through what they
have to send, and enough counters are left, then flushes at any one instant and arrivals,
no more of them than are pending, lead to a state in which all that was queued on either
side is delivered in order and acknowledged.
-/
theorem completes (crypto : OnionCrypto) {cipher : NoiseCipher} (lawful : cipher.Lawful)
    {talk : Talk} (fresh : talk.Fresh) (events : List (Side × SessionOp))
    (unforged : talk.Unforged crypto cipher events)
    (dropless : ∀ event ∈ events, ¬UdpSession.Drops event.2)
    (bounded : (talk.steps crypto cipher events).Bounded)
    (live : ∀ side, (talk.steps crypto cipher events side).Live) (envs : Side → SendEnv)
    (passes : ∀ side, (talk.steps crypto cipher events side).session.Passes crypto (envs side))
    (usable : ∀ side, (talk.steps crypto cipher events side).session.noise.sendCounter +
      (talk.steps crypto cipher events).pending < maxNonce) (now : Instant) :
    ∃ more : List (Side × SessionOp), (∀ event ∈ more, Transfers envs now event) ∧
      more.length ≤ (talk.steps crypto cipher events).pending ∧
      talk.Unforged crypto cipher (events ++ more) ∧
      ∀ side, (talk.steps crypto cipher (events ++ more) side).Live ∧
        (talk.steps crypto cipher (events ++ more) side).session.arq.unackedLen = 0 ∧
        (talk.steps crypto cipher (events ++ more)).delivered side.peer =
          (talk.steps crypto cipher events side).enqueued := by
  rcases fresh.inOrder.steps_answered (answered_initial talk) fresh.inStep lawful unforged dropless
    bounded with ⟨net, inOrder, answered⟩
  have workLe := inOrder.tracked.isMatch.work_le_pending
  have running : Running crypto cipher _ envs (talk.steps crypto cipher events) net :=
    ⟨fresh.inStep.steps lawful unforged, inOrder, answered, bounded, live, passes, fun side =>
      (Nat.add_le_add_left workLe _).trans_lt (usable side)⟩
  rcases running.exists_completion lawful now with
    ⟨more, after, transfers, lengthLe, moreUnforged, completed, allAcked⟩
  refine ⟨more, transfers, lengthLe.trans workLe, unforged_append_iff.mpr ⟨unforged, moreUnforged⟩,
    ?_⟩
  intro side
  rw [steps_append]
  refine ⟨completed.live side, (allAcked side).1, ?_⟩
  rw [← (allAcked side).2]
  exact completed.inOrder.delivered_eq completed.bounded (allAcked side).1

/-- The message which was sent arrives, and its acknowledgement comes back. -/
theorem completes_sample :
    ((sampleTalk.steps Onion.sampleCrypto tagCipher (sampleSend [7])).delivered .right = []) ∧
    ∃ more : List (Side × SessionOp),
      (∀ event ∈ more, Transfers (fun _ => UdpSession.sampleEnv) 0 event) ∧
      (sampleTalk.steps Onion.sampleCrypto tagCipher
        (sampleSend [7] ++ more) .left).session.arq.unackedLen = 0 ∧
      (sampleTalk.steps Onion.sampleCrypto tagCipher
        (sampleSend [7] ++ more)).delivered .right = [[7]] := by
  have unforged : sampleTalk.Unforged Onion.sampleCrypto tagCipher (sampleSend [7]) := by
    decide +kernel
  have dropless : ∀ event ∈ sampleSend [7], ¬UdpSession.Drops event.2 := by
    simp [sampleSend, UdpSession.Drops]
  have bounded : (sampleTalk.steps Onion.sampleCrypto tagCipher (sampleSend [7])).Bounded := by
    intro side
    cases side <;> decide +kernel
  have live : ∀ side,
      (sampleTalk.steps Onion.sampleCrypto tagCipher (sampleSend [7]) side).Live := by
    intro side
    cases side <;> exact ⟨by decide +kernel, by decide +kernel⟩
  have small : ∀ side, ∀ entry ∈ (sampleTalk.steps Onion.sampleCrypto tagCipher (sampleSend [7])
      side).session.arq.unacked.entries,
        entry.2.plaintext.length ≤ dataHdrLen + maxPayload := by
    intro side
    cases side <;> decide +kernel
  have passes : ∀ side, (sampleTalk.steps Onion.sampleCrypto tagCipher (sampleSend [7])
      side).session.Passes Onion.sampleCrypto UdpSession.sampleEnv := by
    intro side
    apply UdpSession.passes_of_no_onion
    · cases side <;> decide +kernel
    · intro relayed
      cases side <;> exact absurd relayed (by decide +kernel)
    · rfl
    · rintro frame ⟨entry, entryMem, rfl⟩
      exact small side entry entryMem
  have usable : ∀ side, (sampleTalk.steps Onion.sampleCrypto tagCipher (sampleSend [7])
      side).session.noise.sendCounter +
        (sampleTalk.steps Onion.sampleCrypto tagCipher (sampleSend [7])).pending < maxNonce := by
    intro side
    cases side <;> decide +kernel
  rcases completes Onion.sampleCrypto tagCipher_lawful sampleTalk_fresh (sampleSend [7]) unforged
    dropless bounded live (fun _ => UdpSession.sampleEnv) passes usable 0 with
    ⟨more, transfers, _, _, completed⟩
  have queued : (sampleTalk.steps Onion.sampleCrypto tagCipher (sampleSend [7]) .left).enqueued =
      [[7]] := by decide +kernel
  exact ⟨by decide +kernel, more, transfers, (completed .left).2.1,
    (completed .left).2.2.trans queued⟩

end Talk

end Ppose

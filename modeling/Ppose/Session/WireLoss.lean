import Ppose.Session.Authentication
import Ppose.Reliability.Network
import Ppose.Foundations.NumberedStream

/-!
# Two sessions over a lossy network

Two established sessions exchange sealed datagrams.  The network delivers them in
order and at most once, and may drop any of them; datagrams nobody sealed may
arrive at any time.  A retransmission is a new seal of an old frame, made under the
next counter.  The receiver reads only under its own counter, and that counter does
not move past a datagram which never came.  So a datagram is opened exactly if
nothing sealed before it in its direction was lost, be it dropped by the network
or sealed and then refused on the way to the socket.  A single loss ends a
direction for good, and no retransmission makes up for it.
-/

namespace Ppose

open Arq (Side)

/-- One direction of the network: what is under way, and the counters lost. -/
structure Link where
  inFlight : List Emission
  lost : List ℕ

namespace Link

/-- A sealed datagram is under way if it was sent, and lost otherwise. -/
def pushOne (link : Link) (emission : Emission) : Link :=
  match emission.sent with
  | .ok _ => { link with inFlight := link.inFlight ++ [emission] }
  | .error _ => { link with lost := link.lost ++ [emission.counter] }

def push (link : Link) (emissions : List Emission) : Link := emissions.foldl pushOne link

end Link

structure Pair where
  session : Side → UdpSession
  link : Side → Link

inductive PairEvent where
  /-- A session performs an operation; datagrams handled this way are not authenticated. -/
  | perform (side : Side) (op : SessionOp)
  /-- The network drops a datagram under way from a side. -/
  | drop (side : Side) (index : ℕ)
  /-- The oldest datagram under way from a side arrives at its peer. -/
  | deliver (side : Side) (env : SendEnv) (raw : Bytes)

namespace UdpSession

instance (cipher : NoiseCipher) (session : UdpSession) (raw : Bytes) :
    Decidable (session.Unauthenticated cipher raw) :=
  match decoded : decodeIncoming session.viaRelay raw with
  | .error _ => .isTrue (by simp [Unauthenticated, decoded])
  | .ok (packetType, body, _) =>
      decidable_of_iff
        (packetType ≠ .data ∨ (session.noise.openMessage cipher body).1.isOk = false) (by
          simp only [Unauthenticated, decoded]
          apply or_congr_right
          cases (session.noise.openMessage cipher body).1 <;> simp [Except.isOk, Except.toBool])

def Allowed (cipher : NoiseCipher) (session : UdpSession) : SessionOp → Prop
  | .handleIncoming _ raw => session.Unauthenticated cipher raw
  | _ => True

instance (cipher : NoiseCipher) (session : UdpSession) (op : SessionOp) :
    Decidable (session.Allowed cipher op) :=
  match op with
  | .handleIncoming _ raw => inferInstanceAs (Decidable (session.Unauthenticated cipher raw))
  | .flush _ _ _ | .maybeCover _ _ _ | .enqueue _ | .popDelivered | .debugDropData _
  | .setRetxTimeout _ | .setCover _ _ | .setOutboundOnion _ _ => .isTrue trivial

end UdpSession

namespace Pair

variable (crypto : OnionCrypto) (cipher : NoiseCipher)

/-- The datagram arrives around the given body. -/
def Carries (receiver : UdpSession) (raw body : Bytes) : Prop :=
  ∃ other, UdpSession.decodeIncoming receiver.viaRelay raw = .ok (.data, body, other)

instance (receiver : UdpSession) (raw body : Bytes) : Decidable (Carries receiver raw body) :=
  match decoded : UdpSession.decodeIncoming receiver.viaRelay raw with
  | .error _ => .isFalse (by simp [Carries, decoded])
  | .ok (packetType, found, _) =>
      decidable_of_iff (packetType = .data ∧ found = body) (by simp [Carries, decoded])

def step (pair : Pair) : PairEvent → Pair
  | .perform side op =>
      if (pair.session side).Allowed cipher op then
        let (session, emissions) := UdpSession.perform crypto cipher (pair.session side) op
        { session := Function.update pair.session side session
          link := Function.update pair.link side ((pair.link side).push emissions) }
      else pair
  | .drop side index =>
      match (pair.link side).inFlight[index]? with
      | none => pair
      | some emission =>
          { pair with
            link := Function.update pair.link side
              { inFlight := (pair.link side).inFlight.eraseIdx index
                lost := (pair.link side).lost ++ [emission.counter] } }
  | .deliver side env raw =>
      match (pair.link side).inFlight with
      | [] => pair
      | emission :: rest =>
          if Carries (pair.session side.peer) raw emission.body then
            let (_, session, emissions) :=
              UdpSession.handleIncoming crypto cipher (pair.session side.peer) env raw
            { session := Function.update pair.session side.peer session
              link := Function.update
                (Function.update pair.link side { pair.link side with inFlight := rest }) side.peer
                ((pair.link side.peer).push emissions) }
          else pair

def steps (pair : Pair) (events : List PairEvent) : Pair := events.foldl (step crypto cipher) pair

end Pair

/-! ### What the operations seal -/

section Sealing

variable {crypto : OnionCrypto} {cipher : NoiseCipher}

/-- The body of a datagram is its frame, encrypted under its counter. -/
structure Emission.Sealed (cipher : NoiseCipher) (key : Block 32) (emission : Emission) : Prop where
  body_eq : emission.body = cipher.encrypt key emission.counter emission.plaintext
  counter_lt : emission.counter < maxNonce
  small : emission.plaintext.length + 16 ≤ maxDatagram

/-- Datagrams sealed under consecutive counters. -/
def Emits (cipher : NoiseCipher) (key : Block 32) : ℕ → List Emission → ℕ → Prop
  | counter, [], final => final = counter
  | counter, emission :: rest, final =>
      emission.counter = counter ∧ emission.Sealed cipher key ∧
        Emits cipher key (counter + 1) rest final

theorem Emits.append {key : Block 32} {first middle final : ℕ} {before after : List Emission}
    (emitsBefore : Emits cipher key first before middle)
    (emitsAfter : Emits cipher key middle after final) :
    Emits cipher key first (before ++ after) final := by
  induction before generalizing first with
  | nil =>
      cases emitsBefore
      exact emitsAfter
  | cons emission rest ih =>
      rcases emitsBefore with ⟨counterEq, isSealed, restEmits⟩
      exact ⟨counterEq, isSealed, ih restEmits⟩

/-- A session has sealed the given datagrams and opened none. -/
structure Seals (cipher : NoiseCipher) (before after : Noise) (emissions : List Emission) :
    Prop where
  sendKey_eq : after.sendKey = before.sendKey
  recvKey_eq : after.recvKey = before.recvKey
  recvCounter_eq : after.recvCounter = before.recvCounter
  emits : Emits cipher before.sendKey before.sendCounter emissions after.sendCounter

theorem Seals.refl (noise : Noise) : Seals cipher noise noise [] := ⟨rfl, rfl, rfl, rfl⟩

theorem Seals.trans {first second third : Noise} {before after : List Emission}
    (sealsBefore : Seals cipher first second before)
    (sealsAfter : Seals cipher second third after) :
    Seals cipher first third (before ++ after) where
  sendKey_eq := sealsAfter.sendKey_eq.trans sealsBefore.sendKey_eq
  recvKey_eq := sealsAfter.recvKey_eq.trans sealsBefore.recvKey_eq
  recvCounter_eq := sealsAfter.recvCounter_eq.trans sealsBefore.recvCounter_eq
  emits := by
    apply sealsBefore.emits.append
    rw [← sealsBefore.sendKey_eq]
    exact sealsAfter.emits

namespace UdpSession

theorem sealAndSend_seals (session : UdpSession) (env : SendEnv) (retransmission : Bool)
    (frame : Bytes) :
    Seals cipher session.noise
        (sealAndSend crypto cipher session env retransmission frame).2.1.noise
        (sealAndSend crypto cipher session env retransmission frame).2.2 ∧
      (sealAndSend crypto cipher session env retransmission frame).2.1.arq = session.arq := by
  by_cases refused : maxDatagram < frame.length + 16 ∨ maxNonce ≤ session.noise.sendCounter
  · simp only [sealAndSend, Noise.sealMessage, if_pos refused]
    exact ⟨Seals.refl _, trivial⟩
  · simp only [sealAndSend, Noise.sealMessage, if_neg refused, and_true]
    rw [not_or, not_lt, not_le] at refused
    exact ⟨rfl, rfl, rfl, rfl, ⟨rfl, refused.2, refused.1⟩, rfl⟩

theorem sealData_seals (session : UdpSession) (env : SendEnv) (retransmission : Bool)
    (frame : Bytes) :
    Seals cipher session.noise
      (sealData crypto cipher session env retransmission frame).2.1.noise
      (sealData crypto cipher session env retransmission frame).2.2 := by
  unfold sealData
  split_ifs
  · apply Seals.refl
  · exact (sealAndSend_seals session env retransmission frame).1

theorem sealAll_seals (session : UdpSession) (envs : ℕ → SendEnv) (retransmission : Bool)
    (frames : List Bytes) :
    Seals cipher session.noise
      (sealAll crypto cipher retransmission session envs frames).2.1.noise
      (sealAll crypto cipher retransmission session envs frames).2.2 := by
  induction frames generalizing session envs with
  | nil => apply Seals.refl
  | cons frame rest ih =>
      have first : Seals cipher session.noise
          (sealData crypto cipher session (envs 0) retransmission frame).2.1.noise _ :=
        sealData_seals session (envs 0) retransmission frame
      simp only [sealAll]
      split
      · rename_i resultEq
        rw [resultEq] at first
        exact first
      · rename_i session' emissions resultEq
        rw [resultEq] at first
        exact first.trans (ih session' (envs ∘ Nat.succ))

theorem flush_seals (session : UdpSession) (newEnvs dueEnvs : ℕ → SendEnv) (now : Instant) :
    Seals cipher session.noise (flush crypto cipher session newEnvs dueEnvs now).2.1.noise
      (flush crypto cipher session newEnvs dueEnvs now).2.2 := by
  have news : Seals cipher session.noise
      (sealAll crypto cipher false { session with arq := (session.arq.takeNewSends now).2 }
        newEnvs (session.arq.takeNewSends now).1).2.1.noise _ :=
    sealAll_seals { session with arq := (session.arq.takeNewSends now).2 } newEnvs false _
  simp only [flush]
  split
  · rename_i resultEq
    rw [resultEq] at news
    exact news
  · rename_i session' emissions resultEq
    rw [resultEq] at news
    split
    · exact news
    · rename_i due arq _
      exact news.trans (sealAll_seals { session' with arq } dueEnvs true due)

/-- What a data datagram changes beyond what opening it changes is sealed. -/
theorem handleIncoming_seals {session : UdpSession} {raw body : Bytes} {other : Option SocketAddr}
    (decoded : decodeIncoming session.viaRelay raw = .ok (.data, body, other)) (env : SendEnv) :
    Seals cipher (session.noise.openMessage cipher body).2
      (handleIncoming crypto cipher session env raw).2.1.noise
      (handleIncoming crypto cipher session env raw).2.2 := by
  rw [← noise_notePeer session other]
  simp only [handleIncoming, decoded]
  cases openMessageEq : (session.notePeer other).noise.openMessage cipher body with
  | mk result noise =>
      cases result with
      | error error => apply Seals.refl
      | ok frame =>
          simp only
          split
          · apply Seals.refl
          · apply Seals.refl
          · rename_i ack arq _
            exact (sealAndSend_seals { session.notePeer other with noise, arq } env false ack).1

theorem handleIncoming_arq {session : UdpSession} {raw body frame : Bytes}
    {other : Option SocketAddr}
    (decoded : decodeIncoming session.viaRelay raw = .ok (.data, body, other))
    (opened : (session.noise.openMessage cipher body).1 = .ok frame) (env : SendEnv) :
    (handleIncoming crypto cipher session env raw).2.1.arq = (session.arq.ingest frame).2 := by
  have arqEq : (session.notePeer other).arq = session.arq := by cases other <;> rfl
  have openMessageEq := Noise.openMessage_of_ok opened
  rw [← noise_notePeer session other] at openMessageEq
  simp only [handleIncoming, decoded, openMessageEq, arqEq]
  split
  · rename_i ingested
    rw [ingested]
  · rename_i ingested
    rw [ingested]
  · rename_i ingested
    rw [ingested, (sealAndSend_seals _ env false _).2]

/-- Whatever is not the arrival of an authenticated datagram opens nothing. -/
theorem perform_seals {session : UdpSession} {op : SessionOp}
    (allowed : session.Allowed cipher op) :
    Seals cipher session.noise (perform crypto cipher session op).1.noise
      (perform crypto cipher session op).2 := by
  cases op with
  | handleIncoming env raw =>
      simp only [perform]
      cases decoded : decodeIncoming session.viaRelay raw with
      | error error =>
          rw [handleIncoming_of_decode_error decoded]
          apply Seals.refl
      | ok result =>
          rcases result with ⟨packetType, body, other⟩
          rw [handleIncoming_of_unauthenticated decoded allowed, noise_notePeer]
          apply Seals.refl
  | flush newEnvs dueEnvs now => apply flush_seals
  | maybeCover env now random =>
      simp only [perform, maybeCover]
      split
      · apply Seals.refl
      · split_ifs <;> apply Seals.refl
  | enqueue message => apply Seals.refl
  | popDelivered => apply Seals.refl
  | debugDropData count => apply Seals.refl
  | setRetxTimeout retx => apply Seals.refl
  | setCover mode now => apply Seals.refl
  | setOutboundOnion hops dest => cases hops <;> apply Seals.refl

end UdpSession

end Sealing

/-! ### The counters of a direction -/

/--
A direction of an established pair: the keys agree, what is under way was sealed by
the sender, and the counters form a numbered stream.
-/
structure Link.Synced (cipher : NoiseCipher) (sender receiver : Noise) (link : Link) : Prop where
  key_eq : receiver.recvKey = sender.sendKey
  isSealed : ∀ emission ∈ link.inFlight, emission.Sealed cipher sender.sendKey
  valid : NumberedStream.Valid
    ⟨sender.sendCounter, receiver.recvCounter, link.inFlight.map Emission.counter, link.lost⟩

section Synced

variable {cipher : NoiseCipher} {sender receiver : Noise} {link : Link}

theorem Link.steps_push {key : Block 32} {first final : ℕ} {emissions : List Emission}
    (emits : Emits cipher key first emissions final) (link : Link) (expected : ℕ) :
    Relation.ReflTransGen NumberedStream.Step
      ⟨first, expected, link.inFlight.map Emission.counter, link.lost⟩
      ⟨final, expected, (link.push emissions).inFlight.map Emission.counter,
        (link.push emissions).lost⟩ := by
  induction emissions generalizing first link with
  | nil =>
      cases emits
      exact Relation.ReflTransGen.refl
  | cons emission rest ih =>
      rcases emits with ⟨counterEq, _, restEmits⟩
      apply Relation.ReflTransGen.head ?_ (ih restEmits (link.pushOne emission))
      subst counterEq
      simp only [Link.pushOne]
      cases emission.sent with
      | ok sent =>
          simp only [List.map_append, List.map_cons, List.map_nil]
          exact NumberedStream.Step.send
      | error error => exact NumberedStream.Step.skip

theorem Link.isSealed_push {key : Block 32} {first final : ℕ} {emissions : List Emission}
    (emits : Emits cipher key first emissions final) {link : Link}
    (isSealed : ∀ emission ∈ link.inFlight, emission.Sealed cipher key) :
    ∀ emission ∈ (link.push emissions).inFlight, emission.Sealed cipher key := by
  induction emissions generalizing first link with
  | nil => exact isSealed
  | cons emission rest ih =>
      rcases emits with ⟨_, emissionSealed, restEmits⟩
      apply ih restEmits
      intro other otherMem
      simp only [Link.pushOne] at otherMem
      cases sentEq : emission.sent with
      | ok sent =>
          simp only [sentEq, List.mem_append, List.mem_singleton] at otherMem
          rcases otherMem with old | rfl
          · exact isSealed other old
          · exact emissionSealed
      | error error =>
          simp only [sentEq] at otherMem
          exact isSealed other otherMem

namespace Link.Synced

theorem congr {sender' receiver' : Noise} (synced : Synced cipher sender receiver link)
    (sendKeyEq : sender'.sendKey = sender.sendKey)
    (sendCounterEq : sender'.sendCounter = sender.sendCounter)
    (recvKeyEq : receiver'.recvKey = receiver.recvKey)
    (recvCounterEq : receiver'.recvCounter = receiver.recvCounter) :
    Synced cipher sender' receiver' link where
  key_eq := by
    rw [recvKeyEq, sendKeyEq]
    exact synced.key_eq
  isSealed := by
    rw [sendKeyEq]
    exact synced.isSealed
  valid := by
    rw [sendCounterEq, recvCounterEq]
    exact synced.valid

theorem push {sender' : Noise} {emissions : List Emission}
    (synced : Synced cipher sender receiver link) (seals : Seals cipher sender sender' emissions) :
    Synced cipher sender' receiver (link.push emissions) where
  key_eq := by
    rw [seals.sendKey_eq]
    exact synced.key_eq
  isSealed := by
    rw [seals.sendKey_eq]
    exact Link.isSealed_push seals.emits synced.isSealed
  valid := synced.valid.steps (Link.steps_push seals.emits link receiver.recvCounter)

theorem drop {index : ℕ} {emission : Emission} (synced : Synced cipher sender receiver link)
    (present : link.inFlight[index]? = some emission) :
    Synced cipher sender receiver
      ⟨link.inFlight.eraseIdx index, link.lost ++ [emission.counter]⟩ where
  key_eq := synced.key_eq
  isSealed := by
    intro other otherMem
    exact synced.isSealed other (List.mem_of_mem_eraseIdx otherMem)
  valid := by
    rw [← List.eraseIdx_map]
    apply synced.valid.drop
    simp [present]

theorem openMessage_head {emission : Emission} {rest : List Emission}
    (synced : Synced cipher sender receiver link) (lawful : cipher.Lawful)
    (head : link.inFlight = emission :: rest) :
    receiver.openMessage cipher emission.body =
      if receiver.recvCounter = emission.counter then
        (.ok emission.plaintext, { receiver with recvCounter := receiver.recvCounter + 1 })
      else (.error .crypto, receiver) := by
  have emissionMem : emission ∈ link.inFlight := by simp [head]
  have emissionSealed := synced.isSealed emission emissionMem
  have bounds := synced.valid.inFlight_bounds emission.counter (List.mem_map_of_mem emissionMem)
  rw [emissionSealed.body_eq, ← synced.key_eq]
  exact Noise.openMessage_encrypt lawful receiver emissionSealed.small
    emissionSealed.counter_lt bounds.1

/-- What arrives is opened exactly if nothing sealed before it was lost. -/
theorem opened_iff {emission : Emission} {rest : List Emission}
    (synced : Synced cipher sender receiver link) (lawful : cipher.Lawful)
    (head : link.inFlight = emission :: rest) :
    (receiver.openMessage cipher emission.body).1 = .ok emission.plaintext ↔
      ∀ counter ∈ link.lost, emission.counter < counter := by
  have counters : link.inFlight.map Emission.counter =
      emission.counter :: rest.map Emission.counter := by simp [head]
  rw [← synced.valid.expected_eq_iff counters, synced.openMessage_head lawful head]
  split_ifs with current
  · simp [current]
  · simp [current]

theorem deliver {emission : Emission} {rest : List Emission}
    (synced : Synced cipher sender receiver link) (lawful : cipher.Lawful)
    (head : link.inFlight = emission :: rest) :
    Synced cipher sender (receiver.openMessage cipher emission.body).2
      { link with inFlight := rest } := by
  have restSealed : ∀ other ∈ rest, other.Sealed cipher sender.sendKey := by
    intro other otherMem
    apply synced.isSealed other
    simp [head, otherMem]
  have counters : link.inFlight.map Emission.counter =
      emission.counter :: rest.map Emission.counter := by simp [head]
  rw [synced.openMessage_head lawful head]
  split_ifs with current
  · rw [← current] at counters
    exact ⟨synced.key_eq, restSealed, synced.valid.take counters⟩
  · exact ⟨synced.key_eq, restSealed, synced.valid.reject counters current⟩

end Link.Synced

end Synced

/-! ### Runs of the pair -/

namespace Pair

/-- Both directions have agreeing keys and counters, and nothing is under way. -/
structure Established (pair : Pair) : Prop where
  key_eq : ∀ side, (pair.session side.peer).noise.recvKey = (pair.session side).noise.sendKey
  counter_eq : ∀ side,
    (pair.session side.peer).noise.recvCounter = (pair.session side).noise.sendCounter
  link_eq : ∀ side, pair.link side = ⟨[], []⟩

def Synced (cipher : NoiseCipher) (pair : Pair) : Prop :=
  ∀ side, Link.Synced cipher (pair.session side).noise (pair.session side.peer).noise
    (pair.link side)

section Runs

variable {crypto : OnionCrypto} {cipher : NoiseCipher} {pair : Pair}

theorem Established.synced (established : pair.Established) : pair.Synced cipher := by
  intro side
  rw [established.link_eq side]
  refine ⟨established.key_eq side, by simp, ?_⟩
  rw [established.counter_eq side]
  apply NumberedStream.Valid.fresh

theorem Synced.perform {side : Side} {op : SessionOp} (synced : pair.Synced cipher)
    (allowed : (pair.session side).Allowed cipher op) :
    (pair.step crypto cipher (.perform side op)).Synced cipher := by
  have seals : Seals cipher (pair.session side).noise
      (UdpSession.perform crypto cipher (pair.session side) op).1.noise _ :=
    UdpSession.perform_seals allowed
  simp only [step, if_pos allowed]
  intro target
  rcases side.eq_or_eq_peer target with rfl | rfl
  · simp only [Function.update_self, Function.update_of_ne (Side.peer_ne _)]
    exact (synced target).push seals
  · simp only [Function.update_self, Function.update_of_ne (Side.peer_ne _), Side.peer_peer]
    have reversed := synced side.peer
    rw [Side.peer_peer] at reversed
    exact reversed.congr rfl rfl seals.recvKey_eq seals.recvCounter_eq

theorem Synced.drop {side : Side} {index : ℕ} (synced : pair.Synced cipher) :
    (pair.step crypto cipher (.drop side index)).Synced cipher := by
  simp only [step]
  split
  · exact synced
  · rename_i emission present
    intro target
    rcases side.eq_or_eq_peer target with rfl | rfl
    · simp only [Function.update_self]
      exact (synced target).drop present
    · simp only [Function.update_of_ne (Side.peer_ne _)]
      exact synced side.peer

theorem Synced.deliver {side : Side} {env : SendEnv} {raw : Bytes} (synced : pair.Synced cipher)
    (lawful : cipher.Lawful) :
    (pair.step crypto cipher (.deliver side env raw)).Synced cipher := by
  simp only [step]
  split
  · exact synced
  · rename_i emission rest head
    split_ifs with carries
    · rcases carries with ⟨other, decoded⟩
      have seals : Seals cipher _
          (UdpSession.handleIncoming crypto cipher (pair.session side.peer) env raw).2.1.noise _ :=
        UdpSession.handleIncoming_seals decoded env
      intro target
      rcases side.eq_or_eq_peer target with rfl | rfl
      · simp only [Function.update_self, Function.update_of_ne (Side.peer_ne _).symm]
        exact ((synced target).deliver lawful head).congr rfl rfl seals.recvKey_eq
          seals.recvCounter_eq
      · simp only [Function.update_self, Side.peer_peer,
          Function.update_of_ne (Side.peer_ne side).symm]
        have reversed := synced side.peer
        rw [Side.peer_peer] at reversed
        have sending :=
          Noise.openMessage_sending cipher (pair.session side.peer).noise emission.body
        exact (reversed.congr sending.1 sending.2 rfl rfl).push seals
    · exact synced

theorem Synced.step {event : PairEvent} (synced : pair.Synced cipher) (lawful : cipher.Lawful) :
    (pair.step crypto cipher event).Synced cipher := by
  cases event with
  | perform side op =>
      by_cases allowed : (pair.session side).Allowed cipher op
      · exact synced.perform allowed
      · simp only [Pair.step, if_neg allowed]
        exact synced
  | drop side index => exact synced.drop
  | deliver side env raw => exact synced.deliver lawful

theorem Synced.steps {events : List PairEvent} (synced : pair.Synced cipher)
    (lawful : cipher.Lawful) : (pair.steps crypto cipher events).Synced cipher := by
  induction events generalizing pair with
  | nil => exact synced
  | cons event rest ih => exact ih (synced.step lawful)

end Runs

/-- A property of every delivery of a retransmission in a run, in the state before it. -/
def OnRetransmission (crypto : OnionCrypto) (cipher : NoiseCipher)
    (property : Pair → Side → SendEnv → Bytes → Emission → Prop) (pair : Pair)
    (events : List PairEvent) : Prop :=
  ∀ before side env raw emission rest, before ++ [.deliver side env raw] <+: events →
    ((pair.steps crypto cipher before).link side).inFlight = emission :: rest →
      emission.retransmission = true →
        Carries ((pair.steps crypto cipher before).session side.peer) raw emission.body →
          property (pair.steps crypto cipher before) side env raw emission

/-- The peer opens the datagram and passes the frame to its ARQ endpoint. -/
structure Recovers (crypto : OnionCrypto) (cipher : NoiseCipher) (pair : Pair) (side : Side)
    (env : SendEnv) (raw : Bytes) (emission : Emission) : Prop where
  opened : ((pair.session side.peer).noise.openMessage cipher emission.body).1 =
    .ok emission.plaintext
  ingested : (UdpSession.handleIncoming crypto cipher (pair.session side.peer) env raw).2.1.arq =
    ((pair.session side.peer).arq.ingest emission.plaintext).2

/-- No datagram sealed earlier in this direction was lost. -/
def NothingLostBefore (pair : Pair) (side : Side) (emission : Emission) : Prop :=
  ∀ counter ∈ (pair.link side).lost, emission.counter < counter

theorem Synced.recovers_iff {crypto : OnionCrypto} {cipher : NoiseCipher} {pair : Pair}
    {side : Side} {env : SendEnv} {raw : Bytes} {emission : Emission} {rest : List Emission}
    (synced : pair.Synced cipher) (lawful : cipher.Lawful)
    (head : (pair.link side).inFlight = emission :: rest)
    (carries : Carries (pair.session side.peer) raw emission.body) :
    Recovers crypto cipher pair side env raw emission ↔ pair.NothingLostBefore side emission := by
  have openedIff := (synced side).opened_iff lawful head
  constructor
  · intro recovers
    exact openedIff.mp recovers.opened
  · intro nothingLost
    rcases carries with ⟨other, decoded⟩
    have opened := openedIff.mpr nothingLost
    exact ⟨opened, UdpSession.handleIncoming_arq decoded opened env⟩

/--
In a run of an established pair over a network which keeps the order and may drop
any datagram, all retransmissions which arrive are opened and ingested exactly if
none of them arrives after a loss in its own direction.
-/
theorem retransmissions_recover_iff (crypto : OnionCrypto) {cipher : NoiseCipher}
    (lawful : cipher.Lawful) {pair : Pair} (established : pair.Established)
    (events : List PairEvent) :
    OnRetransmission crypto cipher (Recovers crypto cipher) pair events ↔
      OnRetransmission crypto cipher
        (fun current side _ _ emission => current.NothingLostBefore side emission) pair events := by
  have recoversIff : ∀ before side env raw emission rest,
      ((pair.steps crypto cipher before).link side).inFlight = emission :: rest →
        Carries ((pair.steps crypto cipher before).session side.peer) raw emission.body →
          (Recovers crypto cipher (pair.steps crypto cipher before) side env raw emission ↔
            (pair.steps crypto cipher before).NothingLostBefore side emission) := by
    intro before side env raw emission rest head carries
    exact (established.synced.steps lawful).recovers_iff lawful head carries
  constructor
  · intro recover before side env raw emission rest within head again carries
    apply (recoversIff before side env raw emission rest head carries).mp
    exact recover before side env raw emission rest within head again carries
  · intro nothingLost before side env raw emission rest within head again carries
    apply (recoversIff before side env raw emission rest head carries).mpr
    exact nothingLost before side env raw emission rest within head again carries

def samplePair : Pair where
  session
    | .left => directSession 1 2 9001
    | .right => directSession 2 1 9000
  link _ := ⟨[], []⟩
where
  directSession (sendKey recvKey : UInt8) (port : UInt16) : UdpSession :=
    { nextHop := loopback port
      peer := loopback port
      viaRelay := false
      onion := none
      noise := ⟨List.Vector.replicate 32 sendKey, List.Vector.replicate 32 recvKey, 0, 0⟩
      arq := Arq.new
      dropData := 0
      cover := .off
      lastCover := 0 }

theorem samplePair_established : samplePair.Established where
  key_eq := by
    intro side
    cases side <;> rfl
  counter_eq := by
    intro side
    cases side <;> rfl
  link_eq := by
    intro side
    rfl

def sampleFlush (now : Instant) : PairEvent :=
  .perform .left (.flush (fun _ => UdpSession.sampleEnv) (fun _ => UdpSession.sampleEnv) now)

/-- The oldest datagram under way from the left arrives as it was sent. -/
def arrival (pair : Pair) : PairEvent :=
  match (pair.link .left).inFlight with
  | { sent := .ok (_, wire), .. } :: _ => .deliver .left UdpSession.sampleEnv wire
  | _ => .deliver .left UdpSession.sampleEnv []

/-- A message is sent; when it has arrived, or was dropped, it is sent again after the timeout. -/
def sentAgain (between : Pair → PairEvent) : List PairEvent :=
  [.perform .left (.enqueue [7]), sampleFlush 0,
    between (samplePair.steps Onion.sampleCrypto tagCipher
      [.perform .left (.enqueue [7]), sampleFlush 0]),
    sampleFlush 300000000]

theorem retransmissions_recover_iff_delivered :
    OnRetransmission Onion.sampleCrypto tagCipher (Recovers Onion.sampleCrypto tagCipher)
      samplePair (sentAgain arrival ++
        [arrival (samplePair.steps Onion.sampleCrypto tagCipher (sentAgain arrival))]) := by
  apply (retransmissions_recover_iff _ tagCipher_lawful samplePair_established _).mpr
  have nothingLost : ∀ count ≤ 4,
      ((samplePair.steps Onion.sampleCrypto tagCipher
        ((sentAgain arrival).take count)).link .left).lost = [] ∧
      ((samplePair.steps Onion.sampleCrypto tagCipher
        ((sentAgain arrival).take count)).link .right).lost = [] := by
    decide +kernel
  intro before side env raw emission rest within _ _ _ counter counterMem
  have lengthLe : before.length ≤ 4 := by
    have := within.length_le
    simp [sentAgain] at this
    omega
  have beforeEq : before = (sentAgain arrival).take before.length := by
    apply List.prefix_iff_eq_take.mp
    apply List.prefix_of_prefix_length_le ((List.prefix_append _ _).trans within)
    · apply List.prefix_append
    · simp only [sentAgain, List.length_cons, List.length_nil]
      omega
  rw [beforeEq] at counterMem
  cases side with
  | left => simp [(nothingLost _ lengthLe).1] at counterMem
  | right => simp [(nothingLost _ lengthLe).2] at counterMem

theorem retransmission_discarded_after_drop :
    ¬OnRetransmission Onion.sampleCrypto tagCipher (Recovers Onion.sampleCrypto tagCipher)
      samplePair (sentAgain (fun _ => .drop .left 0) ++
        [arrival (samplePair.steps Onion.sampleCrypto tagCipher
          (sentAgain fun _ => .drop .left 0))]) := by
  intro recover
  have recovers := recover (sentAgain fun _ => .drop .left 0) .left UdpSession.sampleEnv _ _ _
    List.prefix_rfl rfl rfl (by decide +kernel)
  exact absurd recovers.opened (by decide +kernel)

end Pair

end Ppose

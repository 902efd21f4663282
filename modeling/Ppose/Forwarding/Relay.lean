import Ppose.Forwarding.Service
import Ppose.Session.Authentication
import Ppose.Session.Handshake

/-!
# The relay

A relay forwards datagrams between two endpoints (`relay.rs`).  A forward datagram
names the destination in front of an inner datagram; the relay puts the address of
the sender in its place.  So the inner datagram is left as it is, the length does
not change, and the receiver learns the address to which it can reply through the
same relay.
-/

namespace Ppose

structure Relay where
  replay : ReplayCache

namespace Relay

def bind : Relay where
  replay := .new

variable (hash : Bytes → Block 32)

/-- Process one incoming datagram. -/
def step (relay : Relay) (env : StepEnv) (received : Received) : Stepped Relay :=
  .receiving received relay fun raw source =>
    match decodeOuter raw with
    | .error _ => .ignored relay
    | .ok (packetType, _, body) =>
        if packetType ≠ .forward then .ignored relay
        else
          match decodeForwardBody body with
          | .error _ => .ignored relay
          | .ok (dest, inner) =>
              match relay.replay.accept hash env.order inner env.now with
              | (false, replay) => .ignored { relay with replay }
              | (true, replay) =>
                  match encodeForwardBody source inner with
                  | .error _ => .ignored { relay with replay }
                  | .ok outBody =>
                      .transmit env.socketOk dest (encodeOuter .forward 0 ++ outBody)
                        { relay with replay }

end Relay

/-- A forward datagram which carries an inner datagram under an address. -/
def forwardDatagram (ip : Block 4) (port : UInt16) (inner : Bytes) : Bytes :=
  encodeOuter .forward 0 ++ (addressBytes ip port ++ inner)

theorem length_forwardDatagram (ip : Block 4) (port : UInt16) (inner : Bytes) :
    (forwardDatagram ip port inner).length =
      outerHeaderLen + forwardBodyOverhead + inner.length := by
  simp only [forwardDatagram, List.length_append, length_addressBytes, encodeOuter,
    List.length_cons, List.length_nil, outerHeaderLen, forwardBodyOverhead]
  omega

/-- The address and the inner datagram which a forward datagram carries. -/
def carried (datagram : Bytes) : Option (SocketAddr × Bytes) :=
  match decodeOuter datagram with
  | .ok (.forward, _, body) => (decodeForwardBody body).toOption
  | _ => none

theorem carried_forwardDatagram (ip : Block 4) (port : UInt16) (inner : Bytes) :
    carried (forwardDatagram ip port inner) = some (.v4 ip port, inner) := by
  simp [carried, forwardDatagram, decodeForwardBody, Except.toOption]

/-! ### The relay forwards -/

namespace Relay

variable {hash : Bytes → Block 32} {relay : Relay} {env : StepEnv}

/--
A relay sends on every forward datagram of at most datagram size that it receives
from an IPv4 address and that its replay cache accepts.
-/
theorem step_of_decoded {raw body inner : Bytes} {flags : UInt8} {dest : SocketAddr}
    (fits : raw.length ≤ maxDatagram) (decoded : decodeOuter raw = .ok (.forward, flags, body))
    (split : decodeForwardBody body = .ok (dest, inner))
    (fresh : (relay.replay.accept hash env.order inner env.now).1 = true) (ip : Block 4)
    (port : UInt16) :
    relay.step hash env (.datagram raw (.v4 ip port)) =
      .transmit env.socketOk dest (forwardDatagram ip port inner)
        { relay with replay := (relay.replay.accept hash env.order inner env.now).2 } := by
  have rawLength := length_of_decodeOuter decoded
  have bodyLength := length_of_decodeForwardBody split
  have encoded := encodeForwardBody_of_le ip port (show _ + inner.length ≤ _ by omega)
  cases accepted : relay.replay.accept hash env.order inner env.now with
  | mk isFresh replay =>
      rw [accepted] at fresh
      simp only at fresh
      subst fresh
      simp only [step, Stepped.receiving_datagram fits, decoded, split, accepted, encoded]
      rfl

end Relay

namespace UdpSession

theorem wireOf_of_viaRelay {session : UdpSession} (viaRelay : session.viaRelay = true)
    (noOnion : session.onion = none) {ip : Block 4} {port : UInt16}
    (peerEq : session.peer = .v4 ip port) (crypto : OnionCrypto) (draws : Onion.Draws)
    (packetType : PacketType) {body : Bytes} (fits : body.length ≤ 1024 + 9 + 16) :
    session.wireOf crypto draws packetType body =
      .ok (forwardDatagram ip port (encodeOuter packetType 0 ++ body)) := by
  have headerLength : (encodeOuter packetType 0 ++ body).length = 8 + body.length := by
    simp only [encodeOuter, List.length_append, List.length_cons, List.length_nil]
  have innerEq : encodeDatagram packetType body = .ok (encodeOuter packetType 0 ++ body) := by
    apply encodeDatagram_of_le
    simp only [outerHeaderLen, maxDatagram]
    omega
  have bodyEq : encodeForwardBody session.peer (encodeOuter packetType 0 ++ body) =
      .ok (addressBytes ip port ++ (encodeOuter packetType 0 ++ body)) := by
    rw [peerEq]
    apply encodeForwardBody_of_le
    simp only [outerHeaderLen, forwardBodyOverhead, maxDatagram]
    omega
  have wireEq : encodeDatagram .forward
      (addressBytes ip port ++ (encodeOuter packetType 0 ++ body)) =
        .ok (forwardDatagram ip port (encodeOuter packetType 0 ++ body)) := by
    apply encodeDatagram_of_le
    rw [List.length_append, length_addressBytes]
    simp only [outerHeaderLen, maxDatagram]
    omega
  simp only [wireOf, innerEq, bodyEq, wireEq, noOnion, viaRelay, if_true, bind, Except.bind]

theorem decodeIncoming_forwardDatagram (ip : Block 4) (port : UInt16) (packetType : PacketType)
    (body : Bytes) :
    decodeIncoming true (forwardDatagram ip port (encodeOuter packetType 0 ++ body)) =
      .ok (packetType, body, some (.v4 ip port)) := by
  simp [decodeIncoming, forwardDatagram, decodeForwardBody]

end UdpSession

/-! ### Both directions -/

/-- The relay does not take the body, as the inner datagram of some type, for a replay. -/
def Relay.Accepts (hash : Bytes → Block 32) (relay : Relay) (env : StepEnv)
    (packetType : PacketType) (body : Bytes) : Prop :=
  ∀ inner, encodeDatagram packetType body = .ok inner →
    (relay.replay.accept hash env.order inner env.now).1 = true

/--
A body crosses a relay: the sender's datagram fits, the relay sends on exactly one
datagram, which has the same length and the same inner datagram, and the receiver reads
from it the type, the body and the address of the sender.
-/
def Crosses (crypto : OnionCrypto) (hash : Bytes → Block 32) (relay : Relay) (env : StepEnv)
    (sender : UdpSession) (source dest : SocketAddr) (draws : Onion.Draws)
    (packetType : PacketType) (body forwarded : Bytes) : Prop :=
  ∃ inner wire,
    encodeDatagram packetType body = .ok inner ∧
    UdpSession.sendInner crypto sender { draws, socketOk := true } packetType body =
      .ok (sender.nextHop, wire) ∧
    wire.length ≤ maxDatagram ∧
    (relay.step hash env (.datagram wire source)).sent = some (dest, forwarded) ∧
    forwarded.length = wire.length ∧
    carried wire = some (dest, inner) ∧
    carried forwarded = some (source, inner) ∧
    UdpSession.decodeIncoming true forwarded = .ok (packetType, body, some source)

/-- Whatever a session sends crosses the relay, unless the relay takes it for a replay. -/
def Reaches (crypto : OnionCrypto) (hash : Bytes → Block 32) (sender : UdpSession)
    (source dest : SocketAddr) : Prop :=
  ∀ (relay : Relay) (env : StepEnv) (draws : Onion.Draws) (packetType : PacketType) (body : Bytes),
    env.socketOk = true → body.length ≤ 1024 + 9 + 16 → relay.Accepts hash env packetType body →
      ∃ forwarded, Crosses crypto hash relay env sender source dest draws packetType body forwarded

variable {crypto : OnionCrypto} {hash : Bytes → Block 32}

theorem reaches_of_viaRelay {sender : UdpSession} (viaRelay : sender.viaRelay = true)
    (noOnion : sender.onion = none) {ip destIp : Block 4} {port destPort : UInt16}
    (peerEq : sender.peer = .v4 destIp destPort) :
    Reaches crypto hash sender (.v4 ip port) (.v4 destIp destPort) := by
  intro relay env draws packetType body socketOk small accepts
  have innerEq : encodeDatagram packetType body = .ok (encodeOuter packetType 0 ++ body) := by
    apply encodeDatagram_of_le
    simp only [outerHeaderLen, maxDatagram]
    omega
  have wireEq := UdpSession.wireOf_of_viaRelay viaRelay noOnion peerEq crypto draws packetType small
  have wireLength := length_forwardDatagram destIp destPort (encodeOuter packetType 0 ++ body)
  have fits : (forwardDatagram destIp destPort (encodeOuter packetType 0 ++ body)).length ≤
      maxDatagram := by
    rw [wireLength]
    simp only [encodeOuter, List.length_append, List.length_cons, List.length_nil, outerHeaderLen,
      forwardBodyOverhead, maxDatagram]
    omega
  have stepEq := Relay.step_of_decoded fits (decodeOuter_encodeOuter _ _ _)
    (decodeForwardBody_of_encodeForwardBody (encodeForwardBody_of_le _ _ (wireLength ▸ fits)))
    (accepts _ innerEq) ip port
  refine ⟨forwardDatagram ip port (encodeOuter packetType 0 ++ body), _, _, innerEq, ?_, fits, ?_,
    ?_, carried_forwardDatagram _ _ _, carried_forwardDatagram _ _ _, ?_⟩
  · simp only [UdpSession.sendInner, wireEq, if_true]
  · rw [stepEq, Stepped.transmit, socketOk]
    rfl
  · rw [wireLength, length_forwardDatagram]
  · apply UdpSession.decodeIncoming_forwardDatagram

section Receiving

variable {relay : Relay} {env : StepEnv} {sender : UdpSession} {source dest : SocketAddr}
  {draws : Onion.Draws} {packetType : PacketType} {body forwarded : Bytes}

/-- In the handshake, a receiver reads what crossed and turns to the sender. -/
theorem Crosses.recvInner {State : Type}
    (crosses : Crosses crypto hash relay env sender source dest draws packetType body forwarded)
    {receiver : Opening State} (viaRelay : receiver.viaRelay = true) :
    receiver.recvInner (some (forwarded, receiver.nextHop)) =
      .ok (packetType, body, { receiver with peer := source }) := by
  rcases crosses with ⟨_, _, _, _, wireFits, _, lengthEq, _, _, decoded⟩
  simp only [Opening.recvInner, recvRaw, List.take_of_length_le (lengthEq.trans_le wireFits),
    ne_eq, not_true_eq_false, if_false, viaRelay, decoded]

/-- In transport mode, a receiver turns to the sender, whatever it makes of the body. -/
theorem Crosses.routing
    (crosses : Crosses crypto hash relay env sender source dest draws packetType body forwarded)
    (cipher : NoiseCipher) {receiver : UdpSession} (viaRelay : receiver.viaRelay = true)
    (receiverEnv : SendEnv) :
    (UdpSession.handleIncoming crypto cipher receiver receiverEnv forwarded).2.1.routing =
      ({ receiver with peer := source } : UdpSession).routing := by
  rcases crosses with ⟨_, _, _, _, _, _, _, _, _, decoded⟩
  rw [← viaRelay] at decoded
  exact UdpSession.routing_handleIncoming decoded receiverEnv

end Receiving

/--
The relay path is transparent in both directions.  A body which the first endpoint sends
crosses the relay.  Once the second endpoint has received it, during the handshake or after
it, whatever that endpoint sends crosses the relay to the first one, in any later state of
the relay.  And no forward datagram of at most datagram size from an IPv4 address is dropped
for its size.
-/
theorem relay_transparent (State : Type) (crypto : OnionCrypto) (cipher : NoiseCipher)
    (hash : Bytes → Block 32) :
    (∀ (relay : Relay) (env : StepEnv) (alice : UdpSession) (aliceIp bobIp : Block 4)
      (alicePort bobPort : UInt16) (draws : Onion.Draws) (packetType : PacketType) (body : Bytes),
      env.socketOk = true → alice.viaRelay = true → alice.onion = none →
      alice.peer = .v4 bobIp bobPort → body.length ≤ 1024 + 9 + 16 →
      relay.Accepts hash env packetType body →
      ∃ forwarded,
        Crosses crypto hash relay env alice (.v4 aliceIp alicePort) (.v4 bobIp bobPort) draws
          packetType body forwarded ∧
        (∀ bob : Opening State, bob.viaRelay = true → bob.onion = none →
          ∃ after, bob.recvInner (some (forwarded, bob.nextHop)) = .ok (packetType, body, after) ∧
            Reaches crypto hash (after.established Opening.unset) (.v4 bobIp bobPort)
              (.v4 aliceIp alicePort)) ∧
        ∀ (bob : UdpSession) (bobEnv : SendEnv), bob.viaRelay = true → bob.onion = none →
          Reaches crypto hash (UdpSession.handleIncoming crypto cipher bob bobEnv forwarded).2.1
            (.v4 bobIp bobPort) (.v4 aliceIp alicePort)) ∧
    ∀ (relay : Relay) (env : StepEnv) (raw forwardBody inner : Bytes) (flags : UInt8)
      (dest : SocketAddr) (ip : Block 4) (port : UInt16),
      env.socketOk = true → raw.length ≤ maxDatagram →
      decodeOuter raw = .ok (.forward, flags, forwardBody) →
      decodeForwardBody forwardBody = .ok (dest, inner) →
      (relay.replay.accept hash env.order inner env.now).1 = true →
      ∃ datagram,
        (relay.step hash env (.datagram raw (.v4 ip port))).sent = some (dest, datagram) ∧
        datagram.length = raw.length ∧ carried datagram = some (.v4 ip port, inner) := by
  constructor
  · intro relay env alice aliceIp bobIp alicePort bobPort draws packetType body socketOk viaRelay
      noOnion peerEq small accepts
    rcases reaches_of_viaRelay viaRelay noOnion peerEq relay env draws packetType body socketOk
      small accepts with ⟨forwarded, crosses⟩
    refine ⟨forwarded, crosses, ?_, ?_⟩
    · intro bob bobRelayed bobNoOnion
      exact ⟨_, crosses.recvInner bobRelayed, reaches_of_viaRelay bobRelayed bobNoOnion rfl⟩
    · intro bob bobEnv bobRelayed bobNoOnion
      have routed := crosses.routing cipher bobRelayed bobEnv
      simp only [UdpSession.routing, Prod.mk.injEq] at routed
      rcases routed with ⟨_, peerAfter, relayAfter, onionAfter⟩
      exact reaches_of_viaRelay (relayAfter.trans bobRelayed) (onionAfter.trans bobNoOnion)
        peerAfter
  · intro relay env raw forwardBody inner flags dest ip port socketOk fits decoded split accepted
    refine ⟨forwardDatagram ip port inner, ?_, ?_, carried_forwardDatagram _ _ _⟩
    · rw [Relay.step_of_decoded fits decoded split accepted ip port, Stepped.transmit, socketOk]
      rfl
    · rw [length_forwardDatagram, length_of_decodeOuter decoded,
        length_of_decodeForwardBody split, Nat.add_assoc]

/-- The relay once it has forwarded the body `[7]`. -/
def usedRelay : Relay where
  replay := (Relay.bind.replay.accept (blockAt 32 0) quietEnv.order (encodeOuter .data 0 ++ [7])
    quietEnv.now).2

/-- A receiver which has another peer so far. -/
def sampleReceiver : UdpSession := { UdpSession.relayedSession with peer := loopback 7 }

theorem relay_transparent_sample :
    ∃ forwarded,
      Crosses Onion.sampleCrypto (blockAt 32 0) Relay.bind quietEnv UdpSession.relayedSession
        (loopback 9002) (loopback 9001) Onion.sampleDraws .data [7] forwarded ∧
      ∃ reply,
        Crosses Onion.sampleCrypto (blockAt 32 0) usedRelay quietEnv
          (UdpSession.handleIncoming Onion.sampleCrypto tagCipher sampleReceiver
            UdpSession.sampleEnv forwarded).2.1
          (loopback 9001) (loopback 9002) Onion.sampleDraws .data [8] reply := by
  have accepts : Relay.bind.Accepts (blockAt 32 0) quietEnv .data [7] := by
    intro inner encoded
    cases encoded
    rfl
  have acceptsReply : usedRelay.Accepts (blockAt 32 0) quietEnv .data [8] := by
    intro inner encoded
    cases encoded
    decide +kernel
  rcases (relay_transparent ℕ Onion.sampleCrypto tagCipher (blockAt 32 0)).1 Relay.bind quietEnv
    UdpSession.relayedSession _ _ 9002 9001 Onion.sampleDraws .data [7] rfl rfl rfl rfl (by decide)
    accepts with ⟨forwarded, crosses, _, replies⟩
  exact ⟨forwarded, crosses, replies sampleReceiver UdpSession.sampleEnv rfl rfl usedRelay quietEnv
    Onion.sampleDraws .data [8] rfl (by decide) acceptsReply⟩

end Ppose

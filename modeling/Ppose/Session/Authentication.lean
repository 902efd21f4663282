import Ppose.Session.Session

/-!
# Datagrams which are not authenticated

`handleIncoming` takes the forwarded address of a datagram over as its peer before
it has opened the datagram.  On a path through a relay, a datagram which nobody
authenticated can therefore change where the session sends.  Everything else is
left alone, and so is the peer if the datagram names the current one.
-/

namespace Ppose

namespace UdpSession

variable (crypto : OnionCrypto) (cipher : NoiseCipher)

/-- The datagram does not decode, is not a data datagram, or is rejected by `open`. -/
def Unauthenticated (session : UdpSession) (raw : Bytes) : Prop :=
  match decodeIncoming session.viaRelay raw with
  | .error _ => True
  | .ok (packetType, body, _) =>
      packetType ≠ .data ∨ ∃ error, (session.noise.openMessage cipher body).1 = .error error

/-- The state which decides what the session sends and where. -/
structure Unaltered (before after : UdpSession) : Prop where
  noise : after.noise = before.noise
  arq : after.arq = before.arq
  peer : after.peer = before.peer
  nextHop : after.nextHop = before.nextHop
  viaRelay : after.viaRelay = before.viaRelay
  onion : after.onion = before.onion

/-- Where a session sends, and how. -/
def routing (session : UdpSession) :
    SocketAddr × SocketAddr × Bool × Option (List Onion.OnionHop) :=
  (session.nextHop, session.peer, session.viaRelay, session.onion)

/-- If the datagram decodes to a forwarded address, it is that of the current peer. -/
def NamesPeer (session : UdpSession) (raw : Bytes) : Prop :=
  ∀ packetType body other,
    decodeIncoming session.viaRelay raw = .ok (packetType, body, some other) →
      other = session.peer

variable {crypto cipher} {session : UdpSession} {raw : Bytes}

theorem handleIncoming_of_decode_error {error : SessionError}
    (failed : decodeIncoming session.viaRelay raw = .error error) (env : SendEnv) :
    (handleIncoming crypto cipher session env raw).2 = (session, []) := by
  simp only [handleIncoming, failed]

@[simp]
theorem noise_notePeer (session : UdpSession) (other : Option SocketAddr) :
    (session.notePeer other).noise = session.noise := by
  cases other <;> rfl

theorem sendInner_congr {other : UdpSession} (same : other.routing = session.routing)
    (env : SendEnv) (packetType : PacketType) (body : Bytes) :
    sendInner crypto other env packetType body = sendInner crypto session env packetType body := by
  simp only [routing, Prod.mk.injEq] at same
  simp only [sendInner, wireOf, same]

/-- Whatever becomes of a datagram which decodes, the session sends to the address it carries. -/
theorem routing_handleIncoming {packetType : PacketType} {body : Bytes} {other : Option SocketAddr}
    (decoded : decodeIncoming session.viaRelay raw = .ok (packetType, body, other))
    (env : SendEnv) :
    (handleIncoming crypto cipher session env raw).2.1.routing =
      (session.notePeer other).routing := by
  simp only [handleIncoming, decoded]
  cases packetType with
  | data =>
      simp only
      split
      · rfl
      · split
        · rfl
        · rfl
        · simp only [sealAndSend]
          split <;> rfl
  | handshake => rfl
  | ack => rfl
  | forward => rfl
  | onion => rfl
  | rendezvous => rfl

/-- An unauthenticated datagram which decodes changes the peer at most, and nothing is sealed. -/
theorem handleIncoming_of_unauthenticated {packetType : PacketType} {body : Bytes}
    {other : Option SocketAddr}
    (decoded : decodeIncoming session.viaRelay raw = .ok (packetType, body, other))
    (unauthenticated : session.Unauthenticated cipher raw) (env : SendEnv) :
    (handleIncoming crypto cipher session env raw).2 = (session.notePeer other, []) := by
  simp only [Unauthenticated, decoded] at unauthenticated
  cases packetType with
  | data =>
      rcases unauthenticated with notData | ⟨error, rejected⟩
      · exact absurd rfl notData
      · have opened := Noise.openMessage_of_error rejected
        rw [← noise_notePeer session other] at opened
        simp only [handleIncoming, decoded, opened]
  | handshake => simp only [handleIncoming, decoded]
  | ack => simp only [handleIncoming, decoded]
  | forward => simp only [handleIncoming, decoded]
  | onion => simp only [handleIncoming, decoded]
  | rendezvous => simp only [handleIncoming, decoded]

theorem unaltered_notePeer_iff (other : Option SocketAddr) :
    Unaltered session (session.notePeer other) ↔
      ∀ addr, other = some addr → addr = session.peer := by
  cases other with
  | none =>
      simp only [notePeer, reduceCtorEq, false_implies, implies_true, iff_true]
      exact ⟨rfl, rfl, rfl, rfl, rfl, rfl⟩
  | some addr =>
      simp only [Option.some.injEq, forall_eq']
      constructor
      · intro unaltered
        exact unaltered.peer
      · intro same
        exact ⟨rfl, rfl, same, rfl, rfl, rfl⟩

/-- An unauthenticated datagram leaves the session alone exactly if it names the peer. -/
theorem handleIncoming_unaltered_iff (unauthenticated : session.Unauthenticated cipher raw)
    (env : SendEnv) :
    Unaltered session (handleIncoming crypto cipher session env raw).2.1 ↔
      session.NamesPeer raw := by
  cases decoded : decodeIncoming session.viaRelay raw with
  | error error =>
      rw [handleIncoming_of_decode_error decoded]
      simp only [NamesPeer, decoded, reduceCtorEq, false_implies, implies_true, iff_true]
      exact ⟨rfl, rfl, rfl, rfl, rfl, rfl⟩
  | ok result =>
      rcases result with ⟨packetType, body, other⟩
      rw [handleIncoming_of_unauthenticated decoded unauthenticated, unaltered_notePeer_iff]
      simp only [NamesPeer, decoded, Except.ok.injEq, Prod.mk.injEq]
      constructor
      · rintro same packetType' body' addr ⟨_, _, otherEq⟩
        exact same addr otherEq
      · intro same addr otherEq
        exact same packetType body addr ⟨rfl, rfl, otherEq⟩

/--
Whatever a session has done before, an unauthenticated datagram leaves its Noise
state, ARQ state, addresses and path as they were.
-/
def Inert (crypto : OnionCrypto) (cipher : NoiseCipher) (session : UdpSession)
    (ops : List SessionOp) : Prop :=
  ∀ before env raw, before ++ [.handleIncoming env raw] <+: ops →
    (session.after crypto cipher before).Unauthenticated cipher raw →
      Unaltered (session.after crypto cipher before)
        (handleIncoming crypto cipher (session.after crypto cipher before) env raw).2.1

/--
In a run of a session on any path, all unauthenticated datagrams leave it alone
exactly if each of them fails to decode, carries no forwarded address, or carries
the address of the current peer.
-/
theorem inert_iff (crypto : OnionCrypto) (cipher : NoiseCipher) (session : UdpSession)
    (ops : List SessionOp) :
    Inert crypto cipher session ops ↔
      ∀ before env raw, before ++ [.handleIncoming env raw] <+: ops →
        (session.after crypto cipher before).Unauthenticated cipher raw →
          (session.after crypto cipher before).NamesPeer raw := by
  apply forall_congr'
  intro before
  apply forall_congr'
  intro env
  apply forall_congr'
  intro raw
  apply imp_congr_right
  intro _
  apply imp_congr_right
  intro unauthenticated
  exact handleIncoming_unaltered_iff unauthenticated env

/-- A forward datagram from another address around bytes which nobody sealed. -/
def forgedForward : Bytes :=
  encodeOuter .forward 0 ++ (addressBytes ⟨[10, 0, 0, 1], rfl⟩ 6666 ++
    (encodeOuter .data 0 ++ List.replicate 32 255))

theorem forgedForward_alters_peer :
    ¬Inert Onion.sampleCrypto tagCipher relayedSession
      [.handleIncoming sampleEnv forgedForward] := by
  intro inert
  have decoded : decodeIncoming relayedSession.viaRelay forgedForward =
      .ok (.data, List.replicate 32 255, some (.v4 ⟨[10, 0, 0, 1], rfl⟩ 6666)) := by
    rfl
  have unauthenticated : relayedSession.Unauthenticated tagCipher forgedForward := by
    simp only [Unauthenticated, decoded]
    exact Or.inr ⟨.crypto, by decide +kernel⟩
  have unaltered := inert [] sampleEnv forgedForward List.prefix_rfl unauthenticated
  have namesPeer := (handleIncoming_unaltered_iff unauthenticated sampleEnv).mp unaltered
  exact absurd (namesPeer _ _ _ decoded) (by decide)

end UdpSession

end Ppose

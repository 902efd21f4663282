import Ppose.Session.Session

/-!
# Opening a session

The three messages of the Noise XX handshake, for the initiator and the responder,
over each kind of path (`session.rs`, `crypto/noise.rs`).  Both source functions
block while they wait for a datagram; each is cut there into what it does before and
what it does after.

The handshake itself is a library outside the repository.  `Snow` stands for what
the code uses of it, over a type of handshake states which is left open.
-/

namespace Ppose

open Onion

inductive HandshakeRole where
  | initiator
  | responder
  deriving DecidableEq, Repr

/-- The handshake library: its states, messages and the transport state at the end. -/
structure Snow (State : Type) where
  build : HandshakeRole → Block 32 → Option State
  writeMessage : State → Bytes → Option (Bytes × State)
  readMessage : State → Bytes → Option State
  isHandshakeFinished : State → Bool
  intoTransportMode : State → Option Noise
  /-- The static key of the peer, once transport mode is reached. -/
  getRemoteStatic : State → Option Bytes

/-- A transport state with the static key of the peer. -/
structure Transport where
  noise : Noise
  remoteStatic : Option Bytes

structure NoiseSession (State : Type) where
  handshake : Option State
  transport : Option Transport

namespace NoiseSession

variable {State : Type} (snow : Snow State)

def new (role : HandshakeRole) (secret : Block 32) : Except NoiseError (NoiseSession State) :=
  match snow.build role secret with
  | none => .error .setup
  | some state => .ok { handshake := some state, transport := none }

/-- Enter transport mode if the handshake is over. -/
def maybeFinish (state : State) : Except NoiseError (NoiseSession State) :=
  if snow.isHandshakeFinished state then
    match snow.intoTransportMode state with
    | none => .error .crypto
    | some noise =>
        .ok { handshake := none, transport := some ⟨noise, snow.getRemoteStatic state⟩ }
  else .ok { handshake := some state, transport := none }

/-- Write the next handshake message, with an empty payload. -/
def writeHandshake (noise : NoiseSession State) :
    Except NoiseError (Bytes × NoiseSession State) :=
  match noise.handshake with
  | none => .error .badState
  | some state =>
      match snow.writeMessage state [] with
      | none => .error .crypto
      | some (message, state) => do
          let noise ← maybeFinish snow state
          return (message, noise)

def readHandshake (noise : NoiseSession State) (message : Bytes) :
    Except NoiseError (NoiseSession State) :=
  match noise.handshake with
  | none => .error .badState
  | some state =>
      match snow.readMessage state message with
      | none => .error .crypto
      | some state => maybeFinish snow state

/-- Fail unless the static key of the peer is the expected one. -/
def pinRemote (transport : Transport) (expected : Block 32) : Except NoiseError Unit :=
  match transport.remoteStatic with
  | none => .error .noRemoteStatic
  | some bytes =>
      if bytes.length ≠ 32 then .error .noRemoteStatic
      else if bytes ≠ expected.toList then .error .keyMismatch
      else .ok ()

end NoiseSession

/-- How packets reach the other endpoint. -/
inductive Path where
  | direct (peer : SocketAddr)
  | viaRelay (relay peer : SocketAddr)
  | viaOnion (hops : List OnionHop) (dest : SocketAddr)

/-- The next hop, the peer, whether there is a relay, and the hops. -/
def Path.route : Path →
    Except SessionError (SocketAddr × SocketAddr × Bool × Option (List OnionHop))
  | .direct peer => .ok (peer, peer, false, none)
  | .viaRelay relay peer => .ok (relay, peer, true, none)
  | .viaOnion [] _ => .error .emptyOnion
  | .viaOnion (first :: rest) dest => .ok (first.addr, dest, false, some (first :: rest))

/-- A datagram as it is received into a buffer of datagram size, or an error if none came. -/
def recvRaw : Option (Bytes × SocketAddr) → Except SessionError (Bytes × SocketAddr)
  | none => .error .io
  | some (raw, source) => .ok (raw.take maxDatagram, source)

/-- A session whose handshake is not over. -/
structure Opening (State : Type) where
  nextHop : SocketAddr
  peer : SocketAddr
  viaRelay : Bool
  onion : Option (List OnionHop)
  noise : NoiseSession State
  lastCover : Instant

namespace Opening

variable {State : Type} (crypto : OnionCrypto) (snow : Snow State)

/-- The established session, once there is a transport state. -/
def established (opening : Opening State) (noise : Noise) : UdpSession where
  nextHop := opening.nextHop
  peer := opening.peer
  viaRelay := opening.viaRelay
  onion := opening.onion
  noise := noise
  arq := .new
  dropData := 0
  cover := .off
  lastCover := opening.lastCover

/-- Stands for the transport state before there is one; sending does not read it. -/
def unset : Noise := ⟨List.Vector.replicate 32 0, List.Vector.replicate 32 0, 0, 0⟩

def sendInner (opening : Opening State) (env : SendEnv) (packetType : PacketType) (body : Bytes) :
    Except SessionError (SocketAddr × Bytes) :=
  UdpSession.sendInner crypto (opening.established unset) env packetType body

/-- Receive a datagram from the next hop, or fail if none came. -/
def recvInner (opening : Opening State) (received : Option (Bytes × SocketAddr)) :
    Except SessionError (PacketType × Bytes × Opening State) :=
  match recvRaw received with
  | .error error => .error error
  | .ok (raw, source) =>
      if source ≠ opening.nextHop then .error .unexpectedAddr
      else
        match UdpSession.decodeIncoming opening.viaRelay raw with
        | .error error => .error error
        | .ok (packetType, body, none) => .ok (packetType, body, opening)
        | .ok (packetType, body, some other) =>
            .ok (packetType, body, { opening with peer := other })

/-- Write a handshake message and send it. -/
def sendHandshake (opening : Opening State) (env : SendEnv) :
    Except SessionError (Opening State × SocketAddr × Bytes) := do
  let (message, noise) ← (opening.noise.writeHandshake snow).mapError .noise
  let sent ← ({ opening with noise } : Opening State).sendInner crypto env .handshake message
  return ({ opening with noise }, sent)

/-- Receive a handshake message and read it. -/
def recvHandshake (opening : Opening State) (received : Option (Bytes × SocketAddr)) :
    Except SessionError (Opening State) := do
  let (packetType, body, opening) ← opening.recvInner received
  if packetType ≠ .handshake then .error .unexpectedType
  else
    let noise ← (opening.noise.readHandshake snow body).mapError .noise
    return { opening with noise }

/-- The session, if it `is_transport` and the peer is the expected one. -/
def finish (opening : Opening State) (expected : Option (Block 32)) :
    Except SessionError UdpSession :=
  match opening.noise.transport with
  | none => .error .handshakeIncomplete
  | some transport =>
      match expected with
      | none => .ok (opening.established transport.noise)
      | some key => do
          let _ ← (NoiseSession.pinRemote transport key).mapError .noise
          return opening.established transport.noise

def setOutboundOnion (opening : Opening State) (hops : List OnionHop) (dest : SocketAddr) :
    Except SessionError (Opening State) :=
  match hops with
  | [] => .error .emptyOnion
  | first :: _ =>
      .ok
        { opening with
          nextHop := first.addr, peer := dest, onion := some hops, viaRelay := false }

end Opening

/-! ### The initiator and the responder -/

section

variable {State : Type} (crypto : OnionCrypto) (snow : Snow State)

/-- The initiator up to the wait for the second message. -/
def connectInitiatorBegin (secret : Block 32) (path : Path) (env : SendEnv) (now : Instant) :
    Except SessionError (Opening State × SocketAddr × Bytes) := do
  let (nextHop, peer, viaRelay, onion) ← path.route
  let noise ← (NoiseSession.new snow .initiator secret).mapError .noise
  let opening : Opening State := { nextHop, peer, viaRelay, onion, noise, lastCover := now }
  opening.sendHandshake crypto snow env

/-- The initiator from the second message on: its result, and the third message if sent. -/
def connectInitiatorResume (opening : Opening State) (received : Option (Bytes × SocketAddr))
    (env : SendEnv) (expected : Option (Block 32)) :
    Except SessionError UdpSession × Option (SocketAddr × Bytes) :=
  match opening.recvHandshake snow received with
  | .error error => (.error error, none)
  | .ok opening =>
      match opening.sendHandshake crypto snow env with
      | .error error => (.error error, none)
      | .ok (opening, sent) => (opening.finish expected, some sent)

/-- The responder from the first message on, up to the wait for the third one. -/
def acceptExBegin (secret : Block 32) (expectedRelay : Option SocketAddr)
    (outboundOnion : Option (List OnionHop × SocketAddr)) (received : Option (Bytes × SocketAddr))
    (env : SendEnv) (now : Instant) : Except SessionError (Opening State × SocketAddr × Bytes) := do
  let noise ← (NoiseSession.new snow .responder secret).mapError .noise
  let (raw, source) ← recvRaw received
  if expectedRelay.isSome ∧ expectedRelay ≠ some source then .error .unexpectedAddr
  else
    let (packetType, body, other) ← UdpSession.decodeIncoming expectedRelay.isSome raw
    if packetType ≠ .handshake then .error .unexpectedType
    else
      let peer ← if expectedRelay.isSome then other.elim (.error .unexpectedType) .ok
        else .ok source
      let noise ← (noise.readHandshake snow body).mapError .noise
      let opening : Opening State :=
        { nextHop := source, peer, viaRelay := expectedRelay.isSome, onion := none, noise,
          lastCover := now }
      let opening ← match outboundOnion with
        | none => .ok opening
        | some (hops, dest) => opening.setOutboundOnion hops dest
      opening.sendHandshake crypto snow env

/-- The responder from the third message on. -/
def acceptExResume (opening : Opening State) (received : Option (Bytes × SocketAddr))
    (expected : Option (Block 32)) : Except SessionError UdpSession := do
  let opening ← opening.recvHandshake snow received
  opening.finish expected

end

/-! ### Messages over an onion route -/

namespace Opening

variable {State : Type} {crypto : OnionCrypto} {snow : Snow State} (opening : Opening State)
  {state next : State} {message : Bytes} {noise : NoiseSession State}

/-- A handshake message which is written and fits the route is sent to the next hop. -/
theorem sendHandshake_of_wrapRoute (handshaking : opening.noise.handshake = some state)
    (written : snow.writeMessage state [] = some (message, next))
    (continued : NoiseSession.maybeFinish snow next = .ok noise) {env : SendEnv}
    (socketOk : env.socketOk = true) {hops : List OnionHop} (routed : opening.onion = some hops)
    {inner wire : Bytes} (encoded : encodeDatagram .handshake message = .ok inner)
    (wrapped : wrapRoute crypto env.draws hops opening.peer inner = .ok wire) :
    opening.sendHandshake crypto snow env =
      .ok ({ opening with noise }, opening.nextHop, wire) := by
  have writes : opening.noise.writeHandshake snow = .ok (message, noise) := by
    simp only [NoiseSession.writeHandshake, handshaking, written, continued, bind, Except.bind,
      pure, Except.pure]
  have sends : ({ opening with noise } : Opening State).sendInner crypto env .handshake message =
      .ok (opening.nextHop, wire) := by
    simp only [sendInner, established, UdpSession.sendInner, UdpSession.wireOf, encoded, routed,
      wrapped, bind, Except.bind, socketOk, if_true]
  simp only [sendHandshake, writes, sends, Except.mapError, bind, Except.bind, pure, Except.pure]

/-- A handshake message which comes from the next hop is read, and from elsewhere refused. -/
theorem recvHandshake_of_encoded (handshaking : opening.noise.handshake = some state)
    (accepted : snow.readMessage state message = some next)
    (continued : NoiseSession.maybeFinish snow next = .ok noise)
    (noRelay : opening.viaRelay = false) {inner : Bytes}
    (encoded : encodeDatagram .handshake message = .ok inner) (source : SocketAddr) :
    opening.recvHandshake snow (some (inner, source)) =
      if source = opening.nextHop then .ok { opening with noise } else .error .unexpectedAddr := by
  have decoded := decodeOuter_of_encodeDatagram encoded
  have fits : inner.length ≤ maxDatagram := by
    rw [length_of_decodeOuter decoded]
    exact exists_encodeDatagram_iff.mp ⟨inner, encoded⟩
  have reads : opening.noise.readHandshake snow message = .ok noise := by
    simp only [NoiseSession.readHandshake, handshaking, accepted, continued]
  by_cases expected : source = opening.nextHop
  · simp only [recvHandshake, recvInner, recvRaw, List.take_of_length_le fits, expected, ne_eq,
      not_true_eq_false, if_false, UdpSession.decodeIncoming, decoded, noRelay, reads,
      Except.mapError, bind, Except.bind, pure, Except.pure, if_true, Bool.false_eq_true]
  · simp only [recvHandshake, recvInner, recvRaw, ne_eq, expected, not_false_eq_true, if_true,
      if_false, bind, Except.bind]

end Opening

end Ppose

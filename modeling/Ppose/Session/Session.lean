import Ppose.Session.Noise
import Ppose.Wire.Onion
import Ppose.Reliability.Arq

/-!
# An established session

A session seals the frames of its ARQ endpoint with the Noise transport state and
sends them on its path: directly, through a relay, or through an onion route.  The
handshake is over; both parties are in transport mode.

Operations pass the session explicitly and return their result beside it, since
what an operation changed before it failed stays changed.  Sending needs random
draws for the onion layers and an answer of the socket, both given by `SendEnv`;
an operation which sends several datagrams takes one environment for each.  Every
sealed datagram is reported as an `Emission`, and a cover datagram as a `CoverDatagram`,
also when it could not be sent.
-/

namespace Ppose

open Onion

inductive SessionError where
  | io
  | noise (error : NoiseError)
  | packet (error : PacketError)
  | arq (error : ArqError)
  | giveUp (error : ArqGiveUp)
  | unexpectedType
  | unexpectedAddr
  | handshakeIncomplete
  | timeout
  | emptyOnion
  deriving DecidableEq

inductive CoverMode where
  | off
  | balanced
  | stealth
  deriving DecidableEq, Repr

def CoverMode.interval : CoverMode → Option Duration
  | .off => none
  | .balanced => some 200000000
  | .stealth => some 50000000

structure UdpSession where
  nextHop : SocketAddr
  peer : SocketAddr
  viaRelay : Bool
  onion : Option (List OnionHop)
  noise : Noise
  arq : Arq
  dropData : UInt32
  cover : CoverMode
  lastCover : Instant

/-- What one attempt to send meets. -/
structure SendEnv where
  draws : Draws
  socketOk : Bool

/-- A sealed datagram: its counter, its contents, and where it was sent if it was. -/
structure Emission where
  counter : ℕ
  retransmission : Bool
  plaintext : Bytes
  body : Bytes
  sent : Except SessionError (SocketAddr × Bytes)

/-- A cover datagram: when it was due, its contents, and where it was sent if it was. -/
structure CoverDatagram where
  time : Instant
  body : Bytes
  sent : Except SessionError (SocketAddr × Bytes)

namespace UdpSession

variable (crypto : OnionCrypto) (cipher : NoiseCipher)

/-- The datagram on the wire, by the path of the session. -/
def wireOf (session : UdpSession) (draws : Draws) (packetType : PacketType) (body : Bytes) :
    Except PacketError Bytes := do
  let inner ← encodeDatagram packetType body
  match session.onion with
  | some hops => wrapRoute crypto draws hops session.peer inner
  | none =>
      if session.viaRelay then
        let forwardBody ← encodeForwardBody session.peer inner
        encodeDatagram .forward forwardBody
      else return inner

def sendInner (session : UdpSession) (env : SendEnv) (packetType : PacketType) (body : Bytes) :
    Except SessionError (SocketAddr × Bytes) :=
  match session.wireOf crypto env.draws packetType body with
  | .error error => .error (.packet error)
  | .ok wire => if env.socketOk then .ok (session.nextHop, wire) else .error .io

def sealAndSend (session : UdpSession) (env : SendEnv) (retransmission : Bool) (frame : Bytes) :
    Except SessionError Unit × UdpSession × List Emission :=
  match session.noise.sealMessage cipher frame with
  | (.error error, noise) => (.error (.noise error), { session with noise }, [])
  | (.ok body, noise) =>
      let sent := sendInner crypto { session with noise } env .data body
      (sent.map fun _ => (), { session with noise },
        [{ counter := session.noise.sendCounter, retransmission, plaintext := frame, body, sent }])

/-- Seal a data frame and send it, unless it is to be dropped. -/
def sealData (session : UdpSession) (env : SendEnv) (retransmission : Bool) (frame : Bytes) :
    Except SessionError Unit × UdpSession × List Emission :=
  if 0 < session.dropData then (.ok (), { session with dropData := session.dropData - 1 }, [])
  else sealAndSend crypto cipher session env retransmission frame

def sealAll (retransmission : Bool) :
    UdpSession → (ℕ → SendEnv) → List Bytes →
      Except SessionError Unit × UdpSession × List Emission
  | session, _, [] => (.ok (), session, [])
  | session, envs, frame :: rest =>
      match sealData crypto cipher session (envs 0) retransmission frame with
      | (.error error, session, emissions) => (.error error, session, emissions)
      | (.ok (), session, emissions) =>
          let (result, session, more) := sealAll retransmission session (envs ∘ Nat.succ) rest
          (result, session, emissions ++ more)

/-- Send what is new, then what is due again. -/
def flush (session : UdpSession) (newEnvs dueEnvs : ℕ → SendEnv) (now : Instant) :
    Except SessionError Unit × UdpSession × List Emission :=
  let (news, arq) := session.arq.takeNewSends now
  match sealAll crypto cipher false { session with arq } newEnvs news with
  | (.error error, session, emissions) => (.error error, session, emissions)
  | (.ok (), session, emissions) =>
      match session.arq.takeRetransmits now with
      | (.error giveUp, arq) => (.error (.giveUp giveUp), { session with arq }, emissions)
      | (.ok due, arq) =>
          let (result, session, more) := sealAll crypto cipher true { session with arq } dueEnvs due
          (result, session, emissions ++ more)

/-- Send a cover datagram of random bytes if the interval has passed. -/
def maybeCover (session : UdpSession) (env : SendEnv) (now : Instant) (random : Block 64) :
    Except SessionError Unit × UdpSession × Option CoverDatagram :=
  match session.cover.interval with
  | none => (.ok (), session, none)
  | some interval =>
      if now - session.lastCover < interval then (.ok (), session, none)
      else
        let session := { session with lastCover := now }
        let sent := sendInner crypto session env .data random.toList
        (sent.map fun _ => (), session, some { time := now, body := random.toList, sent })

/-- The type, body and forwarded address of a datagram. -/
def decodeIncoming (viaRelay : Bool) (bytes : Bytes) :
    Except SessionError (PacketType × Bytes × Option SocketAddr) :=
  match decodeOuter bytes with
  | .error error => .error (.packet error)
  | .ok (packetType, _, body) =>
      if viaRelay then
        if packetType ≠ .forward then .error .unexpectedType
        else
          match decodeForwardBody body with
          | .error error => .error (.packet error)
          | .ok (other, inner) =>
              match decodeOuter inner with
              | .error error => .error (.packet error)
              | .ok (innerType, _, innerBody) => .ok (innerType, innerBody, some other)
      else .ok (packetType, body, none)

def notePeer (session : UdpSession) : Option SocketAddr → UdpSession
  | none => session
  | some other => { session with peer := other }

/-- Open a datagram, ingest the frame and acknowledge it. -/
def handleIncoming (session : UdpSession) (env : SendEnv) (raw : Bytes) :
    Except SessionError Unit × UdpSession × List Emission :=
  match decodeIncoming session.viaRelay raw with
  | .error error => (.error error, session, [])
  | .ok (packetType, body, other) =>
      let session := session.notePeer other
      match packetType with
      | .data =>
          match session.noise.openMessage cipher body with
          | (.error _, noise) => (.ok (), { session with noise }, [])
          | (.ok frame, noise) =>
              match session.arq.ingest frame with
              | (.error error, arq) => (.error (.arq error), { session with noise, arq }, [])
              | (.ok none, arq) => (.ok (), { session with noise, arq }, [])
              | (.ok (some ack), arq) =>
                  sealAndSend crypto cipher { session with noise, arq } env false ack
      | _ => (.error .unexpectedType, session, [])

/-- Queue a message, as `send` does before it waits. -/
def enqueue (session : UdpSession) (message : Bytes) : Except SessionError Unit × UdpSession :=
  let (result, arq) := session.arq.enqueue message
  (result.mapError .arq, { session with arq })

def popDelivered (session : UdpSession) : Option Bytes × UdpSession :=
  let (message, arq) := session.arq.popDelivered
  (message, { session with arq })

def debugDropData (session : UdpSession) (count : UInt32) : UdpSession :=
  { session with dropData := count }

def setRetxTimeout (session : UdpSession) (retx : Duration) : UdpSession :=
  { session with arq := session.arq.setRetx retx }

def setCover (session : UdpSession) (mode : CoverMode) (now : Instant) : UdpSession :=
  { session with cover := mode, lastCover := now }

def setOutboundOnion (session : UdpSession) (hops : List OnionHop) (dest : SocketAddr) :
    Except SessionError Unit × UdpSession :=
  match hops with
  | [] => (.error .emptyOnion, session)
  | first :: _ =>
      (.ok (),
        { session with nextHop := first.addr, peer := dest, onion := some hops, viaRelay := false })

end UdpSession

/-- What a session can be asked to do. -/
inductive SessionOp where
  | handleIncoming (env : SendEnv) (raw : Bytes)
  | flush (newEnvs dueEnvs : ℕ → SendEnv) (now : Instant)
  | maybeCover (env : SendEnv) (now : Instant) (random : Block 64)
  | enqueue (message : Bytes)
  | popDelivered
  | debugDropData (count : UInt32)
  | setRetxTimeout (retx : Duration)
  | setCover (mode : CoverMode) (now : Instant)
  | setOutboundOnion (hops : List OnionHop) (dest : SocketAddr)

namespace UdpSession

variable (crypto : OnionCrypto) (cipher : NoiseCipher)

def perform (session : UdpSession) : SessionOp → UdpSession × List Emission
  | .handleIncoming env raw => (handleIncoming crypto cipher session env raw).2
  | .flush newEnvs dueEnvs now => (flush crypto cipher session newEnvs dueEnvs now).2
  | .maybeCover env now random => ((maybeCover crypto session env now random).2.1, [])
  | .enqueue message => ((session.enqueue message).2, [])
  | .popDelivered => (session.popDelivered.2, [])
  | .debugDropData count => (session.debugDropData count, [])
  | .setRetxTimeout retx => (session.setRetxTimeout retx, [])
  | .setCover mode now => (session.setCover mode now, [])
  | .setOutboundOnion hops dest => ((session.setOutboundOnion hops dest).2, [])

/-- The cover datagram which an operation makes, if it does. -/
def coverOf (session : UdpSession) : SessionOp → Option CoverDatagram
  | .maybeCover env now random => (maybeCover crypto session env now random).2.2
  | _ => none

def after (session : UdpSession) (ops : List SessionOp) : UdpSession :=
  ops.foldl (fun session op => (perform crypto cipher session op).1) session

def relayedSession : UdpSession where
  nextHop := loopback 9000
  peer := loopback 9001
  viaRelay := true
  onion := none
  noise := ⟨List.Vector.replicate 32 1, List.Vector.replicate 32 2, 0, 0⟩
  arq := Arq.new
  dropData := 0
  cover := .off
  lastCover := 0

def sampleEnv : SendEnv := ⟨Onion.sampleDraws, true⟩

end UdpSession

end Ppose

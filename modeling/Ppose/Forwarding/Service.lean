import Ppose.Forwarding.Replay
import Ppose.Wire.Packet

/-!
# Services over a socket

The relay, the onion hop and the rendezvous server have the same outer loop: a step
receives one datagram into a buffer of datagram size, handles it, and sends at most
one datagram.  A timeout is not an error, and whatever the handler does not accept
is ignored without a reply.
-/

namespace Ppose

/-- What `recv_from` gives to a step. -/
inductive Received where
  | timedOut
  | failed
  | datagram (raw : Bytes) (source : SocketAddr)

/-- What a step reads of its surroundings: the clock, a hash table's order and the socket. -/
structure StepEnv where
  now : Instant
  order : IterationOrder (Σ _ : Block 16, Instant)
  socketOk : Bool

structure Stepped (Service : Type) where
  /-- The result of the step, or nothing for an I/O error. -/
  returned : Option Bool
  sent : Option (SocketAddr × Bytes)
  service : Service

namespace Stepped

variable {Service : Type}

def ignored (service : Service) : Stepped Service where
  returned := some false
  sent := none
  service := service

def transmit (socketOk : Bool) (dest : SocketAddr) (packet : Bytes) (service : Service) :
    Stepped Service :=
  if socketOk then { returned := some true, sent := some (dest, packet), service }
  else { returned := none, sent := none, service }

/-- Receive one datagram and handle it. -/
def receiving (received : Received) (service : Service)
    (handle : Bytes → SocketAddr → Stepped Service) : Stepped Service :=
  match received with
  | .timedOut => ignored service
  | .failed => { returned := none, sent := none, service }
  | .datagram raw source => handle (raw.take maxDatagram) source

theorem receiving_datagram {raw : Bytes} (fits : raw.length ≤ maxDatagram) (source : SocketAddr)
    (service : Service) (handle : Bytes → SocketAddr → Stepped Service) :
    receiving (.datagram raw source) service handle = handle raw source := by
  simp only [receiving, List.take_of_length_le fits]

end Stepped

def quietEnv : StepEnv where
  now := 0
  order := .listed _
  socketOk := true

end Ppose

import Ppose.Forwarding.Service
import Ppose.Wire.OnionSize

/-!
# The onion hop

A hop receives an onion datagram, takes off its layer and sends the payload to the
address it finds there (`onion.rs`).  Payloads which it has forwarded recently are
dropped.
-/

namespace Ppose

open Onion

structure OnionRelay where
  /-- The static secret key of the hop. -/
  secret : Block 32
  replay : ReplayCache

namespace OnionRelay

def bind (secret : Block 32) : OnionRelay where
  secret := secret
  replay := .new

variable (crypto : OnionCrypto)

/-- Process one packet. -/
def step (relay : OnionRelay) (env : StepEnv) (received : Received) : Stepped OnionRelay :=
  .receiving received relay fun raw _ =>
    match decodeOuter raw with
    | .error _ => .ignored relay
    | .ok (packetType, _, body) =>
        if packetType ≠ .onion then .ignored relay
        else
          match peelLayer crypto relay.secret body with
          | .error _ => .ignored relay
          | .ok peeled =>
              match relay.replay.accept crypto.hash env.order peeled.payload env.now with
              | (false, replay) => .ignored { relay with replay }
              | (true, replay) =>
                  if maxDatagram < peeled.payload.length then .ignored { relay with replay }
                  else .transmit env.socketOk peeled.next peeled.payload { relay with replay }

variable {crypto}

/-- Whatever a hop sends is what it peeled off an onion datagram. -/
theorem peelLayer_of_sent {relay : OnionRelay} {env : StepEnv} {raw payload : Bytes}
    {source next : SocketAddr}
    (sent : (relay.step crypto env (.datagram raw source)).sent = some (next, payload)) :
    ∃ flags body, decodeOuter (raw.take maxDatagram) = .ok (.onion, flags, body) ∧
      peelLayer crypto relay.secret body = .ok { next, payload } := by
  simp only [step, Stepped.receiving] at sent
  split at sent
  · cases sent
  · rename_i packetType flags body decoded
    split_ifs at sent with isOnion
    · cases sent
    · rw [not_not] at isOnion
      subst isOnion
      refine ⟨flags, body, decoded, ?_⟩
      split at sent
      · cases sent
      · rename_i peeled peels
        split at sent
        · cases sent
        · split_ifs at sent
          · cases sent
          · unfold Stepped.transmit at sent
            split_ifs at sent
            cases sent
            exact peels

end OnionRelay

/--
A route is wrapped exactly if it is not empty, the destination and the addresses of
all hops but the first are IPv4, and there is room for 86 more bytes for each hop;
the datagram then has exactly that length.  What a hop forwards is 86 bytes shorter
than what it received.
-/
theorem wrapRoute_size (crypto : OnionCrypto) (sized : crypto.Sized) :
    (∀ (draws : Draws) (hops : List OnionHop) (dest : SocketAddr) (inner : Bytes),
      ((∃ wire, wrapRoute crypto draws hops dest inner = .ok wire) ↔
        hops ≠ [] ∧ dest.isV4 = true ∧ (∀ hop ∈ hops.tail, hop.addr.isV4 = true) ∧
          inner.length + 86 * hops.length ≤ maxDatagram) ∧
      ∀ wire, wrapRoute crypto draws hops dest inner = .ok wire →
        wire.length = inner.length + 86 * hops.length) ∧
    ∀ (relay : OnionRelay) (env : StepEnv) (raw payload : Bytes) (source next : SocketAddr),
      (relay.step crypto env (.datagram raw source)).sent = some (next, payload) →
      payload.length + 86 = min maxDatagram raw.length := by
  refine ⟨?_, ?_⟩
  · intro draws hops dest inner
    exact ⟨exists_wrapRoute_iff sized draws hops dest inner, fun wire => length_of_wrapRoute sized⟩
  · intro relay env raw payload source next sent
    rcases OnionRelay.peelLayer_of_sent sent with ⟨flags, body, decoded, peels⟩
    have rawLength := length_of_decodeOuter decoded
    have bodyLength := length_of_peelLayer sized peels
    rw [List.length_take] at rawLength
    simp only [outerHeaderLen, layerOverhead] at rawLength bodyLength
    omega

/-- What the first of two hops receives and sends. -/
def sampleHopSent (wire : Bytes) : Option (SocketAddr × Bytes) :=
  ((OnionRelay.bind (List.Vector.replicate 32 1)).step sampleCrypto quietEnv
    (.datagram wire (loopback 7))).sent

theorem wrapRoute_size_sample :
    ∃ wire payload, wrapRoute sampleCrypto sampleDraws (sampleStops.map (Stop.hop sampleCrypto))
        (loopback 10) [1, 2, 3] = .ok wire ∧ wire.length = 175 ∧
      sampleHopSent wire = some (loopback 9, payload) ∧ payload.length + 86 = 175 := by
  rcases wrapRoute_size sampleCrypto sampleCrypto_sized with ⟨wraps, forwards⟩
  rcases wraps sampleDraws (sampleStops.map (Stop.hop sampleCrypto)) (loopback 10) [1, 2, 3] with
    ⟨accepts, lengthOf⟩
  rcases accepts.mpr (by decide) with ⟨wire, wrapped⟩
  have wireLength : wire.length = 175 := lengthOf wire wrapped
  have forwarded : ((wrapRoute sampleCrypto sampleDraws (sampleStops.map (Stop.hop sampleCrypto))
      (loopback 10) [1, 2, 3]).toOption.bind sampleHopSent).map Prod.fst = some (loopback 9) := by
    decide +kernel
  rw [wrapped] at forwarded
  rcases Option.map_eq_some_iff.mp forwarded with ⟨⟨next, payload⟩, sent, nextEq⟩
  cases nextEq
  have shorter := forwards _ quietEnv wire payload (loopback 7) (loopback 9) sent
  rw [wireLength] at shorter
  exact ⟨wire, payload, wrapped, wireLength, sent, shorter⟩

end Ppose

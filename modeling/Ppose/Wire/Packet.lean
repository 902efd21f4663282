import Ppose.Foundations.BigEndian

/-!
# Datagrams

The cleartext outer header of a datagram and the body of a forward datagram, which
names an IPv4 destination in front of an inner datagram.  Peers are addressed by
`SocketAddr`; only IPv4 addresses have a wire form.
-/

namespace Ppose

def protocolVersion : UInt8 := 0x03

def magic : UInt8 × UInt8 := (0x4a, 0x7f)

def outerHeaderLen : ℕ := 8

def maxDatagram : ℕ := 1200

inductive SocketAddr where
  | v4 (ip : Block 4) (port : UInt16)
  | v6 (ip : Block 16) (port : UInt16) (flowinfo scopeId : UInt32)
  deriving DecidableEq

def SocketAddr.isV4 : SocketAddr → Bool
  | .v4 _ _ => true
  | .v6 _ _ _ _ => false

def loopback (port : UInt16) : SocketAddr := .v4 ⟨[127, 0, 0, 1], rfl⟩ port

inductive PacketType where
  | handshake
  | data
  | ack
  | forward
  | onion
  | rendezvous
  deriving DecidableEq, Repr

def PacketType.toU8 : PacketType → UInt8
  | .handshake => 1
  | .data => 2
  | .ack => 3
  | .forward => 4
  | .onion => 5
  | .rendezvous => 6

def PacketType.fromU8 (value : UInt8) : Option PacketType :=
  if value = 1 then some .handshake
  else if value = 2 then some .data
  else if value = 3 then some .ack
  else if value = 4 then some .forward
  else if value = 5 then some .onion
  else if value = 6 then some .rendezvous
  else none

@[simp]
theorem PacketType.fromU8_toU8 (packetType : PacketType) :
    PacketType.fromU8 packetType.toU8 = some packetType := by
  cases packetType <;> rfl

inductive PacketError where
  | truncated
  | badMagic
  | badVersion
  | badType
  | tooLarge
  | badAddress
  deriving DecidableEq, Repr

def encodeOuter (packetType : PacketType) (flags : UInt8) : Bytes :=
  [magic.1, magic.2, protocolVersion, packetType.toU8, flags, 0, 0, 0]

/-- Full datagram: outer header and body. -/
def encodeDatagram (packetType : PacketType) (body : Bytes) : Except PacketError Bytes :=
  if maxDatagram < outerHeaderLen + body.length then .error .tooLarge
  else .ok (encodeOuter packetType 0 ++ body)

/-- Decode and validate the outer header. -/
def decodeOuter : Bytes → Except PacketError (PacketType × UInt8 × Bytes)
  | magic0 :: magic1 :: version :: typeByte :: flags :: _ :: _ :: _ :: body =>
      if magic0 ≠ magic.1 ∨ magic1 ≠ magic.2 then .error .badMagic
      else if version ≠ protocolVersion then .error .badVersion
      else
        match PacketType.fromU8 typeByte with
        | none => .error .badType
        | some packetType => .ok (packetType, flags, body)
  | _ => .error .truncated

@[simp]
theorem decodeOuter_encodeOuter (packetType : PacketType) (flags : UInt8) (body : Bytes) :
    decodeOuter (encodeOuter packetType flags ++ body) = .ok (packetType, flags, body) := by
  simp [encodeOuter, decodeOuter]

theorem decodeOuter_of_encodeDatagram {packetType : PacketType} {body datagram : Bytes}
    (encoded : encodeDatagram packetType body = .ok datagram) :
    decodeOuter datagram = .ok (packetType, 0, body) := by
  unfold encodeDatagram at encoded
  split_ifs at encoded
  cases encoded
  apply decodeOuter_encodeOuter

theorem encodeDatagram_of_le {packetType : PacketType} {body : Bytes}
    (fits : outerHeaderLen + body.length ≤ maxDatagram) :
    encodeDatagram packetType body = .ok (encodeOuter packetType 0 ++ body) := by
  rw [encodeDatagram, if_neg (not_lt.mpr fits)]

theorem exists_encodeDatagram_iff {packetType : PacketType} {body : Bytes} :
    (∃ datagram, encodeDatagram packetType body = .ok datagram) ↔
      outerHeaderLen + body.length ≤ maxDatagram := by
  unfold encodeDatagram
  split_ifs with large
  · simp [not_le.mpr large]
  · simp [not_lt.mp large]

theorem length_of_decodeOuter {datagram body : Bytes} {packetType : PacketType} {flags : UInt8}
    (decoded : decodeOuter datagram = .ok (packetType, flags, body)) :
    datagram.length = outerHeaderLen + body.length := by
  unfold decodeOuter at decoded
  split at decoded
  · split_ifs at decoded
    split at decoded
    · cases decoded
    · cases decoded
      simp only [List.length_cons, outerHeaderLen]
      omega
  · cases decoded

theorem length_le_of_encodeDatagram {packetType : PacketType} {body datagram : Bytes}
    (encoded : encodeDatagram packetType body = .ok datagram) : datagram.length ≤ maxDatagram := by
  rw [length_of_decodeOuter (decodeOuter_of_encodeDatagram encoded)]
  exact exists_encodeDatagram_iff.mp ⟨datagram, encoded⟩

/-! ### Addresses in front of a datagram -/

def addressBytes (ip : Block 4) (port : UInt16) : Bytes :=
  ip.toList ++ BigEndian.encode 2 port.toNat

def readAddress : Bytes → Option (SocketAddr × Bytes)
  | a :: b :: c :: d :: high :: low :: rest =>
      some (.v4 ⟨[a, b, c, d], rfl⟩ (UInt16.ofNat (BigEndian.decode [high, low])), rest)
  | _ => none

@[simp]
theorem readAddress_addressBytes (ip : Block 4) (port : UInt16) (rest : Bytes) :
    readAddress (addressBytes ip port ++ rest) = some (.v4 ip port, rest) := by
  rcases ip with ⟨octets, lengthEq⟩
  rcases octets with _ | ⟨a, _ | ⟨b, _ | ⟨c, _ | ⟨d, _ | ⟨e, more⟩⟩⟩⟩⟩ <;>
    simp only [List.length_nil, List.length_cons] at lengthEq <;> try omega
  have portEq := BigEndian.ofNat_decode_encode_uint16 port
  simp only [BigEndian.encode] at portEq
  simp only [addressBytes, List.Vector.toList, BigEndian.encode, List.cons_append,
    List.nil_append, readAddress, portEq]

theorem length_addressBytes (ip : Block 4) (port : UInt16) :
    (addressBytes ip port).length = 6 := by
  simp [addressBytes]

def forwardBodyOverhead : ℕ := 6

/-- Who the relay should deliver to, and the inner packet. -/
def encodeForwardBody (dest : SocketAddr) (inner : Bytes) : Except PacketError Bytes :=
  match dest with
  | .v6 _ _ _ _ => .error .badAddress
  | .v4 ip port =>
      if maxDatagram < outerHeaderLen + forwardBodyOverhead + inner.length then .error .tooLarge
      else .ok (addressBytes ip port ++ inner)

def decodeForwardBody (body : Bytes) : Except PacketError (SocketAddr × Bytes) :=
  match readAddress body with
  | none => .error .truncated
  | some (dest, inner) => .ok (dest, inner)

theorem decodeForwardBody_of_encodeForwardBody {dest : SocketAddr} {inner body : Bytes}
    (encoded : encodeForwardBody dest inner = .ok body) :
    decodeForwardBody body = .ok (dest, inner) := by
  unfold encodeForwardBody at encoded
  split at encoded
  · cases encoded
  · split_ifs at encoded
    cases encoded
    simp [decodeForwardBody]

theorem encodeForwardBody_of_le (ip : Block 4) (port : UInt16) {inner : Bytes}
    (fits : outerHeaderLen + forwardBodyOverhead + inner.length ≤ maxDatagram) :
    encodeForwardBody (.v4 ip port) inner = .ok (addressBytes ip port ++ inner) := by
  simp only [encodeForwardBody, if_neg (not_lt.mpr fits)]

theorem length_of_decodeForwardBody {body inner : Bytes} {dest : SocketAddr}
    (decoded : decodeForwardBody body = .ok (dest, inner)) :
    body.length = forwardBodyOverhead + inner.length := by
  unfold decodeForwardBody readAddress at decoded
  split at decoded
  · cases decoded
  · rename_i found
    split at found
    · cases found
      cases decoded
      simp only [List.length_cons, forwardBodyOverhead]
      omega
    · cases found

end Ppose

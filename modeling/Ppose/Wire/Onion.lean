import Ppose.Wire.Packet
import Mathlib.Data.List.Induction
import Mathlib.Data.Vector.MapLemmas

/-!
# Nested datagrams

Each hop of a route adds one layer: an ephemeral key, a nonce, and the next
address and payload encrypted for the hop.  `wrapRoute` builds the layers from the
last hop to the first, and each hop takes one off with `peelLayer`.

The key agreement, the hash and the authenticated cipher are libraries outside the
repository.  `OnionCrypto` stands for what the code uses of them and
`OnionCrypto.Lawful` for what it relies on.  The random ephemeral key and nonce of
each layer are given by `draws`, numbered in the order in which the layers are
built, so a statement for all draws holds for whatever the generator picks.
-/

namespace Ppose

/-- The key agreement, hash and cipher of the onion layers. -/
structure OnionCrypto where
  /-- The X25519 public key of a secret key. -/
  publicKey : Block 32 → Block 32
  /-- The X25519 shared secret of a secret and a public key. -/
  sharedSecret : Block 32 → Block 32 → Block 32
  /-- The BLAKE3 hash. -/
  hash : Bytes → Block 32
  /-- XChaCha20-Poly1305 encryption under a key, a nonce and additional data. -/
  sealAead : Block 32 → Block 24 → Bytes → Bytes → Option Bytes
  /-- XChaCha20-Poly1305 decryption under a key, a nonce and additional data. -/
  openAead : Block 32 → Block 24 → Bytes → Bytes → Option Bytes

/-- What the code relies on: shared secrets commute, and opening undoes sealing. -/
structure OnionCrypto.Lawful (crypto : OnionCrypto) : Prop where
  shared_comm : ∀ first second, crypto.sharedSecret first (crypto.publicKey second) =
    crypto.sharedSecret second (crypto.publicKey first)
  open_seal : ∀ key nonce aad plain cipher, crypto.sealAead key nonce aad plain = some cipher →
    crypto.openAead key nonce aad cipher = some plain
  seal_length : ∀ key nonce aad plain cipher, crypto.sealAead key nonce aad plain = some cipher →
    cipher.length = plain.length + 16

namespace Onion

def layerOverhead : ℕ := 32 + 24 + 16 + 4 + 2

/-- The bytes of `ppose-pnd-v1`. -/
def pndKdfLabel : Bytes :=
  [0x70, 0x70, 0x6f, 0x73, 0x65, 0x2d, 0x70, 0x6e, 0x64, 0x2d, 0x76, 0x31]

/-- One onion hop: address and static key. -/
structure OnionHop where
  addr : SocketAddr
  pk : Block 32
  deriving DecidableEq

/-- The random ephemeral secret and nonce of each layer. -/
abbrev Draws := ℕ → Block 32 × Block 24

variable (crypto : OnionCrypto)

def deriveHopKey (shared : Block 32) : Block 32 := crypto.hash (pndKdfLabel ++ shared.toList)

/-- Encrypt the next address and the payload for one hop. -/
def wrapLayer (draw : Block 32 × Block 24) (hopPk : Block 32) (next : SocketAddr)
    (payload : Bytes) : Except PacketError Bytes :=
  match next with
  | .v6 _ _ _ _ => .error .badAddress
  | .v4 ip port =>
      let (ephemeral, nonce) := draw
      let ephemeralPublic := crypto.publicKey ephemeral
      let key := deriveHopKey crypto (crypto.sharedSecret ephemeral hopPk)
      match crypto.sealAead key nonce ephemeralPublic.toList (addressBytes ip port ++ payload) with
      | none => .error .tooLarge
      | some cipher => .ok (ephemeralPublic.toList ++ nonce.toList ++ cipher)

/-- The loop of `wrapRoute` over the hops from last to first. -/
def wrapLayers (draws : Draws) : ℕ → List OnionHop → SocketAddr → Bytes → Except PacketError Bytes
  | _, [], _, payload => .ok payload
  | layer, hop :: rest, next, payload => do
      let body ← wrapLayer crypto (draws layer) hop.pk next payload
      let payload ← encodeDatagram .onion body
      wrapLayers draws (layer + 1) rest hop.addr payload

/-- Wrap a datagram in layers from the last hop to the first. -/
def wrapRoute (draws : Draws) (hops : List OnionHop) (dest : SocketAddr) (inner : Bytes) :
    Except PacketError Bytes :=
  if hops = [] then .error .badType
  else wrapLayers crypto draws 0 hops.reverse dest inner

structure Peeled where
  next : SocketAddr
  payload : Bytes
  deriving DecidableEq

/-- Peel one layer with the secret key of a hop. -/
def peelLayer (secret : Block 32) (body : Bytes) : Except PacketError Peeled :=
  if body.length < layerOverhead then .error .truncated
  else
    let ephemeral := blockAt 32 0 body
    let nonce := blockAt 24 32 body
    let key := deriveHopKey crypto (crypto.sharedSecret secret ephemeral)
    match crypto.openAead key nonce ephemeral.toList (body.drop 56) with
    | none => .error .badType
    | some plain =>
        match readAddress plain with
        | none => .error .truncated
        | some (next, payload) => .ok { next, payload }

/-- What the hops with the given secret keys see in turn, and the last payload. -/
def peelRoute : List (Block 32) → Bytes →
    Except PacketError (List (PacketType × SocketAddr) × Bytes)
  | [], payload => .ok ([], payload)
  | secret :: rest, datagram => do
      let (packetType, _, body) ← decodeOuter datagram
      let peeled ← peelLayer crypto secret body
      let (seen, last) ← peelRoute rest peeled.payload
      return ((packetType, peeled.next) :: seen, last)

variable {crypto}

/-- A hop peels off what was wrapped for its public key. -/
theorem peelLayer_of_wrapLayer (lawful : crypto.Lawful) {draw : Block 32 × Block 24}
    {secret : Block 32} {next : SocketAddr} {payload body : Bytes}
    (wrapped : wrapLayer crypto draw (crypto.publicKey secret) next payload = .ok body) :
    peelLayer crypto secret body = .ok { next, payload } := by
  cases next with
  | v6 => simp [wrapLayer] at wrapped
  | v4 ip port =>
      rcases draw with ⟨ephemeral, nonce⟩
      simp only [wrapLayer] at wrapped
      split at wrapped
      · cases wrapped
      · rename_i cipher sealedEq
        rw [Except.ok.injEq] at wrapped
        subst wrapped
        have cipherLength := lawful.seal_length _ _ _ _ _ sealedEq
        rw [List.length_append, length_addressBytes] at cipherLength
        have opened := lawful.open_seal _ _ _ _ _ sealedEq
        rw [lawful.shared_comm] at opened
        have long : ¬((crypto.publicKey ephemeral).toList ++ nonce.toList ++ cipher).length <
            layerOverhead := by
          simp only [List.length_append, List.Vector.toList_length, layerOverhead]
          omega
        have ephemeralAt : blockAt 32 0
            ((crypto.publicKey ephemeral).toList ++ nonce.toList ++ cipher) =
              crypto.publicKey ephemeral := by
          rw [List.append_assoc]
          exact blockAt_append _ _ (show ([] : Bytes).length = 0 from rfl)
        have nonceAt : blockAt 24 32
            ((crypto.publicKey ephemeral).toList ++ nonce.toList ++ cipher) = nonce := by
          rw [List.append_assoc]
          apply blockAt_append
          apply List.Vector.toList_length
        have cipherAt : ((crypto.publicKey ephemeral).toList ++ nonce.toList ++ cipher).drop 56 =
            cipher := by
          apply List.drop_left'
          simp only [List.length_append, List.Vector.toList_length]
        simp only [peelLayer, if_neg long, ephemeralAt, nonceAt, cipherAt, opened,
          readAddress_addressBytes]

/-- The addresses seen along a route, given from its last hop to its first. -/
def nextsOf : List SocketAddr → SocketAddr → List SocketAddr
  | [], _ => []
  | addr :: rest, next => nextsOf rest addr ++ [next]

theorem nextsOf_reverse (addr : SocketAddr) (addrs : List SocketAddr) (dest : SocketAddr) :
    nextsOf (addr :: addrs).reverse dest = addrs ++ [dest] := by
  induction addrs using List.reverseRecOn generalizing dest with
  | nil => rfl
  | append_singleton addrs last ih =>
      rw [← List.cons_append, List.reverse_append, List.reverse_singleton, List.singleton_append,
        nextsOf, ih]

/-- One hop of a route with its secret key. -/
structure Stop where
  addr : SocketAddr
  secret : Block 32

def Stop.hop (crypto : OnionCrypto) (stop : Stop) : OnionHop where
  addr := stop.addr
  pk := crypto.publicKey stop.secret

/-- Peeling the layers of some hops leaves what was wrapped for the hops after them. -/
theorem peelRoute_wrapLayers (lawful : crypto.Lawful) {draws : Draws} {layer : ℕ}
    {stops : List Stop} {next : SocketAddr} {payload wire : Bytes}
    (wrapped : wrapLayers crypto draws layer (stops.map (Stop.hop crypto)) next payload =
      .ok wire) (after : List (Block 32)) :
    peelRoute crypto (stops.reverse.map Stop.secret ++ after) wire =
      (peelRoute crypto after payload).map fun result =>
        ((nextsOf (stops.map Stop.addr) next).map (fun addr => (.onion, addr)) ++ result.1,
          result.2) := by
  induction stops generalizing layer next payload after with
  | nil =>
      simp only [List.map_nil, wrapLayers, Except.ok.injEq] at wrapped
      subst wrapped
      simp only [List.reverse_nil, List.map_nil, List.nil_append, nextsOf]
      cases peelRoute crypto after payload <;> rfl
  | cons stop rest ih =>
      simp only [List.map_cons, wrapLayers] at wrapped
      cases layered : wrapLayer crypto (draws layer) (Stop.hop crypto stop).pk next payload with
      | error error => simp [layered, bind, Except.bind] at wrapped
      | ok body =>
          cases encoded : encodeDatagram .onion body with
          | error error => simp [layered, encoded, bind, Except.bind] at wrapped
          | ok datagram =>
              simp only [layered, encoded, bind, Except.bind] at wrapped
              have peeled := peelLayer_of_wrapLayer lawful layered
              have decoded := decodeOuter_of_encodeDatagram encoded
              rw [List.reverse_cons, List.map_append, List.append_assoc, ih wrapped]
              simp only [List.map_cons, List.map_nil, List.singleton_append, peelRoute, decoded,
                peeled, bind, Except.bind, nextsOf, List.map_append]
              cases peelRoute crypto after payload with
              | error error => rfl
              | ok result =>
                  simp [Except.map, pure, Except.pure, Stop.hop]

/--
Whatever `wrapRoute` builds for a route is peeled hop by hop: every hop finds the
outer type of an onion datagram and the address of the hop after it, the last one
the destination, and what is left at the end is what was wrapped.
-/
theorem peelRoute_wrapRoute (crypto : OnionCrypto) (lawful : crypto.Lawful) (draws : Draws)
    (stops : List Stop) (dest : SocketAddr) (inner wire : Bytes)
    (wrapped : wrapRoute crypto draws (stops.map (Stop.hop crypto)) dest inner = .ok wire) :
    peelRoute crypto (stops.map Stop.secret) wire =
      .ok ((stops.tail.map Stop.addr ++ [dest]).map (fun addr => (.onion, addr)), inner) := by
  rcases stops with _ | ⟨first, rest⟩
  · simp [wrapRoute] at wrapped
  · have layered : wrapLayers crypto draws 0 ((first :: rest).reverse.map (Stop.hop crypto)) dest
        inner = .ok wire := by
      simpa [wrapRoute] using wrapped
    have nextsEq : nextsOf ((first :: rest).reverse.map Stop.addr) dest =
        rest.map Stop.addr ++ [dest] := by
      rw [List.map_reverse, List.map_cons]
      apply nextsOf_reverse
    have peeled := peelRoute_wrapLayers lawful layered []
    rw [List.reverse_reverse, List.append_nil, nextsEq] at peeled
    rw [peeled]
    simp [peelRoute, Except.map]

def sampleCrypto : OnionCrypto where
  publicKey secret := secret
  sharedSecret first second := List.Vector.map₂ (· + ·) first second
  hash bytes := blockAt 32 12 bytes
  sealAead _ _ _ plain := some (plain ++ List.replicate 16 0)
  openAead _ _ _ cipher :=
    if cipher.length < 16 then none else some (cipher.take (cipher.length - 16))

theorem sampleCrypto_lawful : sampleCrypto.Lawful where
  shared_comm first second := by
    apply List.Vector.map₂_comm
    intro a b
    exact UInt8.add_comm a b
  open_seal := by
    intro key nonce aad plain cipher sealedEq
    cases sealedEq
    simp [sampleCrypto]
  seal_length := by
    intro key nonce aad plain cipher sealedEq
    cases sealedEq
    simp

def sampleStops : List Stop :=
  [⟨loopback 8, List.Vector.replicate 32 1⟩,
    ⟨loopback 9, List.Vector.replicate 32 2⟩]

def sampleDraws : Draws := fun layer =>
  (List.Vector.replicate 32 (UInt8.ofNat layer), List.Vector.replicate 24 7)

theorem peelRoute_wrapRoute_sample :
    ∃ wire, wrapRoute sampleCrypto sampleDraws (sampleStops.map (Stop.hop sampleCrypto))
        (loopback 10) [1, 2, 3] = .ok wire ∧
      peelRoute sampleCrypto (sampleStops.map Stop.secret) wire =
        .ok ([(.onion, loopback 9), (.onion, loopback 10)],
          [1, 2, 3]) := by
  have succeeds : (wrapRoute sampleCrypto sampleDraws (sampleStops.map (Stop.hop sampleCrypto))
      (loopback 10) [1, 2, 3]).isOk = true := by
    decide +kernel
  cases wrapped : wrapRoute sampleCrypto sampleDraws (sampleStops.map (Stop.hop sampleCrypto))
      (loopback 10) [1, 2, 3] with
  | error error =>
      rw [wrapped] at succeeds
      cases succeeds
  | ok wire =>
      exact ⟨wire, rfl, peelRoute_wrapRoute sampleCrypto sampleCrypto_lawful sampleDraws sampleStops
        _ _ _ wrapped⟩

end Onion

end Ppose

import Ppose.Forwarding.Rendezvous

/-!
# Meeting under a shared secret

Two parties who share a secret derive a token from it and from the hour, register under
the token and look it up (`token_from_psk`).  To the service the token is any 32 bytes.
Nobody else finds them, and they find nobody else: whatever other traffic the service
gets, a lookup is answered with the address which was registered last under the same
secret and the same hour (`secret_finds_peer`), as long as no two of the secrets in use
collide under the hash, and nobody who does not know the secret registers its token.
-/

namespace Ppose

namespace Rendezvous

/-- `ppose-rs` in ASCII. -/
def tokenContext : Bytes := [112, 112, 111, 115, 101, 45, 114, 115]

/-- A pre-shared secret and the hours of its epoch. -/
@[ext]
structure Secret where
  psk : Bytes
  epochHours : UInt64
  deriving DecidableEq

/-- What is hashed into a token. -/
def tokenInput (psk : Bytes) (epochHours : UInt64) : Bytes :=
  tokenContext ++ psk ++ BigEndian.encode 8 epochHours.toNat

/-- Derive a token from a secret. -/
def tokenFromPsk (hash : Bytes → Block 32) (psk : Bytes) (epochHours : UInt64) : Block 32 :=
  hash (tokenInput psk epochHours)

theorem tokenInput_injective {psk other : Bytes} {epoch otherEpoch : UInt64}
    (same : tokenInput psk epoch = tokenInput other otherEpoch) :
    psk = other ∧ epoch = otherEpoch := by
  have lengthEq : (BigEndian.encode 8 epoch.toNat).length =
      (BigEndian.encode 8 otherEpoch.toNat).length := by
    simp
  rcases List.append_inj' same lengthEq with ⟨contextEq, epochEq⟩
  exact ⟨List.append_cancel_left contextEq, BigEndian.encode_uint64_injective epochEq⟩

variable (hash : Bytes → Block 32)

def Secret.token (secret : Secret) : Block 32 := tokenFromPsk hash secret.psk secret.epochHours

/-- What reaches the service: requests under secrets, and anything else. -/
inductive Traffic where
  | register (secret : Secret) (source : SocketAddr) (now registeredAt : Instant)
  | lookup (secret : Secret) (source : SocketAddr) (now registeredAt : Instant)
  | other (event : Event)

def Traffic.event : Traffic → Event
  | .register secret source now registeredAt =>
      ⟨.datagram ((encodeRegister (secret.token hash)).toOption.getD []) source, now,
        registeredAt, true⟩
  | .lookup secret source now registeredAt =>
      ⟨.datagram ((encodeLookup (secret.token hash)).toOption.getD []) source, now,
        registeredAt, true⟩
  | .other event => event

/-- Where the last registration under a secret came from, and when. -/
def latestUnder (secret : Secret) (traffic : List Traffic) : Option (SocketAddr × Instant) :=
  traffic.reverse.findSome? fun
    | .register registered source _ registeredAt =>
        if registered = secret then some (source, registeredAt) else none
    | _ => none

/-- No other secret under which somebody registers has the same token. -/
def Distinguished (secret : Secret) (traffic : List Traffic) : Prop :=
  ∀ other source now registeredAt, .register other source now registeredAt ∈ traffic →
    other.token hash = secret.token hash →
      tokenInput other.psk other.epochHours = tokenInput secret.psk secret.epochHours

/-- Nobody registers the token of the secret but under the secret. -/
def Unguessed (secret : Secret) (traffic : List Traffic) : Prop :=
  ∀ event, .other event ∈ traffic → ∀ source,
    requestOf opRegister event ≠ some (secret.token hash, source)

variable {hash} {secret : Secret} {traffic : List Traffic}

/-! ### The requests are well-formed -/

theorem exists_encoded (op : UInt8) (token : Block 32) :
    ∃ raw, encodeDatagram .rendezvous (op :: token.toList) = .ok raw := by
  apply exists_encodeDatagram_iff.mpr
  rw [List.length_cons, token.toList_length]
  decide

theorem requestOf_unique {event : Event} {op other : UInt8}
    {found otherFound : Block 32 × SocketAddr} (request : requestOf op event = some found)
    (otherRequest : requestOf other event = some otherFound) : op = other := by
  rcases requestOf_eq_some_iff.mp request with ⟨raw, flags, body, received, decoded, _⟩
  rcases requestOf_eq_some_iff.mp otherRequest with
    ⟨otherRaw, otherFlags, otherBody, otherReceived, otherDecoded, _⟩
  rw [received, Received.datagram.injEq] at otherReceived
  rw [← otherReceived.1, decoded, Except.ok.injEq, Prod.mk.injEq, Prod.mk.injEq,
    List.cons.injEq] at otherDecoded
  exact otherDecoded.2.2.1

theorem requestOf_register (secret : Secret) (source : SocketAddr) (now registeredAt : Instant) :
    requestOf opRegister ((Traffic.register secret source now registeredAt).event hash) =
      some (secret.token hash, source) := by
  rcases exists_encoded opRegister (secret.token hash) with ⟨raw, encoded⟩
  have written : encodeRegister (secret.token hash) = .ok raw := encoded
  simp only [Traffic.event, written]
  exact RendezvousService.requestOf_encoded encoded source now registeredAt true

theorem requestOf_lookup (secret : Secret) (source : SocketAddr) (now registeredAt : Instant) :
    requestOf opLookup ((Traffic.lookup secret source now registeredAt).event hash) =
      some (secret.token hash, source) := by
  rcases exists_encoded opLookup (secret.token hash) with ⟨raw, encoded⟩
  have written : encodeLookup (secret.token hash) = .ok raw := encoded
  simp only [Traffic.event, written]
  exact RendezvousService.requestOf_encoded encoded source now registeredAt true

theorem latestUnder_append_singleton (secret : Secret) (traffic : List Traffic) (item : Traffic) :
    latestUnder secret (traffic ++ [item]) =
      match item with
      | .register registered source _ registeredAt =>
          if registered = secret then some (source, registeredAt) else latestUnder secret traffic
      | _ => latestUnder secret traffic := by
  simp only [latestUnder, List.reverse_append, List.reverse_singleton, List.singleton_append,
    List.findSome?_cons]
  cases item with
  | register registered source now registeredAt =>
      by_cases same : registered = secret
      · simp [same]
      · simp [same]
  | lookup => rfl
  | other => rfl

theorem Distinguished.token_eq_iff (distinguished : Distinguished hash secret traffic)
    {other : Secret} {source : SocketAddr} {now registeredAt : Instant}
    (registered : .register other source now registeredAt ∈ traffic) :
    other.token hash = secret.token hash ↔ other = secret := by
  constructor
  · intro sameToken
    rcases tokenInput_injective (distinguished other source now registeredAt registered sameToken)
      with ⟨samePsk, sameEpoch⟩
    exact Secret.ext samePsk sameEpoch
  · rintro rfl
    rfl

/-- The service knows registrations under a secret as those of its token. -/
theorem latest_eq_latestUnder (distinguished : Distinguished hash secret traffic)
    (unguessed : Unguessed hash secret traffic) :
    latest (traffic.map (Traffic.event hash)) (secret.token hash) = latestUnder secret traffic := by
  induction traffic using List.reverseRecOn with
  | nil => rfl
  | append_singleton traffic item ih =>
      have before := ih
        (fun other source now registeredAt earlier =>
          distinguished other source now registeredAt (List.mem_append_left _ earlier))
        (fun event earlier => unguessed event (List.mem_append_left _ earlier))
      have itemMem : item ∈ traffic ++ [item] := by simp
      rw [List.map_append, List.map_singleton, latest_append_singleton,
        latestUnder_append_singleton, before]
      cases item with
      | register registered source now registeredAt =>
          simp only [requestOf_register, distinguished.token_eq_iff itemMem]
          rfl
      | lookup looked source now registeredAt =>
          have noRegister : requestOf opRegister
              ((Traffic.lookup looked source now registeredAt).event hash) = none := by
            cases request : requestOf opRegister
              ((Traffic.lookup looked source now registeredAt).event hash) with
            | none => rfl
            | some found =>
                have sameOp := requestOf_unique request (requestOf_lookup looked source now _)
                exact absurd sameOp (by decide)
          rw [noRegister]
      | other event =>
          have isOther : (Traffic.other event).event hash = event := rfl
          rw [isOther]
          cases request : requestOf opRegister event with
          | none => rfl
          | some found =>
              have otherToken : found.1 ≠ secret.token hash := by
                rintro sameToken
                exact unguessed event itemMem found.2 (by rw [← sameToken, request])
              exact if_neg otherToken

/--
A lookup under a secret is answered with the IPv4 address which was registered last under
the same secret and hour, if that is younger than `ttl`, and with no address otherwise,
whatever else the service was sent; nobody without the secret may have registered its token.
-/
theorem secret_finds_peer (hash : Bytes → Block 32) (ttl : Duration) (traffic : List Traffic)
    (secret : Secret) (source : SocketAddr) (now registeredAt : Instant)
    (distinguished : Distinguished hash secret traffic) (unguessed : Unguessed hash secret traffic)
    (monotone : ClockedRun.Monotone Event.reads
      ((traffic ++ [Traffic.lookup secret source now registeredAt]).map (Traffic.event hash))) :
    (RendezvousService.run ttl (traffic.map (Traffic.event hash))).answer
        ((Traffic.lookup secret source now registeredAt).event hash) =
      match latestUnder secret traffic with
      | some (.v4 ip port, time) => if now - time < ttl then some (.v4 ip port) else none
      | _ => none := by
  rw [List.map_append, List.map_singleton] at monotone
  rcases RendezvousService.exists_reply_run ttl monotone
    (requestOf_lookup secret source now registeredAt) rfl with ⟨packet, sent, reads⟩
  rw [latest_eq_latestUnder distinguished unguessed] at reads
  simp only [RendezvousService.answer, sent, Option.bind_some]
  apply Option.ext
  intro addr
  rw [reads]
  have clock : ((Traffic.lookup secret source now registeredAt).event hash).now = now := rfl
  rw [clock]
  rcases latestUnder secret traffic with _ | ⟨_ | _, time⟩
  · simp
  · rename_i ip port
    dsimp only
    constructor
    · rintro ⟨ip', port', time', rfl, found, recent⟩
      cases found
      rw [if_pos recent]
    · intro found
      split_ifs at found with recent
      cases found
      exact ⟨ip, port, time, rfl, rfl, recent⟩
  · constructor
    · rintro ⟨ip, port, time', rfl, found, _⟩
      cases found
    · intro found
      cases found

/-- The first bytes of the input, filled up with zeros. -/
def sampleHash (input : Bytes) : Block 32 := blockAt 32 0 (input ++ List.replicate 32 0)

def sampleSecret : Secret := ⟨[1, 2, 3], 480000⟩

/-- Two registrations under different hours of one secret, and noise. -/
def sampleTraffic : List Traffic :=
  [.register sampleSecret (loopback 7000) 1 1,
    .register { sampleSecret with epochHours := 480001 } (loopback 7001) 2 2,
    .other ⟨.datagram [1, 2, 3] (loopback 7002), 3, 3, true⟩]

theorem secret_finds_peer_sample :
    (RendezvousService.run 60000000000 (sampleTraffic.map (Traffic.event sampleHash))).answer
        ((Traffic.lookup sampleSecret (loopback 7003) 4 4).event sampleHash) =
      some (loopback 7000) := by
  have distinguished : Distinguished sampleHash sampleSecret sampleTraffic := by
    intro other source now registeredAt registered sameToken
    simp only [sampleTraffic, List.mem_cons, Traffic.register.injEq, reduceCtorEq,
      List.not_mem_nil, or_false] at registered
    rcases registered with ⟨rfl, _⟩ | ⟨rfl, _⟩
    · rfl
    · exact absurd sameToken (by decide +kernel)
  have unguessed : Unguessed sampleHash sampleSecret sampleTraffic := by
    intro event present source
    simp only [sampleTraffic, List.mem_cons, Traffic.other.injEq, reduceCtorEq,
      List.not_mem_nil, or_false, false_or] at present
    subst present
    have noRequest : requestOf opRegister ⟨.datagram [1, 2, 3] (loopback 7002), 3, 3, true⟩ =
        none := by
      decide +kernel
    rw [noRequest]
    simp
  exact secret_finds_peer sampleHash 60000000000 sampleTraffic sampleSecret (loopback 7003) 4 4
    distinguished unguessed (by decide +kernel)

end Rendezvous

end Ppose

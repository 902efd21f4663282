import Ppose.Forwarding.OnionRelay
import Ppose.Forwarding.Relay
import Mathlib.Data.List.Chain

/-!
# Networks of forwarders

Relays and onion hops have the same core: they find an inner datagram in what arrives,
ask the replay cache for it and send something on.  What is found is an `Offer`, which
depends only on the role of the forwarder, and `forwardOffer` is the rest
(`Forwarder.step_spec`).

A `Mesh` is any number of forwarders, which take steps in any order with whatever arrives at
them, and a log of what they have forwarded.  A datagram cannot go round in it
(`trail_bounded`): onion hops make it shorter, relays leave the inner datagram as it is and
forward it once, and an onion hop takes nothing from a relay.
-/

namespace Ppose

/-- What a forwarder finds in a datagram: the inner datagram, and what it would send on. -/
structure Offer where
  received : Bytes
  inner : Bytes
  out : Option (SocketAddr × Bytes)

/-- Send on what is offered, unless its inner datagram was seen recently. -/
def forwardOffer (hash : Bytes → Block 32) (cache : ReplayCache) (env : StepEnv) :
    Option Offer → Option (SocketAddr × Bytes) × ReplayCache
  | none => (none, cache)
  | some offer =>
      match cache.accept hash env.order offer.inner env.now with
      | (false, cache) => (none, cache)
      | (true, cache) => (if env.socketOk then offer.out else none, cache)

theorem Stepped.sent_transmit {Service : Type} (socketOk : Bool) (dest : SocketAddr)
    (packet : Bytes) (service : Service) :
    (transmit socketOk dest packet service).sent =
      if socketOk then some (dest, packet) else none := by
  unfold transmit
  split_ifs <;> rfl

theorem Stepped.service_transmit {Service : Type} (socketOk : Bool) (dest : SocketAddr)
    (packet : Bytes) (service : Service) :
    (transmit socketOk dest packet service).service = service := by
  unfold transmit
  split_ifs <;> rfl

namespace Relay

/-- What a relay finds in a datagram. -/
def offer : Received → Option Offer
  | .datagram raw source =>
      match decodeOuter (raw.take maxDatagram) with
      | .ok (.forward, _, body) =>
          match decodeForwardBody body with
          | .ok (dest, inner) =>
              some
                { received := raw.take maxDatagram
                  inner
                  out := (encodeForwardBody source inner).toOption.map fun outBody =>
                    (dest, encodeOuter .forward 0 ++ outBody) }
          | .error _ => none
      | _ => none
  | _ => none

/-- A relay finds something in forward datagrams only. -/
theorem exists_of_offer {received : Received} {found : Offer}
    (offered : offer received = some found) :
    ∃ raw source flags body dest inner, received = .datagram raw source ∧
      decodeOuter (raw.take maxDatagram) = .ok (.forward, flags, body) ∧
      decodeForwardBody body = .ok (dest, inner) ∧
      found = { received := raw.take maxDatagram, inner,
                out := (encodeForwardBody source inner).toOption.map fun outBody =>
                  (dest, encodeOuter .forward 0 ++ outBody) } := by
  simp only [offer] at offered
  split at offered
  · split at offered
    · rename_i decoded
      split at offered
      · rename_i split
        cases offered
        exact ⟨_, _, _, _, _, _, rfl, decoded, split, rfl⟩
      · cases offered
    · cases offered
  · cases offered

theorem step_spec (hash : Bytes → Block 32) (relay : Relay) (env : StepEnv) (received : Received) :
    (relay.step hash env received).sent =
        (forwardOffer hash relay.replay env (offer received)).1 ∧
      (relay.step hash env received).service.replay =
        (forwardOffer hash relay.replay env (offer received)).2 := by
  cases received with
  | timedOut => exact ⟨rfl, rfl⟩
  | failed => exact ⟨rfl, rfl⟩
  | datagram raw source =>
      simp only [step, Stepped.receiving, offer]
      cases decodeOuter (raw.take maxDatagram) with
      | error error => exact ⟨rfl, rfl⟩
      | ok decoded =>
          rcases decoded with ⟨packetType, flags, body⟩
          by_cases isForward : packetType = .forward
          · subst isForward
            simp only [ne_eq, not_true_eq_false, if_false]
            cases decodeForwardBody body with
            | error error => exact ⟨rfl, rfl⟩
            | ok split =>
                rcases split with ⟨dest, inner⟩
                simp only [forwardOffer]
                rcases relay.replay.accept hash env.order inner env.now with ⟨fresh, cache⟩
                cases fresh with
                | false => exact ⟨rfl, rfl⟩
                | true =>
                    cases encodeForwardBody source inner with
                    | error error => simp [Except.toOption, Stepped.ignored]
                    | ok outBody =>
                        simp only [Except.toOption, Option.map_some, Stepped.sent_transmit,
                          Stepped.service_transmit, and_self]
          · simp only [ne_eq, isForward, not_false_eq_true, if_true]
            cases packetType <;> first | exact absurd rfl isForward | exact ⟨rfl, rfl⟩

end Relay

namespace OnionRelay

open Onion

/-- What an onion hop finds in a datagram. -/
def offer (crypto : OnionCrypto) (secret : Block 32) : Received → Option Offer
  | .datagram raw _ =>
      match decodeOuter (raw.take maxDatagram) with
      | .ok (.onion, _, body) =>
          match peelLayer crypto secret body with
          | .ok peeled =>
              some
                { received := raw.take maxDatagram
                  inner := peeled.payload
                  out :=
                    if maxDatagram < peeled.payload.length then none
                    else some (peeled.next, peeled.payload) }
          | .error _ => none
      | _ => none
  | _ => none

/-- An onion hop finds something in onion datagrams only. -/
theorem exists_of_offer {crypto : OnionCrypto} {secret : Block 32} {received : Received}
    {found : Offer} (offered : offer crypto secret received = some found) :
    ∃ raw source flags body peeled, received = .datagram raw source ∧
      decodeOuter (raw.take maxDatagram) = .ok (.onion, flags, body) ∧
      peelLayer crypto secret body = .ok peeled ∧
      found = { received := raw.take maxDatagram, inner := peeled.payload,
                out := if maxDatagram < peeled.payload.length then none
                  else some (peeled.next, peeled.payload) } := by
  simp only [offer] at offered
  split at offered
  · split at offered
    · rename_i decoded
      split at offered
      · rename_i peels
        cases offered
        exact ⟨_, _, _, _, _, rfl, decoded, peels, rfl⟩
      · cases offered
    · cases offered
  · cases offered

theorem step_spec (crypto : OnionCrypto) (relay : OnionRelay) (env : StepEnv)
    (received : Received) :
    (relay.step crypto env received).sent =
        (forwardOffer crypto.hash relay.replay env (offer crypto relay.secret received)).1 ∧
      (relay.step crypto env received).service =
        { relay with
          replay :=
            (forwardOffer crypto.hash relay.replay env
              (offer crypto relay.secret received)).2 } := by
  cases received with
  | timedOut => exact ⟨rfl, rfl⟩
  | failed => exact ⟨rfl, rfl⟩
  | datagram raw source =>
      simp only [step, Stepped.receiving, offer]
      cases decodeOuter (raw.take maxDatagram) with
      | error error => exact ⟨rfl, rfl⟩
      | ok decoded =>
          rcases decoded with ⟨packetType, flags, body⟩
          by_cases isOnion : packetType = .onion
          · subst isOnion
            simp only [ne_eq, not_true_eq_false, if_false]
            cases peelLayer crypto relay.secret body with
            | error error => exact ⟨rfl, rfl⟩
            | ok peeled =>
                simp only [forwardOffer]
                rcases relay.replay.accept crypto.hash env.order peeled.payload env.now with
                  ⟨fresh, cache⟩
                cases fresh with
                | false => exact ⟨rfl, rfl⟩
                | true =>
                    by_cases large : maxDatagram < peeled.payload.length
                    · simp [large, Stepped.ignored]
                    · simp only [large, if_false, Stepped.sent_transmit, Stepped.service_transmit,
                        and_self]
          · simp only [ne_eq, isOnion, not_false_eq_true, if_true]
            cases packetType <;> first | exact absurd rfl isOnion | exact ⟨rfl, rfl⟩

end OnionRelay

/-! ### Forwarders of both kinds -/

inductive Role where
  | relay
  /-- An onion hop with its secret key. -/
  | onion (secret : Block 32)
  deriving DecidableEq

def Role.offer (crypto : OnionCrypto) : Role → Received → Option Offer
  | .relay => Relay.offer
  | .onion secret => OnionRelay.offer crypto secret

inductive Forwarder where
  | relay (relay : Relay)
  | onion (hop : OnionRelay)

namespace Forwarder

def bind : Role → Forwarder
  | .relay => .relay Relay.bind
  | .onion secret => .onion (OnionRelay.bind secret)

def role : Forwarder → Role
  | .relay _ => .relay
  | .onion hop => .onion hop.secret

def replay : Forwarder → ReplayCache
  | .relay service => service.replay
  | .onion hop => hop.replay

def step (crypto : OnionCrypto) (env : StepEnv) (received : Received) :
    Forwarder → Option (SocketAddr × Bytes) × Forwarder
  | .relay service =>
      let stepped := service.step crypto.hash env received
      (stepped.sent, .relay stepped.service)
  | .onion hop =>
      let stepped := hop.step crypto env received
      (stepped.sent, .onion stepped.service)

/-- Both kinds of forwarders do the same with what they are offered. -/
theorem step_spec (crypto : OnionCrypto) (forwarder : Forwarder) (env : StepEnv)
    (received : Received) :
    (forwarder.step crypto env received).1 = (forwardOffer crypto.hash forwarder.replay env
        (forwarder.role.offer crypto received)).1 ∧
      (forwarder.step crypto env received).2.replay = (forwardOffer crypto.hash forwarder.replay env
        (forwarder.role.offer crypto received)).2 ∧
      (forwarder.step crypto env received).2.role = forwarder.role := by
  cases forwarder with
  | relay service =>
      rcases Relay.step_spec crypto.hash service env received with ⟨sentEq, replayEq⟩
      exact ⟨sentEq, replayEq, rfl⟩
  | onion hop =>
      rcases OnionRelay.step_spec crypto hop env received with ⟨sentEq, serviceEq⟩
      refine ⟨sentEq, ?_, ?_⟩
      · simp only [step, replay, serviceEq]
        rfl
      · simp only [step, role, serviceEq]

end Forwarder

/-! ### The mesh -/

/-- One datagram which was sent on. -/
structure Forwarding (ι : Type) where
  node : ι
  now : Instant
  received : Bytes
  inner : Bytes
  sent : Bytes

/-- Forwarders, the keys which each of them has accepted, and what they have sent on. -/
structure Mesh (ι : Type) where
  forwarder : ι → Forwarder
  accepted : ι → List (Block 16 × Instant)
  log : List (Forwarding ι)

/-- A forwarder takes a step. -/
structure Visit (ι : Type) where
  node : ι
  env : StepEnv
  received : Received

def Visit.reads {ι : Type} (visit : Visit ι) : List Instant := [visit.env.now]

/-- How the replay cache is asked for an offer. -/
def Visit.call {ι : Type} (visit : Visit ι) (offer : Offer) : ReplayCache.Call where
  inner := offer.inner
  now := visit.env.now
  order := visit.env.order

/-- What the log keeps of an offer which was sent on. -/
def Visit.forwarding {ι : Type} (visit : Visit ι) (offer : Offer) (packet : Bytes) :
    Forwarding ι where
  node := visit.node
  now := visit.env.now
  received := offer.received
  inner := offer.inner
  sent := packet

namespace Mesh

variable {ι : Type} [DecidableEq ι]

def start (roles : ι → Role) : Mesh ι where
  forwarder node := Forwarder.bind (roles node)
  accepted _ := []
  log := []

/-- The replay cache of a forwarder with what it has accepted. -/
def record (mesh : Mesh ι) (node : ι) : ReplayCache.Record where
  cache := (mesh.forwarder node).replay
  accepted := mesh.accepted node

def step (crypto : OnionCrypto) (mesh : Mesh ι) (visit : Visit ι) : Mesh ι :=
  let forwarder := mesh.forwarder visit.node
  let (sent, after) := forwarder.step crypto visit.env visit.received
  let next := { mesh with forwarder := Function.update mesh.forwarder visit.node after }
  match forwarder.role.offer crypto visit.received with
  | none => next
  | some offer =>
      let record := (mesh.record visit.node).step crypto.hash (visit.call offer)
      let next := { next with accepted := Function.update mesh.accepted visit.node record.accepted }
      match sent with
      | none => next
      | some (_, packet) => { next with log := mesh.log ++ [visit.forwarding offer packet] }

def run (crypto : OnionCrypto) (roles : ι → Role) (visits : List (Visit ι)) : Mesh ι :=
  visits.foldl (step crypto) (start roles)

end Mesh

/-! ### What a forwarder does to a datagram -/

/--
A relay replaces the address in front of the inner datagram; an onion hop takes something
which no relay could forward and makes it shorter.
-/
def Forwarding.IsBy {ι : Type} (forwarding : Forwarding ι) : Role → Prop
  | .relay =>
      (∃ dest, carried forwarding.received = some (dest, forwarding.inner)) ∧
        ∃ source, carried forwarding.sent = some (source, forwarding.inner)
  | .onion _ =>
      carried forwarding.received = none ∧
        forwarding.received.length = forwarding.sent.length + Onion.hopOverhead

theorem Relay.carried_of_offer {received : Received} {offer : Offer} {dest : SocketAddr}
    {packet : Bytes} (offered : Relay.offer received = some offer)
    (out : offer.out = some (dest, packet)) :
    carried offer.received = some (dest, offer.inner) ∧
      ∃ source, carried packet = some (source, offer.inner) := by
  rcases Relay.exists_of_offer offered with
    ⟨raw, source, flags, body, target, inner, _, decoded, split, rfl⟩
  cases encoded : encodeForwardBody source inner with
  | error error => simp [encoded, Except.toOption] at out
  | ok outBody =>
      simp only [encoded, Except.toOption, Option.map_some, Option.some.injEq,
        Prod.mk.injEq] at out
      rcases out with ⟨rfl, rfl⟩
      have resplit := decodeForwardBody_of_encodeForwardBody encoded
      refine ⟨?_, source, ?_⟩
      · simp only [carried, decoded, split, Except.toOption]
      · simp only [carried, decodeOuter_encodeOuter, resplit, Except.toOption]

theorem OnionRelay.shortens_of_offer {crypto : OnionCrypto} (sized : crypto.Sized)
    {secret : Block 32} {received : Received} {offer : Offer} {dest : SocketAddr} {packet : Bytes}
    (offered : OnionRelay.offer crypto secret received = some offer)
    (out : offer.out = some (dest, packet)) :
    carried offer.received = none ∧
      offer.received.length = packet.length + Onion.hopOverhead := by
  rcases OnionRelay.exists_of_offer offered with
    ⟨raw, source, flags, body, peeled, _, decoded, peels, rfl⟩
  have receivedLength := length_of_decodeOuter decoded
  have bodyLength := Onion.length_of_peelLayer sized peels
  simp only at out
  split_ifs at out
  simp only [Option.some.injEq, Prod.mk.injEq] at out
  rcases out with ⟨rfl, rfl⟩
  refine ⟨?_, ?_⟩
  · simp only [carried, decoded]
  · simp only [Onion.hopOverhead, receivedLength, bodyLength]
    omega

theorem length_received_of_offer {crypto : OnionCrypto} {role : Role} {received : Received}
    {offer : Offer} (offered : role.offer crypto received = some offer) :
    offer.received.length ≤ maxDatagram := by
  cases role with
  | relay =>
      rcases Relay.exists_of_offer offered with ⟨raw, _, _, _, _, _, _, _, _, rfl⟩
      exact List.length_take_le _ _
  | onion secret =>
      rcases OnionRelay.exists_of_offer offered with ⟨raw, _, _, _, _, _, _, _, rfl⟩
      exact List.length_take_le _ _

theorem Forwarding.isBy_of_offer {ι : Type} {crypto : OnionCrypto} (sized : crypto.Sized)
    {role : Role} {received : Received} {offer : Offer} {dest : SocketAddr} {packet : Bytes}
    (offered : role.offer crypto received = some offer) (out : offer.out = some (dest, packet))
    (visit : Visit ι) : (visit.forwarding offer packet).IsBy role := by
  cases role with
  | relay =>
      rcases Relay.carried_of_offer offered out with ⟨before, after⟩
      exact ⟨⟨dest, before⟩, after⟩
  | onion secret => exact OnionRelay.shortens_of_offer sized offered out

/-! ### What the filters let through -/

namespace ReplayCache

variable {hash : Bytes → Block 32} {ttl : Duration} {cap : ℕ} {now later : Instant}
  {record : Record}

theorem Guarded.wait (guarded : Guarded ttl cap now record) (notBefore : now ≤ later) :
    Guarded ttl cap later record where
  ttl_eq := guarded.ttl_eq
  cap_eq := guarded.cap_eq
  size_le := guarded.size_le
  stored_accepted := guarded.stored_accepted
  accepted_le key time accepted := (guarded.accepted_le key time accepted).trans notBefore
  remembered := by
    intro key time accepted recent
    have recentBefore : now - time < ttl := (Nat.sub_le_sub_right notBefore time).trans_lt recent
    rcases guarded.remembered key time accepted recentBefore with stored | crowded
    · exact Or.inl stored
    · exact Or.inr (crowded.trans (Finset.card_le_card
        (othersWithin_subset (List.Subset.refl _) notBefore)))

theorem Record.mem_accepted_step {call : Call}
    (passes : (record.cache.accept hash call.order call.inner call.now).1 = true) :
    (keyOf hash call.inner, call.now) ∈ (record.step hash call).accepted := by
  unfold Record.step
  split
  · simp
  · rename_i cache accepted
    rw [accepted] at passes
    cases passes

/-- What passes the filter was accepted long ago or before many others. -/
theorem Guarded.spaced_of_accept (guarded : Guarded ttl cap now record) {call : Call}
    (notBefore : now ≤ call.now)
    (passes : (record.cache.accept hash call.order call.inner call.now).1 = true) {time : Instant}
    (accepted : (keyOf hash call.inner, time) ∈ record.accepted) :
    ttl ≤ call.now - time ∨
      cap ≤ (othersWithin record.accepted (keyOf hash call.inner) time call.now).card := by
  rcases Nat.lt_or_ge (call.now - time) ttl with recent | old
  · rcases (guarded.expire notBefore).remembered _ time accepted recent with
      ⟨last, _, stored⟩ | crowded
    · have seen : keyOf hash call.inner ∈ (record.cache.expire call.now).seen := by
        rw [← AList.lookup_isSome, stored]
        rfl
      rw [accept_eq_false_iff.mpr seen] at passes
      cases passes
    · exact Or.inr crowded
  · exact Or.inl old

end ReplayCache

namespace Mesh

open ReplayCache

variable {ι : Type}

/-- A forwarder which sends the same on again has waited, or has accepted much in between. -/
def Spaced (hash : Bytes → Block 32) (mesh : Mesh ι) (earlier later : Forwarding ι) : Prop :=
  earlier.node = later.node → keyOf hash earlier.inner = keyOf hash later.inner →
    defaultTtl ≤ later.now - earlier.now ∨
      defaultCap ≤ (othersWithin (mesh.accepted earlier.node) (keyOf hash earlier.inner)
        earlier.now later.now).card

/-- What holds of a mesh at any time. -/
structure Disciplined (crypto : OnionCrypto) (roles : ι → Role) (now : Instant) (mesh : Mesh ι) :
    Prop where
  role_eq : ∀ node, (mesh.forwarder node).role = roles node
  guarded : ∀ node, Guarded defaultTtl defaultCap now (mesh.record node)
  recorded : ∀ entry ∈ mesh.log,
    (keyOf crypto.hash entry.inner, entry.now) ∈ mesh.accepted entry.node
  spaced : mesh.log.Pairwise (Spaced crypto.hash mesh)
  isBy : ∀ entry ∈ mesh.log, entry.IsBy (roles entry.node)
  received_le : ∀ entry ∈ mesh.log, entry.received.length ≤ maxDatagram

variable {crypto : OnionCrypto} {roles : ι → Role} {now later : Instant} {mesh : Mesh ι}

theorem disciplined_start (roles : ι → Role) : (start roles).Disciplined crypto roles 0 where
  role_eq node := by
    simp only [start, Forwarder.bind]
    cases roles node <;> rfl
  guarded node := by
    have cacheEq : (Forwarder.bind (roles node)).replay = withBounds defaultTtl defaultCap := by
      simp only [Forwarder.bind]
      cases roles node <;> rfl
    simp only [record, start, cacheEq]
    exact guarded_initial _ _
  recorded := by simp [start]
  spaced := .nil
  isBy := by simp [start]
  received_le := by simp [start]

theorem Disciplined.wait (disciplined : mesh.Disciplined crypto roles now)
    (notBefore : now ≤ later) : mesh.Disciplined crypto roles later :=
  { disciplined with guarded := fun node => (disciplined.guarded node).wait notBefore }

section

variable [DecidableEq ι] (crypto : OnionCrypto) (mesh : Mesh ι) (visit : Visit ι)

theorem forwarder_step (node : ι) :
    (mesh.step crypto visit).forwarder node =
      if node = visit.node then
        ((mesh.forwarder node).step crypto visit.env visit.received).2
      else mesh.forwarder node := by
  have updated : ∀ other : Mesh ι, other.forwarder = Function.update mesh.forwarder visit.node
      ((mesh.forwarder visit.node).step crypto visit.env visit.received).2 →
      other.forwarder node = if node = visit.node then
        ((mesh.forwarder node).step crypto visit.env visit.received).2
      else mesh.forwarder node := by
    intro other eq
    rw [eq]
    by_cases same : node = visit.node
    · subst same
      rw [Function.update_self, if_pos rfl]
    · rw [Function.update_of_ne same, if_neg same]
  apply updated
  simp only [step]
  split
  · rfl
  · split <;> rfl

/-- The cache is asked for what is offered. -/
theorem record_step_self :
    (mesh.step crypto visit).record visit.node =
      match (mesh.forwarder visit.node).role.offer crypto visit.received with
      | none => mesh.record visit.node
      | some offer => (mesh.record visit.node).step crypto.hash (visit.call offer) := by
  rcases Forwarder.step_spec crypto (mesh.forwarder visit.node) visit.env visit.received with
    ⟨_, replayEq, _⟩
  simp only [record, forwarder_step, if_true, replayEq]
  cases offered : (mesh.forwarder visit.node).role.offer crypto visit.received with
  | none => simp only [forwardOffer, step, offered]
  | some offer =>
      have acceptedEq : (mesh.step crypto visit).accepted visit.node =
          ((mesh.record visit.node).step crypto.hash (visit.call offer)).accepted := by
        simp only [step, offered]
        split <;> simp
      simp only [acceptedEq]
      simp only [forwardOffer, Record.step, record, Visit.call]
      rcases (mesh.forwarder visit.node).replay.accept crypto.hash visit.env.order offer.inner
        visit.env.now with ⟨fresh, cache⟩
      cases fresh <;> rfl

theorem record_step_other {node : ι} (other : node ≠ visit.node) :
    (mesh.step crypto visit).record node = mesh.record node := by
  have acceptedEq : (mesh.step crypto visit).accepted node = mesh.accepted node := by
    simp only [step]
    split
    · rfl
    · split <;> simp [other]
  simp only [record, forwarder_step, if_neg other, acceptedEq]

/-- The log grows by what was offered and has passed the filter. -/
theorem log_step :
    (mesh.step crypto visit).log = mesh.log ∨
      ∃ offer dest packet,
        (mesh.forwarder visit.node).role.offer crypto visit.received = some offer ∧
        offer.out = some (dest, packet) ∧
        ((mesh.record visit.node).cache.accept crypto.hash (visit.call offer).order
          (visit.call offer).inner (visit.call offer).now).1 = true ∧
        (mesh.step crypto visit).log = mesh.log ++ [visit.forwarding offer packet] := by
  rcases Forwarder.step_spec crypto (mesh.forwarder visit.node) visit.env visit.received with
    ⟨sentEq, _, _⟩
  cases offered : (mesh.forwarder visit.node).role.offer crypto visit.received with
  | none =>
      left
      simp only [step, offered]
  | some offer =>
      simp only [step, offered, sentEq, forwardOffer, record, Visit.call]
      rcases accepted : (mesh.forwarder visit.node).replay.accept crypto.hash visit.env.order
        offer.inner visit.env.now with ⟨fresh, cache⟩
      cases fresh with
      | false => exact Or.inl rfl
      | true =>
          cases visit.env.socketOk with
          | false => exact Or.inl rfl
          | true =>
              cases out : offer.out with
              | none => exact Or.inl rfl
              | some target =>
                  exact Or.inr ⟨offer, target.1, target.2, rfl, out, by rw [accepted], rfl⟩

end

theorem accepted_subset_step [DecidableEq ι] (crypto : OnionCrypto) (mesh : Mesh ι)
    (visit : Visit ι) (node : ι) :
    mesh.accepted node ⊆ (mesh.step crypto visit).accepted node := by
  by_cases same : node = visit.node
  · subst same
    have recordEq := congrArg Record.accepted (record_step_self crypto mesh visit)
    simp only [record] at recordEq
    rw [recordEq]
    split
    · exact List.Subset.refl _
    · simp only [Record.step]
      split
      · exact List.subset_append_left _ _
      · exact List.Subset.refl _
  · have recordEq := congrArg Record.accepted (record_step_other crypto mesh visit same)
    simp only [record] at recordEq
    rw [recordEq]
    exact List.Subset.refl _

theorem Spaced.of_subset {hash : Bytes → Block 32} {after : Mesh ι} {earlier later : Forwarding ι}
    (spaced : mesh.Spaced hash earlier later)
    (grows : mesh.accepted earlier.node ⊆ after.accepted earlier.node) :
    after.Spaced hash earlier later := by
  intro sameNode sameKey
  rcases spaced sameNode sameKey with waited | crowded
  · exact Or.inl waited
  · exact Or.inr (crowded.trans (Finset.card_le_card (othersWithin_subset grows le_rfl)))

theorem Disciplined.step [DecidableEq ι] (sized : crypto.Sized)
    (disciplined : mesh.Disciplined crypto roles now) {visit : Visit ι}
    (notBefore : now ≤ visit.env.now) :
    (mesh.step crypto visit).Disciplined crypto roles visit.env.now := by
  have grows := accepted_subset_step crypto mesh visit
  have guarded : ∀ node, Guarded defaultTtl defaultCap visit.env.now
      ((mesh.step crypto visit).record node) := by
    intro node
    by_cases same : node = visit.node
    · subst same
      rw [record_step_self]
      split
      · exact (disciplined.guarded _).wait notBefore
      · rename_i offer _
        have callNotBefore : now ≤ (visit.call offer).now := notBefore
        exact (disciplined.guarded _).step (by decide) callNotBefore
    · rw [record_step_other crypto mesh visit same]
      exact (disciplined.guarded node).wait notBefore
  have role_eq : ∀ node, ((mesh.step crypto visit).forwarder node).role = roles node := by
    intro node
    rw [forwarder_step, ← disciplined.role_eq node]
    split_ifs
    · exact (Forwarder.step_spec crypto (mesh.forwarder node) visit.env visit.received).2.2
    · rfl
  have recorded : ∀ entry ∈ mesh.log, (keyOf crypto.hash entry.inner, entry.now) ∈
      (mesh.step crypto visit).accepted entry.node :=
    fun entry entryMem => grows _ (disciplined.recorded entry entryMem)
  have spaced : mesh.log.Pairwise ((mesh.step crypto visit).Spaced crypto.hash) :=
    disciplined.spaced.imp fun spaced => spaced.of_subset (grows _)
  rcases log_step crypto mesh visit with
    same | ⟨offer, dest, packet, offered, out, passes, logEq⟩
  · refine ⟨role_eq, guarded, ?_, ?_, ?_, ?_⟩
    · rw [same]
      exact recorded
    · rw [same]
      exact spaced
    · rw [same]
      exact disciplined.isBy
    · rw [same]
      exact disciplined.received_le
  · refine ⟨role_eq, guarded, ?_, ?_, ?_, ?_⟩
    · rw [logEq]
      intro entry entryMem
      rcases List.mem_append.mp entryMem with old | new
      · exact recorded entry old
      · rw [List.mem_singleton.mp new]
        have recordEq := congrArg Record.accepted (record_step_self crypto mesh visit)
        simp only [offered] at recordEq
        have isNew := Record.mem_accepted_step passes
        rw [← recordEq] at isNew
        exact isNew
    · rw [logEq, List.pairwise_append]
      refine ⟨spaced, List.pairwise_singleton _ _, ?_⟩
      intro earlier earlierMem entry entryMem
      rw [List.mem_singleton.mp entryMem]
      refine Spaced.of_subset ?_ (grows _)
      intro sameNode sameKey
      have earlierRecorded := disciplined.recorded earlier earlierMem
      rw [sameKey, sameNode] at earlierRecorded
      rw [sameKey, sameNode]
      have callNotBefore : now ≤ (visit.call offer).now := notBefore
      exact (disciplined.guarded visit.node).spaced_of_accept callNotBefore passes earlierRecorded
    · rw [logEq]
      intro entry entryMem
      rcases List.mem_append.mp entryMem with old | new
      · exact disciplined.isBy entry old
      · rw [List.mem_singleton.mp new]
        rw [disciplined.role_eq] at offered
        exact Forwarding.isBy_of_offer sized offered out visit
    · rw [logEq]
      intro entry entryMem
      rcases List.mem_append.mp entryMem with old | new
      · exact disciplined.received_le entry old
      · rw [List.mem_singleton.mp new]
        exact length_received_of_offer offered

theorem disciplined_run [DecidableEq ι] (sized : crypto.Sized) (roles : ι → Role)
    {visits : List (Visit ι)} (monotone : ClockedRun.Monotone Visit.reads visits) :
    (run crypto roles visits).Disciplined crypto roles (ClockedRun.last Visit.reads visits) := by
  refine ClockedRun.invariant (disciplined_start roles) ?_ visits monotone
  intro now mesh visit disciplined sorted
  exact disciplined.step sized
    ((List.pairwise_cons.mp sorted).1 visit.env.now (by simp [Visit.reads]))

/-! ### Trails -/

/-- Each forwarder has received what the one before it has sent. -/
def IsTrail (trail : List (Forwarding ι)) : Prop :=
  trail.IsChain fun earlier later => later.received = earlier.sent

instance decidableIsTrail (trail : List (Forwarding ι)) : Decidable (IsTrail trail) :=
  inferInstanceAs (Decidable (trail.IsChain fun earlier later => later.received = earlier.sent))

/-- A relay is followed by relays only, and the inner datagram stays the same. -/
theorem relays_after {first : Forwarding ι} {rest : List (Forwarding ι)}
    (isTrail : IsTrail (first :: rest))
    (isBy : ∀ entry ∈ first :: rest, entry.IsBy (roles entry.node))
    (firstRelay : roles first.node = .relay) :
    ∀ entry ∈ rest, roles entry.node = .relay ∧ entry.inner = first.inner := by
  induction rest generalizing first with
  | nil => simp
  | cons next rest ih =>
      rcases List.isChain_cons_cons.mp isTrail with ⟨passedOn, restTrail⟩
      have firstIsBy := isBy first List.mem_cons_self
      have nextIsBy := isBy next (by simp)
      rw [firstRelay] at firstIsBy
      rcases firstIsBy.2 with ⟨source, sentEq⟩
      rw [← passedOn] at sentEq
      have nextRelay : roles next.node = .relay ∧ next.inner = first.inner := by
        cases role : roles next.node with
        | relay =>
            rw [role] at nextIsBy
            rcases nextIsBy.1 with ⟨dest, receivedEq⟩
            rw [receivedEq, Option.some.injEq, Prod.mk.injEq] at sentEq
            exact ⟨rfl, sentEq.2⟩
        | onion secret =>
            rw [role] at nextIsBy
            rw [nextIsBy.1] at sentEq
            cases sentEq
      have later := ih restTrail
        (fun entry entryMem => isBy entry (List.mem_cons_of_mem _ entryMem)) nextRelay.1
      intro entry entryMem
      rcases List.mem_cons.mp entryMem with rfl | inRest
      · exact nextRelay
      · exact ⟨(later entry inRest).1, (later entry inRest).2.trans nextRelay.2⟩

/-- Every onion hop takes its layer off, so there was room for all of them. -/
theorem length_onions {first : Forwarding ι} {rest : List (Forwarding ι)}
    (isTrail : IsTrail (first :: rest))
    (isBy : ∀ entry ∈ first :: rest, entry.IsBy (roles entry.node)) :
    Onion.hopOverhead * (first :: rest).countP (fun entry => roles entry.node ≠ .relay) ≤
      first.received.length := by
  induction rest generalizing first with
  | nil =>
      have firstIsBy := isBy first List.mem_cons_self
      cases role : roles first.node with
      | relay => simp [role]
      | onion secret =>
          rw [role] at firstIsBy
          simp only [List.countP_singleton, role, ne_eq, reduceCtorEq, not_false_eq_true,
            decide_true, if_true]
          rw [firstIsBy.2]
          omega
  | cons next rest ih =>
      rcases List.isChain_cons_cons.mp isTrail with ⟨passedOn, restTrail⟩
      have firstIsBy := isBy first List.mem_cons_self
      have later := ih restTrail fun entry entryMem =>
        isBy entry (List.mem_cons_of_mem _ entryMem)
      cases role : roles first.node with
      | relay =>
          have relays := relays_after isTrail isBy role
          have none : (first :: next :: rest).countP (fun entry => roles entry.node ≠ .relay) =
              0 := by
            rw [List.countP_eq_zero]
            intro entry entryMem
            rcases List.mem_cons.mp entryMem with rfl | inRest
            · simp [role]
            · simp [(relays entry inRest).1]
          rw [none]
          exact Nat.zero_le _
      | onion secret =>
          rw [role] at firstIsBy
          rw [List.countP_cons_of_pos (by simp [role]), firstIsBy.2, ← passedOn, Nat.mul_add,
            Nat.mul_one]
          omega

/-- The relays of a trail forward the same inner datagram. -/
theorem inner_eq_of_relays {trail : List (Forwarding ι)} (isTrail : IsTrail trail)
    (isBy : ∀ entry ∈ trail, entry.IsBy (roles entry.node)) :
    (trail.filter fun entry => roles entry.node = .relay).Pairwise fun earlier later =>
      earlier.inner = later.inner := by
  induction trail with
  | nil => exact .nil
  | cons first rest ih =>
      have restPairwise := ih isTrail.tail fun entry entryMem =>
        isBy entry (List.mem_cons_of_mem _ entryMem)
      by_cases firstRelay : roles first.node = .relay
      · rw [List.filter_cons_of_pos (by simp [firstRelay]), List.pairwise_cons]
        refine ⟨?_, restPairwise⟩
        intro entry entryMem
        exact (relays_after isTrail isBy firstRelay entry (List.mem_of_mem_filter entryMem)).2.symm
      · rw [List.filter_cons_of_neg (by simp [firstRelay])]
        exact restPairwise

/-- No relay forwards the same inner datagram twice within a short while. -/
theorem Disciplined.relays_nodup (disciplined : mesh.Disciplined crypto roles now)
    {trail : List (Forwarding ι)} (inLog : trail.Sublist mesh.log) (isTrail : IsTrail trail)
    (soon : ∀ earlier ∈ trail, ∀ later ∈ trail, later.now - earlier.now < defaultTtl)
    (uncrowded : ∀ earlier ∈ trail, ∀ later ∈ trail,
      (othersWithin (mesh.accepted earlier.node) (keyOf crypto.hash earlier.inner) earlier.now
        later.now).card < defaultCap) :
    ((trail.filter fun entry => roles entry.node = .relay).map Forwarding.node).Nodup := by
  have sameInner := inner_eq_of_relays isTrail fun entry entryMem =>
    disciplined.isBy entry (inLog.subset entryMem)
  have spaced : (trail.filter fun entry => roles entry.node = .relay).Pairwise
      (mesh.Spaced crypto.hash) :=
    disciplined.spaced.sublist (List.filter_sublist.trans inLog)
  rw [List.Nodup, List.pairwise_map]
  refine List.Pairwise.imp_of_mem ?_ (sameInner.and spaced)
  rintro earlier later earlierMem laterMem ⟨innerEq, apart⟩ sameNode
  have earlierIn := List.mem_of_mem_filter earlierMem
  have laterIn := List.mem_of_mem_filter laterMem
  rcases apart sameNode (by rw [innerEq]) with waited | crowded
  · exact absurd waited (not_le.mpr (soon earlier earlierIn later laterIn))
  · exact absurd crowded (not_le.mpr (uncrowded earlier earlierIn later laterIn))

/--
A datagram does not go round in a network of forwarders.  However their steps interleave and
whatever arrives at them, a chain of forwardings, each of what the one before has sent, which
takes less than the time to live of the replay caches while none of them accepts as many
others as it can hold, has at most 13 onion hops and each relay at most once.
-/
theorem trail_bounded [Fintype ι] [DecidableEq ι] (crypto : OnionCrypto) (sized : crypto.Sized)
    (roles : ι → Role) (visits : List (Visit ι))
    (monotone : ClockedRun.Monotone Visit.reads visits) (trail : List (Forwarding ι))
    (inLog : trail.Sublist (run crypto roles visits).log) (isTrail : IsTrail trail)
    (soon : ∀ earlier ∈ trail, ∀ later ∈ trail, later.now - earlier.now < defaultTtl)
    (uncrowded : ∀ earlier ∈ trail, ∀ later ∈ trail,
      (othersWithin ((run crypto roles visits).accepted earlier.node)
        (keyOf crypto.hash earlier.inner) earlier.now later.now).card < defaultCap) :
    trail.countP (fun entry => roles entry.node ≠ .relay) ≤ 13 ∧
      ((trail.filter fun entry => roles entry.node = .relay).map Forwarding.node).Nodup ∧
      trail.length ≤ 13 + (Finset.univ.filter fun node => roles node = .relay).card := by
  have disciplined := disciplined_run sized roles monotone
  have isBy : ∀ entry ∈ trail, entry.IsBy (roles entry.node) := fun entry entryMem =>
    disciplined.isBy entry (inLog.subset entryMem)
  have fewOnions : trail.countP (fun entry => roles entry.node ≠ .relay) ≤ 13 := by
    rcases trail with _ | ⟨first, rest⟩
    · exact Nat.zero_le _
    have room := length_onions isTrail isBy
    have small := disciplined.received_le first (inLog.subset List.mem_cons_self)
    simp only [Onion.hopOverhead, outerHeaderLen, Onion.layerOverhead, maxDatagram] at room small
    omega
  have distinct := disciplined.relays_nodup inLog isTrail soon uncrowded
  refine ⟨fewOnions, distinct, ?_⟩
  have fewRelays : (trail.filter fun entry => roles entry.node = .relay).length ≤
      (Finset.univ.filter fun node => roles node = .relay).card := by
    rw [← List.length_map (f := Forwarding.node), ← List.toFinset_card_of_nodup distinct]
    apply Finset.card_le_card
    intro node nodeMem
    rcases List.mem_map.mp (List.mem_toFinset.mp nodeMem) with ⟨entry, entryMem, rfl⟩
    simpa using (List.mem_filter.mp entryMem).2
  calc trail.length
      = trail.countP (fun entry => roles entry.node = .relay) +
          trail.countP (fun entry => roles entry.node ≠ .relay) := by
        rw [List.length_eq_countP_add_countP fun entry => decide (roles entry.node = .relay)]
        simp
    _ ≤ (Finset.univ.filter fun node => roles node = .relay).card + 13 := by
        rw [List.countP_eq_length_filter]
        exact Nat.add_le_add fewRelays fewOnions
    _ = _ := Nat.add_comm _ _

/-- An onion hop and a relay. -/
def sampleRoles : Bool → Role
  | false => .onion (List.Vector.replicate 32 1)
  | true => .relay

def sampleForward : Bytes := forwardDatagram (List.Vector.replicate 4 127) 10 [1, 2, 3]

/-- A forward datagram in an onion layer. -/
def sampleOnion : Bytes :=
  (Onion.wrapRoute Onion.sampleCrypto Onion.sampleDraws
    [⟨loopback 8, List.Vector.replicate 32 1⟩] (loopback 9) sampleForward).toOption.getD []

/-- The onion hop and the relay forward in turn, and a second arrival at the relay is dropped. -/
def sampleVisits : List (Visit Bool) :=
  [⟨false, quietEnv, .datagram sampleOnion (loopback 7)⟩,
    ⟨true, quietEnv, .datagram sampleForward (loopback 8)⟩,
    ⟨true, quietEnv, .datagram sampleForward (loopback 8)⟩]

theorem trail_bounded_sample :
    (run Onion.sampleCrypto sampleRoles sampleVisits).log.length = 2 ∧
    IsTrail (run Onion.sampleCrypto sampleRoles sampleVisits).log ∧
    (run Onion.sampleCrypto sampleRoles sampleVisits).log.length ≤
      13 + (Finset.univ.filter fun node => sampleRoles node = .relay).card := by
  have isTrail : IsTrail (run Onion.sampleCrypto sampleRoles sampleVisits).log := by
    decide +kernel
  refine ⟨by decide +kernel, isTrail, ?_⟩
  exact (trail_bounded Onion.sampleCrypto Onion.sampleCrypto_sized sampleRoles sampleVisits
    (by decide) _ (List.Sublist.refl _) isTrail (by decide +kernel) (by decide +kernel)).2.2

end Mesh

end Ppose

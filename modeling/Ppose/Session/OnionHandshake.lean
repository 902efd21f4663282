import Ppose.Forwarding.OnionRelay
import Ppose.Session.Handshake

/-!
# The handshake over two onion routes

The initiator sends along one route and the responder replies along another.  The
network delivers every datagram once and in order: a datagram sent to a hop is
handled by the onion relay at that address, and what the relay sends bears its
address as the source; a datagram sent anywhere else has arrived.

A session sends to its next hop and accepts datagrams from no other address.  So the
handshake succeeds exactly if each endpoint hears the other's messages from the hop
to which it sends its own.
-/

namespace Ppose

open Onion

/-- The relays by their address, and every payload a relay has sent on. -/
structure OnionNetwork where
  relays : SocketAddr → Option OnionRelay
  handled : List (SocketAddr × Bytes)

namespace OnionNetwork

variable (crypto : OnionCrypto)

def record (network : OnionNetwork) (addr : SocketAddr) (stepped : Stepped OnionRelay) :
    OnionNetwork where
  relays := Function.update network.relays addr (some stepped.service)
  handled :=
    match stepped.sent with
    | none => network.handled
    | some (_, payload) => network.handled ++ [(addr, payload)]

/-- Follow a datagram until it has left the relays; where it came from, went to and its bytes. -/
def carry : ℕ → (ℕ → StepEnv) → OnionNetwork → SocketAddr → SocketAddr → Bytes →
    OnionNetwork × Option (SocketAddr × SocketAddr × Bytes)
  | 0, _, network, _, _, _ => (network, none)
  | fuel + 1, envs, network, source, dest, datagram =>
      match network.relays dest with
      | none => (network, some (source, dest, datagram))
      | some relay =>
          let stepped := relay.step crypto (envs 0) (.datagram datagram source)
          match stepped.sent with
          | none => (network.record dest stepped, none)
          | some (next, payload) =>
              carry fuel (envs ∘ Nat.succ) (network.record dest stepped) dest next payload

/-- No relay on the way drops a payload which it has not sent on before. -/
def ForwardsFresh : ℕ → (ℕ → StepEnv) → OnionNetwork → SocketAddr → SocketAddr → Bytes → Prop
  | 0, _, _, _, _, _ => True
  | fuel + 1, envs, network, source, dest, datagram =>
      match network.relays dest with
      | none => True
      | some relay =>
          let stepped := relay.step crypto (envs 0) (.datagram datagram source)
          (∀ flags body peeled, decodeOuter datagram = .ok (.onion, flags, body) →
            peelLayer crypto relay.secret body = .ok peeled →
            (dest, peeled.payload) ∉ network.handled → stepped.sent ≠ none) ∧
          ∀ next payload, stepped.sent = some (next, payload) →
            ForwardsFresh fuel (envs ∘ Nat.succ) (network.record dest stepped) dest next payload

/-- The relays at the addresses of some stops hold their secret keys. -/
def Hosts (network : OnionNetwork) (stops : List Stop) : Prop :=
  ∀ stop ∈ stops, ∃ relay, network.relays stop.addr = some relay ∧ relay.secret = stop.secret

variable {crypto}

theorem secret_step (relay : OnionRelay) (env : StepEnv) (received : Received) :
    (relay.step crypto env received).service.secret = relay.secret := by
  unfold OnionRelay.step Stepped.receiving
  split
  · rfl
  · rfl
  · simp only
    split
    · rfl
    · split_ifs
      · rfl
      · split
        · rfl
        · split
          · rfl
          · split_ifs
            · rfl
            · unfold Stepped.transmit
              split_ifs <;> rfl

theorem Hosts.record {network : OnionNetwork} {stops : List Stop} (hosts : network.Hosts stops)
    {addr : SocketAddr} {relay : OnionRelay} (found : network.relays addr = some relay)
    (env : StepEnv) (received : Received) :
    (network.record addr (relay.step crypto env received)).Hosts stops := by
  intro stop stopMem
  rcases hosts stop stopMem with ⟨other, otherFound, secretEq⟩
  by_cases same : stop.addr = addr
  · refine ⟨_, by simp only [OnionNetwork.record, same, Function.update_self]; rfl, ?_⟩
    rw [same, found, Option.some.injEq] at otherFound
    rw [secret_step, otherFound, secretEq]
  · exact ⟨other, by simpa only [OnionNetwork.record, Function.update_of_ne same] using otherFound,
      secretEq⟩

theorem peelRoute_cons_eq_ok {secret : Block 32} {secrets : List (Block 32)} {datagram last : Bytes}
    {seen : PacketType × SocketAddr} {more : List (PacketType × SocketAddr)}
    (peels : peelRoute crypto (secret :: secrets) datagram = .ok (seen :: more, last)) :
    ∃ flags body payload, decodeOuter datagram = .ok (seen.1, flags, body) ∧
      peelLayer crypto secret body = .ok { next := seen.2, payload } ∧
      peelRoute crypto secrets payload = .ok (more, last) := by
  simp only [peelRoute] at peels
  cases decoded : decodeOuter datagram with
  | error error => simp [decoded, bind, Except.bind] at peels
  | ok outer =>
      rcases outer with ⟨packetType, flags, body⟩
      simp only [decoded, bind, Except.bind] at peels
      cases peeledEq : peelLayer crypto secret body with
      | error error => simp [peeledEq] at peels
      | ok peeled =>
          simp only [peeledEq] at peels
          cases restEq : peelRoute crypto secrets peeled.payload with
          | error error => simp [restEq] at peels
          | ok result =>
              rcases result with ⟨seenRest, lastRest⟩
              simp only [restEq, pure, Except.pure, Except.ok.injEq, Prod.mk.injEq,
                List.cons.injEq] at peels
              rcases peels with ⟨⟨rfl, rfl⟩, rfl⟩
              exact ⟨flags, body, peeled.payload, rfl, peeledEq, restEq⟩

/-- A hop which forwards what is fresh sends on the payload of a datagram meant for it. -/
theorem sent_of_forwardsFresh {fuel : ℕ} {envs : ℕ → StepEnv} {network : OnionNetwork}
    {source dest next : SocketAddr} {datagram body payload : Bytes} {flags : UInt8}
    {relay : OnionRelay} (found : network.relays dest = some relay)
    (fits : datagram.length ≤ maxDatagram)
    (decoded : decodeOuter datagram = .ok (.onion, flags, body))
    (peels : peelLayer crypto relay.secret body = .ok { next, payload })
    (fresh : (dest, payload) ∉ network.handled)
    (forwards : ForwardsFresh crypto (fuel + 1) envs network source dest datagram) :
    (relay.step crypto (envs 0) (.datagram datagram source)).sent = some (next, payload) ∧
      ForwardsFresh crypto fuel (envs ∘ Nat.succ)
        (network.record dest (relay.step crypto (envs 0) (.datagram datagram source))) dest next
        payload := by
  simp only [ForwardsFresh, found] at forwards
  rcases forwards with ⟨sends, onward⟩
  rcases Option.ne_none_iff_exists'.mp (sends flags body _ decoded peels fresh) with ⟨sent, sentEq⟩
  rcases OnionRelay.peelLayer_of_sent sentEq with ⟨otherFlags, otherBody, decodedToo, peelsToo⟩
  rw [List.take_of_length_le fits, decoded] at decodedToo
  cases decodedToo
  rw [peels] at peelsToo
  simp only [Except.ok.injEq, Peeled.mk.injEq] at peelsToo
  have sentSame : sent = (next, payload) := by
    rw [peelsToo.1, peelsToo.2]
  rw [sentSame] at sentEq
  exact ⟨sentEq, onward next payload sentEq⟩

/-- What a datagram leaves behind on its way along some stops. -/
structure Traversed (inner : Bytes) (before after : OnionNetwork) : Prop where
  hosts : ∀ stops, before.Hosts stops → after.Hosts stops
  vacant : ∀ addr, before.relays addr = none → after.relays addr = none
  handled : ∀ addr payload, (addr, payload) ∈ after.handled →
    (addr, payload) ∈ before.handled ∨ payload.length % 86 = inner.length % 86

theorem Traversed.trans {inner : Bytes} {before between after : OnionNetwork}
    (first : Traversed inner before between) (second : Traversed inner between after) :
    Traversed inner before after where
  hosts stops hosts := second.hosts stops (first.hosts stops hosts)
  vacant addr vacant := second.vacant addr (first.vacant addr vacant)
  handled addr payload payloadMem := by
    rcases second.handled addr payload payloadMem with earlier | same
    · exact first.handled addr payload earlier
    · exact .inr same

theorem Traversed.residue_of_untouched {inner : Bytes} {before after : OnionNetwork}
    (traversed : Traversed inner before after) (untouched : before.handled = []) (addr : SocketAddr)
    (payload : Bytes) (seen : (addr, payload) ∈ after.handled) :
    payload.length % 86 = inner.length % 86 := by
  rcases traversed.handled addr payload seen with earlier | residue
  · simp [untouched] at earlier
  · exact residue

theorem traversed_record {network : OnionNetwork} {dest next source : SocketAddr}
    {relay : OnionRelay} {env : StepEnv} {datagram inner payload : Bytes}
    (found : network.relays dest = some relay)
    (sent : (relay.step crypto env (.datagram datagram source)).sent = some (next, payload))
    (residue : payload.length % 86 = inner.length % 86) :
    Traversed inner network
      (network.record dest (relay.step crypto env (.datagram datagram source))) where
  hosts stops hosts := hosts.record found _ _
  vacant addr vacant := by
    have different : addr ≠ dest := by
      rintro rfl
      rw [found] at vacant
      cases vacant
    simpa only [OnionNetwork.record, Function.update_of_ne different] using vacant
  handled addr other otherMem := by
    simp only [OnionNetwork.record, sent, List.mem_append, List.mem_singleton, Prod.mk.injEq]
      at otherMem
    rcases otherMem with earlier | ⟨_, rfl⟩
    · exact .inl earlier
    · exact .inr residue

/-- The address of the last of some stops. -/
def exitOf (first : Stop) (rest : List Stop) : SocketAddr :=
  ((first :: rest).getLast (List.cons_ne_nil first rest)).addr

/-- One hop of a datagram on its way along some stops. -/
structure Hop (crypto : OnionCrypto) (env : StepEnv) (network : OnionNetwork)
    (source addr next : SocketAddr) (datagram payload : Bytes) (relay : OnionRelay) : Prop where
  found : network.relays addr = some relay
  sent : (relay.step crypto env (.datagram datagram source)).sent = some (next, payload)
  length_eq : datagram.length = payload.length + 86

/--
A hop sends the payload on if it is fresh, which it is if every earlier payload with a
length of the same residue was at least as long as the datagram.
-/
theorem exists_hop (sized : crypto.Sized) {stop : Stop} {secrets : List (Block 32)}
    {source next : SocketAddr} {inner datagram : Bytes} {seen : List (PacketType × SocketAddr)}
    {fuel : ℕ} {envs : ℕ → StepEnv} {network : OnionNetwork}
    (peels : peelRoute crypto (stop.secret :: secrets) datagram =
      .ok ((.onion, next) :: seen, inner))
    (fits : datagram.length ≤ maxDatagram)
    (hosted : ∃ relay, network.relays stop.addr = some relay ∧ relay.secret = stop.secret)
    (residue : datagram.length % 86 = inner.length % 86)
    (unseen : ∀ addr payload, (addr, payload) ∈ network.handled →
      payload.length % 86 = inner.length % 86 → datagram.length ≤ payload.length)
    (forwards : ForwardsFresh crypto (fuel + 1) envs network source stop.addr datagram) :
    ∃ relay payload, Hop crypto (envs 0) network source stop.addr next datagram payload relay ∧
      peelRoute crypto secrets payload = .ok (seen, inner) ∧
      ForwardsFresh crypto fuel (envs ∘ Nat.succ)
        (network.record stop.addr (relay.step crypto (envs 0) (.datagram datagram source)))
        stop.addr next payload := by
  rcases hosted with ⟨relay, found, secretEq⟩
  rcases peelRoute_cons_eq_ok peels with ⟨flags, body, payload, decoded, layer, onward⟩
  have payloadLength : datagram.length = payload.length + 86 := by
    have outer := length_of_decodeOuter decoded
    have inside := length_of_peelLayer sized layer
    simp only [outerHeaderLen, layerOverhead] at outer inside
    omega
  have fresh : (stop.addr, payload) ∉ network.handled := by
    intro handled
    have := unseen _ _ handled (by omega)
    omega
  rcases sent_of_forwardsFresh found fits decoded (secretEq ▸ layer) fresh forwards with
    ⟨sent, forwardsOn⟩
  exact ⟨relay, payload, ⟨found, sent, payloadLength⟩, onward, forwardsOn⟩

theorem Hop.traversed {env : StepEnv} {network : OnionNetwork} {source addr next : SocketAddr}
    {datagram payload inner : Bytes} {relay : OnionRelay}
    (hop : Hop crypto env network source addr next datagram payload relay)
    (residue : datagram.length % 86 = inner.length % 86) :
    Traversed inner network
      (network.record addr (relay.step crypto env (.datagram datagram source))) := by
  have lengthEq := hop.length_eq
  exact traversed_record hop.found hop.sent (by omega)

/-- After a hop, every payload of the same residue is at least as long as the one sent on. -/
theorem Hop.unseen {env : StepEnv} {network : OnionNetwork} {source addr next : SocketAddr}
    {datagram payload inner : Bytes} {relay : OnionRelay}
    (hop : Hop crypto env network source addr next datagram payload relay)
    (before : ∀ addr other, (addr, other) ∈ network.handled →
      other.length % 86 = inner.length % 86 → datagram.length ≤ other.length) :
    ∀ place other,
      (place, other) ∈ (network.record addr
        (relay.step crypto env (.datagram datagram source))).handled →
      other.length % 86 = inner.length % 86 → payload.length ≤ other.length := by
  intro place other otherMem otherResidue
  simp only [OnionNetwork.record, hop.sent, List.mem_append, List.mem_singleton,
    Prod.mk.injEq] at otherMem
  rcases otherMem with earlier | ⟨_, rfl⟩
  · have longer := before place other earlier otherResidue
    have lengthEq := hop.length_eq
    omega
  · exact le_refl _

theorem Hop.carry_eq {envs : ℕ → StepEnv} {network : OnionNetwork} {source addr next : SocketAddr}
    {datagram payload : Bytes} {relay : OnionRelay}
    (hop : Hop crypto (envs 0) network source addr next datagram payload relay) (fuel : ℕ) :
    carry crypto (fuel + 1) envs network source addr datagram =
      carry crypto fuel (envs ∘ Nat.succ)
        (network.record addr (relay.step crypto (envs 0) (.datagram datagram source))) addr next
        payload := by
  simp only [carry, hop.found, hop.sent]

/--
A datagram wrapped for some stops comes out of the last of them, addressed to the
destination.  Payloads get shorter on the way, so that none has been handled before
if no earlier payload has a length of the same residue.
-/
theorem carry_stops (sized : crypto.Sized) {first : Stop} {rest : List Stop}
    {dest source : SocketAddr} {inner datagram : Bytes} {fuel : ℕ} {envs : ℕ → StepEnv}
    {network : OnionNetwork}
    (peels : peelRoute crypto ((first :: rest).map Stop.secret) datagram =
      .ok ((rest.map Stop.addr ++ [dest]).map (fun addr => (.onion, addr)), inner))
    (lengthEq : datagram.length = inner.length + 86 * (rest.length + 1))
    (fits : datagram.length ≤ maxDatagram) (hosts : network.Hosts (first :: rest))
    (vacant : network.relays dest = none)
    (unseen : ∀ addr payload, (addr, payload) ∈ network.handled →
      payload.length % 86 = inner.length % 86 → datagram.length ≤ payload.length)
    (enough : rest.length + 1 < fuel)
    (forwards : ForwardsFresh crypto fuel envs network source first.addr datagram) :
    ∃ after, carry crypto fuel envs network source first.addr datagram =
        (after, some (exitOf first rest, dest, inner)) ∧
      Traversed inner network after := by
  have residue : datagram.length % 86 = inner.length % 86 := by omega
  have hosted := hosts first List.mem_cons_self
  induction rest generalizing first source datagram fuel envs network with
  | nil =>
      rcases fuel with _ | _ | fuel
      · omega
      · simp at enough
      · rcases exists_hop sized peels fits hosted residue unseen forwards with
          ⟨relay, payload, hop, last, _⟩
        simp only [List.map_nil, peelRoute, Except.ok.injEq, Prod.mk.injEq, true_and] at last
        subst last
        have traversed := hop.traversed residue
        refine ⟨_, ?_, traversed⟩
        rw [hop.carry_eq, carry, traversed.vacant dest vacant]
        rfl
  | cons second more ih =>
      rcases fuel with _ | fuel
      · omega
      · rcases exists_hop sized peels fits hosted residue unseen forwards with
          ⟨relay, payload, hop, onward, forwardsOn⟩
        have payloadLength := hop.length_eq
        simp only [List.length_cons] at lengthEq enough
        have traversed := hop.traversed residue
        have hostsOn := traversed.hosts (second :: more) fun stop stopMem =>
          hosts stop (List.mem_cons_of_mem _ stopMem)
        rcases ih onward (by omega) (by omega) hostsOn (traversed.vacant dest vacant)
          (hop.unseen unseen) (by omega) forwardsOn (by omega)
          (hostsOn second List.mem_cons_self) with
          ⟨after, carried, onTraversed⟩
        refine ⟨after, ?_, traversed.trans onTraversed⟩
        rw [hop.carry_eq, carried]
        rfl

/-- Send a datagram to an address and follow it to where it arrives. -/
def deliver (crypto : OnionCrypto) (network : OnionNetwork) (envs : ℕ → StepEnv)
    (source : SocketAddr) (sent : SocketAddr × Bytes) :
    OnionNetwork × Option (SocketAddr × SocketAddr × Bytes) :=
  carry crypto (sent.2.length + 1) envs network source sent.1 sent.2

theorem deliver_route (lawful : crypto.Lawful) (sized : crypto.Sized) {draws : Draws}
    {first : Stop} {rest : List Stop} {dest source : SocketAddr} {inner wire : Bytes}
    {envs : ℕ → StepEnv} {network : OnionNetwork}
    (wrapped : wrapRoute crypto draws ((first :: rest).map (Stop.hop crypto)) dest inner =
      .ok wire) (hosts : network.Hosts (first :: rest)) (vacant : network.relays dest = none)
    (unseen : ∀ addr payload, (addr, payload) ∈ network.handled →
      payload.length % 86 ≠ inner.length % 86)
    (forwards : ForwardsFresh crypto (wire.length + 1) envs network source first.addr wire) :
    ∃ after, network.deliver crypto envs source (first.addr, wire) =
        (after, some (exitOf first rest, dest, inner)) ∧
      Traversed inner network after := by
  have wireLength := length_of_wrapRoute sized wrapped
  have fits := ((exists_wrapRoute_iff sized _ _ _ _).mp ⟨wire, wrapped⟩).2.2.2
  simp only [List.length_map, List.length_cons, hopOverhead, outerHeaderLen, layerOverhead]
    at wireLength fits
  have wireFits : wire.length ≤ maxDatagram := by omega
  have enough : rest.length + 1 < wire.length + 1 := by omega
  refine carry_stops sized (peelRoute_wrapRoute crypto lawful draws _ _ _ _ wrapped) (by omega)
    wireFits hosts vacant ?_ enough forwards
  intro addr payload seen residue
  exact absurd residue (unseen addr payload seen)

end OnionNetwork

/-! ### The exchange -/

variable {State : Type}

/-- A run of the handshake library in which every message is read as it was written. -/
structure Snow.Transcript (snow : Snow State) (initiatorSecret responderSecret : Block 32) where
  initiatorStart : State
  initiatorSent : State
  initiatorRead : State
  initiatorDone : State
  responderStart : State
  responderRead : State
  responderSent : State
  responderDone : State
  first : Bytes
  second : Bytes
  third : Bytes
  initiatorNoise : Noise
  responderNoise : Noise
  build_initiator : snow.build .initiator initiatorSecret = some initiatorStart
  build_responder : snow.build .responder responderSecret = some responderStart
  write_first : snow.writeMessage initiatorStart [] = some (first, initiatorSent)
  read_first : snow.readMessage responderStart first = some responderRead
  write_second : snow.writeMessage responderRead [] = some (second, responderSent)
  read_second : snow.readMessage initiatorSent second = some initiatorRead
  write_third : snow.writeMessage initiatorRead [] = some (third, initiatorDone)
  read_third : snow.readMessage responderSent third = some responderDone
  unfinished : ∀ state ∈ [initiatorSent, responderRead, responderSent, initiatorRead],
    snow.isHandshakeFinished state = false
  initiator_finished : snow.isHandshakeFinished initiatorDone = true
  responder_finished : snow.isHandshakeFinished responderDone = true
  initiator_transport : snow.intoTransportMode initiatorDone = some initiatorNoise
  responder_transport : snow.intoTransportMode responderDone = some responderNoise
  first_length : first.length = 32
  second_length : second.length = 96
  third_length : third.length = 64

/-- The two endpoints, their routes, and what they and the hops read of their surroundings. -/
structure OnionExchange where
  initiatorSecret : Block 32
  responderSecret : Block 32
  initiatorAddr : SocketAddr
  responderAddr : SocketAddr
  /-- The route from the initiator to the responder. -/
  forward : List Stop
  /-- The route from the responder to the initiator. -/
  back : List Stop
  firstEnv : SendEnv
  secondEnv : SendEnv
  thirdEnv : SendEnv
  hopEnvs : ℕ → ℕ → StepEnv
  started : Instant

namespace OnionExchange

open OnionNetwork

variable (crypto : OnionCrypto) (snow : Snow State)

/-- What an endpoint receives of what has arrived somewhere. -/
def arrivesAt (addr : SocketAddr) :
    Option (SocketAddr × SocketAddr × Bytes) → Option (Bytes × SocketAddr)
  | none => none
  | some (source, dest, datagram) => if dest = addr then some (datagram, source) else none

def connects (exchange : OnionExchange) :
    Except SessionError (Opening State × SocketAddr × Bytes) :=
  connectInitiatorBegin crypto snow exchange.initiatorSecret
    (.viaOnion (exchange.forward.map (Stop.hop crypto)) exchange.responderAddr) exchange.firstEnv
    exchange.started

def accepts (exchange : OnionExchange) (arrived : Option (SocketAddr × SocketAddr × Bytes)) :
    Except SessionError (Opening State × SocketAddr × Bytes) :=
  acceptExBegin crypto snow exchange.responderSecret none
    (some (exchange.back.map (Stop.hop crypto), exchange.initiatorAddr))
    (arrivesAt exchange.responderAddr arrived) exchange.secondEnv exchange.started

def resumes (exchange : OnionExchange) (initiator : Opening State)
    (arrived : Option (SocketAddr × SocketAddr × Bytes)) :
    Except SessionError UdpSession × Option (SocketAddr × Bytes) :=
  connectInitiatorResume crypto snow initiator (arrivesAt exchange.initiatorAddr arrived)
    exchange.thirdEnv none

/-- What the initiator and the responder return after the three messages. -/
def outcome (exchange : OnionExchange) (network : OnionNetwork) :
    Except SessionError UdpSession × Except SessionError UdpSession :=
  match exchange.connects crypto snow with
  | .error error => (.error error, .error .io)
  | .ok (initiator, first) =>
      let (network, arrived) :=
        network.deliver crypto (exchange.hopEnvs 0) exchange.initiatorAddr first
      match exchange.accepts crypto snow arrived with
      | .error error => (.error .io, .error error)
      | .ok (responder, second) =>
          let (network, arrived) :=
            network.deliver crypto (exchange.hopEnvs 1) exchange.responderAddr second
          match exchange.resumes crypto snow initiator arrived with
          | (result, none) => (result, .error .io)
          | (result, some third) =>
              let (_, arrived) :=
                network.deliver crypto (exchange.hopEnvs 2) exchange.initiatorAddr third
              (result,
                acceptExResume snow responder (arrivesAt exchange.responderAddr arrived) none)

/-- No hop drops a fresh payload on the way of any of the three messages. -/
def ForwardsFresh (exchange : OnionExchange) (network : OnionNetwork) : Prop :=
  ∀ initiator first, exchange.connects crypto snow = .ok (initiator, first) →
    OnionNetwork.ForwardsFresh crypto (first.2.length + 1) (exchange.hopEnvs 0) network
      exchange.initiatorAddr first.1 first.2 ∧
    ∀ network₁ arrived₁,
      network.deliver crypto (exchange.hopEnvs 0) exchange.initiatorAddr first =
        (network₁, arrived₁) →
      ∀ responder second, exchange.accepts crypto snow arrived₁ = .ok (responder, second) →
        OnionNetwork.ForwardsFresh crypto (second.2.length + 1) (exchange.hopEnvs 1) network₁
          exchange.responderAddr second.1 second.2 ∧
        ∀ network₂ arrived₂,
          network₁.deliver crypto (exchange.hopEnvs 1) exchange.responderAddr second =
            (network₂, arrived₂) →
          ∀ result third, exchange.resumes crypto snow initiator arrived₂ = (result, some third) →
            OnionNetwork.ForwardsFresh crypto (third.2.length + 1) (exchange.hopEnvs 2) network₂
              exchange.initiatorAddr third.1 third.2

/-- The routes are usable, and the network has their hops and carries nothing else. -/
structure Ready (exchange : OnionExchange) (network : OnionNetwork) : Prop where
  hosts_forward : network.Hosts exchange.forward
  hosts_back : network.Hosts exchange.back
  vacant_initiator : network.relays exchange.initiatorAddr = none
  vacant_responder : network.relays exchange.responderAddr = none
  untouched : network.handled = []
  forward_v4 : ∀ stop ∈ exchange.forward, stop.addr.isV4 = true
  back_v4 : ∀ stop ∈ exchange.back, stop.addr.isV4 = true
  initiator_v4 : exchange.initiatorAddr.isV4 = true
  responder_v4 : exchange.responderAddr.isV4 = true
  /-- The third message, which is longer than the first, fits the forward route. -/
  forward_fits : outerHeaderLen + 64 + 86 * exchange.forward.length ≤ maxDatagram
  /-- The second message fits the route back. -/
  back_fits : outerHeaderLen + 96 + 86 * exchange.back.length ≤ maxDatagram
  sockets : exchange.firstEnv.socketOk = true ∧ exchange.secondEnv.socketOk = true ∧
    exchange.thirdEnv.socketOk = true

variable {crypto snow}

/-- A handshake message as it is encoded and then wrapped for some stops. -/
structure Wraps (crypto : OnionCrypto) (draws : Draws) (stops : List Stop) (dest : SocketAddr)
    (message inner wire : Bytes) : Prop where
  encoded : encodeDatagram .handshake message = .ok inner
  length_eq : inner.length = outerHeaderLen + message.length
  wrapped : wrapRoute crypto draws (stops.map (Stop.hop crypto)) dest inner = .ok wire

theorem exists_wraps (sized : crypto.Sized) {message : Bytes} {stops : List Stop}
    {dest : SocketAddr} (nonempty : stops ≠ []) (stopsV4 : ∀ stop ∈ stops, stop.addr.isV4 = true)
    (destV4 : dest.isV4 = true)
    (fits : outerHeaderLen + message.length + 86 * stops.length ≤ maxDatagram) (draws : Draws) :
    ∃ inner wire, Wraps crypto draws stops dest message inner wire := by
  have messageFits : outerHeaderLen + message.length ≤ maxDatagram := by omega
  have encoded : encodeDatagram .handshake message = .ok (encodeOuter .handshake 0 ++ message) :=
    encodeDatagram_of_le messageFits
  have innerLength := length_of_decodeOuter (decodeOuter_of_encodeDatagram encoded)
  have wraps : ∃ wire, wrapRoute crypto draws (stops.map (Stop.hop crypto)) dest
      (encodeOuter .handshake 0 ++ message) = .ok wire := by
    apply (exists_wrapRoute_iff sized _ _ _ _).mpr
    refine ⟨by simpa using nonempty, destV4, ?_, ?_⟩
    · intro hop hopMem
      rcases List.mem_map.mp (List.mem_of_mem_tail hopMem) with ⟨stop, stopMem, rfl⟩
      exact stopsV4 stop stopMem
    · rw [innerLength, List.length_map]
      exact fits
  rcases wraps with ⟨wire, wrapped⟩
  exact ⟨_, wire, encoded, innerLength, wrapped⟩

theorem Ready.exists_forward {exchange : OnionExchange} {network : OnionNetwork}
    (ready : exchange.Ready network) (sized : crypto.Sized) {first : Stop} {rest : List Stop}
    (routed : exchange.forward = first :: rest) (draws : Draws) {message : Bytes}
    (short : message.length ≤ 64) :
    ∃ inner wire, Wraps crypto draws (first :: rest) exchange.responderAddr message inner wire := by
  rcases ready with ⟨_, _, _, _, _, forwardV4, _, _, responderV4, forwardFits, _, _⟩
  rw [routed] at forwardV4 forwardFits
  exact exists_wraps sized (List.cons_ne_nil first rest) forwardV4 responderV4 (by omega) draws

theorem Ready.exists_back {exchange : OnionExchange} {network : OnionNetwork}
    (ready : exchange.Ready network) (sized : crypto.Sized) {first : Stop} {rest : List Stop}
    (routed : exchange.back = first :: rest) (draws : Draws) {message : Bytes}
    (short : message.length ≤ 96) :
    ∃ inner wire, Wraps crypto draws (first :: rest) exchange.initiatorAddr message inner wire := by
  rcases ready with ⟨_, _, _, _, _, _, backV4, initiatorV4, _, _, backFits, _⟩
  rw [routed] at backV4 backFits
  exact exists_wraps sized (List.cons_ne_nil first rest) backV4 initiatorV4 (by omega) draws

theorem maybeFinish_of_unfinished {state : State}
    (unfinished : snow.isHandshakeFinished state = false) :
    NoiseSession.maybeFinish snow state = .ok ⟨some state, none⟩ := by
  simp only [NoiseSession.maybeFinish, unfinished, Bool.false_eq_true, if_false]

theorem maybeFinish_of_finished {state : State} {noise : Noise}
    (finished : snow.isHandshakeFinished state = true)
    (transport : snow.intoTransportMode state = some noise) :
    NoiseSession.maybeFinish snow state =
      .ok ⟨none, some ⟨noise, snow.getRemoteStatic state⟩⟩ := by
  simp only [NoiseSession.maybeFinish, finished, if_true, transport]

variable {exchange : OnionExchange}

/-- A session at one end, which sends along a route and is in some handshake state. -/
def endpoint (exchange : OnionExchange) (crypto : OnionCrypto) (first : Stop) (rest : List Stop)
    (peer : SocketAddr) (state : State) : Opening State where
  nextHop := first.addr
  peer := peer
  viaRelay := false
  onion := some ((first :: rest).map (Stop.hop crypto))
  noise := ⟨some state, none⟩
  lastCover := exchange.started

theorem connects_eq
    (transcript : snow.Transcript exchange.initiatorSecret exchange.responderSecret)
    (socketOk : exchange.firstEnv.socketOk = true) {first : Stop} {rest : List Stop}
    (routed : exchange.forward = first :: rest) {inner wire : Bytes}
    (encoded : encodeDatagram .handshake transcript.first = .ok inner)
    (wrapped : wrapRoute crypto exchange.firstEnv.draws ((first :: rest).map (Stop.hop crypto))
      exchange.responderAddr inner = .ok wire) :
    exchange.connects crypto snow =
      .ok (exchange.endpoint crypto first rest exchange.responderAddr transcript.initiatorSent,
        first.addr, wire) := by
  have continued := maybeFinish_of_unfinished (transcript.unfinished transcript.initiatorSent
    (by simp))
  have sent := Opening.sendHandshake_of_wrapRoute
    (exchange.endpoint crypto first rest exchange.responderAddr
      transcript.initiatorStart) rfl transcript.write_first continued socketOk rfl encoded wrapped
  simp only [connects, connectInitiatorBegin, routed, List.map_cons, Path.route, NoiseSession.new,
    transcript.build_initiator, Except.mapError, bind, Except.bind]
  exact sent

theorem accepts_eq
    (transcript : snow.Transcript exchange.initiatorSecret exchange.responderSecret)
    (socketOk : exchange.secondEnv.socketOk = true) {first : Stop} {rest : List Stop}
    (routed : exchange.back = first :: rest) {opened inner wire : Bytes}
    (received : encodeDatagram .handshake transcript.first = .ok opened)
    (encoded : encodeDatagram .handshake transcript.second = .ok inner)
    (wrapped : wrapRoute crypto exchange.secondEnv.draws ((first :: rest).map (Stop.hop crypto))
      exchange.initiatorAddr inner = .ok wire) (source : SocketAddr) :
    exchange.accepts crypto snow (some (source, exchange.responderAddr, opened)) =
      .ok (exchange.endpoint crypto first rest exchange.initiatorAddr transcript.responderSent,
        first.addr, wire) := by
  have decoded := decodeOuter_of_encodeDatagram received
  have fits : opened.length ≤ maxDatagram := by
    rw [length_of_decodeOuter decoded]
    exact exists_encodeDatagram_iff.mp ⟨opened, received⟩
  have readContinued := maybeFinish_of_unfinished (transcript.unfinished transcript.responderRead
    (by simp))
  have continued := maybeFinish_of_unfinished (transcript.unfinished transcript.responderSent
    (by simp))
  have sent := Opening.sendHandshake_of_wrapRoute
    (exchange.endpoint crypto first rest exchange.initiatorAddr
      transcript.responderRead) rfl transcript.write_second continued socketOk rfl encoded wrapped
  simp only [accepts, acceptExBegin, arrivesAt, if_true, NoiseSession.new,
    transcript.build_responder, Except.mapError, bind, Except.bind, recvRaw,
    List.take_of_length_le fits, Option.isSome_none, Bool.false_eq_true, false_and, if_false,
    UdpSession.decodeIncoming, decoded, ne_eq, not_true_eq_false, NoiseSession.readHandshake,
    transcript.read_first, readContinued, routed, List.map_cons, Opening.setOutboundOnion]
  exact sent

/-- The initiator goes on exactly if the second message comes from its own first hop. -/
theorem resumes_eq
    (transcript : snow.Transcript exchange.initiatorSecret exchange.responderSecret)
    (socketOk : exchange.thirdEnv.socketOk = true) {first : Stop} {rest : List Stop}
    {opened inner wire : Bytes}
    (received : encodeDatagram .handshake transcript.second = .ok opened)
    (encoded : encodeDatagram .handshake transcript.third = .ok inner)
    (wrapped : wrapRoute crypto exchange.thirdEnv.draws ((first :: rest).map (Stop.hop crypto))
      exchange.responderAddr inner = .ok wire) (source : SocketAddr) :
    ∃ session, exchange.resumes crypto snow
        (exchange.endpoint crypto first rest exchange.responderAddr transcript.initiatorSent)
        (some (source, exchange.initiatorAddr, opened)) =
      if source = first.addr then (.ok session, some (first.addr, wire))
      else (.error .unexpectedAddr, none) := by
  have readContinued := maybeFinish_of_unfinished (transcript.unfinished transcript.initiatorRead
    (by simp))
  have finished := maybeFinish_of_finished transcript.initiator_finished
    transcript.initiator_transport
  have heard : (exchange.endpoint crypto first rest exchange.responderAddr
      transcript.initiatorSent).recvHandshake snow (some (opened, source)) =
        if source = first.addr then
          .ok (exchange.endpoint crypto first rest exchange.responderAddr transcript.initiatorRead)
        else .error .unexpectedAddr :=
    Opening.recvHandshake_of_encoded _ rfl transcript.read_second readContinued rfl received source
  have sent := Opening.sendHandshake_of_wrapRoute
    (exchange.endpoint crypto first rest exchange.responderAddr transcript.initiatorRead) rfl
    transcript.write_third finished socketOk rfl encoded wrapped
  refine ⟨(exchange.endpoint crypto first rest exchange.responderAddr
    transcript.initiatorSent).established transcript.initiatorNoise, ?_⟩
  simp only [resumes, connectInitiatorResume, arrivesAt, if_true, heard]
  by_cases expected : source = first.addr
  · simp only [if_pos expected, sent]
    rfl
  · simp only [if_neg expected]

/-- The responder succeeds exactly if the third message comes from its own first hop. -/
theorem acceptExResume_eq (crypto : OnionCrypto)
    (transcript : snow.Transcript exchange.initiatorSecret exchange.responderSecret)
    (first : Stop) (rest : List Stop) {opened : Bytes}
    (received : encodeDatagram .handshake transcript.third = .ok opened) (source : SocketAddr) :
    ∃ session, acceptExResume snow
        (exchange.endpoint crypto first rest exchange.initiatorAddr transcript.responderSent)
        (arrivesAt exchange.responderAddr (some (source, exchange.responderAddr, opened))) none =
      if source = first.addr then .ok session else .error .unexpectedAddr := by
  have finished := maybeFinish_of_finished transcript.responder_finished
    transcript.responder_transport
  have heard : (exchange.endpoint crypto first rest exchange.initiatorAddr
      transcript.responderSent).recvHandshake snow (some (opened, source)) =
        if source = first.addr then _ else .error .unexpectedAddr :=
    Opening.recvHandshake_of_encoded _ rfl transcript.read_third finished rfl received source
  refine ⟨(exchange.endpoint crypto first rest exchange.initiatorAddr
    transcript.responderSent).established transcript.responderNoise, ?_⟩
  simp only [acceptExResume, arrivesAt, if_true, heard]
  by_cases expected : source = first.addr
  · simp only [if_pos expected]
    rfl
  · simp only [if_neg expected]
    rfl

/-- What the two endpoints return, by where the second and the third message come from. -/
theorem outcome_eq (lawful : crypto.Lawful) (sized : crypto.Sized)
    (transcript : snow.Transcript exchange.initiatorSecret exchange.responderSecret)
    {network : OnionNetwork} (ready : exchange.Ready network)
    (fresh : exchange.ForwardsFresh crypto snow network) {first entry : Stop}
    {rest more : List Stop} (forwardEq : exchange.forward = first :: rest)
    (backEq : exchange.back = entry :: more) :
    ∃ initiator responder, exchange.outcome crypto snow network =
      if exitOf entry more = first.addr then
        (.ok initiator,
          if exitOf first rest = entry.addr then .ok responder else .error .unexpectedAddr)
      else (.error .unexpectedAddr, .error .io) := by
  rcases ready.sockets with ⟨firstOk, secondOk, thirdOk⟩
  have hostsForward := ready.hosts_forward
  have hostsBack := ready.hosts_back
  rw [forwardEq] at hostsForward
  rw [backEq] at hostsBack
  have firstLength := transcript.first_length
  have secondLength := transcript.second_length
  have thirdLength := transcript.third_length
  rcases ready.exists_forward sized forwardEq exchange.firstEnv.draws
    (firstLength.trans_le (by omega)) with ⟨inner₁, wire₁, encoded₁, length₁, wrapped₁⟩
  rcases ready.exists_back sized backEq exchange.secondEnv.draws secondLength.le with
    ⟨inner₂, wire₂, encoded₂, length₂, wrapped₂⟩
  rcases ready.exists_forward sized forwardEq exchange.thirdEnv.draws thirdLength.le with
    ⟨inner₃, wire₃, encoded₃, length₃, wrapped₃⟩
  simp only [outerHeaderLen, firstLength, secondLength, thirdLength] at length₁ length₂ length₃
  have connected := connects_eq transcript firstOk forwardEq encoded₁ wrapped₁
  rcases fresh _ _ connected with ⟨forwards₁, freshOn₁⟩
  rcases deliver_route lawful sized wrapped₁ hostsForward ready.vacant_responder
    (by simp [ready.untouched]) forwards₁ with ⟨network₁, delivered₁, traversed₁⟩
  have accepted := accepts_eq transcript secondOk backEq encoded₁ encoded₂ wrapped₂
    (exitOf first rest)
  rcases freshOn₁ network₁ _ delivered₁ _ _ accepted with ⟨forwards₂, freshOn₂⟩
  have handled₁ := traversed₁.residue_of_untouched ready.untouched
  rcases deliver_route lawful sized wrapped₂ (traversed₁.hosts _ hostsBack)
    (traversed₁.vacant _ ready.vacant_initiator) (fun addr payload seen => by
      have := handled₁ addr payload seen
      omega) forwards₂ with
    ⟨network₂, delivered₂, traversed₂⟩
  rcases resumes_eq transcript thirdOk encoded₂ encoded₃ wrapped₃ (exitOf entry more) with
    ⟨initiator, resumed⟩
  rcases acceptExResume_eq crypto transcript entry more encoded₃ (exitOf first rest) with
    ⟨responder, finished⟩
  refine ⟨initiator, responder, ?_⟩
  simp only [outcome, connected, delivered₁, accepted, delivered₂, resumed]
  by_cases heard : exitOf entry more = first.addr
  · simp only [if_pos heard] at resumed ⊢
    have forwards₃ := freshOn₂ network₂ _ delivered₂ _ _ resumed
    have unseen₃ : ∀ addr payload, (addr, payload) ∈ network₂.handled →
        payload.length % 86 ≠ inner₃.length % 86 := by
      intro addr payload seen
      rcases traversed₂.handled addr payload seen with earlier | residue
      · have := handled₁ addr payload earlier
        omega
      · omega
    rcases deliver_route lawful sized wrapped₃
      (traversed₂.hosts _ (traversed₁.hosts _ hostsForward))
      (traversed₂.vacant _ (traversed₁.vacant _ ready.vacant_responder)) unseen₃ forwards₃ with
      ⟨network₃, delivered₃, _⟩
    simp only [delivered₃, finished]
  · simp only [if_neg heard]

/--
The handshake over two onion routes succeeds at both ends if and only if the last
hop of the route back is at the address of the first hop of the forward route, and
the last hop of the forward route at the address of the first hop of the route back.
-/
theorem handshake_succeeds_iff (crypto : OnionCrypto) (lawful : crypto.Lawful)
    (sized : crypto.Sized) (snow : Snow State) (exchange : OnionExchange)
    (transcript : snow.Transcript exchange.initiatorSecret exchange.responderSecret)
    (network : OnionNetwork) (ready : exchange.Ready network)
    (fresh : exchange.ForwardsFresh crypto snow network) (forwardNonempty : exchange.forward ≠ [])
    (backNonempty : exchange.back ≠ []) :
    ((∃ session, (exchange.outcome crypto snow network).1 = .ok session) ∧
      ∃ session, (exchange.outcome crypto snow network).2 = .ok session) ↔
    (exchange.back.getLast backNonempty).addr = (exchange.forward.head forwardNonempty).addr ∧
      (exchange.forward.getLast forwardNonempty).addr =
        (exchange.back.head backNonempty).addr := by
  rcases List.exists_cons_of_ne_nil forwardNonempty with ⟨first, rest, forwardEq⟩
  rcases List.exists_cons_of_ne_nil backNonempty with ⟨entry, more, backEq⟩
  rcases outcome_eq lawful sized transcript ready fresh forwardEq backEq with
    ⟨initiator, responder, outcomeEq⟩
  have exits : (exchange.back.getLast backNonempty).addr = exitOf entry more ∧
      (exchange.forward.getLast forwardNonempty).addr = exitOf first rest := by
    simp only [forwardEq, backEq, exitOf, and_self]
  have entries : (exchange.back.head backNonempty).addr = entry.addr ∧
      (exchange.forward.head forwardNonempty).addr = first.addr := by
    simp only [forwardEq, backEq, List.head_cons, and_self]
  rw [outcomeEq, exits.1, exits.2, entries.1, entries.2]
  by_cases heard : exitOf entry more = first.addr
  · by_cases answered : exitOf first rest = entry.addr <;> simp [heard, answered]
  · simp [heard]

/-! ### A sample run -/

/-- Whether each message which is sent arrives. -/
def arrivals (exchange : OnionExchange) (crypto : OnionCrypto) (snow : Snow State)
    (network : OnionNetwork) : List Bool :=
  match exchange.connects crypto snow with
  | .error _ => []
  | .ok (initiator, first) =>
      let (network, arrived) :=
        network.deliver crypto (exchange.hopEnvs 0) exchange.initiatorAddr first
      arrived.isSome ::
        match exchange.accepts crypto snow arrived with
        | .error _ => []
        | .ok (_, second) =>
            let (network, arrived) :=
              network.deliver crypto (exchange.hopEnvs 1) exchange.responderAddr second
            arrived.isSome ::
              match exchange.resumes crypto snow initiator arrived with
              | (_, none) => []
              | (_, some third) =>
                  [(network.deliver crypto (exchange.hopEnvs 2) exchange.initiatorAddr
                    third).2.isSome]

theorem forwardsFresh_of_arrives {fuel : ℕ} {envs : ℕ → StepEnv} {network : OnionNetwork}
    {source dest : SocketAddr} {datagram : Bytes}
    (arrives : (carry crypto fuel envs network source dest datagram).2.isSome = true) :
    OnionNetwork.ForwardsFresh crypto fuel envs network source dest datagram := by
  induction fuel generalizing envs network source dest datagram with
  | zero => trivial
  | succ fuel ih =>
      simp only [carry, OnionNetwork.ForwardsFresh] at arrives ⊢
      split
      · trivial
      · rename_i relay found
        simp only [found] at arrives
        split at arrives
        · cases arrives
        · rename_i next payload sent
          refine ⟨?_, ?_⟩
          · intro flags body peeled _ _ _
            rw [sent]
            exact Option.some_ne_none _
          · intro otherNext otherPayload sentToo
            rw [sent] at sentToo
            cases sentToo
            exact ih arrives

theorem forwardsFresh_of_arrivals {network : OnionNetwork}
    (arrive : ∀ arrived ∈ exchange.arrivals crypto snow network, arrived = true) :
    exchange.ForwardsFresh crypto snow network := by
  intro initiator first connected
  simp only [arrivals, connected, List.forall_mem_cons] at arrive
  refine ⟨forwardsFresh_of_arrives arrive.1, ?_⟩
  intro network₁ arrived₁ delivered₁ responder second accepted
  simp only [delivered₁, accepted, List.forall_mem_cons] at arrive
  refine ⟨forwardsFresh_of_arrives arrive.2.1, ?_⟩
  intro network₂ arrived₂ delivered₂ result third resumed
  simp only [delivered₂, resumed, List.forall_mem_cons] at arrive
  exact forwardsFresh_of_arrives arrive.2.2.1

/-- How many messages an endpoint has come to, its secret, and the static key of its peer. -/
structure SampleState where
  step : ℕ
  secret : Block 32
  remote : Option Bytes

/-- A handshake which counts its messages and hands over the static keys in the clear. -/
def sampleSnow : Snow SampleState where
  build
    | .initiator, secret => some ⟨0, secret, none⟩
    | .responder, secret => some ⟨10, secret, none⟩
  writeMessage state _ :=
    let own := (sampleCrypto.publicKey state.secret).toList
    match state.step with
    | 0 => some (List.replicate 32 1, { state with step := 1 })
    | 11 => some (own ++ List.replicate 64 2, { state with step := 12 })
    | 2 => some (own ++ List.replicate 32 3, { state with step := 3 })
    | _ => none
  readMessage state message :=
    match state.step with
    | 10 => if message = List.replicate 32 1 then some { state with step := 11 } else none
    | 1 =>
        if message.drop 32 = List.replicate 64 2 then
          some { state with step := 2, remote := some (message.take 32) }
        else none
    | 12 =>
        if message.drop 32 = List.replicate 32 3 then
          some { state with step := 13, remote := some (message.take 32) }
        else none
    | _ => none
  isHandshakeFinished state := state.step = 3 ∨ state.step = 13
  intoTransportMode state :=
    let first := List.Vector.replicate 32 1
    let second := List.Vector.replicate 32 2
    some (if state.step = 3 then ⟨first, second, 0, 0⟩ else ⟨second, first, 0, 0⟩)
  getRemoteStatic state := state.remote

def sampleExchange : OnionExchange where
  initiatorSecret := List.Vector.replicate 32 5
  responderSecret := List.Vector.replicate 32 6
  initiatorAddr := loopback 1
  responderAddr := loopback 2
  forward := sampleStops
  back := sampleStops.reverse
  firstEnv := sendEnv 10
  secondEnv := sendEnv 20
  thirdEnv := sendEnv 30
  hopEnvs _ _ := { now := 0, order := .listed _, socketOk := true }
  started := 0
where
  sendEnv (base : ℕ) : SendEnv :=
    { draws := fun layer => sampleDraws (base + layer), socketOk := true }

def sampleNetwork : OnionNetwork where
  relays addr :=
    (sampleStops.find? fun stop => stop.addr = addr).map fun stop => OnionRelay.bind stop.secret
  handled := []

def sampleTranscript : sampleSnow.Transcript sampleExchange.initiatorSecret
    sampleExchange.responderSecret where
  initiatorStart := ⟨0, sampleExchange.initiatorSecret, none⟩
  initiatorSent := ⟨1, sampleExchange.initiatorSecret, none⟩
  initiatorRead := ⟨2, sampleExchange.initiatorSecret, some (List.replicate 32 6)⟩
  initiatorDone := ⟨3, sampleExchange.initiatorSecret, some (List.replicate 32 6)⟩
  responderStart := ⟨10, sampleExchange.responderSecret, none⟩
  responderRead := ⟨11, sampleExchange.responderSecret, none⟩
  responderSent := ⟨12, sampleExchange.responderSecret, none⟩
  responderDone := ⟨13, sampleExchange.responderSecret, some (List.replicate 32 5)⟩
  first := List.replicate 32 1
  second := List.replicate 32 6 ++ List.replicate 64 2
  third := List.replicate 32 5 ++ List.replicate 32 3
  initiatorNoise := ⟨List.Vector.replicate 32 1, List.Vector.replicate 32 2, 0, 0⟩
  responderNoise := ⟨List.Vector.replicate 32 2, List.Vector.replicate 32 1, 0, 0⟩
  build_initiator := rfl
  build_responder := rfl
  write_first := rfl
  read_first := rfl
  write_second := rfl
  read_second := rfl
  write_third := rfl
  read_third := rfl
  unfinished := by simp [sampleSnow]
  initiator_finished := rfl
  responder_finished := rfl
  initiator_transport := rfl
  responder_transport := rfl
  first_length := rfl
  second_length := rfl
  third_length := rfl

theorem sampleNetwork_hosts {stops : List Stop} (sub : ∀ stop ∈ stops, stop ∈ sampleStops) :
    sampleNetwork.Hosts stops := by
  intro stop stopMem
  have stopMem := sub stop stopMem
  simp only [sampleStops, List.mem_cons, List.not_mem_nil, or_false] at stopMem
  rcases stopMem with rfl | rfl
  · exact ⟨_, rfl, rfl⟩
  · exact ⟨_, rfl, rfl⟩

theorem sampleExchange_ready : sampleExchange.Ready sampleNetwork where
  hosts_forward := sampleNetwork_hosts fun _ stopMem => stopMem
  hosts_back := sampleNetwork_hosts fun _ stopMem => List.mem_reverse.mp stopMem
  vacant_initiator := by decide
  vacant_responder := by decide
  untouched := rfl
  forward_v4 := by decide
  back_v4 := by decide
  initiator_v4 := rfl
  responder_v4 := rfl
  forward_fits := by decide
  back_fits := by decide
  sockets := ⟨rfl, rfl, rfl⟩

theorem handshake_succeeds_sample :
    (∃ session, (sampleExchange.outcome sampleCrypto sampleSnow sampleNetwork).1 = .ok session) ∧
      ∃ session, (sampleExchange.outcome sampleCrypto sampleSnow sampleNetwork).2 =
        .ok session := by
  have fresh : sampleExchange.ForwardsFresh sampleCrypto sampleSnow sampleNetwork := by
    apply forwardsFresh_of_arrivals
    decide +kernel
  exact (handshake_succeeds_iff sampleCrypto sampleCrypto_lawful sampleCrypto_sized sampleSnow
    sampleExchange sampleTranscript sampleNetwork sampleExchange_ready fresh (by decide)
    (by decide)).mpr ⟨rfl, rfl⟩

end OnionExchange

end Ppose

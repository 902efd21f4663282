import Ppose.Session.Cover
import Ppose.Session.DeadDirection
import Ppose.Forwarding.Mesh

/-!
# Two sessions over a network of forwarders

The hostile network of `HostileNetwork` may do anything, as long as it forges nothing.  Here
the network is spelled out: the datagrams of both sessions, their cover and whatever an
attacker puts on the wire pass through any number of relays and onion hops, each of which
rewrites what it forwards.  Nothing is assumed about where a datagram arrives, when, how
often and under which source address.

What can be got out of a datagram by forwarding it is what it `Yields`.  A relay and an onion
hop get nothing out of a datagram which it did not yield before, and a datagram of a session
yields the body which was sealed and no other (`yields_of_offer`, `yields_of_sendInner`).  So
the attacker may replay, wrap and unwrap; as long as it does not make up a ciphertext, the
network is one which forges nothing, and all that holds over such a network holds here
(`Overlay.forges_nothing`).

No cipher makes it impossible to read a ciphertext under another key, so what is needed of
the ciphers is said of the ciphertexts of the run: a session does not read its own, and no
hop reads an onion layer which was made for another (`ToldApart`).
-/

namespace Ppose

open Arq (Side)

/-! ### What a datagram yields -/

/-- The data bodies to which forwarders with the given secret keys can bring a datagram. -/
inductive Yields (crypto : OnionCrypto) (secrets : Set (Block 32)) : Bytes → Bytes → Prop
  | data {datagram body : Bytes} {flags : UInt8}
      (decoded : decodeOuter datagram = .ok (.data, flags, body)) :
      Yields crypto secrets datagram body
  | forward {datagram forwardBody inner body : Bytes} {flags : UInt8} {other : SocketAddr}
      (decoded : decodeOuter datagram = .ok (.forward, flags, forwardBody))
      (split : decodeForwardBody forwardBody = .ok (other, inner))
      (rest : Yields crypto secrets inner body) : Yields crypto secrets datagram body
  | onion {datagram layer body : Bytes} {flags : UInt8} {secret : Block 32}
      {peeled : Onion.Peeled} (decoded : decodeOuter datagram = .ok (.onion, flags, layer))
      (secretMem : secret ∈ secrets) (peels : Onion.peelLayer crypto secret layer = .ok peeled)
      (rest : Yields crypto secrets peeled.payload body) : Yields crypto secrets datagram body

namespace Yields

variable {crypto : OnionCrypto} {secrets : Set (Block 32)} {datagram found : Bytes}
  {flags : UInt8}

/-- How a datagram yields a body depends on its type. -/
theorem of_decoded {packetType : PacketType} {content : Bytes}
    (yields : Yields crypto secrets datagram found)
    (decoded : decodeOuter datagram = .ok (packetType, flags, content)) :
    match packetType with
    | .data => found = content
    | .forward => ∃ other inner, decodeForwardBody content = .ok (other, inner) ∧
        Yields crypto secrets inner found
    | .onion => ∃ secret ∈ secrets, ∃ peeled, Onion.peelLayer crypto secret content = .ok peeled ∧
        Yields crypto secrets peeled.payload found
    | _ => False := by
  cases yields with
  | data decoded' =>
      rw [decoded] at decoded'
      cases decoded'
      rfl
  | forward decoded' split rest =>
      rw [decoded] at decoded'
      cases decoded'
      exact ⟨_, _, split, rest⟩
  | onion decoded' secretMem peels rest =>
      rw [decoded] at decoded'
      cases decoded'
      exact ⟨_, secretMem, _, peels, rest⟩

theorem of_forward {forwardBody inner : Bytes} {other : SocketAddr}
    (yields : Yields crypto secrets datagram found)
    (decoded : decodeOuter datagram = .ok (.forward, flags, forwardBody))
    (split : decodeForwardBody forwardBody = .ok (other, inner)) :
    Yields crypto secrets inner found := by
  rcases yields.of_decoded decoded with ⟨_, _, split', rest⟩
  rw [split] at split'
  cases split'
  exact rest

end Yields

/-! ### Forwarders -/

/-- The secret keys of the onion hops. -/
def secretsOf {ι : Type} (roles : ι → Role) : Set (Block 32) :=
  {secret | ∃ node, roles node = .onion secret}

/-- What a forwarder sends yields nothing which was not in what it received. -/
theorem yields_of_offer {crypto : OnionCrypto} {secrets : Set (Block 32)} {role : Role}
    (known : ∀ secret, role = .onion secret → secret ∈ secrets) {received : Received}
    {offer : Offer} {dest : SocketAddr} {packet : Bytes}
    (offered : role.offer crypto received = some offer) (out : offer.out = some (dest, packet)) :
    ∃ raw source, received = .datagram raw source ∧ packet.length ≤ maxDatagram ∧
      ∀ body, Yields crypto secrets packet body →
        Yields crypto secrets (raw.take maxDatagram) body := by
  cases role with
  | relay =>
      rcases Relay.exists_of_offer offered with
        ⟨raw, source, flags, forwardBody, target, inner, receivedEq, decoded, split, rfl⟩
      refine ⟨raw, source, receivedEq, ?_⟩
      cases encoded : encodeForwardBody source inner with
      | error error => simp [encoded, Except.toOption] at out
      | ok outBody =>
          simp only [encoded, Except.toOption, Option.map_some, Option.some.injEq,
            Prod.mk.injEq] at out
          rcases out with ⟨rfl, rfl⟩
          have resplit := decodeForwardBody_of_encodeForwardBody encoded
          have redecoded := decodeOuter_encodeOuter .forward 0 outBody
          constructor
          · have truncated := List.length_take_le maxDatagram raw
            rw [length_of_decodeOuter decoded, length_of_decodeForwardBody split] at truncated
            rw [length_of_decodeOuter redecoded, length_of_decodeForwardBody resplit]
            exact truncated
          · intro body yields
            exact .forward decoded split (yields.of_forward redecoded resplit)
  | onion secret =>
      rcases OnionRelay.exists_of_offer offered with
        ⟨raw, source, flags, layer, peeled, receivedEq, decoded, peels, rfl⟩
      simp only at out
      split_ifs at out with large
      simp only [Option.some.injEq, Prod.mk.injEq] at out
      rcases out with ⟨rfl, rfl⟩
      refine ⟨raw, source, receivedEq, not_lt.mp large, ?_⟩
      intro body yields
      exact .onion decoded (known secret rfl) peels yields

/-- What a forwarder sends was offered to it. -/
theorem Forwarder.exists_offer {crypto : OnionCrypto} {forwarder : Forwarder} {env : StepEnv}
    {received : Received} {dest : SocketAddr} {packet : Bytes}
    (sent : (forwarder.step crypto env received).1 = some (dest, packet)) :
    ∃ offer, forwarder.role.offer crypto received = some offer ∧
      offer.out = some (dest, packet) := by
  rw [(step_spec crypto forwarder env received).1] at sent
  cases offered : forwarder.role.offer crypto received with
  | none => simp [offered, forwardOffer] at sent
  | some offer =>
      refine ⟨offer, rfl, ?_⟩
      simp only [offered, forwardOffer] at sent
      split at sent
      · cases sent
      · split_ifs at sent
        exact sent

/-! ### Sessions -/

namespace Onion

variable {crypto : OnionCrypto} {secrets : Set (Block 32)}

/-- Whoever reads a layer of the route has the secret of the key which it was made for. -/
def Addressed (crypto : OnionCrypto) (secrets : Set (Block 32)) : List OnionHop → Bytes → Prop
  | [], _ => True
  | hop :: rest, datagram =>
      ∀ flags layer, decodeOuter datagram = .ok (.onion, flags, layer) → ∀ secret ∈ secrets,
        ∀ peeled, peelLayer crypto secret layer = .ok peeled →
          crypto.publicKey secret = hop.pk ∧ Addressed crypto secrets rest peeled.payload

/-- The layers of a route yield nothing which the datagram inside them does not yield. -/
theorem yields_of_wrapLayers (lawful : crypto.Lawful) {draws : Draws} {layer : ℕ}
    {hops inside : List OnionHop} {next : SocketAddr} {payload wire : Bytes}
    (fits : payload.length ≤ maxDatagram)
    (wrapped : wrapLayers crypto draws layer hops next payload = .ok wire)
    (addressed : Addressed crypto secrets (hops.reverse ++ inside) wire) :
    wire.length ≤ maxDatagram ∧ ∀ body, Yields crypto secrets wire body →
      Yields crypto secrets payload body ∧ Addressed crypto secrets inside payload := by
  induction hops generalizing layer inside next payload with
  | nil =>
      cases wrapped
      exact ⟨fits, fun body yields => ⟨yields, addressed⟩⟩
  | cons hop rest ih =>
      rcases wrapLayers_cons_eq_ok_iff.mp wrapped with
        ⟨layerBody, datagram, layered, encoded, restWrapped⟩
      have decoded := decodeOuter_of_encodeDatagram encoded
      rw [List.reverse_cons, List.append_assoc] at addressed
      rcases ih (length_le_of_encodeDatagram encoded) restWrapped addressed with
        ⟨wireFits, yieldsInner⟩
      refine ⟨wireFits, ?_⟩
      intro body yields
      rcases yieldsInner body yields with ⟨innerYields, innerAddressed⟩
      rcases innerYields.of_decoded decoded with ⟨secret, secretMem, peeled, peels, peeledYields⟩
      rcases innerAddressed 0 layerBody decoded secret secretMem peeled peels with
        ⟨keyEq, peeledAddressed⟩
      rw [← keyEq] at layered
      rw [peelLayer_of_wrapLayer lawful layered, Except.ok.injEq] at peels
      subst peels
      exact ⟨peeledYields, peeledAddressed⟩

end Onion

namespace UdpSession

variable {crypto : OnionCrypto} {cipher : NoiseCipher} {secrets : Set (Block 32)}
  {session : UdpSession}

/-- A data datagram of a session yields its body and no other, on every path. -/
theorem yields_of_sendInner (lawful : crypto.Lawful) {env : SendEnv} {body wire : Bytes}
    {hop : SocketAddr} (sent : sendInner crypto session env .data body = .ok (hop, wire))
    (addressed : Onion.Addressed crypto secrets (session.onion.getD []) wire) :
    wire.length ≤ maxDatagram ∧ ∀ found, Yields crypto secrets wire found → found = body := by
  unfold sendInner at sent
  split at sent
  · cases sent
  · rename_i datagram wireEq
    split_ifs at sent
    cases sent
    cases encoded : encodeDatagram .data body with
    | error error => simp [wireOf, encoded, bind, Except.bind] at wireEq
    | ok inner =>
        have innerDecoded := decodeOuter_of_encodeDatagram encoded
        have innerFits := length_le_of_encodeDatagram encoded
        have innerYields : ∀ found, Yields crypto secrets inner found → found = body :=
          fun found yields => yields.of_decoded innerDecoded
        simp only [wireOf, encoded, bind, Except.bind] at wireEq
        split at wireEq
        · rename_i hops onionEq
          unfold Onion.wrapRoute at wireEq
          split_ifs at wireEq
          have routeEq : session.onion.getD [] = hops.reverse.reverse ++ [] := by
            rw [onionEq, List.reverse_reverse, List.append_nil, Option.getD_some]
          rw [routeEq] at addressed
          rcases Onion.yields_of_wrapLayers lawful innerFits wireEq addressed with
            ⟨fits, yieldsInner⟩
          exact ⟨fits, fun found yields => innerYields found (yieldsInner found yields).1⟩
        · split_ifs at wireEq
          · cases forwarded : encodeForwardBody session.peer inner with
            | error error => simp [forwarded] at wireEq
            | ok forwardBody =>
                simp only [forwarded] at wireEq
                have decoded := decodeOuter_of_encodeDatagram wireEq
                have split := decodeForwardBody_of_encodeForwardBody forwarded
                refine ⟨length_le_of_encodeDatagram wireEq, ?_⟩
                intro found yields
                exact innerYields found (yields.of_forward decoded split)
          · cases wireEq
            exact ⟨innerFits, innerYields⟩

end UdpSession

/-- What was sealed went the way of all data datagrams, along a route if there is one. -/
def Emission.Routed (crypto : OnionCrypto) (onion : Option (List Onion.OnionHop))
    (emission : Emission) : Prop :=
  ∃ session env, session.onion = onion ∧
    emission.sent = UdpSession.sendInner crypto session env .data emission.body

namespace UdpSession

variable {crypto : OnionCrypto} {cipher : NoiseCipher}

/-- An operation keeps the route and sends along it. -/
def SentAlong (crypto : OnionCrypto) (onion : Option (List Onion.OnionHop))
    (outcome : Except SessionError Unit × UdpSession × List Emission) : Prop :=
  outcome.2.1.onion = onion ∧ ∀ emission ∈ outcome.2.2, emission.Routed crypto onion

theorem SentAlong.of_eq {onion other : Option (List Onion.OnionHop)}
    {outcome : Except SessionError Unit × UdpSession × List Emission}
    (along : SentAlong crypto onion outcome) (same : onion = other) :
    SentAlong crypto other outcome :=
  same ▸ along

theorem sealAndSend_sentAlong (session : UdpSession) (env : SendEnv) (retransmission : Bool)
    (frame : Bytes) :
    SentAlong crypto session.onion
      (sealAndSend crypto cipher session env retransmission frame) := by
  unfold sealAndSend
  split
  · exact ⟨rfl, List.forall_mem_nil _⟩
  · rename_i body noise _
    refine ⟨rfl, ?_⟩
    intro emission emissionMem
    rw [List.mem_singleton.mp emissionMem]
    exact ⟨{ session with noise }, env, rfl, rfl⟩

theorem sealData_sentAlong (session : UdpSession) (env : SendEnv) (retransmission : Bool)
    (frame : Bytes) :
    SentAlong crypto session.onion (sealData crypto cipher session env retransmission frame) := by
  unfold sealData
  split_ifs
  · exact ⟨rfl, List.forall_mem_nil _⟩
  · exact sealAndSend_sentAlong session env retransmission frame

theorem sealAll_sentAlong (session : UdpSession) (envs : ℕ → SendEnv) (retransmission : Bool)
    (frames : List Bytes) :
    SentAlong crypto session.onion
      (sealAll crypto cipher retransmission session envs frames) := by
  induction frames generalizing session envs with
  | nil => exact ⟨rfl, List.forall_mem_nil _⟩
  | cons frame rest ih =>
      have first : SentAlong crypto session.onion
          (sealData crypto cipher session (envs 0) retransmission frame) :=
        sealData_sentAlong session (envs 0) retransmission frame
      simp only [sealAll]
      split
      · rename_i resultEq
        rw [resultEq] at first
        exact first
      · rename_i session' emissions resultEq
        rw [resultEq] at first
        rcases first with ⟨onionEq, firstRouted⟩
        have others := (ih session' (envs ∘ Nat.succ)).of_eq onionEq
        exact ⟨others.1, List.forall_mem_append.mpr ⟨firstRouted, others.2⟩⟩

theorem flush_sentAlong (session : UdpSession) (newEnvs dueEnvs : ℕ → SendEnv) (now : Instant) :
    SentAlong crypto session.onion (flush crypto cipher session newEnvs dueEnvs now) := by
  have news : SentAlong crypto session.onion (sealAll crypto cipher false
      { session with arq := (session.arq.takeNewSends now).2 } newEnvs
      (session.arq.takeNewSends now).1) :=
    sealAll_sentAlong _ newEnvs false _
  simp only [flush]
  split
  · rename_i resultEq
    rw [resultEq] at news
    exact news
  · rename_i session' emissions resultEq
    rw [resultEq] at news
    rcases news with ⟨onionEq, newsRouted⟩
    split
    · exact ⟨onionEq, newsRouted⟩
    · rename_i due arq _
      have again : SentAlong crypto session.onion
          (sealAll crypto cipher true { session' with arq } dueEnvs due) :=
        (sealAll_sentAlong _ dueEnvs true due).of_eq onionEq
      exact ⟨again.1, List.forall_mem_append.mpr ⟨newsRouted, again.2⟩⟩

theorem onion_notePeer (session : UdpSession) (other : Option SocketAddr) :
    (session.notePeer other).onion = session.onion := by
  cases other <;> rfl

theorem handleIncoming_sentAlong (session : UdpSession) (env : SendEnv) (raw : Bytes) :
    SentAlong crypto session.onion (handleIncoming crypto cipher session env raw) := by
  unfold handleIncoming
  split
  · exact ⟨rfl, List.forall_mem_nil _⟩
  · rename_i packetType body other _
    rw [← onion_notePeer session other]
    simp only
    split
    · split
      · exact ⟨rfl, List.forall_mem_nil _⟩
      · split
        · exact ⟨rfl, List.forall_mem_nil _⟩
        · exact ⟨rfl, List.forall_mem_nil _⟩
        · exact sealAndSend_sentAlong _ env false _
    · exact ⟨rfl, List.forall_mem_nil _⟩

theorem perform_routed (session : UdpSession) (op : SessionOp) :
    ∀ emission ∈ (perform crypto cipher session op).2, emission.Routed crypto session.onion := by
  cases op with
  | handleIncoming env raw => exact (handleIncoming_sentAlong session env raw).2
  | flush newEnvs dueEnvs now => exact (flush_sentAlong session newEnvs dueEnvs now).2
  | maybeCover env now random => exact List.forall_mem_nil _
  | enqueue message => exact List.forall_mem_nil _
  | popDelivered => exact List.forall_mem_nil _
  | debugDropData count => exact List.forall_mem_nil _
  | setRetxTimeout retx => exact List.forall_mem_nil _
  | setCover mode now => exact List.forall_mem_nil _
  | setOutboundOnion hops dest => exact List.forall_mem_nil _

theorem coverOf_routed {session : UdpSession} {op : SessionOp} {cover : CoverDatagram}
    (made : session.coverOf crypto op = some cover) :
    ∃ env now random, op = .maybeCover env now random ∧ cover.body = random.toList ∧
      ∃ other : UdpSession, other.onion = session.onion ∧
        cover.sent = sendInner crypto other env .data cover.body := by
  cases op with
  | maybeCover env now random =>
      refine ⟨env, now, random, rfl, ?_⟩
      simp only [coverOf, maybeCover] at made
      split at made
      · cases made
      · split_ifs at made
        cases made
        exact ⟨rfl, { session with lastCover := now }, rfl, rfl⟩
  | _ => cases made

end UdpSession

/-! ### The overlay -/

namespace UdpSession

variable (crypto : OnionCrypto) (cipher : NoiseCipher)

/-- The datagrams which an operation puts on the wire. -/
def transmits (session : UdpSession) (op : SessionOp) : List Bytes :=
  ((perform crypto cipher session op).2.filterMap fun emission =>
    emission.sent.toOption.map Prod.snd) ++
    ((session.coverOf crypto op).bind fun cover => cover.sent.toOption.map Prod.snd).toList

variable {crypto cipher}

theorem ok_of_toOption {ε α : Type} {result : Except ε α} {value : α}
    (found : result.toOption = some value) : result = .ok value := by
  cases result with
  | error error => cases found
  | ok other =>
      cases found
      rfl

/-- What is put on the wire was sealed in the operation, or is its cover. -/
theorem exists_of_transmits {session : UdpSession} {op : SessionOp} {datagram : Bytes}
    (transmitted : datagram ∈ session.transmits crypto cipher op) :
    ∃ other env body hop, other.onion = session.onion ∧
      sendInner crypto other env .data body = .ok (hop, datagram) ∧
      ((∃ emission ∈ (perform crypto cipher session op).2,
          emission.sent.isOk = true ∧ emission.body = body) ∨
        ∃ env now random, op = .maybeCover env now random ∧ body = random.toList) := by
  rcases List.mem_append.mp transmitted with isSealed | isCover
  · rcases List.mem_filterMap.mp isSealed with ⟨emission, emissionMem, wireEq⟩
    rcases perform_routed session op emission emissionMem with ⟨other, env, onionEq, sentEq⟩
    rcases Option.map_eq_some_iff.mp wireEq with ⟨⟨hop, wire⟩, optionEq, rfl⟩
    have sent := ok_of_toOption optionEq
    refine ⟨other, env, emission.body, hop, onionEq, sentEq.symm.trans sent, Or.inl ?_⟩
    refine ⟨emission, emissionMem, ?_, rfl⟩
    rw [sent]
    rfl
  · rcases Option.bind_eq_some_iff.mp (Option.mem_toList.mp isCover) with ⟨cover, made, wireEq⟩
    rcases coverOf_routed made with
      ⟨env, now, random, opEq, bodyEq, other, onionEq, sentEq⟩
    rcases Option.map_eq_some_iff.mp wireEq with ⟨⟨hop, wire⟩, optionEq, rfl⟩
    have sent := ok_of_toOption optionEq
    exact ⟨other, env, cover.body, hop, onionEq, sentEq.symm.trans sent,
      Or.inr ⟨env, now, random, opEq, bodyEq⟩⟩

end UdpSession

/-- Two sessions, the forwarders between them, and every datagram put on the wire so far. -/
structure Overlay (ι : Type) where
  talk : Talk
  mesh : Mesh ι
  wire : List Bytes

inductive OverlayEvent (ι : Type) where
  | session (side : Side) (op : SessionOp)
  | visit (visit : Visit ι)
  /-- Somebody else puts a datagram on the wire. -/
  | inject (raw : Bytes)

/-- A body which does not open under any counter. -/
def Noise.Rejects (cipher : NoiseCipher) (noise : Noise) (body : Bytes) : Prop :=
  ∀ counter < maxNonce, cipher.decrypt noise.recvKey counter body = none

/--
The ciphers tell apart what a session makes in an operation: the session does not open its
own ciphertexts, and no hop reads an onion layer which was made for another.
-/
structure UdpSession.ToldApart (crypto : OnionCrypto) (cipher : NoiseCipher)
    (secrets : Set (Block 32)) (session : UdpSession) (op : SessionOp) : Prop where
  unreflected : ∀ emission ∈ (session.perform crypto cipher op).2,
    session.noise.Rejects cipher emission.body
  addressed : ∀ datagram ∈ session.transmits crypto cipher op,
    Onion.Addressed crypto secrets (session.onion.getD []) datagram

namespace Talk

variable (cipher : NoiseCipher)

/-- A body which neither session opens at any time. -/
def Alien (talk : Talk) (body : Bytes) : Prop :=
  ∀ side, (talk side).session.noise.Rejects cipher body

/-- A body which is of no use to an attacker: one of the sessions has sent it, or none opens it. -/
def Harmless (talk : Talk) (body : Bytes) : Prop :=
  talk.Alien cipher body ∨
    ∃ side, ∃ emission ∈ (talk side).emissions, emission.sent.isOk = true ∧ emission.body = body

/-- Whatever the datagram yields to a receiver or a forwarder is harmless. -/
def Clean (crypto : OnionCrypto) (secrets : Set (Block 32)) (talk : Talk) (datagram : Bytes) :
    Prop :=
  ∀ body, Yields crypto secrets (datagram.take maxDatagram) body → talk.Harmless cipher body

end Talk

namespace Overlay

variable {ι : Type} [DecidableEq ι] (crypto : OnionCrypto) (cipher : NoiseCipher) (roles : ι → Role)

def start (talk : Talk) : Overlay ι where
  talk := talk
  mesh := Mesh.start roles
  wire := []

def step (overlay : Overlay ι) : OverlayEvent ι → Overlay ι
  | .session side op =>
      { overlay with
        talk := overlay.talk.step crypto cipher (side, op)
        wire := overlay.wire ++ (overlay.talk side).session.transmits crypto cipher op }
  | .visit visit =>
      let sent := ((overlay.mesh.forwarder visit.node).step crypto visit.env visit.received).1
      { overlay with
        mesh := overlay.mesh.step crypto visit
        wire := overlay.wire ++ (sent.map Prod.snd).toList }
  | .inject raw => { overlay with wire := overlay.wire ++ [raw] }

def steps (overlay : Overlay ι) (events : List (OverlayEvent ι)) : Overlay ι :=
  events.foldl (step crypto cipher) overlay

/-- What arrives is on the wire, and the random bytes of a cover datagram are no ciphertext. -/
def Arises (overlay : Overlay ι) : SessionOp → Prop
  | .handleIncoming _ raw => ∃ datagram ∈ overlay.wire, raw = datagram.take maxDatagram
  | .maybeCover _ _ random => overlay.talk.Alien cipher random.toList
  | _ => True

/--
Only what is on the wire arrives, nobody else makes up a ciphertext of the sessions, and the
ciphers tell apart what the sessions make.
-/
def Feasible (overlay : Overlay ι) : OverlayEvent ι → Prop
  | .session side op =>
      overlay.Arises cipher op ∧
        (overlay.talk side).session.ToldApart crypto cipher (secretsOf roles) op
  | .visit visit => ∀ raw source, visit.received = .datagram raw source → raw ∈ overlay.wire
  | .inject raw => overlay.talk.Clean cipher crypto (secretsOf roles) raw

def FeasibleRun (overlay : Overlay ι) : List (OverlayEvent ι) → Prop
  | [] => True
  | event :: rest =>
      overlay.Feasible crypto cipher roles event ∧
        FeasibleRun (overlay.step crypto cipher event) rest

end Overlay

/-- What the event is to the sessions, if anything. -/
def OverlayEvent.sessionEvent {ι : Type} : OverlayEvent ι → Option (Side × SessionOp)
  | .session side op => some (side, op)
  | .visit _ => none
  | .inject _ => none

/-! ### The network forges nothing -/

namespace Talk

variable {crypto : OnionCrypto} {cipher : NoiseCipher} {secrets : Set (Block 32)} {talk : Talk}

theorem recvKey_step (crypto : OnionCrypto) (cipher : NoiseCipher) (talk : Talk)
    (event : Side × SessionOp) (side : Side) :
    (talk.step crypto cipher event side).session.noise.recvKey =
      (talk side).session.noise.recvKey := by
  rcases event with ⟨actor, op⟩
  rcases actor.eq_or_eq_peer side with rfl | rfl
  · rw [step_self]
    exact (UdpSession.perform_advances crypto cipher (talk side).session op).recvKey_eq
  · rw [step_peer]

theorem Alien.step {body : Bytes} (alien : talk.Alien cipher body) (event : Side × SessionOp) :
    (talk.step crypto cipher event).Alien cipher body := by
  intro side counter counterLt
  rw [recvKey_step crypto cipher talk event side]
  exact alien side counter counterLt

/-- No session opens what it has sealed itself. -/
def Unreflected (cipher : NoiseCipher) (talk : Talk) : Prop :=
  ∀ side, ∀ emission ∈ (talk side).emissions,
    (talk side).session.noise.Rejects cipher emission.body

theorem Unreflected.step (unreflected : talk.Unreflected cipher) {side : Side} {op : SessionOp}
    (apart : (talk side).session.ToldApart crypto cipher secrets op) :
    (talk.step crypto cipher (side, op)).Unreflected cipher := by
  intro target emission emissionMem counter counterLt
  rw [recvKey_step crypto cipher talk (side, op) target]
  rcases side.eq_or_eq_peer target with rfl | rfl
  · rw [step_self] at emissionMem
    rcases List.mem_append.mp emissionMem with old | new
    · exact unreflected _ emission old counter counterLt
    · exact apart.unreflected emission new counter counterLt
  · rw [step_peer] at emissionMem
    exact unreflected _ emission emissionMem counter counterLt

theorem Harmless.step {body : Bytes} (harmless : talk.Harmless cipher body)
    (event : Side × SessionOp) : (talk.step crypto cipher event).Harmless cipher body := by
  rcases harmless with alien | ⟨side, emission, emissionMem, wasSent, bodyEq⟩
  · exact Or.inl (alien.step event)
  · have grown := emissions_steps crypto cipher talk [event] side
    exact Or.inr ⟨side, emission, grown.subset emissionMem, wasSent, bodyEq⟩

theorem Clean.step {datagram : Bytes} (clean : talk.Clean cipher crypto secrets datagram)
    (event : Side × SessionOp) :
    (talk.step crypto cipher event).Clean cipher crypto secrets datagram :=
  fun body yields => (clean body yields).step event

/-- What a session puts on the wire yields what it has sent, or its cover. -/
theorem clean_of_transmits (lawful : crypto.Lawful) {side : Side} {op : SessionOp}
    (coverAlien : ∀ env now random, op = .maybeCover env now random →
      talk.Alien cipher random.toList)
    (apart : (talk side).session.ToldApart crypto cipher secrets op) {datagram : Bytes}
    (transmitted : datagram ∈ (talk side).session.transmits crypto cipher op) :
    (talk.step crypto cipher (side, op)).Clean cipher crypto secrets datagram := by
  have addressed := apart.addressed datagram transmitted
  rcases UdpSession.exists_of_transmits transmitted with
    ⟨other, env, body, hop, onionEq, sent, origin⟩
  rw [← onionEq] at addressed
  rcases UdpSession.yields_of_sendInner lawful sent addressed with ⟨fits, yieldsBody⟩
  have harmless : (talk.step crypto cipher (side, op)).Harmless cipher body := by
    rcases origin with ⟨emission, emissionMem, wasSent, bodyEq⟩ | ⟨_, _, random, rfl, rfl⟩
    · refine Or.inr ⟨side, emission, ?_, wasSent, bodyEq⟩
      rw [step_self]
      exact List.mem_append_right _ emissionMem
    · exact Or.inl ((coverAlien _ _ random rfl).step _)
  intro found yields
  rw [List.take_of_length_le fits] at yields
  rw [yieldsBody found yields]
  exact harmless

end Talk

/-- A session which reads a body out of a datagram reads what the datagram yields. -/
theorem UdpSession.yields_of_decodeIncoming {crypto : OnionCrypto} {secrets : Set (Block 32)}
    {viaRelay : Bool} {raw body : Bytes} {other : Option SocketAddr}
    (decoded : decodeIncoming viaRelay raw = .ok (.data, body, other)) :
    Yields crypto secrets raw body := by
  unfold decodeIncoming at decoded
  split at decoded
  · cases decoded
  · rename_i packetType flags outerBody outerDecoded
    split_ifs at decoded with relayed notForward
    · rw [not_not] at notForward
      subst notForward
      split at decoded
      · cases decoded
      · rename_i source inner split
        split at decoded
        · cases decoded
        · rename_i innerDecoded
          cases decoded
          exact .forward outerDecoded split (.data innerDecoded)
    · cases decoded
      exact .data outerDecoded

namespace Overlay

variable {ι : Type} {crypto : OnionCrypto} {cipher : NoiseCipher} {roles : ι → Role}
  {overlay : Overlay ι} {first : Side → ℕ}

/-- Everything on the wire is clean, and the sessions are in step. -/
structure Sound (crypto : OnionCrypto) (cipher : NoiseCipher) (roles : ι → Role)
    (first : Side → ℕ) (overlay : Overlay ι) : Prop where
  role_eq : ∀ node, (overlay.mesh.forwarder node).role = roles node
  inStep : overlay.talk.InStep cipher first
  unreflected : overlay.talk.Unreflected cipher
  clean : ∀ datagram ∈ overlay.wire, overlay.talk.Clean cipher crypto (secretsOf roles) datagram

theorem sound_start {talk : Talk} (fresh : talk.Fresh) :
    Sound crypto cipher roles (fun side => (talk side).session.noise.sendCounter)
      (start roles talk) where
  role_eq node := by
    simp only [start, Mesh.start, Forwarder.bind]
    cases roles node <;> rfl
  inStep := fresh.inStep
  unreflected := by
    intro side emission emissionMem
    have unused : (talk side).emissions = [] := congrArg Party.emissions (fresh.history_eq side)
    change emission ∈ (talk side).emissions at emissionMem
    rw [unused] at emissionMem
    cases emissionMem
  clean := by simp [start]

/-- What a session opens was sent by its peer: not by an attacker, and not by itself. -/
theorem Sound.genuine (sound : overlay.Sound crypto cipher roles first) {side : Side}
    {op : SessionOp} (feasible : overlay.Feasible crypto cipher roles (.session side op)) :
    overlay.talk.Genuine cipher (side, op) := by
  cases op with
  | handleIncoming env raw =>
      rcases feasible.1 with ⟨datagram, datagramMem, rfl⟩
      cases opened : (overlay.talk side).session.opens cipher
          (.handleIncoming env (datagram.take maxDatagram)) with
      | none => exact Or.inl opened
      | some frame =>
          rcases UdpSession.opens_eq_some_iff.mp opened with ⟨body, other, decoded, read⟩
          rcases Noise.decrypt_of_openMessage read with ⟨counterLt, decrypted⟩
          have harmless := sound.clean datagram datagramMem body
            (UdpSession.yields_of_decodeIncoming decoded)
          rcases harmless with alien | ⟨sender, emission, emissionMem, wasSent, rfl⟩
          · have unreadable := alien side _ counterLt
            rw [decrypted] at unreadable
            cases unreadable
          · rcases side.eq_or_eq_peer sender with rfl | rfl
            · have unreadable := sound.unreflected sender emission emissionMem _ counterLt
              rw [decrypted] at unreadable
              cases unreadable
            · exact Or.inr ⟨emission, emissionMem, wasSent, other, decoded⟩
  | flush newEnvs dueEnvs now => trivial
  | maybeCover env now random => trivial
  | enqueue message => trivial
  | popDelivered => trivial
  | debugDropData count => trivial
  | setRetxTimeout retx => trivial
  | setCover mode now => trivial
  | setOutboundOnion hops dest => trivial

/-- What a forwarder puts on the wire is clean if what it received is. -/
theorem Sound.clean_forwarded (sound : overlay.Sound crypto cipher roles first) {visit : Visit ι}
    (feasible : overlay.Feasible crypto cipher roles (.visit visit)) {dest : SocketAddr}
    {packet : Bytes}
    (sent : ((overlay.mesh.forwarder visit.node).step crypto visit.env visit.received).1 =
      some (dest, packet)) : overlay.talk.Clean cipher crypto (secretsOf roles) packet := by
  rcases Forwarder.exists_offer sent with ⟨offer, offered, out⟩
  rw [sound.role_eq] at offered
  have known : ∀ secret, roles visit.node = .onion secret → secret ∈ secretsOf roles :=
    fun secret isOnion => ⟨visit.node, isOnion⟩
  rcases yields_of_offer known offered out with ⟨raw, source, receivedEq, fits, yieldsBack⟩
  intro body yields
  rw [List.take_of_length_le fits] at yields
  exact sound.clean raw (feasible raw source receivedEq) body (yieldsBack body yields)

variable [DecidableEq ι]

theorem Sound.step (sound : overlay.Sound crypto cipher roles first)
    (onionLawful : crypto.Lawful) (lawful : cipher.Lawful) {event : OverlayEvent ι}
    (feasible : overlay.Feasible crypto cipher roles event) :
    (overlay.step crypto cipher event).Sound crypto cipher roles first := by
  cases event with
  | session side op =>
      rcases feasible with ⟨arises, apart⟩
      refine ⟨sound.role_eq, sound.inStep.step lawful (sound.genuine ⟨arises, apart⟩),
        sound.unreflected.step apart, ?_⟩
      intro datagram datagramMem
      rcases List.mem_append.mp datagramMem with old | new
      · exact (sound.clean datagram old).step _
      · apply Talk.clean_of_transmits onionLawful ?_ apart new
        rintro env now random rfl
        exact arises
  | visit visit =>
      refine ⟨?_, sound.inStep, sound.unreflected, ?_⟩
      · intro node
        simp only [Overlay.step, Mesh.forwarder_step]
        split_ifs
        · rw [(Forwarder.step_spec crypto _ visit.env visit.received).2.2]
          exact sound.role_eq node
        · exact sound.role_eq node
      · intro datagram datagramMem
        rcases List.mem_append.mp datagramMem with old | new
        · exact sound.clean datagram old
        · rcases Option.map_eq_some_iff.mp (Option.mem_toList.mp new) with
            ⟨⟨dest, packet⟩, sent, rfl⟩
          exact sound.clean_forwarded feasible sent
  | inject raw =>
      refine ⟨sound.role_eq, sound.inStep, sound.unreflected, ?_⟩
      intro datagram datagramMem
      rcases List.mem_append.mp datagramMem with old | new
      · exact sound.clean datagram old
      · rw [List.mem_singleton.mp new]
        exact feasible

theorem talk_steps (crypto : OnionCrypto) (cipher : NoiseCipher) (overlay : Overlay ι)
    (events : List (OverlayEvent ι)) :
    (overlay.steps crypto cipher events).talk =
      overlay.talk.steps crypto cipher (events.filterMap OverlayEvent.sessionEvent) := by
  induction events generalizing overlay with
  | nil => rfl
  | cons event rest ih =>
      cases event with
      | session side op => exact ih (overlay.step crypto cipher (.session side op))
      | visit visit => exact ih (overlay.step crypto cipher (.visit visit))
      | inject raw => exact ih (overlay.step crypto cipher (.inject raw))

/-- Every run of the overlay is a run of the sessions over a network which forges nothing. -/
theorem Sound.unforged (sound : overlay.Sound crypto cipher roles first)
    (onionLawful : crypto.Lawful) (lawful : cipher.Lawful) {events : List (OverlayEvent ι)}
    (feasible : overlay.FeasibleRun crypto cipher roles events) :
    overlay.talk.Unforged crypto cipher (events.filterMap OverlayEvent.sessionEvent) := by
  induction events generalizing overlay with
  | nil => trivial
  | cons event rest ih =>
      have next := ih (sound.step onionLawful lawful feasible.1) feasible.2
      cases event with
      | session side op => exact ⟨sound.genuine feasible.1, next⟩
      | visit visit => exact next
      | inject raw => exact next

/--
Two sessions over relays, onion hops and an attacker, who replays, wraps and injects what it
likes but makes up no ciphertext, are sessions over a network which forges nothing.  So the
messages delivered at one side are the first of those queued at the other, in the same order,
and all of them if nothing is left to be acknowledged.
-/
theorem forges_nothing {crypto : OnionCrypto} (onionLawful : crypto.Lawful)
    {cipher : NoiseCipher} (lawful : cipher.Lawful) (roles : ι → Role) {talk : Talk}
    (fresh : talk.Fresh) (events : List (OverlayEvent ι))
    (feasible : (start roles talk).FeasibleRun crypto cipher roles events) :
    ((start roles talk).steps crypto cipher events).talk =
        talk.steps crypto cipher (events.filterMap OverlayEvent.sessionEvent) ∧
      talk.Unforged crypto cipher (events.filterMap OverlayEvent.sessionEvent) ∧
      ((∀ event ∈ events.filterMap OverlayEvent.sessionEvent, ¬UdpSession.Drops event.2) →
        ((start roles talk).steps crypto cipher events).talk.Bounded → ∀ side,
          ((start roles talk).steps crypto cipher events).talk.delivered side.peer <+:
            (((start roles talk).steps crypto cipher events).talk side).enqueued ∧
          ((((start roles talk).steps crypto cipher events).talk side).session.arq.unackedLen = 0 →
            ((start roles talk).steps crypto cipher events).talk.delivered side.peer =
              (((start roles talk).steps crypto cipher events).talk side).enqueued)) := by
  have talkEq := talk_steps crypto cipher (start roles talk) events
  have unforged := (sound_start fresh).unforged onionLawful lawful feasible
  refine ⟨talkEq, unforged, ?_⟩
  intro dropless bounded side
  rw [talkEq] at bounded ⊢
  rcases fresh.inOrder.steps fresh.inStep lawful unforged dropless bounded with ⟨net, inOrder⟩
  exact ⟨inOrder.delivered_prefix side, inOrder.delivered_eq bounded⟩

end Overlay

/-! ### A run over an onion hop -/

/-- A cipher which appends a part of the key and the counter as a tag. -/
def keyedCipher : NoiseCipher where
  encrypt key counter plaintext :=
    plaintext ++ (key.toList.take 8 ++ BigEndian.encode 8 counter)
  decrypt key counter ciphertext :=
    if ciphertext.drop (ciphertext.length - 16) = key.toList.take 8 ++ BigEndian.encode 8 counter
    then some (ciphertext.take (ciphertext.length - 16))
    else none

theorem keyedCipher_decrypt (key other : Block 32) (counter later : ℕ) (plaintext : Bytes) :
    keyedCipher.decrypt other later (keyedCipher.encrypt key counter plaintext) =
      if key.toList.take 8 ++ BigEndian.encode 8 counter =
          other.toList.take 8 ++ BigEndian.encode 8 later then some plaintext
      else none := by
  have tagLength : (plaintext ++ (key.toList.take 8 ++ BigEndian.encode 8 counter)).length - 16 =
      plaintext.length := by
    simp
  simp only [keyedCipher, tagLength, List.drop_left, List.take_left]

theorem keyedCipher_lawful : keyedCipher.Lawful where
  length_encrypt := by
    intro key counter plaintext
    simp [keyedCipher]
  decrypt_encrypt := by
    intro key counter plaintext _
    rw [keyedCipher_decrypt, if_pos rfl]
  decrypt_other := by
    intro key counter other plaintext counterLt otherLt different
    rw [keyedCipher_decrypt, if_neg]
    intro same
    apply different
    have decoded := congrArg BigEndian.decode (List.append_cancel_left same)
    simp only [maxNonce] at counterLt otherLt
    rw [BigEndian.decode_encode_of_lt (by omega), BigEndian.decode_encode_of_lt (by omega)]
      at decoded
    exact decoded.symm

theorem Onion.addressed_of_route {hops : List OnionHop}
    (route : ∀ hop ∈ hops, hop.pk = List.Vector.replicate 32 1) (datagram : Bytes) :
    Addressed sampleCrypto (secretsOf Mesh.sampleRoles) hops datagram := by
  induction hops generalizing datagram with
  | nil => trivial
  | cons hop rest ih =>
      rcases List.forall_mem_cons.mp route with ⟨hopEq, restEq⟩
      rintro flags layer _ secret ⟨node, isOnion⟩ peeled _
      refine ⟨?_, ih restEq peeled.payload⟩
      rw [hopEq]
      cases node <;> cases isOnion
      rfl

/-- A session and a hop of the sample ciphers read nothing but what was made for them. -/
theorem UdpSession.toldApart_of_keys {session : UdpSession} {op : SessionOp}
    (different : session.noise.sendKey.toList.take 8 ≠ session.noise.recvKey.toList.take 8)
    (route : ∀ hop ∈ session.onion.getD [], hop.pk = List.Vector.replicate 32 1) :
    session.ToldApart Onion.sampleCrypto keyedCipher (secretsOf Mesh.sampleRoles) op where
  unreflected := by
    intro emission emissionMem counter counterLt
    rcases List.mem_iff_getElem?.mp emissionMem with ⟨position, present⟩
    have isSealed :=
      ((perform_advances Onion.sampleCrypto keyedCipher session op).emits.getElem? present).2
    rw [isSealed.body_eq, keyedCipher_decrypt, if_neg]
    intro same
    exact different (List.append_inj_left same (by simp))
  addressed datagram _ := Onion.addressed_of_route route datagram

namespace Overlay

def sampleOverlay : Overlay Bool := start Mesh.sampleRoles Talk.sampleTalk

/-- A message of the left is on its way to an onion hop, and so are bytes which nobody sealed. -/
def sampleSending : List (OverlayEvent Bool) :=
  [.session .left (.setOutboundOnion [⟨loopback 8, List.Vector.replicate 32 1⟩] (loopback 9001)),
    .session .left (.enqueue [7]),
    .session .left (.flush (fun _ => UdpSession.sampleEnv) (fun _ => UdpSession.sampleEnv) 0),
    .inject [1, 2, 3]]

/-- A datagram by its place on the wire. -/
def onWire (events : List (OverlayEvent Bool)) (index : ℕ) : Bytes :=
  ((sampleOverlay.steps Onion.sampleCrypto keyedCipher events).wire.getD index []).take maxDatagram

def sampleForwarded : List (OverlayEvent Bool) :=
  sampleSending ++ [.visit ⟨false, quietEnv, .datagram (onWire sampleSending 0) (loopback 9000)⟩]

/-- The hop forwards the datagram, which arrives at both sessions after the other bytes. -/
def sampleRun : List (OverlayEvent Bool) :=
  sampleForwarded ++
    [.session .right (.handleIncoming UdpSession.sampleEnv (onWire sampleForwarded 1)),
      .session .right (.handleIncoming UdpSession.sampleEnv (onWire sampleForwarded 2)),
      .session .left (.handleIncoming UdpSession.sampleEnv (onWire sampleForwarded 2))]

theorem clean_of_decodeOuter_error {crypto : OnionCrypto} {cipher : NoiseCipher}
    {secrets : Set (Block 32)} {talk : Talk} {datagram : Bytes} {error : PacketError}
    (undecoded : decodeOuter (datagram.take maxDatagram) = .error error) :
    talk.Clean cipher crypto secrets datagram := by
  intro body yields
  cases yields with
  | data decoded =>
      rw [undecoded] at decoded
      cases decoded
  | forward decoded =>
      rw [undecoded] at decoded
      cases decoded
  | onion decoded =>
      rw [undecoded] at decoded
      cases decoded

theorem sampleRun_feasible :
    sampleOverlay.FeasibleRun Onion.sampleCrypto keyedCipher Mesh.sampleRoles sampleRun := by
  have clean : (sampleOverlay.steps Onion.sampleCrypto keyedCipher
      (sampleSending.take 3)).talk.Clean keyedCipher Onion.sampleCrypto
        (secretsOf Mesh.sampleRoles) [1, 2, 3] :=
    clean_of_decodeOuter_error (show decodeOuter [1, 2, 3] = .error .truncated from rfl)
  have onward : onWire sampleSending 0 ∈
      (sampleOverlay.steps Onion.sampleCrypto keyedCipher sampleSending).wire := by
    decide +kernel
  refine ⟨⟨trivial, ?_⟩, ⟨trivial, ?_⟩, ⟨trivial, ?_⟩, clean, ?_, ⟨?_, ?_⟩, ⟨?_, ?_⟩, ⟨?_, ?_⟩,
    trivial⟩
  · exact UdpSession.toldApart_of_keys (by decide +kernel) (by decide +kernel)
  · exact UdpSession.toldApart_of_keys (by decide +kernel) (by decide +kernel)
  · exact UdpSession.toldApart_of_keys (by decide +kernel) (by decide +kernel)
  · intro raw source received
    rw [← (Received.datagram.inj received).1]
    exact onward
  · exact ⟨[1, 2, 3], by decide +kernel, by decide +kernel⟩
  · exact UdpSession.toldApart_of_keys (by decide +kernel) (by decide +kernel)
  · exact ⟨onWire sampleForwarded 2, by decide +kernel, by decide +kernel⟩
  · exact UdpSession.toldApart_of_keys (by decide +kernel) (by decide +kernel)
  · exact ⟨onWire sampleForwarded 2, by decide +kernel, by decide +kernel⟩
  · exact UdpSession.toldApart_of_keys (by decide +kernel) (by decide +kernel)

theorem sampleRun_dropless : ∀ event ∈ sampleRun.filterMap OverlayEvent.sessionEvent,
    ¬UdpSession.Drops event.2 := by
  simp only [sampleRun, sampleForwarded, sampleSending, List.cons_append, List.nil_append,
    List.filterMap_cons, List.filterMap_nil, OverlayEvent.sessionEvent, List.forall_mem_cons,
    UdpSession.Drops]
  simp

theorem forges_nothing_sample :
    (sampleOverlay.steps Onion.sampleCrypto keyedCipher sampleRun).talk.delivered .right = [[7]] ∧
    (sampleOverlay.steps Onion.sampleCrypto keyedCipher sampleRun).talk.delivered .right <+:
      ((sampleOverlay.steps Onion.sampleCrypto keyedCipher sampleRun).talk .left).enqueued := by
  have bounded : (sampleOverlay.steps Onion.sampleCrypto keyedCipher sampleRun).talk.Bounded := by
    intro side
    cases side <;> decide +kernel
  have ordered := (forges_nothing Onion.sampleCrypto_lawful keyedCipher_lawful Mesh.sampleRoles
    Talk.sampleTalk_fresh sampleRun sampleRun_feasible).2.2 sampleRun_dropless bounded
    .left
  exact ⟨by decide +kernel, ordered.1⟩

end Overlay

end Ppose

import Ppose.Forwarding.Relay
import Ppose.Session.HostileNetwork
import Ppose.Session.OnionHandshake

/-!
# Meeting directly or over a relay

Two endpoints run the handshake, with each other or over one relay in the middle, which is
the relay of the model with whatever is in its replay cache.  What each endpoint returns
depends on the pin of that endpoint alone, and not on the one of the other end: a wrong
pin shows after the third message was sent (`meeting_succeeds_iff`).  If both succeed, the
two sessions point at each other and are as fresh as the results about conversations
require.
-/

namespace Ppose

/-- Two transport states which belong together. -/
structure Noise.Agree (first second : Noise) : Prop where
  forth : second.recvKey = first.sendKey ∧ second.recvCounter = first.sendCounter
  back : first.recvKey = second.sendKey ∧ first.recvCounter = second.sendCounter

/-- The two endpoints of a handshake and what they read of their surroundings. -/
structure Meeting where
  initiatorSecret : Block 32
  responderSecret : Block 32
  initiatorAddr : SocketAddr
  responderAddr : SocketAddr
  /-- The address of the relay, if there is one. -/
  relayAddr : Option SocketAddr
  initiatorPin : Option (Block 32)
  responderPin : Option (Block 32)
  firstEnv : SendEnv
  secondEnv : SendEnv
  thirdEnv : SendEnv
  relayEnvs : ℕ → StepEnv
  started : Instant

namespace Meeting

/-- The relay after a datagram was sent, and what arrives at the target of it. -/
def pass (meeting : Meeting) (hash : Bytes → Block 32) (relay : Relay) (env : StepEnv)
    (source target : SocketAddr) (sent : SocketAddr × Bytes) :
    Relay × Option (Bytes × SocketAddr) :=
  match meeting.relayAddr with
  | none => (relay, if sent.1 = target then some (sent.2, source) else none)
  | some relayAddr =>
      if sent.1 = relayAddr then
        let stepped := relay.step hash env (.datagram sent.2 source)
        match stepped.sent with
        | none => (stepped.service, none)
        | some (dest, datagram) =>
            (stepped.service, if dest = target then some (datagram, relayAddr) else none)
      else (relay, none)

def path (meeting : Meeting) : Path :=
  match meeting.relayAddr with
  | none => .direct meeting.responderAddr
  | some relayAddr => .viaRelay relayAddr meeting.responderAddr

variable {State : Type} (crypto : OnionCrypto) (snow : Snow State)

def connects (meeting : Meeting) : Except SessionError (Opening State × SocketAddr × Bytes) :=
  connectInitiatorBegin crypto snow meeting.initiatorSecret meeting.path meeting.firstEnv
    meeting.started

def accepts (meeting : Meeting) (arrived : Option (Bytes × SocketAddr)) :
    Except SessionError (Opening State × SocketAddr × Bytes) :=
  acceptExBegin crypto snow meeting.responderSecret meeting.relayAddr none arrived
    meeting.secondEnv meeting.started

def resumes (meeting : Meeting) (initiator : Opening State)
    (arrived : Option (Bytes × SocketAddr)) :
    Except SessionError UdpSession × Option (SocketAddr × Bytes) :=
  connectInitiatorResume crypto snow initiator arrived meeting.thirdEnv meeting.initiatorPin

/-- What the initiator and the responder return after the three messages. -/
def outcome (meeting : Meeting) (relay : Relay) :
    Except SessionError UdpSession × Except SessionError UdpSession :=
  match meeting.connects crypto snow with
  | .error error => (.error error, .error .io)
  | .ok (initiator, first) =>
      let (relay, arrived) := meeting.pass crypto.hash relay (meeting.relayEnvs 0)
        meeting.initiatorAddr meeting.responderAddr first
      match meeting.accepts crypto snow arrived with
      | .error error => (.error .io, .error error)
      | .ok (responder, second) =>
          let (relay, arrived) := meeting.pass crypto.hash relay (meeting.relayEnvs 1)
            meeting.responderAddr meeting.initiatorAddr second
          match meeting.resumes crypto snow initiator arrived with
          | (result, none) => (result, .error .io)
          | (result, some third) =>
              let (_, arrived) := meeting.pass crypto.hash relay (meeting.relayEnvs 2)
                meeting.initiatorAddr meeting.responderAddr third
              (result, acceptExResume snow responder arrived meeting.responderPin)

/-- A handshake message as the inner datagram of a relay, or the whole of it. -/
def framed (message : Bytes) : Bytes := encodeOuter .handshake 0 ++ message

/-- Every address has a wire form if it is to go through a relay, and the sockets work. -/
structure Ready (meeting : Meeting) : Prop where
  initiator_v4 : meeting.relayAddr.isSome = true → meeting.initiatorAddr.isV4 = true
  responder_v4 : meeting.relayAddr.isSome = true → meeting.responderAddr.isV4 = true
  sockets : meeting.firstEnv.socketOk = true ∧ meeting.secondEnv.socketOk = true ∧
    meeting.thirdEnv.socketOk = true
  relaySockets : ∀ index, (meeting.relayEnvs index).socketOk = true

/-- The relay has not seen any of some messages, and its filter tells them apart. -/
structure Unseen (hash : Bytes → Block 32) (relay : Relay) (messages : List Bytes) : Prop where
  unseen : ∀ message ∈ messages, ReplayCache.keyOf hash (framed message) ∉ relay.replay.seen
  distinct : (messages.map fun message => ReplayCache.keyOf hash (framed message)).Nodup

/-! ### One message -/

variable {crypto snow} {meeting : Meeting}

theorem accept_of_unseen {hash : Bytes → Block 32} {cache : ReplayCache} {inner : Bytes}
    (unseen : ReplayCache.keyOf hash inner ∉ cache.seen) (order) (now : Instant) :
    (cache.accept hash order inner now).1 = true ∧
      ∀ key, key ∉ cache.seen → key ≠ ReplayCache.keyOf hash inner →
        key ∉ (cache.accept hash order inner now).2.seen := by
  have kept : ∀ key, key ∉ cache.seen → key ∉ (cache.expire now).seen := by
    intro key absent stored
    rcases Option.isSome_iff_exists.mp (AList.lookup_isSome.mpr stored) with ⟨time, found⟩
    apply absent
    rw [← AList.lookup_isSome, (ReplayCache.lookup_expire_iff.mp found).1]
    rfl
  have roomy : ∀ key, key ∉ (cache.expire now).seen →
      key ∉ ((cache.expire now).evict order).seen := by
    intro key absent
    unfold ReplayCache.evict
    split_ifs
    · split
      · exact fun stored => absent (AList.mem_erase.mp stored).2
      · exact absent
    · exact absent
  simp only [ReplayCache.accept, if_neg (kept _ unseen), true_and]
  intro key absent different
  rw [AList.mem_insert]
  rintro (same | stored)
  · exact different same
  · exact roomy key (kept key absent) stored

/-- What the relay has not seen of further messages, it has not seen after one of them. -/
theorem Unseen.pass {hash : Bytes → Block 32} {relay : Relay} {message : Bytes}
    {rest : List Bytes} (unseen : Unseen hash relay (message :: rest)) (order) (now : Instant) :
    (relay.replay.accept hash order (framed message) now).1 = true ∧
      Unseen hash { relay with replay := (relay.replay.accept hash order (framed message) now).2 }
        rest := by
  have first := accept_of_unseen (unseen.unseen message List.mem_cons_self) order now
  have distinct := List.nodup_cons.mp unseen.distinct
  refine ⟨first.1, ?_, distinct.2⟩
  intro other otherMem
  apply first.2 _ (unseen.unseen other (List.mem_cons_of_mem _ otherMem))
  intro same
  exact distinct.1 (List.mem_map.mpr ⟨other, otherMem, same⟩)

/-- A session at one end, which faces the other end and is in some handshake state. -/
def facing (meeting : Meeting) (target : SocketAddr) (noise : NoiseSession State) :
    Opening State where
  nextHop := meeting.relayAddr.getD target
  peer := target
  viaRelay := meeting.relayAddr.isSome
  onion := none
  noise := noise
  lastCover := meeting.started

/-- A message gets across: how it is wired, what arrives, and what is read from that. -/
structure Crossing (crypto : OnionCrypto) (meeting : Meeting) (relay : Relay) (relayEnv : StepEnv)
    (source target : SocketAddr) (message : Bytes) (rest : List Bytes) (wire datagram : Bytes)
    (after : Relay) : Prop where
  wires : ∀ (session : UdpSession) (draws : Onion.Draws),
    session.viaRelay = meeting.relayAddr.isSome → session.onion = none → session.peer = target →
      session.wireOf crypto draws .handshake message = .ok wire
  passes : meeting.pass crypto.hash relay relayEnv source target
    (meeting.relayAddr.getD target, wire) = (after, some (datagram, meeting.relayAddr.getD source))
  decodes : UdpSession.decodeIncoming meeting.relayAddr.isSome datagram =
    .ok (.handshake, message, if meeting.relayAddr.isSome then some source else none)
  fits : datagram.length ≤ maxDatagram
  unseen : meeting.relayAddr.isSome = true → Unseen crypto.hash after rest

theorem exists_crossing (meeting : Meeting) {relay : Relay} {relayEnv : StepEnv}
    {source target : SocketAddr} {message : Bytes} {rest : List Bytes}
    (sourceV4 : meeting.relayAddr.isSome = true → source.isV4 = true)
    (targetV4 : meeting.relayAddr.isSome = true → target.isV4 = true)
    (socketOk : relayEnv.socketOk = true) (small : message.length ≤ 96)
    (unseen : meeting.relayAddr.isSome = true → Unseen crypto.hash relay (message :: rest)) :
    ∃ wire datagram after,
      Crossing crypto meeting relay relayEnv source target message rest wire datagram after := by
  have framedLength : (framed message).length = outerHeaderLen + message.length := by
    simp only [framed, List.length_append, encodeOuter, List.length_cons, List.length_nil,
      outerHeaderLen]
  have framedFits : outerHeaderLen + message.length ≤ maxDatagram := by
    simp only [outerHeaderLen, maxDatagram]
    omega
  cases direct : meeting.relayAddr with
  | none =>
      refine ⟨framed message, framed message, relay, ?_, ?_, ?_, ?_, ?_⟩
      · intro session draws noRelay noOnion _
        rw [direct] at noRelay
        simp only [UdpSession.wireOf, encodeDatagram_of_le framedFits, noOnion, noRelay,
          Option.isSome_none, Bool.false_eq_true, if_false, bind, Except.bind, pure, Except.pure]
        rfl
      · simp [pass, direct]
      · simp [UdpSession.decodeIncoming, framed, direct]
      · rw [framedLength]
        exact framedFits
      · intro viaRelay
        rw [direct] at viaRelay
        cases viaRelay
  | some relayAddr =>
      have viaRelay : meeting.relayAddr.isSome = true := by rw [direct]; rfl
      rcases (unseen viaRelay).pass relayEnv.order relayEnv.now with ⟨fresh, after⟩
      cases target with
      | v6 => cases targetV4 viaRelay
      | v4 ip port =>
          cases source with
          | v6 => cases sourceV4 viaRelay
          | v4 sourceIp sourcePort =>
              have wireLength := length_forwardDatagram ip port (framed message)
              have wireFits : (forwardDatagram ip port (framed message)).length ≤ maxDatagram := by
                rw [wireLength, framedLength]
                simp only [outerHeaderLen, forwardBodyOverhead, maxDatagram]
                omega
              have stepEq := Relay.step_of_decoded wireFits (decodeOuter_encodeOuter _ _ _)
                (decodeForwardBody_of_encodeForwardBody
                  (encodeForwardBody_of_le _ _ (wireLength ▸ wireFits))) fresh sourceIp sourcePort
              refine ⟨forwardDatagram ip port (framed message),
                forwardDatagram sourceIp sourcePort (framed message), _, ?_, ?_, ?_, ?_,
                fun _ => after⟩
              · intro session draws sessionRelay noOnion peerEq
                rw [viaRelay] at sessionRelay
                exact UdpSession.wireOf_of_viaRelay sessionRelay noOnion peerEq crypto draws
                  .handshake (by omega)
              · simp only [pass, direct, Option.getD_some, if_true, stepEq, Stepped.transmit,
                  socketOk]
              · rw [direct]
                apply UdpSession.decodeIncoming_forwardDatagram
              · rw [length_forwardDatagram, ← wireLength]
                exact wireFits

/-! ### The three messages -/

section

variable {relay after : Relay} {env : SendEnv} {relayEnv : StepEnv} {source target : SocketAddr}
  {message wire datagram : Bytes} {rest : List Bytes} {state next : State}
  {noise : NoiseSession State}

theorem Crossing.sendHandshake
    (crossing : Crossing crypto meeting relay relayEnv source target message rest wire datagram
      after)
    (written : snow.writeMessage state [] = some (message, next))
    (continued : NoiseSession.maybeFinish snow next = .ok noise) (socketOk : env.socketOk = true) :
    (meeting.facing target ⟨some state, none⟩).sendHandshake crypto snow env =
      .ok (meeting.facing target noise, meeting.relayAddr.getD target, wire) := by
  have writes : (meeting.facing target ⟨some state, none⟩).noise.writeHandshake snow =
      .ok (message, noise) := by
    simp only [facing, NoiseSession.writeHandshake, written, continued, bind, Except.bind, pure,
      Except.pure]
  have sends : (meeting.facing target noise).sendInner crypto env .handshake message =
      .ok (meeting.relayAddr.getD target, wire) := by
    have wires := crossing.wires ((meeting.facing target noise).established Opening.unset)
      env.draws rfl rfl rfl
    simp only [Opening.sendInner, UdpSession.sendInner, wires, socketOk, if_true]
    rfl
  simp only [Opening.sendHandshake, writes, Except.mapError, bind, Except.bind, pure, Except.pure]
  simp only [facing] at sends
  simp only [facing, sends]

theorem Crossing.recvHandshake
    (crossing : Crossing crypto meeting relay relayEnv source target message rest wire datagram
      after)
    (accepted : snow.readMessage state message = some next)
    (continued : NoiseSession.maybeFinish snow next = .ok noise) :
    (meeting.facing source ⟨some state, none⟩).recvHandshake snow
        (some (datagram, meeting.relayAddr.getD source)) =
      .ok (meeting.facing source noise) := by
  have decodes := crossing.decodes
  simp only [Opening.recvHandshake, Opening.recvInner, recvRaw,
    List.take_of_length_le crossing.fits, facing, ne_eq, not_true_eq_false, if_false, decodes]
  cases meeting.relayAddr with
  | none =>
      simp [NoiseSession.readHandshake, accepted, continued, bind, Except.bind, pure, Except.pure,
        Except.mapError]
  | some relayAddr =>
      simp [NoiseSession.readHandshake, accepted, continued, bind, Except.bind, pure, Except.pure,
        Except.mapError]

/-- The handshake states of the endpoints before and after a message. -/
theorem connects_eq
    (transcript : snow.Transcript meeting.initiatorSecret meeting.responderSecret) :
    meeting.connects crypto snow =
      (meeting.facing meeting.responderAddr ⟨some transcript.initiatorStart, none⟩).sendHandshake
        crypto snow meeting.firstEnv := by
  simp only [connects, connectInitiatorBegin, path, NoiseSession.new, transcript.build_initiator,
    facing]
  cases meeting.relayAddr <;>
    simp only [Path.route, Except.mapError, bind, Except.bind, Option.getD_none, Option.getD_some,
      Option.isSome_none, Option.isSome_some]

theorem accepts_eq
    (transcript : snow.Transcript meeting.initiatorSecret meeting.responderSecret)
    (crossing : Crossing crypto meeting relay relayEnv meeting.initiatorAddr target
      transcript.first rest wire datagram after) :
    meeting.accepts crypto snow
        (some (datagram, meeting.relayAddr.getD meeting.initiatorAddr)) =
      (meeting.facing meeting.initiatorAddr ⟨some transcript.responderRead, none⟩).sendHandshake
        crypto snow meeting.secondEnv := by
  have decodes := crossing.decodes
  have continued := OnionExchange.maybeFinish_of_unfinished
    (transcript.unfinished transcript.responderRead (by simp))
  simp only [accepts, acceptExBegin, NoiseSession.new, transcript.build_responder, Except.mapError,
    recvRaw, List.take_of_length_le crossing.fits, bind, Except.bind, decodes, facing]
  cases meeting.relayAddr with
  | none =>
      simp [NoiseSession.readHandshake, transcript.read_first, continued]
  | some relayAddr =>
      simp [NoiseSession.readHandshake, transcript.read_first, continued]

end

/-! ### Pins -/

/-- The library reports to each end the static public key of the other one. -/
structure LearnsStatics (crypto : OnionCrypto) (meeting : Meeting)
    (transcript : snow.Transcript meeting.initiatorSecret meeting.responderSecret) : Prop where
  initiator_learns : snow.getRemoteStatic transcript.initiatorDone =
    some (crypto.publicKey meeting.responderSecret).toList
  responder_learns : snow.getRemoteStatic transcript.responderDone =
    some (crypto.publicKey meeting.initiatorSecret).toList

/-- The expected static key of the peer, if there is one, is the one which the peer has. -/
def PinMatches (pin : Option (Block 32)) (static : Block 32) : Prop :=
  ∀ key, pin = some key → key = static

instance (pin : Option (Block 32)) (static : Block 32) : Decidable (PinMatches pin static) :=
  match pin with
  | none => .isTrue (by simp [PinMatches])
  | some key => decidable_of_iff (key = static) (by simp [PinMatches])

theorem finish_eq {opening : Opening State} {transport : Transport} {static : Block 32}
    (finished : opening.noise.transport = some transport)
    (learned : transport.remoteStatic = some static.toList) (pin : Option (Block 32)) :
    opening.finish pin =
      if PinMatches pin static then .ok (opening.established transport.noise)
      else .error (.noise .keyMismatch) := by
  simp only [Opening.finish, finished]
  cases pin with
  | none => simp [PinMatches]
  | some key =>
      have staticLength : static.toList.length = 32 := static.2
      simp only [NoiseSession.pinRemote, learned, PinMatches, Option.some.injEq, forall_eq',
        staticLength, ne_eq, not_true_eq_false, if_false]
      by_cases same : key = static
      · simp [same, Except.mapError, bind, Except.bind, pure, Except.pure]
      · have different : static.toList ≠ key.toList :=
          fun bytesEq => same (List.Vector.toList_injective bytesEq).symm
        simp [same, different, Except.mapError, bind, Except.bind]

theorem finish_iff {opening : Opening State} {transport : Transport} {static : Block 32}
    (finished : opening.noise.transport = some transport)
    (learned : transport.remoteStatic = some static.toList) (pin : Option (Block 32)) :
    ((∃ session, opening.finish pin = .ok session) ↔ PinMatches pin static) ∧
      (opening.finish pin = .error (.noise .keyMismatch) ↔ ¬PinMatches pin static) := by
  rw [finish_eq finished learned]
  split_ifs with pinned <;> simp [pinned]

/-! ### The outcome -/

/-- The initiator once its handshake is over. -/
def initiatorDone (meeting : Meeting)
    (transcript : snow.Transcript meeting.initiatorSecret meeting.responderSecret) :
    Opening State :=
  meeting.facing meeting.responderAddr
    ⟨none, some ⟨transcript.initiatorNoise, snow.getRemoteStatic transcript.initiatorDone⟩⟩

/-- The responder once its handshake is over. -/
def responderDone (meeting : Meeting)
    (transcript : snow.Transcript meeting.initiatorSecret meeting.responderSecret) :
    Opening State :=
  meeting.facing meeting.initiatorAddr
    ⟨none, some ⟨transcript.responderNoise, snow.getRemoteStatic transcript.responderDone⟩⟩

/-- All three messages cross, and then each end checks its own pin. -/
theorem outcome_eq
    (transcript : snow.Transcript meeting.initiatorSecret meeting.responderSecret)
    (ready : meeting.Ready) {relay : Relay}
    (unseen : meeting.relayAddr.isSome = true →
      Unseen crypto.hash relay [transcript.first, transcript.second, transcript.third]) :
    meeting.outcome crypto snow relay =
      ((meeting.initiatorDone transcript).finish meeting.initiatorPin,
        (meeting.responderDone transcript).finish meeting.responderPin) := by
  have firstLength := transcript.first_length
  have secondLength := transcript.second_length
  have thirdLength := transcript.third_length
  rcases ready.sockets with ⟨firstOk, secondOk, thirdOk⟩
  have goesOn : ∀ state ∈ _, NoiseSession.maybeFinish snow state = .ok ⟨some state, none⟩ :=
    fun state stateMem =>
      OnionExchange.maybeFinish_of_unfinished (transcript.unfinished state stateMem)
  have initiatorEnds := OnionExchange.maybeFinish_of_finished transcript.initiator_finished
    transcript.initiator_transport
  have responderEnds := OnionExchange.maybeFinish_of_finished transcript.responder_finished
    transcript.responder_transport
  rcases exists_crossing meeting ready.initiator_v4 ready.responder_v4 (ready.relaySockets 0)
    (firstLength.trans_le (by omega)) unseen with ⟨wire₁, datagram₁, relay₁, crossing₁⟩
  rcases exists_crossing meeting ready.responder_v4 ready.initiator_v4 (ready.relaySockets 1)
    secondLength.le crossing₁.unseen with ⟨wire₂, datagram₂, relay₂, crossing₂⟩
  rcases exists_crossing meeting ready.initiator_v4 ready.responder_v4 (ready.relaySockets 2)
    (thirdLength.trans_le (by omega)) crossing₂.unseen with ⟨wire₃, datagram₃, relay₃, crossing₃⟩
  have connected := crossing₁.sendHandshake transcript.write_first
    (goesOn transcript.initiatorSent (by simp)) firstOk
  rw [← connects_eq] at connected
  have accepted := crossing₂.sendHandshake transcript.write_second
    (goesOn transcript.responderSent (by simp)) secondOk
  rw [← accepts_eq transcript crossing₁] at accepted
  have heard₂ := crossing₂.recvHandshake transcript.read_second
    (goesOn transcript.initiatorRead (by simp))
  have answered := crossing₃.sendHandshake transcript.write_third initiatorEnds thirdOk
  have heard₃ := crossing₃.recvHandshake transcript.read_third responderEnds
  simp only [outcome, connected, crossing₁.passes, accepted, crossing₂.passes, resumes,
    connectInitiatorResume, heard₂, answered, crossing₃.passes, acceptExResume, heard₃, bind,
    Except.bind]
  rfl

/-- What the initiator and the responder have made of the handshake, side by side. -/
def between (alice bob : UdpSession) : Talk
  | .left => Party.start alice
  | .right => Party.start bob

/--
A handshake, direct or over a relay which has not seen its messages: each end succeeds if
its own pin is the static key of the peer, and otherwise fails with a key mismatch,
whatever becomes of the other end.  If both succeed, each session sends to the other one,
over the relay if there is one, and the two are as a conversation starts.
-/
theorem meeting_succeeds_iff (crypto : OnionCrypto) (snow : Snow State) (meeting : Meeting)
    (transcript : snow.Transcript meeting.initiatorSecret meeting.responderSecret)
    (learns : meeting.LearnsStatics crypto transcript)
    (agree : transcript.initiatorNoise.Agree transcript.responderNoise) (ready : meeting.Ready)
    (relay : Relay)
    (unseen : meeting.relayAddr.isSome = true →
      Unseen crypto.hash relay [transcript.first, transcript.second, transcript.third]) :
    ((∃ alice, (meeting.outcome crypto snow relay).1 = .ok alice) ↔
      PinMatches meeting.initiatorPin (crypto.publicKey meeting.responderSecret)) ∧
    ((∃ bob, (meeting.outcome crypto snow relay).2 = .ok bob) ↔
      PinMatches meeting.responderPin (crypto.publicKey meeting.initiatorSecret)) ∧
    ((meeting.outcome crypto snow relay).1 = .error (.noise .keyMismatch) ↔
      ¬PinMatches meeting.initiatorPin (crypto.publicKey meeting.responderSecret)) ∧
    ((meeting.outcome crypto snow relay).2 = .error (.noise .keyMismatch) ↔
      ¬PinMatches meeting.responderPin (crypto.publicKey meeting.initiatorSecret)) ∧
    ∀ alice bob, meeting.outcome crypto snow relay = (.ok alice, .ok bob) →
      (between alice bob).Fresh ∧
      (alice.nextHop = meeting.relayAddr.getD meeting.responderAddr ∧
        alice.peer = meeting.responderAddr) ∧
      bob.nextHop = meeting.relayAddr.getD meeting.initiatorAddr ∧
        bob.peer = meeting.initiatorAddr := by
  have initiatorIff := @finish_iff State (meeting.initiatorDone transcript) _ _ rfl
    learns.initiator_learns meeting.initiatorPin
  have responderIff := @finish_iff State (meeting.responderDone transcript) _ _ rfl
    learns.responder_learns meeting.responderPin
  rw [outcome_eq transcript ready unseen]
  refine ⟨initiatorIff.1, responderIff.1, initiatorIff.2, responderIff.2, ?_⟩
  intro alice bob outcomes
  rw [finish_eq rfl learns.initiator_learns, finish_eq rfl learns.responder_learns,
    Prod.mk.injEq] at outcomes
  rcases outcomes with ⟨aliceEq, bobEq⟩
  split_ifs at aliceEq bobEq
  cases aliceEq
  cases bobEq
  refine ⟨?_, ⟨rfl, rfl⟩, rfl, rfl⟩
  constructor
  · rintro (_ | _)
    · exact agree.forth.1
    · exact agree.back.1
  · rintro (_ | _)
    · exact agree.forth.2
    · exact agree.back.2
  · rintro (_ | _) <;> rfl
  · rintro (_ | _) <;> rfl
  · rintro (_ | _) <;> rfl

/-- A handshake over a relay, in which the initiator expects the right key. -/
def sampleMeeting (responderPin : Block 32) : Meeting where
  initiatorSecret := List.Vector.replicate 32 5
  responderSecret := List.Vector.replicate 32 6
  initiatorAddr := loopback 1
  responderAddr := loopback 2
  relayAddr := some (loopback 3)
  initiatorPin := some (List.Vector.replicate 32 6)
  responderPin := some responderPin
  firstEnv := UdpSession.sampleEnv
  secondEnv := UdpSession.sampleEnv
  thirdEnv := UdpSession.sampleEnv
  relayEnvs _ := quietEnv
  started := 0

def sampleOutcome (responderPin : Block 32) :
    Except SessionError UdpSession × Except SessionError UdpSession :=
  (sampleMeeting responderPin).outcome Onion.sampleCrypto OnionExchange.sampleSnow Relay.bind

theorem sampleMeeting_ready (responderPin : Block 32) : (sampleMeeting responderPin).Ready :=
  ⟨fun _ => rfl, fun _ => rfl, ⟨rfl, rfl, rfl⟩, fun _ => rfl⟩

theorem sampleMeeting_unseen : Unseen Onion.sampleCrypto.hash Relay.bind
    [OnionExchange.sampleTranscript.first, OnionExchange.sampleTranscript.second,
      OnionExchange.sampleTranscript.third] :=
  ⟨by decide +kernel, by decide +kernel⟩

/-- The responder expects the right key once, and once a wrong one. -/
theorem meeting_succeeds_pinned :
    ((∃ alice, (sampleOutcome (List.Vector.replicate 32 5)).1 = .ok alice) ∧
      ∃ bob, (sampleOutcome (List.Vector.replicate 32 5)).2 = .ok bob) ∧
    (∃ alice, (sampleOutcome (List.Vector.replicate 32 9)).1 = .ok alice) ∧
      (sampleOutcome (List.Vector.replicate 32 9)).2 = .error (.noise .keyMismatch) := by
  have right := meeting_succeeds_iff Onion.sampleCrypto OnionExchange.sampleSnow
    (sampleMeeting (List.Vector.replicate 32 5)) OnionExchange.sampleTranscript ⟨rfl, rfl⟩
    ⟨⟨rfl, rfl⟩, rfl, rfl⟩ (sampleMeeting_ready _) Relay.bind fun _ => sampleMeeting_unseen
  have wrong := meeting_succeeds_iff Onion.sampleCrypto OnionExchange.sampleSnow
    (sampleMeeting (List.Vector.replicate 32 9)) OnionExchange.sampleTranscript ⟨rfl, rfl⟩
    ⟨⟨rfl, rfl⟩, rfl, rfl⟩ (sampleMeeting_ready _) Relay.bind fun _ => sampleMeeting_unseen
  refine ⟨⟨right.1.mpr ?_, right.2.1.mpr ?_⟩, wrong.1.mpr ?_, wrong.2.2.2.1.mpr ?_⟩ <;> decide

end Meeting

end Ppose

import Ppose.Session.WireLoss

/-!
# Two sessions over a hostile network

The network is in the hands of somebody else: any bytes may arrive at either session
at any time, in any order and any number of times, or not at all.  All that is
assumed is that ciphertexts are not forged: what a session opens carries a body which
its peer has sealed and put on the wire (`Unforged`).

The counters do the rest.  Each session seals under consecutive counters and uses none
of them twice, whatever fails on the way; and what a session has opened is at any time
the beginning of what its peer has sealed, in the same order, without a gap and without
a repetition (`opened_run`).
-/

namespace Ppose

open Arq (Side)

namespace UdpSession

variable (cipher : NoiseCipher)

/-- The frame which an operation opens, if it does. -/
def opens (session : UdpSession) : SessionOp → Option Bytes
  | .handleIncoming _ raw =>
      match decodeIncoming session.viaRelay raw with
      | .ok (.data, body, _) => (session.noise.openMessage cipher body).1.toOption
      | _ => none
  | _ => none

/-- The message which an operation queues, if it does. -/
def queues (session : UdpSession) : SessionOp → Option Bytes
  | .enqueue message =>
      match session.arq.enqueue message with
      | (.ok (), _) => some message
      | (.error _, _) => none
  | _ => none

/-- The message which an operation takes from the delivered ones, if it does. -/
def takes (session : UdpSession) : SessionOp → Option Bytes
  | .popDelivered => session.arq.popDelivered.1
  | _ => none

end UdpSession

/-- A session with its history. -/
structure Party where
  session : UdpSession
  /-- Every datagram which was sealed, oldest first. -/
  emissions : List Emission
  /-- Every frame which was opened, oldest first. -/
  opened : List Bytes
  /-- Every message which was queued, oldest first. -/
  enqueued : List Bytes
  /-- Every message which the application took, oldest first. -/
  popped : List Bytes

namespace Party

variable (crypto : OnionCrypto) (cipher : NoiseCipher)

def start (session : UdpSession) : Party where
  session := session
  emissions := []
  opened := []
  enqueued := []
  popped := []

def perform (party : Party) (op : SessionOp) : Party where
  session := (UdpSession.perform crypto cipher party.session op).1
  emissions := party.emissions ++ (UdpSession.perform crypto cipher party.session op).2
  opened := party.opened ++ (party.session.opens cipher op).toList
  enqueued := party.enqueued ++ (party.session.queues op).toList
  popped := party.popped ++ (party.session.takes op).toList

end Party

/-- Both sessions. -/
abbrev Talk := Side → Party

namespace Talk

variable (crypto : OnionCrypto) (cipher : NoiseCipher)

def step (talk : Talk) (event : Side × SessionOp) : Talk :=
  Function.update talk event.1 ((talk event.1).perform crypto cipher event.2)

def steps (talk : Talk) (events : List (Side × SessionOp)) : Talk :=
  events.foldl (step crypto cipher) talk

/-- What the event opens, if anything, carries a body which the peer has sent. -/
def Genuine (talk : Talk) : Side × SessionOp → Prop
  | (side, .handleIncoming env raw) =>
      (talk side).session.opens cipher (.handleIncoming env raw) = none ∨
        ∃ emission ∈ (talk side.peer).emissions, emission.sent.isOk = true ∧
          Pair.Carries (talk side).session raw emission.body
  | _ => True

instance decidableGenuine (talk : Talk) (event : Side × SessionOp) :
    Decidable (talk.Genuine cipher event) :=
  match event with
  | (side, .handleIncoming _ _) =>
      inferInstanceAs (Decidable (_ = none ∨ ∃ emission ∈ (talk side.peer).emissions, _))
  | (_, .flush _ _ _) | (_, .maybeCover _ _ _) | (_, .enqueue _) | (_, .popDelivered)
  | (_, .debugDropData _) | (_, .setRetxTimeout _) | (_, .setCover _ _)
  | (_, .setOutboundOnion _ _) => .isTrue trivial

/-- Nothing is forged in the run. -/
def Unforged (talk : Talk) : List (Side × SessionOp) → Prop
  | [] => True
  | event :: rest =>
      talk.Genuine cipher event ∧ Unforged (talk.step crypto cipher event) rest

instance decidableUnforged (talk : Talk) (events : List (Side × SessionOp)) :
    Decidable (talk.Unforged crypto cipher events) :=
  match events with
  | [] => .isTrue trivial
  | event :: rest =>
      have := decidableUnforged (talk.step crypto cipher event) rest
      inferInstanceAs (Decidable (_ ∧ _))

/-- Both handshakes are over, the keys agree, and nothing has happened since. -/
structure Fresh (talk : Talk) : Prop where
  key_eq : ∀ side, (talk side.peer).session.noise.recvKey = (talk side).session.noise.sendKey
  counter_eq : ∀ side,
    (talk side.peer).session.noise.recvCounter = (talk side).session.noise.sendCounter
  arq_eq : ∀ side, (talk side).session.arq = Arq.new
  dropData_eq : ∀ side, (talk side).session.dropData = 0
  history_eq : ∀ side, talk side = Party.start (talk side).session

end Talk

/-! ### What one operation seals and opens -/

theorem Emits.getElem? {cipher : NoiseCipher} {key : Block 32} {first final : ℕ}
    {emissions : List Emission} (emits : Emits cipher key first emissions final) {position : ℕ}
    {emission : Emission} (present : emissions[position]? = some emission) :
    emission.counter = first + position ∧ emission.Sealed cipher key := by
  induction emissions generalizing first position with
  | nil => simp at present
  | cons head rest ih =>
      rcases emits with ⟨counterEq, isSealed, restEmits⟩
      cases position with
      | zero =>
          cases present
          exact ⟨counterEq, isSealed⟩
      | succ position =>
          rcases ih restEmits present with ⟨restCounter, restSealed⟩
          exact ⟨by omega, restSealed⟩

namespace UdpSession

variable {crypto : OnionCrypto} {cipher : NoiseCipher} {session : UdpSession}

theorem opens_eq_some_iff {env : SendEnv} {raw frame : Bytes} :
    session.opens cipher (.handleIncoming env raw) = some frame ↔
      ∃ body other, decodeIncoming session.viaRelay raw = .ok (.data, body, other) ∧
        (session.noise.openMessage cipher body).1 = .ok frame := by
  simp only [opens]
  split
  · rename_i body other decoded
    simp only [decoded, Except.ok.injEq, Prod.mk.injEq, true_and]
    cases opened : (session.noise.openMessage cipher body).1 with
    | error error =>
        simp only [Except.toOption, reduceCtorEq, false_iff, not_exists]
        rintro body' other' ⟨⟨rfl, rfl⟩, opened'⟩
        rw [opened] at opened'
        cases opened'
    | ok found =>
        simp only [Except.toOption, Option.some.injEq]
        constructor
        · rintro rfl
          exact ⟨body, other, ⟨rfl, rfl⟩, opened⟩
        · rintro ⟨body', other', ⟨rfl, rfl⟩, opened'⟩
          rw [opened] at opened'
          cases opened'
          rfl
  · rename_i otherwise
    simp only [reduceCtorEq, false_iff, not_exists]
    rintro body other ⟨decoded, _⟩
    exact otherwise body other decoded

theorem unauthenticated_of_opens {env : SendEnv} {raw : Bytes}
    (closed : session.opens cipher (.handleIncoming env raw) = none) :
    session.Unauthenticated cipher raw := by
  unfold Unauthenticated
  split
  · trivial
  · rename_i packetType body other decoded
    by_cases isData : packetType = .data
    · subst isData
      right
      simp only [opens, decoded] at closed
      cases opened : (session.noise.openMessage cipher body).1 with
      | error error => exact ⟨error, rfl⟩
      | ok frame => simp [opened, Except.toOption] at closed
    · exact Or.inl isData

/-- What an operation does to the Noise state, whether it opens something or not. -/
structure Advances (cipher : NoiseCipher) (before after : Noise) (emissions : List Emission)
    (opened : Option Bytes) : Prop where
  sendKey_eq : after.sendKey = before.sendKey
  recvKey_eq : after.recvKey = before.recvKey
  recvCounter_eq : after.recvCounter = before.recvCounter + opened.toList.length
  emits : Emits cipher before.sendKey before.sendCounter emissions after.sendCounter

theorem Advances.of_seals {before after : Noise} {emissions : List Emission}
    (seals : Seals cipher before after emissions) : Advances cipher before after emissions none :=
  ⟨seals.sendKey_eq, seals.recvKey_eq, seals.recvCounter_eq, seals.emits⟩

/-- Every operation seals under the next counters and reads at most under its own next one. -/
theorem perform_advances (crypto : OnionCrypto) (cipher : NoiseCipher) (session : UdpSession)
    (op : SessionOp) :
    Advances cipher session.noise (perform crypto cipher session op).1.noise
      (perform crypto cipher session op).2 (session.opens cipher op) := by
  cases op with
  | handleIncoming env raw =>
      cases opened : session.opens cipher (.handleIncoming env raw) with
      | none =>
          have closed : session.Allowed cipher (.handleIncoming env raw) :=
            unauthenticated_of_opens opened
          exact .of_seals (perform_seals closed)
      | some frame =>
          rcases opens_eq_some_iff.mp opened with ⟨body, other, decoded, read⟩
          have seals : Seals cipher _
              (perform crypto cipher session (.handleIncoming env raw)).1.noise _ :=
            handleIncoming_seals decoded env
          rw [Noise.openMessage_of_ok read] at seals
          exact ⟨seals.sendKey_eq, seals.recvKey_eq, seals.recvCounter_eq, seals.emits⟩
  | flush newEnvs dueEnvs now => exact .of_seals (perform_seals trivial)
  | maybeCover env now random => exact .of_seals (perform_seals trivial)
  | enqueue message => exact .of_seals (perform_seals trivial)
  | popDelivered => exact .of_seals (perform_seals trivial)
  | debugDropData count => exact .of_seals (perform_seals trivial)
  | setRetxTimeout retx => exact .of_seals (perform_seals trivial)
  | setCover mode now => exact .of_seals (perform_seals trivial)
  | setOutboundOnion hops dest => exact .of_seals (perform_seals trivial)

end UdpSession

/-! ### One direction -/

/-- What the receiver has opened is the beginning of what the sender has sealed. -/
structure Party.Follows (cipher : NoiseCipher) (first : ℕ) (sender receiver : Party) : Prop where
  key_eq : receiver.session.noise.recvKey = sender.session.noise.sendKey
  emits : Emits cipher sender.session.noise.sendKey first sender.emissions
    sender.session.noise.sendCounter
  recvCounter_eq : receiver.session.noise.recvCounter = first + receiver.opened.length
  opened_eq : receiver.opened =
    (sender.emissions.take receiver.opened.length).map Emission.plaintext
  /-- Nothing which failed to leave the sender was opened. -/
  opened_sent : ∀ emission ∈ sender.emissions.take receiver.opened.length,
    emission.sent.isOk = true

namespace Party.Follows

variable {crypto : OnionCrypto} {cipher : NoiseCipher} {first : ℕ} {sender receiver : Party}

theorem length_le (follows : Follows cipher first sender receiver) :
    receiver.opened.length ≤ sender.emissions.length := by
  have lengthEq := congrArg List.length follows.opened_eq
  rw [List.length_map, List.length_take] at lengthEq
  omega

theorem perform_sender (follows : Follows cipher first sender receiver) (op : SessionOp) :
    Follows cipher first (sender.perform crypto cipher op) receiver := by
  have advances := UdpSession.perform_advances crypto cipher sender.session op
  have takeEq : (sender.emissions ++ (UdpSession.perform crypto cipher sender.session op).2).take
      receiver.opened.length = sender.emissions.take receiver.opened.length :=
    List.take_append_of_le_length follows.length_le
  constructor
  · exact follows.key_eq.trans advances.sendKey_eq.symm
  · simp only [perform, advances.sendKey_eq]
    exact follows.emits.append advances.emits
  · exact follows.recvCounter_eq
  · simp only [perform, takeEq]
    exact follows.opened_eq
  · simp only [perform, takeEq]
    exact follows.opened_sent

/-- A body which is opened was sealed under the receiving counter. -/
theorem emission_of_opened (follows : Follows cipher first sender receiver)
    (lawful : cipher.Lawful) {emission : Emission} (emissionMem : emission ∈ sender.emissions)
    {frame : Bytes}
    (read : (receiver.session.noise.openMessage cipher emission.body).1 = .ok frame) :
    sender.emissions[receiver.opened.length]? = some emission ∧ emission.plaintext = frame := by
  rcases List.mem_iff_getElem?.mp emissionMem with ⟨position, present⟩
  rcases follows.emits.getElem? present with ⟨counterEq, isSealed⟩
  have decrypted := Noise.decrypt_of_openMessage read
  have sameCounter : receiver.session.noise.recvCounter = emission.counter := by
    by_contra different
    have unreadable := lawful.decrypt_other sender.session.noise.sendKey emission.counter
      receiver.session.noise.recvCounter emission.plaintext isSealed.counter_lt decrypted.1
      different
    rw [← isSealed.body_eq, ← follows.key_eq, decrypted.2] at unreadable
    cases unreadable
  have positionEq : position = receiver.opened.length := by
    have := follows.recvCounter_eq
    omega
  have plaintextEq := lawful.decrypt_encrypt sender.session.noise.sendKey emission.counter
    emission.plaintext isSealed.counter_lt
  rw [← isSealed.body_eq, ← follows.key_eq, ← sameCounter, decrypted.2,
    Option.some.injEq] at plaintextEq
  exact ⟨positionEq ▸ present, plaintextEq.symm⟩

theorem perform_receiver (follows : Follows cipher first sender receiver) (lawful : cipher.Lawful)
    (op : SessionOp)
    (genuine : ∀ frame, receiver.session.opens cipher op = some frame →
      ∃ emission ∈ sender.emissions, emission.sent.isOk = true ∧
        (receiver.session.noise.openMessage cipher emission.body).1 = .ok frame) :
    Follows cipher first sender (receiver.perform crypto cipher op) := by
  have advances := UdpSession.perform_advances crypto cipher receiver.session op
  have keyEq := advances.recvKey_eq.trans follows.key_eq
  have counterEq := advances.recvCounter_eq
  rw [follows.recvCounter_eq] at counterEq
  cases opened : receiver.session.opens cipher op with
  | none =>
      have openedEq : (receiver.perform crypto cipher op).opened = receiver.opened := by
        simp only [perform, opened, Option.toList_none, List.append_nil]
      rw [opened] at counterEq
      refine ⟨keyEq, follows.emits, ?_, ?_, ?_⟩
      · rw [openedEq]
        exact counterEq
      · rw [openedEq]
        exact follows.opened_eq
      · rw [openedEq]
        exact follows.opened_sent
  | some frame =>
      rcases genuine frame opened with ⟨emission, emissionMem, wasSent, read⟩
      rcases follows.emission_of_opened lawful emissionMem read with ⟨present, plaintextEq⟩
      have openedEq : (receiver.perform crypto cipher op).opened = receiver.opened ++ [frame] := by
        simp only [perform, opened, Option.toList_some]
      have takeEq : sender.emissions.take (receiver.opened.length + 1) =
          sender.emissions.take receiver.opened.length ++ [emission] := by
        rw [List.take_add_one, present, Option.toList_some]
      rw [opened] at counterEq
      refine ⟨keyEq, follows.emits, ?_, ?_, ?_⟩
      · rw [openedEq, List.length_append, List.length_singleton, ← Nat.add_assoc]
        exact counterEq
      · rw [openedEq, List.length_append, List.length_singleton, takeEq, List.map_append,
          ← follows.opened_eq, List.map_singleton, plaintextEq]
      · rw [openedEq, List.length_append, List.length_singleton, takeEq]
        intro other otherMem
        rcases List.mem_append.mp otherMem with old | new
        · exact follows.opened_sent other old
        · rw [List.mem_singleton.mp new]
          exact wasSent

end Party.Follows

/-! ### Runs -/

namespace Talk

variable {crypto : OnionCrypto} {cipher : NoiseCipher} {talk : Talk}

@[simp]
theorem step_self (talk : Talk) (side : Side) (op : SessionOp) :
    talk.step crypto cipher (side, op) side = (talk side).perform crypto cipher op := by
  simp [step]

@[simp]
theorem step_peer (talk : Talk) (side : Side) (op : SessionOp) :
    talk.step crypto cipher (side, op) side.peer = talk side.peer := by
  simp [step, Side.peer_ne]

theorem steps_append (talk : Talk) (before later : List (Side × SessionOp)) :
    talk.steps crypto cipher (before ++ later) =
      (talk.steps crypto cipher before).steps crypto cipher later :=
  List.foldl_append

theorem unforged_append_iff {before later : List (Side × SessionOp)} :
    talk.Unforged crypto cipher (before ++ later) ↔ talk.Unforged crypto cipher before ∧
      (talk.steps crypto cipher before).Unforged crypto cipher later := by
  induction before generalizing talk with
  | nil => exact ⟨fun unforged => ⟨trivial, unforged⟩, And.right⟩
  | cons event rest ih => exact (and_congr_right fun _ => ih).trans and_assoc.symm

theorem Genuine.exists_emission {side : Side} {op : SessionOp}
    (genuine : talk.Genuine cipher (side, op)) {frame : Bytes}
    (opened : (talk side).session.opens cipher op = some frame) :
    ∃ emission ∈ (talk side.peer).emissions, emission.sent.isOk = true ∧
      ((talk side).session.noise.openMessage cipher emission.body).1 = .ok frame := by
  cases op with
  | handleIncoming env raw =>
      rcases genuine with closed | ⟨emission, emissionMem, wasSent, other, carried⟩
      · rw [opened] at closed
        cases closed
      · rcases UdpSession.opens_eq_some_iff.mp opened with ⟨body, other', decoded, read⟩
        rw [carried] at decoded
        cases decoded
        exact ⟨emission, emissionMem, wasSent, read⟩
  | flush newEnvs dueEnvs now => cases opened
  | maybeCover env now random => cases opened
  | enqueue message => cases opened
  | popDelivered => cases opened
  | debugDropData count => cases opened
  | setRetxTimeout retx => cases opened
  | setCover mode now => cases opened
  | setOutboundOnion hops dest => cases opened

/-- In both directions, what was opened is the beginning of what was sealed. -/
def InStep (cipher : NoiseCipher) (first : Side → ℕ) (talk : Talk) : Prop :=
  ∀ side, Party.Follows cipher (first side) (talk side) (talk side.peer)

theorem Fresh.inStep (fresh : talk.Fresh) :
    talk.InStep cipher fun side => (talk side).session.noise.sendCounter := by
  intro side
  have sent := congrArg Party.emissions (fresh.history_eq side)
  have opened := congrArg Party.opened (fresh.history_eq side.peer)
  simp only [Party.start] at sent opened
  constructor
  · exact fresh.key_eq side
  · rw [sent]
    rfl
  · rw [opened]
    exact fresh.counter_eq side
  · rw [opened]
    rfl
  · simp [sent]

theorem InStep.step {first : Side → ℕ} (inStep : talk.InStep cipher first)
    (lawful : cipher.Lawful) {event : Side × SessionOp} (genuine : talk.Genuine cipher event) :
    (talk.step crypto cipher event).InStep cipher first := by
  rcases event with ⟨side, op⟩
  intro target
  rcases side.eq_or_eq_peer target with rfl | rfl
  · rw [step_self, step_peer]
    exact (inStep target).perform_sender op
  · rw [step_peer, Side.peer_peer, step_self]
    have reversed := inStep side.peer
    rw [Side.peer_peer] at reversed
    exact reversed.perform_receiver lawful op fun frame opened => genuine.exists_emission opened

theorem InStep.steps {first : Side → ℕ} (inStep : talk.InStep cipher first)
    (lawful : cipher.Lawful) {events : List (Side × SessionOp)}
    (unforged : talk.Unforged crypto cipher events) :
    (talk.steps crypto cipher events).InStep cipher first := by
  induction events generalizing talk with
  | nil => exact inStep
  | cons event rest ih => exact ih (inStep.step lawful unforged.1) unforged.2

/--
In every run over a network which does with datagrams what it likes but forges none,
each session has sealed under consecutive counters, and what its peer has opened are
the first of the sealed frames, in order, all of which were sent.
-/
theorem opened_run (crypto : OnionCrypto) {cipher : NoiseCipher} (lawful : cipher.Lawful)
    {talk : Talk} (fresh : talk.Fresh) (events : List (Side × SessionOp))
    (unforged : talk.Unforged crypto cipher events) (side : Side) :
    ((talk.steps crypto cipher events side).emissions.map Emission.counter =
      List.range' (talk side).session.noise.sendCounter
        (talk.steps crypto cipher events side).emissions.length) ∧
    ∃ count ≤ (talk.steps crypto cipher events side).emissions.length,
      (talk.steps crypto cipher events side.peer).opened =
        ((talk.steps crypto cipher events side).emissions.take count).map Emission.plaintext ∧
      ∀ emission ∈ (talk.steps crypto cipher events side).emissions.take count,
        emission.sent.isOk = true := by
  have follows := fresh.inStep.steps lawful unforged side
  refine ⟨?_, _, follows.length_le, follows.opened_eq, follows.opened_sent⟩
  apply List.ext_getElem?
  intro position
  by_cases inside : position < (talk.steps crypto cipher events side).emissions.length
  · have present := List.getElem?_eq_getElem inside
    rw [List.getElem?_map, present, List.getElem?_range' inside]
    simp only [Option.map_some, (follows.emits.getElem? present).1, Nat.one_mul]
  · simp [not_lt.mp inside]

def sampleTalk : Talk := fun side => Party.start (Pair.samplePair.session side)

theorem sampleTalk_fresh : sampleTalk.Fresh where
  key_eq := by
    intro side
    cases side <;> rfl
  counter_eq := by
    intro side
    cases side <;> rfl
  arq_eq := by
    intro side
    cases side <;> rfl
  dropData_eq := by
    intro side
    cases side <;> rfl
  history_eq := by
    intro side
    rfl

/-- A datagram as it left a party, by its place among those which were sealed. -/
def wireAt (party : Party) (index : ℕ) : Bytes :=
  match party.emissions[index]? with
  | some { sent := .ok (_, wire), .. } => wire
  | _ => []

def sampleSend (message : Bytes) : List (Side × SessionOp) :=
  [(.left, .enqueue message),
    (.left, .flush (fun _ => UdpSession.sampleEnv) (fun _ => UdpSession.sampleEnv) 0)]

/-- A datagram arrives twice, with bytes in between which nobody sealed. -/
def replayed : List (Side × SessionOp) :=
  let wire := wireAt (sampleTalk.steps Onion.sampleCrypto tagCipher (sampleSend [7]) .left) 0
  sampleSend [7] ++
    [(.right, .handleIncoming UdpSession.sampleEnv wire),
      (.right, .handleIncoming UdpSession.sampleEnv [1, 2, 3]),
      (.right, .handleIncoming UdpSession.sampleEnv wire)]

theorem opened_run_replayed :
    (sampleTalk.steps Onion.sampleCrypto tagCipher replayed .right).opened =
      [encodeData 0 1 0 1 [7]] ∧
    ∃ count ≤ (sampleTalk.steps Onion.sampleCrypto tagCipher replayed .left).emissions.length,
      (sampleTalk.steps Onion.sampleCrypto tagCipher replayed .right).opened =
        ((sampleTalk.steps Onion.sampleCrypto tagCipher replayed .left).emissions.take count).map
          Emission.plaintext := by
  have unforged : sampleTalk.Unforged Onion.sampleCrypto tagCipher replayed := by decide +kernel
  rcases (opened_run Onion.sampleCrypto tagCipher_lawful sampleTalk_fresh replayed unforged
    .left).2 with ⟨count, countLe, openedEq, _⟩
  exact ⟨by decide +kernel, count, countLe, openedEq⟩

end Talk

end Ppose
